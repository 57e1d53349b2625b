import Teleproxy.RpcKeys
import Teleproxy.RpcDelivery

/-!
# The handshake of an RPC connection

A client of the RPC transport sends a nonce, the server answers with its own, both make
keys, and the rest is encrypted. Then each side sends a handshake packet that names the
processes and says whether it can use CRC32-C. The functions are those of
`net-tcp-rpc-client.c` and `net-tcp-rpc-server.c`, with the loops that call them.

The client puts its packets into the queue, and they get their number and checksum when
the writer runs. The server sends its nonce past `c->out` to the socket and its handshake
packet past the queue into `c->out`, so these get them at once.

Digests, checksums, the block cipher and the Diffie-Hellman exchange are parameters, and
what the system gives (time, random bytes, whether one more exchange is allowed) comes
with each call. `sent` and `checked` are a record of the packets that a side numbered and
of those whose checksum it compared; nothing reads them. `D->flags` stays 0 here.
-/
namespace Teleproxy.RpcHandshake
open ClientInput (Bytes)
open PacketParser (lookup4 store4)
open Obfs2Header (store2 lookup2)
open RpcKeys
open RpcTransport (Side Config Sender Receiver writerRun receive)
open RpcDelivery (packetBytes)
open BlockCipher (Cipher)

def rpcfAllowUnenc : BitVec 32 := 1#32
def rpcfAllowEnc : BitVec 32 := 2#32
def rpcfReqDh : BitVec 32 := 4#32
def rpcfAllowSkipDh : BitVec 32 := 8#32
def rpcfEncSent : BitVec 32 := 16#32
def rpcfSeqnoHoles : BitVec 32 := 256#32
def rpcfQuickack : BitVec 32 := 512#32
def rpcfUseCrc32c : BitVec 32 := 2048#32

/-- The flags that `rpc_check_perm` may give to a connection. -/
def permFlags : BitVec 32 := rpcfAllowUnenc ||| rpcfAllowEnc ||| rpcfReqDh ||| rpcfAllowSkipDh

def rpcNonce : BitVec 32 := 0x7acb87aa#32
def rpcHandshake : BitVec 32 := 0x7682eef5#32
def rpcHandshakeError : BitVec 32 := 0x6a27beda#32
def rpcPing : BitVec 32 := 0x5730a2df#32
def rpcPong : BitVec 32 := 0x8430eaa7#32

inductive CryptoSchema where
  | none | aes | aesExt | aesDh
  deriving DecidableEq, Repr

def CryptoSchema.code : CryptoSchema → BitVec 32
  | .none => 0#32
  | .aes => 1#32
  | .aesExt => 2#32
  | .aesDh => 3#32

def rpcMaxExtraKeys : ℕ := 8

/-- `RPC_PARAM_HASH`, the value of `dh_params_select` behind `init_dh_params`. -/
def dhParamsSelect : BitVec 32 := 0x00620b93#32

/-- The values of `custom_crc_partial`. -/
inductive Crc where
  | crc32 | crc32c
  deriving DecidableEq, Repr

/-- The libraries. `power a` is what a side with the exponent `a` sends, and `shared g a`
what it makes of the other side's value. -/
structure Primitives (σ : Type*) where
  digests : Digests
  crc : Crc → Bytes → BitVec 32
  cipher : Cipher UInt8 σ
  size_eq : cipher.size = 16
  /-- `evp_cipher_ctx_init`, from a key and a vector. -/
  start : Bytes → Bytes → σ
  isGood : Bytes → Bool
  power : Bytes → Bytes
  shared : Bytes → Bytes → Bytes
  length_power : ∀ a, (power a).length = 256
  shared_comm : ∀ a b, shared (power a) b = shared (power b) a

/-- `struct process_id`. -/
structure ProcessId where
  ip : BitVec 32
  port : BitVec 16
  pid : BitVec 16
  utime : BitVec 32
  deriving DecidableEq, Repr

def ProcessId.bytes (p : ProcessId) : Bytes :=
  store4 p.ip++store2 (p.port.setWidth 32)++store2 (p.pid.setWidth 32)++store4 p.utime

def ProcessId.ofBytes (bs : Bytes) : ProcessId :=
  ⟨lookup4 bs,lookup2 (bs.drop 4),lookup2 (bs.drop 6),lookup4 (bs.drop 8)⟩

def matchesPid (x y : ProcessId) : Bool :=
  x = y ∨ ((y.ip = 0#32 ∨ x.ip = y.ip) ∧ (y.port = 0#16 ∨ x.port = y.port) ∧
    (y.pid = 0#16 ∨ x.pid = y.pid) ∧ (y.utime = 0#32 ∨ x.utime = y.utime))

/-- What does not change in a process: its settings, and the addresses of the connection. -/
structure Node where
  defaultRpcFlags : BitVec 32
  /-- The first `secret_len` bytes of `main_secret`. -/
  mainSecret : Bytes
  natInfo : List (BitVec 32 × BitVec 32)
  ourIp : BitVec 32
  ourPort : BitVec 32
  ourIpv6 : Bytes
  remoteIp : BitVec 32
  remotePort : BitVec 32
  remoteIpv6 : Bytes
  maxPacketLen : ℤ
  /-- `TCP_RPC_IGNORE_PID` of the mode flags. -/
  ignorePid : Bool
  getpid : BitVec 16
  getMyIpv4 : BitVec 32

def natTranslateIp (n : Node) (localIp : BitVec 32) : BitVec 32 :=
  match n.natInfo.find? fun rule => rule.1 = localIp with
  | some rule => rule.2
  | none => localIp

def Node.ourAddress (n : Node) : Address := ⟨natTranslateIp n n.ourIp,n.ourPort,n.ourIpv6⟩

def Node.remoteAddress (n : Node) : Address :=
  ⟨natTranslateIp n n.remoteIp,n.remotePort,n.remoteIpv6⟩

/-- What the system gives during one call. -/
structure Env where
  now : BitVec 32
  nonce : Nonce
  /-- The exponent on which the loop of `create_g_a` ends. -/
  exponent : Bytes
  /-- `tcp_add_dh_accept`. -/
  dhAccept : Bool

/-- Why a connection was failed, with the code given to `fail_connection`. -/
inductive Failure where
  | length (code : ℤ)
  | checksum (code : ℤ)
  | number (code : ℤ)
  /-- By one of the functions of the handshake. -/
  | refused (code : ℤ)
  | assertion
  /-- From outside: a time limit, or an error of the socket. -/
  | aborted
  deriving DecidableEq, Repr

/-- A packet with its number and the function that its checksum was made with. -/
structure Packet where
  crc : Crc
  num : BitVec 32
  payload : Bytes
  deriving DecidableEq, Repr

structure Endpoint (σ : Type*) where
  cryptoFlags : BitVec 32
  inPacketNum : BitVec 32 := -2#32
  outPacketNum : BitVec 32 := -2#32
  customCrcPartial : Crc := .crc32
  nonce : Nonce
  nonceTime : BitVec 32
  /-- The exponent of the client in `c->crypto_temp`. -/
  cryptoTemp : Option Bytes := none
  /-- What `c->crypto` was made of. -/
  keys : Option AesKeyData := none
  writeAeskey : Option σ := none
  readAeskey : Option σ := none
  pid : ProcessId
  remotePid : ProcessId := ⟨0,0,0,0⟩
  outQueue : List Bytes := []
  out : Bytes := []
  /-- What was given to the socket and not read by the other side. -/
  socket : Bytes := []
  inU : Bytes := []
  inBuf : Bytes := []
  skipBytes : ℕ := 0
  /-- The connection was reported as ready. -/
  ready : Bool := false
  error : Option Failure := none
  sent : List Packet := []
  checked : List Packet := []

variable {σ : Type*} (P : Primitives σ) (n : Node)

def Endpoint.fail (e : Endpoint σ) (f : Failure) : Endpoint σ := {e with error := some f}

def Endpoint.hasFlag (e : Endpoint σ) (flag : BitVec 32) : Bool := e.cryptoFlags &&& flag ≠ 0#32

/-- The record of a packet that gets its number now. -/
def Endpoint.stamped (e : Endpoint σ) (raw : Bytes) : Endpoint σ :=
  {e with outPacketNum := e.outPacketNum+1#32,
          sent := e.sent++[⟨e.customCrcPartial,e.outPacketNum,raw⟩]}

def Endpoint.frame (e : Endpoint σ) (raw : Bytes) : Bytes :=
  packetBytes (P.crc e.customCrcPartial) e.outPacketNum raw

def tcpRpcConnSendInit (e : Endpoint σ) (raw : Bytes) : Endpoint σ :=
  {e.stamped raw with socket := e.socket++e.frame P raw}

def tcpRpcConnSendIm (e : Endpoint σ) (raw : Bytes) : Endpoint σ :=
  {e.stamped raw with out := e.out++e.frame P raw}

def tcpRpcConnSend (e : Endpoint σ) (raw : Bytes) : Endpoint σ :=
  {e with outQueue := e.outQueue++[raw]}

/-- The records of the packets of a queue. -/
def stamps (crc : Crc) : BitVec 32 → List Bytes → List Packet
  | _, [] => []
  | num, raw::queue => ⟨crc,num,raw⟩::stamps crc (num+1#32) queue

def Endpoint.sender (e : Endpoint σ) : Sender σ :=
  {conn := {flags := 0#32, outPacketNum := e.outPacketNum,
            customCrcPartial := P.crc e.customCrcPartial, out := e.out},
   crypto := e.writeAeskey, wire := e.socket}

/-- `cpu_tcp_server_writer`. It runs also behind a reader that failed. -/
def cpuTcpServerWriter (e : Endpoint σ) : Endpoint σ :=
  match writerRun P.cipher (e.sender P) e.outQueue with
  | none => e.fail .assertion
  | some s =>
      {e with outPacketNum := s.conn.outPacketNum, out := s.conn.out, socket := s.wire,
              writeAeskey := s.crypto, outQueue := [],
              sent := e.sent++stamps e.customCrcPartial e.outPacketNum e.outQueue}

def keySignature (secret : Bytes) : BitVec 32 := lookup4 secret

def selectBestKeySignature (secret : Bytes) (key : BitVec 32) (extra : List (BitVec 32)) :
    BitVec 32 :=
  if secret.length < 4 then 0#32
  else if keySignature secret = key ∨ keySignature secret ∈ extra then keySignature secret
  else 0#32

def noncePacket (keySelect : BitVec 32) (schema : CryptoSchema) (ts : BitVec 32) (nonce : Nonce) :
    Bytes :=
  store4 rpcNonce++store4 keySelect++store4 schema.code++store4 ts++nonce.1

def nonceDhPacket (keySelect ts : BitVec 32) (nonce : Nonce) (gA : Bytes) : Bytes :=
  noncePacket keySelect .aesDh ts nonce++store4 0#32++store4 dhParamsSelect++gA

def nonceKeySelect (msg : Bytes) : BitVec 32 := lookup4 (msg.drop 4)
def nonceTs (msg : Bytes) : BitVec 32 := lookup4 (msg.drop 12)

def nonceOf (msg : Bytes) : Nonce :=
  ⟨(msg.drop 16++List.replicate 16 0).take 16,by simp⟩

def extraKeysCount (msg : Bytes) : BitVec 32 := lookup4 (msg.drop 32)

def extraKeySelect (msg : Bytes) : List (BitVec 32) :=
  (List.range (extraKeysCount msg).toNat).map fun i => lookup4 (msg.drop (36+4*i))

def nonceDhParams (msg : Bytes) : BitVec 32 := lookup4 (msg.drop (36+4*(extraKeysCount msg).toNat))

def nonceGa (msg : Bytes) : Bytes := (msg.drop (40+4*(extraKeysCount msg).toNat)).take 256

/-- A packet with room for extra keys, `size` bytes long without them. -/
def extraKeysOk (msg : Bytes) (size : ℕ) : Bool :=
  size ≤ msg.length ∧ 0 ≤ (extraKeysCount msg).toInt ∧
    (extraKeysCount msg).toInt ≤ rpcMaxExtraKeys ∧
    (msg.length : ℤ) = size+4*(extraKeysCount msg).toInt

/-- The tests of a nonce packet that the two sides have in common, up to the first `switch`. -/
def nonceSchema (msg : Bytes) : Option CryptoSchema :=
  if msg.length < 32 ∨ 296+4*rpcMaxExtraKeys < msg.length then none
  else
    let schema := lookup4 (msg.drop 8)
    if schema = CryptoSchema.none.code then if msg.length = 32 then some .none else none
    else if schema = CryptoSchema.aes.code then if msg.length = 32 then some .aes else none
    else if schema = CryptoSchema.aesExt.code then
      if extraKeysOk msg 36 then some .aesExt else none
    else if schema = CryptoSchema.aesDh.code then
      if extraKeysOk msg 296 then some .aesDh else none
    else none

/-- The `key_select` behind the case for extra keys. -/
def bestKey (schema : CryptoSchema) (msg : Bytes) : BitVec 32 :=
  if schema = .aes then nonceKeySelect msg
  else selectBestKeySignature n.mainSecret (nonceKeySelect msg) (extraKeySelect msg)

def keyUsable (key : BitVec 32) : Bool :=
  key ≠ 0#32 ∧ selectBestKeySignature n.mainSecret key [] ≠ 0#32

/-- `abs (a - b) > 30`; `abs` of the smallest `int` is negative. -/
def clocksApart (a b : BitVec 32) : Bool := 30 < (a-b).abs.toInt

/-- A negative result becomes another code on its way out. -/
def recode {α : Type*} (code : ℤ) : Except Failure α → Except Failure α
  | .error (.refused _) => .error (.refused code)
  | r => r

def tcpRpcsInitFakeCrypto (e : Endpoint σ) : Except Failure (Endpoint σ) :=
  if e.hasFlag rpcfAllowUnenc = false then .error (.refused (-1))
  else if e.cryptoFlags &&& (rpcfAllowEnc ||| rpcfEncSent) ≠ 0#32 then .error .assertion
  else .ok (tcpRpcConnSendInit P {e with cryptoFlags := e.cryptoFlags ||| rpcfEncSent}
    (noncePacket 0#32 .none 0#32 ⟨List.replicate 16 0,rfl⟩))

/-- The packet that the server answers with. -/
def serverNonce (ts : BitVec 32) (nonce : Nonce) : Option Bytes → Bytes
  | none => noncePacket (keySignature n.mainSecret) .aes ts nonce
  | some gA => nonceDhPacket (keySignature n.mainSecret) ts nonce gA

/-- The second half of `tcp_rpcs_init_crypto`, with the value that goes into a DH packet. -/
def tcpRpcsMakeKeys (env : Env) (e : Endpoint σ) (msg tempDh : Bytes) (newDh : Option Bytes) :
    Except Failure (Endpoint σ) :=
  match aesCreateKeys P.digests false
      {nonceServer := env.nonce, nonceClient := nonceOf msg, clientTimestamp := nonceTs msg,
       server := n.ourAddress, client := n.remoteAddress, secret := n.mainSecret,
       tempKey := tempDh} with
  | none => .error (.refused (-1))
  | some keys =>
      if e.cryptoFlags &&& (rpcfAllowEnc ||| rpcfEncSent) ≠ rpcfAllowEnc then .error .assertion
      else
        .ok (tcpRpcConnSendInit P
          {e with nonce := env.nonce, keys := some keys,
                  writeAeskey := some (P.start keys.writeKey keys.writeIv),
                  readAeskey := some (P.start keys.readKey keys.readIv),
                  cryptoFlags := e.cryptoFlags ||| rpcfEncSent}
          (serverNonce n e.nonceTime env.nonce newDh))

def tcpRpcsInitCrypto (env : Env) (e : Endpoint σ) (schema : CryptoSchema) (key : BitVec 32)
    (msg : Bytes) : Except Failure (Endpoint σ) :=
  if e.readAeskey.isSome then .error (.refused (-1))
  else if e.cryptoFlags &&& (rpcfAllowEnc ||| rpcfAllowUnenc) = rpcfAllowUnenc then
    tcpRpcsInitFakeCrypto P e
  else if e.cryptoFlags &&& (rpcfAllowEnc ||| rpcfAllowUnenc) ≠ rpcfAllowEnc then
    .error (.refused (-1))
  else if keySignature n.mainSecret ≠ key then .error (.refused (-1))
  else if e.hasFlag rpcfReqDh then
    if schema ≠ .aesDh then .error (.refused (-1))
    else if nonceDhParams msg ≠ dhParamsSelect ∨ dhParamsSelect = 0#32 then .error (.refused (-1))
    else if env.dhAccept = false then .error (.refused (-1))
    else if P.isGood (nonceGa msg) = false then .error .assertion
    else tcpRpcsMakeKeys P n env e msg (P.shared (nonceGa msg) env.exponent)
      (some (P.power env.exponent))
  else tcpRpcsMakeKeys P n env e msg [] none

/-- Where the server cannot encrypt it goes on without, if it may. -/
def tcpRpcsUnencrypted (e : Endpoint σ) (code : ℤ) (key : BitVec 32) (dh : Bool) :
    Except Failure (Endpoint σ × BitVec 32 × Bool) :=
  if e.hasFlag rpcfAllowUnenc then .ok ({e with cryptoFlags := rpcfAllowUnenc},key,dh)
  else .error (.refused code)

/-- The second `switch` of the server: the flags, the time and the key that are left, and
whether the packet has a DH part that can be used. -/
def tcpRpcsSelectCrypto (env : Env) (e : Endpoint σ) (schema : CryptoSchema) (msg : Bytes) :
    Except Failure (Endpoint σ × BitVec 32 × Bool) :=
  if schema = .none then
    if nonceKeySelect msg ≠ 0#32 then .error (.refused (-3))
    else tcpRpcsUnencrypted e (-5) (nonceKeySelect msg) false
  else
    let dh : Bool := schema = .aesDh ∧ nonceDhParams msg ≠ 0#32 ∧ nonceDhParams msg = dhParamsSelect
    let key := bestKey n schema msg
    if keyUsable n key = false then tcpRpcsUnencrypted e (-3) key dh
    else if e.hasFlag rpcfAllowEnc = false then tcpRpcsUnencrypted e (-5) key dh
    else if clocksApart (nonceTs msg) env.now then .error (.refused (-6))
    else .ok ({e with nonceTime := env.now, cryptoFlags := e.cryptoFlags &&& ~~~rpcfAllowUnenc},
      key,dh)

def tcpRpcsProcessNoncePacket (env : Env) (e : Endpoint σ) (msg : Bytes) :
    Except Failure (Endpoint σ) :=
  if e.inPacketNum ≠ -2#32 ∨ lookup4 msg ≠ rpcNonce then .error (.refused (-2))
  else match nonceSchema msg with
    | none => .error (.refused (-3))
    | some schema =>
        match tcpRpcsSelectCrypto n env e schema msg with
        | .error f => .error f
        | .ok (e,key,dh) =>
            if e.cryptoFlags &&& (rpcfReqDh ||| rpcfAllowEnc) = rpcfReqDh ||| rpcfAllowEnc ∧
                dh = false then
              if e.hasFlag rpcfAllowSkipDh then
                recode (-6) (tcpRpcsInitCrypto P n env
                  {e with cryptoFlags := e.cryptoFlags &&& ~~~(rpcfReqDh ||| rpcfAllowSkipDh)}
                  schema key msg)
              else .error (.refused (-7))
            else recode (-6) (tcpRpcsInitCrypto P n env e schema key msg)

/-- `init_server_PID`, and the address of the machine when it gives none. -/
def initServerPid (env : Env) (e : Endpoint σ) : Endpoint σ :=
  if e.pid.ip ≠ 0#32 then e
  else
    let ip := if n.ourIp ≠ 0#32 ∧ n.ourIp ≠ 0x7f000001#32 then n.ourIp else n.getMyIpv4
    {e with pid :=
      {ip, port := if e.pid.port = 0#16 then n.ourPort.setWidth 16 else e.pid.port,
       pid := if e.pid.pid = 0#16 then n.getpid else e.pid.pid,
       utime := if e.pid.utime = 0#32 then env.now else e.pid.utime}}

def handshakePacket (flags : BitVec 32) (sender peer : ProcessId) : Bytes :=
  store4 rpcHandshake++store4 flags++sender.bytes++peer.bytes

def handshakeErrorPacket (code : ℤ) (sender : ProcessId) : Bytes :=
  store4 rpcHandshakeError++store4 (.ofInt 32 code)++sender.bytes

/-- An error packet is queued and the connection failed. -/
def Endpoint.refuse (e : Endpoint σ) (code : ℤ) : Endpoint σ :=
  (tcpRpcConnSend e (handshakeErrorPacket code e.pid)).fail (.refused code)

/-- `tcp_rpcs_process_handshake_packet`. -/
def tcpRpcsProcessHandshakePacket (env : Env) (e : Endpoint σ) (msg : Bytes) : Endpoint σ :=
  let e := initServerPid n env e
  if e.inPacketNum ≠ -1#32 ∨ lookup4 msg ≠ rpcHandshake then e.fail (.refused (-2))
  else if msg.length ≠ 32 then e.refuse (-3)
  else
    let e := {e with remotePid := .ofBytes (msg.drop 8)}
    let flags := lookup4 (msg.drop 4)
    if matchesPid e.pid (.ofBytes (msg.drop 20)) = false ∧ n.ignorePid = false then e.refuse (-4)
    else if flags &&& 0xff#32 ≠ 0#32 then e.refuse (-7)
    else if flags &&& n.defaultRpcFlags &&& rpcfUseCrc32c ≠ 0#32 then
      {e with cryptoFlags := e.cryptoFlags ||| rpcfUseCrc32c}
    else e

def tcpRpcsSendHandshakePacket (e : Endpoint σ) : Endpoint σ :=
  if e.pid.ip = 0#32 then e.fail .assertion
  else tcpRpcConnSendIm P e
    (handshakePacket (e.cryptoFlags &&& rpcfUseCrc32c) e.pid e.remotePid)

/-- `tcp_rpc_default_execute` and `tcp_rpcs_default_execute` answer a ping; what else the
`execute` of a connection sends is an event of its own. -/
def tcpRpcDefaultExecute (e : Endpoint σ) (msg : Bytes) : Endpoint σ :=
  if lookup4 msg = rpcPing ∧ msg.length = 12 then
    tcpRpcConnSend e (store4 rpcPong++msg.drop 4)
  else e

/-- A packet of the server with the right number. -/
def tcpRpcsTake (env : Env) (e : Endpoint σ) (num : BitVec 32) (msg : Bytes) : Endpoint σ :=
  let e :=
    if num.toInt < 0 then
      if num = -2#32 then
        match tcpRpcsProcessNoncePacket P n env e msg with
        | .error f => e.fail f
        | .ok e => e
      else if num = -1#32 then
        let e := tcpRpcsProcessHandshakePacket n env e msg
        if e.error.isSome then e
        else
          let e := tcpRpcsSendHandshakePacket P e
          if e.error.isSome then e
          else if e.hasFlag rpcfUseCrc32c then {e with customCrcPartial := .crc32c, ready := true}
          else {e with ready := true}
      else e.fail (.refused (-1))
    else tcpRpcDefaultExecute e msg
  if e.error.isSome then e else {e with inPacketNum := e.inPacketNum+1#32}

/-- `tcp_rpcc_start_crypto`. -/
def tcpRpccStartCrypto (e : Endpoint σ) (nonce : Nonce) (key : BitVec 32) (tempDh : Bytes) :
    Except Failure (Endpoint σ) :=
  if e.readAeskey.isSome then .error (.refused (-1))
  else if e.inBuf ≠ [] ∨ e.out ≠ [] ∨ e.nonceTime = 0#32 then .error (.refused (-1))
  else if key = 0#32 then .error (.refused (-1))
  else match aesCreateKeys P.digests true
      {nonceServer := nonce, nonceClient := e.nonce, clientTimestamp := e.nonceTime,
       server := n.remoteAddress, client := n.ourAddress, secret := n.mainSecret,
       tempKey := tempDh} with
    | none => .error (.refused (-1))
    | some keys =>
        .ok {e with keys := some keys, writeAeskey := some (P.start keys.writeKey keys.writeIv),
                    readAeskey := some (P.start keys.readKey keys.readIv)}

/-- `tcp_rpcc_process_nonce_packet`; the number was advanced before. -/
def tcpRpccProcessNoncePacket (e : Endpoint σ) (msg : Bytes) : Except Failure (Endpoint σ) :=
  if e.inPacketNum-1#32 ≠ -2#32 ∨ lookup4 msg ≠ rpcNonce then .error (.refused (-2))
  else match nonceSchema msg with
    | none => .error (.refused (-3))
    | some .none =>
        if nonceKeySelect msg ≠ 0#32 then .error (.refused (-3))
        else if e.hasFlag rpcfAllowUnenc then .ok {e with cryptoFlags := rpcfAllowUnenc}
        else .error (.refused (-5))
    | some schema =>
        let key := bestKey n schema msg
        if schema = .aesDh ∧
            (nonceDhParams msg = 0#32 ∨ nonceDhParams msg ≠ dhParamsSelect) then
          .error (.refused (-7))
        else if schema = .aesDh ∧ (e.hasFlag rpcfReqDh = false ∨ e.cryptoTemp = none) then
          .error (.refused (-7))
        else if keyUsable n key = false then .error (.refused (-3))
        else if e.hasFlag rpcfAllowEnc = false then .error (.refused (-5))
        else if clocksApart (nonceTs msg) e.nonceTime then .error (.refused (-6))
        else if e.cryptoFlags &&& (rpcfReqDh ||| rpcfAllowSkipDh) = rpcfReqDh ∧
            schema ≠ .aesDh then
          .error (.refused (-7))
        else if schema = .aesDh ∧ P.isGood (nonceGa msg) = false then .error (.refused (-8))
        else
          let tempDh := match schema, e.cryptoTemp with
            | .aesDh, some a => P.shared (nonceGa msg) a
            | _, _ => []
          recode (-6) (tcpRpccStartCrypto P n {e with cryptoTemp := none} (nonceOf msg) key tempDh)

/-- `init_client_PID`. -/
def initClientPid (env : Env) (e : Endpoint σ) : Endpoint σ :=
  {e with pid :=
    {e.pid with
      ip := if n.ourIp ≠ 0#32 ∧ n.ourIp ≠ 0x7f000001#32 then n.ourIp else e.pid.ip,
      pid := if e.pid.pid = 0#16 then n.getpid else e.pid.pid,
      utime := if e.pid.utime = 0#32 then env.now else e.pid.utime}}

def tcpRpccSendHandshakePacket (env : Env) (e : Endpoint σ) : Endpoint σ :=
  let e := if e.pid.ip = 0#32 then initClientPid n env e else e
  let e :=
    if e.remotePid.port = 0#16 then
      {e with remotePid := {e.remotePid with
        ip := if n.remoteIp = 0x7f000001#32 then 0#32 else n.remoteIp,
        port := n.remotePort.setWidth 16}}
    else e
  tcpRpcConnSend e (handshakePacket (n.defaultRpcFlags &&& rpcfUseCrc32c) e.pid e.remotePid)

/-- `tcp_rpcc_send_handshake_error_packet`, and the connection is failed. -/
def tcpRpccRefuse (env : Env) (e : Endpoint σ) (code : ℤ) : Endpoint σ :=
  (if e.pid.pid = 0#16 then initClientPid n env e else e).refuse code

def tcpRpccProcessHandshakePacket (env : Env) (e : Endpoint σ) (msg : Bytes) : Endpoint σ :=
  if e.inPacketNum-1#32 ≠ -1#32 ∨ lookup4 msg ≠ rpcHandshake then e.fail (.refused (-2))
  else if msg.length ≠ 32 then tcpRpccRefuse n env e (-3)
  else
    let sender := ProcessId.ofBytes (msg.drop 8)
    let flags := lookup4 (msg.drop 4)
    if matchesPid sender e.remotePid = false ∧ n.ignorePid = false then
      tcpRpccRefuse n env e (-6)
    else
      let e := {e with remotePid :=
        {sender with ip := if sender.ip = 0#32 then e.remotePid.ip else sender.ip}}
      if matchesPid e.pid (.ofBytes (msg.drop 20)) = false then tcpRpccRefuse n env e (-4)
      else if flags &&& 0xff#32 ≠ 0#32 then tcpRpccRefuse n env e (-7)
      else if flags &&& rpcfUseCrc32c = 0#32 then e
      else if n.defaultRpcFlags &&& rpcfUseCrc32c = 0#32 then tcpRpccRefuse n env e (-8)
      else {e with cryptoFlags := e.cryptoFlags ||| rpcfUseCrc32c, customCrcPartial := .crc32c}

/-- A packet of the client with the right number. -/
def tcpRpccTake (env : Env) (e : Endpoint σ) (num : BitVec 32) (msg : Bytes) : Endpoint σ :=
  let e := {e with inPacketNum := e.inPacketNum+1#32}
  if num.toInt < 0 then
    if num = -2#32 then
      match tcpRpccProcessNoncePacket P n e msg with
      | .error f => e.fail f
      | .ok e => tcpRpccSendHandshakePacket n env e
    else if num = -1#32 then
      let e := tcpRpccProcessHandshakePacket n env e msg
      if e.error.isSome then e else {e with ready := true}
    else e.fail (.refused (-5))
  else tcpRpcDefaultExecute e msg

/-- What a loop makes of the length in front of it. -/
inductive Head where
  | need (bytes : ℕ)
  | bad
  | short
  | word
  | packet (packetLen : ℕ)
  deriving DecidableEq, Repr

def packetHead (buf : Bytes) (packetLen : BitVec 32) : Head :=
  if packetLen = 4#32 then .word
  else if packetLen.toInt < 16 then .short
  else if buf.length < packetLen.toNat then .need (packetLen.toNat-buf.length)
  else .packet packetLen.toNat

/-- The length as `tcp_rpcs_parse_execute` and `tcp_rpcc_parse_execute` look at it. -/
def head (side : Side) (maxPacketLen : ℤ) (buf : Bytes) : Head :=
  if buf.length < 4 then .need (4-buf.length)
  else match side with
    | .client =>
        let packetLen := lookup4 buf
        if packetLen.toInt ≤ 0 ∨ packetLen &&& 3#32 ≠ 0#32 ∨
            (maxPacketLen < packetLen.toInt ∧ 0 < maxPacketLen) then .bad
        else packetHead buf packetLen
    | .server quickack _ =>
        let packetLen := if quickack then lookup4 buf &&& 0x7fffffff#32 else lookup4 buf
        if packetLen.toInt ≤ 0 ∨ packetLen &&& 0xc0000003#32 ≠ 0#32 then .bad
        else if maxPacketLen < packetLen.toInt ∧ 0 < maxPacketLen then .bad
        else packetHead buf packetLen

/-- The codes of `fail_connection` in a loop. -/
structure Codes where
  bad : ℤ
  short : ℤ
  checksum : ℤ
  number : ℤ

/-- The record of a packet that is checked now. -/
def Endpoint.noted (e : Endpoint σ) (expected : BitVec 32) (msg rest : Bytes) : Endpoint σ :=
  {e with inBuf := rest, checked := e.checked++[⟨e.customCrcPartial,expected,msg⟩]}

/-- One turn of a loop, with the side's own way to take a packet whose number is right. -/
def turn (side : Side) (codes : Codes) (take : Endpoint σ → BitVec 32 → Bytes → Endpoint σ)
    (e : Endpoint σ) : Endpoint σ :=
  match head side n.maxPacketLen e.inBuf with
  | .need bytes =>
      {e with skipBytes := bytes+(if e.readAeskey.isSome then e.inBuf.length else e.inU.length)}
  | .bad => e.fail (.length codes.bad)
  | .short => e.fail (.length codes.short)
  | .word => {e with inBuf := e.inBuf.drop 4}
  | .packet packetLen =>
      let msg := e.inBuf.take (packetLen-4)
      let crc32 := lookup4 ((e.inBuf.take packetLen).drop (packetLen-4))
      let num := lookup4 (msg.drop 4)
      let expected := if side ≠ .client ∧ e.inPacketNum = -3#32 then 0#32 else e.inPacketNum
      let holes := match side with
        | .server _ seqnoHoles => seqnoHoles
        | .client => false
      let e := e.noted expected (msg.drop 8) (e.inBuf.drop packetLen)
      if crc32 ≠ P.crc e.customCrcPartial msg then e.fail (.checksum codes.checksum)
      else if holes = false ∧ num ≠ expected then e.fail (.number codes.number)
      else take {e with inPacketNum := expected} num (msg.drop 8)

def Endpoint.serverSide (e : Endpoint σ) : Side :=
  .server (e.hasFlag rpcfQuickack) (e.hasFlag rpcfSeqnoHoles)

def tcpRpcsTurn (env : Env) (e : Endpoint σ) : Endpoint σ :=
  turn P n e.serverSide ⟨-1,-1,-1,-1⟩ (tcpRpcsTake P n env) e

def tcpRpccTurn (env : Env) (e : Endpoint σ) : Endpoint σ :=
  turn P n .client ⟨-1,-2,-3,-4⟩ (tcpRpccTake P n env) e

/-- The loop of `cpu_tcp_server_reader` with the one of `parse_execute` in it. -/
def parseLoop (turn : Endpoint σ → Endpoint σ) : ℕ → Endpoint σ → Endpoint σ
  | 0, e => e
  | fuel+1, e =>
      if e.error.isSome ∨ e.inBuf = [] ∨ 0 < e.skipBytes then e else parseLoop turn fuel (turn e)

def Endpoint.receive (e : Endpoint σ) (piece : Bytes) : Endpoint σ :=
  let r := RpcTransport.receive P.cipher
    {crypto := e.readAeskey, inU := e.inU, inBuf := e.inBuf, inPacketNum := e.inPacketNum} piece
  {e with readAeskey := r.crypto, inU := r.inU, inBuf := r.inBuf}

/-- `cpu_tcp_server_reader`, for the bytes that have come. -/
def cpuTcpServerReader (turn : Endpoint σ → Endpoint σ) (e : Endpoint σ) (piece : Bytes) :
    Endpoint σ :=
  let e := e.receive P piece
  if e.inBuf.length < e.skipBytes then e
  else parseLoop turn (e.inBuf.length+1) {e with skipBytes := 0}

end Teleproxy.RpcHandshake
