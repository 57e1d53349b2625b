import Teleproxy.RpcWriter
import Teleproxy.Lib.BlockCipher
import Teleproxy.Lib.StepSystem

/-!
# The full RPC transport

Between the proxy and a backend a packet has its length, its number and a checksum. A
run of the writer takes packets from the queue, fills the last block with words of value
4 when a block cipher is set, and encrypts whole blocks. The reader decrypts whole blocks
and calls the loop of its side, `tcp_rpcs_parse_execute` or `tcp_rpcc_parse_execute`,
which leaves the filling words out and checks length, checksum and number of a packet.

The checksum is a parameter, and so is the cipher. Packets with the numbers -2 and -1 belong
to the handshake; the loops end there in this model, and the HTTP fallback of a server
that has not come so far is left out. What `execute` makes of a packet is left open.
-/
namespace Teleproxy.RpcTransport
open ClientInput (Bytes)
open PacketParser (lookup4 store4)
open RpcWriter
open BlockCipher (Cipher)

variable {σ : Type*}

structure Sender (σ : Type*) where
  conn : OutConn
  crypto : Option σ
  /-- What was given to the socket. -/
  wire : Bytes := []

/-- `cpu_tcp_server_writer`: one run, for the packets that are in the queue. -/
def writerRun (k : Cipher UInt8 σ) (s : Sender σ) (queue : List Bytes) : Option (Sender σ) :=
  (tcpRpcFlush s.crypto.isSome (queue.foldl tcpRpcWritePacket s.conn)).map fun c =>
    match s.crypto with
    | none => {s with conn := {c with out := []}, wire := s.wire++c.out}
    | some key =>
        let n := c.out.length/k.size
        let (p,key) := k.encrypt n key c.out
        {conn := {c with out := c.out.drop (n*k.size)}, crypto := some key, wire := s.wire++p}

def writerRuns (k : Cipher UInt8 σ) (s : Sender σ) (queues : List (List Bytes)) :
    Option (Sender σ) :=
  queues.foldlM (writerRun k) s

inductive Side where
  | client
  /-- With `RPCF_QUICKACK` and `RPCF_SEQNO_HOLES` of `crypto_flags`. -/
  | server (quickack seqnoHoles : Bool)
  deriving DecidableEq, Repr

structure Config where
  side : Side
  maxPacketLen : ℤ
  customCrcPartial : Bytes → BitVec 32

inductive Status where
  | working | failed | handshake
  deriving DecidableEq, Repr

structure Receiver (σ : Type*) where
  crypto : Option σ
  inU : Bytes := []
  inBuf : Bytes := []
  skipBytes : ℕ := 0
  inPacketNum : BitVec 32
  /-- `D->flags & RPC_F_QUICKACK`. -/
  quickack : Bool := false
  delivered : List Bytes := []
  status : Status := .working

inductive Next where
  | need (n : ℕ)
  | fail
  /-- A filling word. -/
  | skip (rest : Bytes)
  | packet (num : BitVec 32) (msg rest : Bytes)
  deriving DecidableEq, Repr

/-- The part that the two loops have in common: the packet is cut out and its checksum is
compared. -/
def cutPacket (cfg : Config) (buf : Bytes) (packetLen : ℕ) : Next :=
  if buf.length < packetLen then .need (packetLen-buf.length)
  else
    let msg := buf.take (packetLen-4)
    if lookup4 ((buf.take packetLen).drop (packetLen-4)) = cfg.customCrcPartial msg then
      .packet (lookup4 (msg.drop 4)) (msg.drop 8) (buf.drop packetLen)
    else .fail

/-- `tcp_rpcs_parse_execute` up to the number of the packet. -/
def tcpRpcsNext (cfg : Config) (quickack : Bool) (buf : Bytes) : Next :=
  if buf.length < 4 then .need (4-buf.length)
  else
    let packetLen := lookup4 buf
    let packetLen := if quickack then packetLen &&& 0x7fffffff#32 else packetLen
    if packetLen.toInt ≤ 0 ∨ packetLen &&& 0xc0000003#32 ≠ 0#32 then .fail
    else if cfg.maxPacketLen < packetLen.toInt ∧ 0 < cfg.maxPacketLen then .fail
    else if packetLen = 4#32 then .skip (buf.drop 4)
    else if packetLen.toInt < 16 then .fail
    else cutPacket cfg buf packetLen.toNat

/-- `tcp_rpcc_parse_execute` up to the number of the packet. -/
def tcpRpccNext (cfg : Config) (buf : Bytes) : Next :=
  if buf.length < 4 then .need (4-buf.length)
  else
    let packetLen := lookup4 buf
    if packetLen.toInt ≤ 0 ∨ packetLen &&& 3#32 ≠ 0#32 ∨
        (cfg.maxPacketLen < packetLen.toInt ∧ 0 < cfg.maxPacketLen) then .fail
    else if packetLen = 4#32 then .skip (buf.drop 4)
    else if packetLen.toInt < 16 then .fail
    else cutPacket cfg buf packetLen.toNat

def next (cfg : Config) (buf : Bytes) : Next :=
  match cfg.side with
  | .client => tcpRpccNext cfg buf
  | .server quickack _ => tcpRpcsNext cfg quickack buf

/-- The bit that the server takes from a length it looks at. -/
def noteQuickack (cfg : Config) (r : Receiver σ) : Receiver σ :=
  match cfg.side with
  | .server true _ =>
      if r.inBuf.length < 4 then r
      else {r with quickack := lookup4 r.inBuf &&& 0x80000000#32 != 0#32}
  | _ => r

/-- Behind the checksum: the number is compared and the packet delivered. A server that
has not seen a packet yet starts at 0. -/
def execute (cfg : Config) (r : Receiver σ) (num : BitVec 32) (msg : Bytes) : Receiver σ :=
  let inPacketNum := if cfg.side ≠ .client ∧ r.inPacketNum = -3#32 then 0#32 else r.inPacketNum
  let holes := match cfg.side with
    | .server _ seqnoHoles => seqnoHoles
    | .client => false
  if holes = false ∧ num ≠ inPacketNum then {r with inPacketNum, status := .failed}
  else if num.toInt < 0 then
    {r with inPacketNum, status := if num = -2#32 ∨ num = -1#32 then .handshake else .failed}
  else {r with inPacketNum := inPacketNum+1#32, delivered := r.delivered++[msg]}

/-- The loop of `parse_execute` with what the reader makes of its result. -/
def parseLoop (cfg : Config) : ℕ → Receiver σ → Receiver σ
  | 0, r => r
  | fuel+1, r =>
      if r.status ≠ .working ∨ r.inBuf = [] then r else
        let r := noteQuickack cfg r
        match next cfg r.inBuf with
        | .need n =>
            {r with skipBytes := n+(if r.crypto.isSome then r.inBuf.length else r.inU.length)}
        | .fail => {r with status := .failed}
        | .skip rest => parseLoop cfg fuel {r with inBuf := rest}
        | .packet num msg rest => parseLoop cfg fuel (execute cfg {r with inBuf := rest} num msg)

/-- New bytes are put into `c->in_u` and whole blocks decrypted into `c->in`; without a
cipher they go there at once. -/
def receive (k : Cipher UInt8 σ) (r : Receiver σ) (piece : Bytes) : Receiver σ :=
  match r.crypto with
  | none => {r with inBuf := r.inBuf++piece}
  | some key =>
      let inU := r.inU++piece
      let n := inU.length/k.size
      let (p,key) := k.decrypt n key inU
      {r with crypto := some key, inU := inU.drop (n*k.size), inBuf := r.inBuf++p}

/-- `cpu_tcp_server_reader`. -/
def reader (k : Cipher UInt8 σ) (cfg : Config) (r : Receiver σ) (piece : Bytes) : Receiver σ :=
  if r.status ≠ .working then r
  else
    let r := receive k r piece
    if r.inBuf.length < r.skipBytes then r
    else parseLoop cfg (r.inBuf.length+1) {r with skipBytes := 0}

end Teleproxy.RpcTransport
