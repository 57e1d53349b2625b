import Teleproxy.RpcHandshake
import Teleproxy.Lib.StepSystem

/-!
# A client and a server of the RPC transport

The two ends of one connection, each with the settings of its process. In a step one of
them runs its reader on some of the bytes under way, runs its writer, gets a packet to
send, or is aborted. Packets to send are given only to a connection that was reported as
ready: the targets choose none whose `in_packet_num` is negative, and a server answers
packets that it received.

Below are the nonce packets as each side reads what the other wrote, and what the two
functions for them can do.
-/
namespace Teleproxy.RpcSession
open ClientInput (Bytes)
open PacketParser (lookup4 store4 lookup4_store4)
open RpcKeys RpcHandshake

variable {σ : Type*} (P : Primitives σ)

/-- `tcp_rpcc_init_outbound` and `tcp_rpcc_connected`. The default permissions have
`RPCF_ALLOW_ENC`, so the client asks for encryption. -/
def tcpRpccConnected (n : Node) (env : Env) (pid : ProcessId) : Endpoint σ :=
  let cryptoFlags := (rpcfAllowEnc ||| n.defaultRpcFlags) &&& permFlags
  let dh : Bool := cryptoFlags &&& rpcfReqDh ≠ 0#32
  {cryptoFlags := cryptoFlags ||| rpcfEncSent, nonce := env.nonce, nonceTime := env.now,
   cryptoTemp := if dh then some env.exponent else none, pid,
   outQueue := [if dh then nonceDhPacket (keySignature n.mainSecret) env.now env.nonce
                  (P.power env.exponent)
                else noncePacket (keySignature n.mainSecret) .aes env.now env.nonce]}

theorem length_zeros : (List.replicate 16 (0 : UInt8)).length = 16 := rfl

def tcpRpcsInitAccepted (n : Node) (pid : ProcessId) : Endpoint σ :=
  {cryptoFlags := (rpcfAllowEnc ||| rpcfReqDh ||| n.defaultRpcFlags) &&& permFlags,
   nonce := ⟨List.replicate 16 0,length_zeros⟩, nonceTime := 0#32, pid}

structure World (σ : Type*) where
  client : Endpoint σ
  server : Endpoint σ

inductive Event where
  | clientReader (bytes : ℕ) (env : Env)
  | serverReader (bytes : ℕ) (env : Env)
  | clientWriter
  | serverWriter
  | clientSend (raw : Bytes)
  | serverSend (raw : Bytes)
  | clientAbort
  | serverAbort

/-- A reader runs on the first bytes of what the other side gave to its socket. -/
def read (turn : Endpoint σ → Endpoint σ) (e peer : Endpoint σ) (bytes : ℕ) :
    Endpoint σ × Endpoint σ :=
  if e.error.isSome then (e,peer)
  else (cpuTcpServerReader P turn e (peer.socket.take bytes),
    {peer with socket := peer.socket.drop bytes})

/-- A packet whose length with the header is an `int`, for a connection that is ready. -/
def send (e : Endpoint σ) (raw : Bytes) : Endpoint σ :=
  if e.ready ∧ 4 ∣ raw.length ∧ raw.length+12 < 2^31 then tcpRpcConnSend e raw else e

def abort (e : Endpoint σ) : Endpoint σ := if e.error.isSome then e else e.fail .aborted

def step (c s : Node) (w : World σ) : Event → World σ
  | .clientReader bytes env =>
      let (client,server) := read P (tcpRpccTurn P c env) w.client w.server bytes
      ⟨client,server⟩
  | .serverReader bytes env =>
      let (server,client) := read P (tcpRpcsTurn P s env) w.server w.client bytes
      ⟨client,server⟩
  | .clientWriter => {w with client := cpuTcpServerWriter P w.client}
  | .serverWriter => {w with server := cpuTcpServerWriter P w.server}
  | .clientSend raw => {w with client := send w.client raw}
  | .serverSend raw => {w with server := send w.server raw}
  | .clientAbort => {w with client := abort w.client}
  | .serverAbort => {w with server := abort w.server}

/-- A connection that was just made. -/
def start (c s : Node) (env : Env) (pc ps : ProcessId) : World σ :=
  ⟨tcpRpccConnected P c env pc,tcpRpcsInitAccepted s ps⟩

/-- The same secret, and the same addresses behind the translation of each side. -/
structure Consistent (c s : Node) : Prop where
  secret : c.mainSecret = s.mainSecret
  serverIp : c.remoteAddress.ip = s.ourAddress.ip
  serverPort : c.remotePort = s.ourPort
  clientIp : c.ourAddress.ip = s.remoteAddress.ip
  clientPort : c.ourPort = s.remotePort
  ipv6 : s.ourAddress.ip = 0#32 → c.remoteIpv6 = s.ourIpv6 ∧ c.ourIpv6 = s.remoteIpv6

section
variable (key ts : BitVec 32) (schema : CryptoSchema) (nonce : Nonce) (gA rest : Bytes)

theorem noncePacket_append : noncePacket key schema ts nonce++rest =
    store4 rpcNonce++(store4 key++(store4 schema.code++(store4 ts++(nonce.1++rest)))) := by
  rw [noncePacket,List.append_assoc,List.append_assoc,List.append_assoc,List.append_assoc]

theorem schema_nonce :
    lookup4 ((noncePacket key schema ts nonce++rest).drop 8) = schema.code := by
  rw [noncePacket_append]
  exact lookup4_store4 _ _

theorem nonceTs_nonce : nonceTs (noncePacket key schema ts nonce++rest) = ts := by
  rw [nonceTs,noncePacket_append]
  exact lookup4_store4 _ _

theorem nonceOf_nonce : nonceOf (noncePacket key schema ts nonce++rest) = nonce := by
  apply Subtype.ext
  rw [nonceOf,noncePacket_append]
  change ((nonce.1++rest)++List.replicate 16 0).take 16 = nonce.1
  rw [List.append_assoc,List.take_left' nonce.2]

theorem length_noncePacket : (noncePacket key schema ts nonce).length = 32 := by
  simp [noncePacket,nonce.2,store4]

theorem drop_noncePacket (i : ℕ) :
    (noncePacket key schema ts nonce++rest).drop (32+i) = rest.drop i := by
  rw [← List.drop_drop,List.drop_left' (length_noncePacket _ _ _ _)]

theorem nonceDhPacket_eq : nonceDhPacket key ts nonce gA =
    noncePacket key .aesDh ts nonce++(store4 0#32++store4 dhParamsSelect++gA) := by
  rw [nonceDhPacket]
  simp only [List.append_assoc]

theorem extraKeysCount_dh : extraKeysCount (nonceDhPacket key ts nonce gA) = 0#32 := by
  rw [extraKeysCount,nonceDhPacket_eq]
  exact (congrArg lookup4 (drop_noncePacket _ _ _ _ _ 0)).trans (lookup4_store4 _ _)

theorem nonceGa_dh (h : gA.length = 256) : nonceGa (nonceDhPacket key ts nonce gA) = gA := by
  rw [nonceGa,extraKeysCount_dh,nonceDhPacket_eq]
  refine (congrArg (List.take 256) (drop_noncePacket _ _ _ _ _ 8)).trans ?_
  exact List.take_of_length_le h.le

theorem nonceSchema_none : nonceSchema (noncePacket key .none ts nonce) = some .none := by
  have hschema := schema_nonce key ts .none nonce []
  rw [List.append_nil] at hschema
  rw [nonceSchema,length_noncePacket,hschema]
  rfl

theorem nonceSchema_aes : nonceSchema (noncePacket key .aes ts nonce) = some .aes := by
  have hschema := schema_nonce key ts .aes nonce []
  rw [List.append_nil] at hschema
  rw [nonceSchema,length_noncePacket,hschema]
  rfl

theorem nonceSchema_dh (h : gA.length = 256) :
    nonceSchema (nonceDhPacket key ts nonce gA) = some .aesDh := by
  have hlen : (nonceDhPacket key ts nonce gA).length = 296 := by
    rw [nonceDhPacket_eq,List.length_append,length_noncePacket,List.length_append,h]
    rfl
  have hschema : lookup4 ((nonceDhPacket key ts nonce gA).drop 8) = CryptoSchema.aesDh.code := by
    rw [nonceDhPacket_eq,schema_nonce]
  have hextra : extraKeysOk (nonceDhPacket key ts nonce gA) 296 = true := by
    rw [extraKeysOk,hlen,extraKeysCount_dh]
    rfl
  rw [nonceSchema,hlen,hschema,hextra]
  rfl

end

/-- The first packet of a client. -/
def hello (n : Node) (e : Endpoint σ) : Bytes :=
  match e.cryptoTemp with
  | none => noncePacket (keySignature n.mainSecret) .aes e.nonceTime e.nonce
  | some a => nonceDhPacket (keySignature n.mainSecret) e.nonceTime e.nonce (P.power a)

/-- What a server makes keys of. -/
def serverExchange (s : Node) (nonceServer nonceClient : Nonce) (ts : BitVec 32) (tempKey : Bytes) :
    Exchange :=
  {nonceServer, nonceClient, clientTimestamp := ts, server := s.ourAddress,
   client := s.remoteAddress, secret := s.mainSecret, tempKey}

/-- The answer of a server, with its keys, to a client with the nonce, the time and the
exponent `temp`. -/
inductive Answer (s : Node) (nonceClient : Nonce) (ts : BitVec 32) (temp : Option Bytes) :
    Option AesKeyData → Bytes → Prop
  | unencrypted : Answer s nonceClient ts temp none
      (noncePacket 0#32 .none 0#32 ⟨List.replicate 16 0,rfl⟩)
  | aes (nonce : Nonce) (time : BitVec 32) (keys : AesKeyData)
      (h : aesCreateKeys P.digests false (serverExchange s nonce nonceClient ts []) = some keys) :
      Answer s nonceClient ts temp (some keys)
        (noncePacket (keySignature s.mainSecret) .aes time nonce)
  | dh (nonce : Nonce) (time : BitVec 32) (keys : AesKeyData) (a b : Bytes) (htemp : temp = some a)
      (h : aesCreateKeys P.digests false
        (serverExchange s nonce nonceClient ts (P.shared (P.power a) b)) = some keys) :
      Answer s nonceClient ts temp (some keys)
        (nonceDhPacket (keySignature s.mainSecret) time nonce (P.power b))

/-- A side that has made its ciphers from keys. -/
def withKeys (e : Endpoint σ) (keys : Option AesKeyData) : Endpoint σ :=
  {e with keys, writeAeskey := keys.map fun k => P.start k.writeKey k.writeIv,
          readAeskey := keys.map fun k => P.start k.readKey k.readIv}

variable {P} {c s : Node} {env : Env} {e e' : Endpoint σ} {msg : Bytes}

theorem recode_ok {α : Type*} {code : ℤ} {r : Except Failure α} {x : α} (h : recode code r = .ok x) :
    r = .ok x := by
  cases r with
  | error f => cases f <;> cases h
  | ok y => exact h

/-- Of two branches one is an error. -/
theorem of_ite_error {α : Type*} {p : Prop} [Decidable p] {f : Failure} {r : Except Failure α} {x : α}
    (h : (if p then .error f else r) = .ok x) : ¬p ∧ r = .ok x := by
  split_ifs at h with hp
  exact ⟨hp,h⟩

theorem selectCrypto_ok {schema : CryptoSchema} {key : BitVec 32} {dh : Bool}
    (h : tcpRpcsSelectCrypto s env e schema msg = .ok (e',key,dh)) :
    ∃ flags time, e' = {e with cryptoFlags := flags, nonceTime := time} := by
  have hunenc : ∀ {code : ℤ} {key' : BitVec 32} {dh' : Bool},
      tcpRpcsUnencrypted e code key' dh' = .ok (e',key,dh) →
      ∃ flags time, e' = {e with cryptoFlags := flags, nonceTime := time} := by
    intro code key' dh' h
    rw [tcpRpcsUnencrypted] at h
    split_ifs at h
    cases h
    exact ⟨_,e.nonceTime,rfl⟩
  unfold tcpRpcsSelectCrypto at h
  by_cases hnone : schema = .none
  · rw [if_pos hnone] at h
    exact hunenc (of_ite_error h).2
  · rw [if_neg hnone] at h
    dsimp only at h
    split_ifs at h
    · exact hunenc h
    · exact hunenc h
    · cases h
      exact ⟨_,_,rfl⟩

theorem makeKeys_ok {tempDh : Bytes} {newDh : Option Bytes}
    (h : tcpRpcsMakeKeys P s env e msg tempDh newDh = .ok e') :
    ∃ keys flags, aesCreateKeys P.digests false
        (serverExchange s env.nonce (nonceOf msg) (nonceTs msg) tempDh) = some keys ∧
      e' = tcpRpcConnSendInit P
        (withKeys P {e with nonce := env.nonce, cryptoFlags := flags} (some keys))
        (serverNonce s e.nonceTime env.nonce newDh) := by
  unfold tcpRpcsMakeKeys at h
  cases hkeys : aesCreateKeys P.digests false
      (serverExchange s env.nonce (nonceOf msg) (nonceTs msg) tempDh) with
  | none =>
      rw [serverExchange] at hkeys
      rw [hkeys] at h
      cases h
  | some keys =>
      rw [serverExchange] at hkeys
      rw [hkeys] at h
      dsimp only at h
      split_ifs at h
      cases h
      exact ⟨keys,_,rfl,rfl⟩

/-- A connection without ciphers. -/
structure Bare (e : Endpoint σ) : Prop where
  keys : e.keys = none
  write : e.writeAeskey = none
  read : e.readAeskey = none

theorem Bare.withKeys_none (h : Bare e) : withKeys P e none = e := by
  rw [withKeys,Option.map_none,Option.map_none,← h.keys]
  nth_rewrite 1 [← h.write]
  rw [← h.read]

/-- The server that has answered a hello. -/
theorem initCrypto_ok {schema : CryptoSchema} {key : BitVec 32} {nonceClient : Nonce}
    {ts : BitVec 32} {temp : Option Bytes} (hbare : Bare e) (hnonce : nonceOf msg = nonceClient)
    (hts : nonceTs msg = ts)
    (hdh : schema = .aesDh → ∃ a, temp = some a ∧ nonceGa msg = P.power a)
    (h : tcpRpcsInitCrypto P s env e schema key msg = .ok e') :
    ∃ flags nonce keys ns, Answer P s nonceClient ts temp keys ns ∧
      e' = tcpRpcConnSendInit P (withKeys P {e with nonce, cryptoFlags := flags} keys) ns := by
  unfold tcpRpcsInitCrypto at h
  replace h := (of_ite_error h).2
  by_cases hfake : e.cryptoFlags &&& (rpcfAllowEnc ||| rpcfAllowUnenc) = rpcfAllowUnenc
  · rw [if_pos hfake] at h
    unfold tcpRpcsInitFakeCrypto at h
    replace h := (of_ite_error (of_ite_error h).2).2
    cases h
    refine ⟨e.cryptoFlags ||| rpcfEncSent,e.nonce,none,_,.unencrypted,?_⟩
    have hnone : Bare {e with cryptoFlags := e.cryptoFlags ||| rpcfEncSent} :=
      ⟨hbare.keys,hbare.write,hbare.read⟩
    exact congrArg (fun e => tcpRpcConnSendInit P e _) hnone.withKeys_none.symm
  · rw [if_neg hfake] at h
    replace h := (of_ite_error (of_ite_error h).2).2
    by_cases hflag : e.hasFlag rpcfReqDh = true
    · rw [if_pos hflag] at h
      obtain ⟨hschema,h⟩ := of_ite_error h
      replace h := (of_ite_error (of_ite_error (of_ite_error h).2).2).2
      obtain ⟨a,rfl,hga⟩ := hdh (not_not.mp hschema)
      obtain ⟨keys,flags,hkeys,rfl⟩ := makeKeys_ok h
      rw [hnonce,hts,hga] at hkeys
      exact ⟨flags,env.nonce,some keys,_,
        .dh env.nonce e.nonceTime keys a env.exponent rfl hkeys,rfl⟩
    · rw [if_neg hflag] at h
      obtain ⟨keys,flags,hkeys,rfl⟩ := makeKeys_ok h
      rw [hnonce,hts] at hkeys
      exact ⟨flags,env.nonce,some keys,_,.aes env.nonce e.nonceTime keys hkeys,rfl⟩

/-- The fields of a hello. -/
theorem hello_fields (c : Node) (e : Endpoint σ) :
    nonceOf (hello P c e) = e.nonce ∧ nonceTs (hello P c e) = e.nonceTime ∧
      (nonceSchema (hello P c e) = some .aesDh →
        ∃ a, e.cryptoTemp = some a ∧ nonceGa (hello P c e) = P.power a) := by
  rw [hello]
  cases e.cryptoTemp with
  | none =>
      have hnonce := nonceOf_nonce (keySignature c.mainSecret) e.nonceTime .aes e.nonce []
      have hts := nonceTs_nonce (keySignature c.mainSecret) e.nonceTime .aes e.nonce []
      rw [List.append_nil] at hnonce hts
      refine ⟨hnonce,hts,?_⟩
      dsimp only
      rw [nonceSchema_aes]
      nofun
  | some a =>
      refine ⟨?_,?_,fun _ => ⟨a,rfl,nonceGa_dh _ _ _ _ (P.length_power a)⟩⟩
      · exact (congrArg nonceOf (nonceDhPacket_eq _ _ _ _)).trans (nonceOf_nonce _ _ _ _ _)
      · exact (congrArg nonceTs (nonceDhPacket_eq _ _ _ _)).trans (nonceTs_nonce _ _ _ _ _)

theorem server_nonce {client : Endpoint σ} (hbare : Bare e)
    (h : tcpRpcsProcessNoncePacket P s env e (hello P c client) = .ok e') :
    ∃ flags time nonce keys ns,
      Answer P s client.nonce client.nonceTime client.cryptoTemp keys ns ∧
      e' = tcpRpcConnSendInit P
        (withKeys P {e with nonceTime := time, nonce, cryptoFlags := flags} keys) ns := by
  obtain ⟨hnonce,hts,hdh⟩ := hello_fields (P := P) c client
  unfold tcpRpcsProcessNoncePacket at h
  replace h := (of_ite_error h).2
  cases hschema : nonceSchema (hello P c client) with
  | none =>
      rw [hschema] at h
      cases h
  | some schema =>
      rw [hschema] at h
      dsimp only at h
      cases hselect : tcpRpcsSelectCrypto s env e schema (hello P c client) with
      | error f =>
          rw [hselect] at h
          cases h
      | ok r =>
          obtain ⟨e₁,key,dh⟩ := r
          rw [hselect] at h
          obtain ⟨flags,time,rfl⟩ := selectCrypto_ok hselect
          have hdh' : schema = .aesDh → ∃ a, client.cryptoTemp = some a ∧
              nonceGa (hello P c client) = P.power a := by
            rintro rfl
            exact hdh hschema
          -- both ways lead to `tcp_rpcs_init_crypto`, with other flags
          have hinit : ∃ flags, recode (-6) (tcpRpcsInitCrypto P s env
              {e with nonceTime := time, cryptoFlags := flags} schema key (hello P c client)) =
                .ok e' := by
            dsimp only at h
            split at h
            · split at h
              · exact ⟨_,h⟩
              · cases h
            · exact ⟨_,h⟩
          obtain ⟨flags,h⟩ := hinit
          obtain ⟨flags',nonce,keys,ns,hanswer,rfl⟩ :=
            initCrypto_ok (by exact ⟨hbare.keys,hbare.write,hbare.read⟩) hnonce hts hdh'
              (recode_ok h)
          exact ⟨flags',time,nonce,keys,ns,hanswer,rfl⟩

theorem startCrypto_ok {nonce : Nonce} {key : BitVec 32} {tempDh : Bytes}
    (h : tcpRpccStartCrypto P c e nonce key tempDh = .ok e') :
    ∃ keys, aesCreateKeys P.digests true
        {nonceServer := nonce, nonceClient := e.nonce, clientTimestamp := e.nonceTime,
         server := c.remoteAddress, client := c.ourAddress, secret := c.mainSecret,
         tempKey := tempDh} = some keys ∧ e' = withKeys P e (some keys) := by
  unfold tcpRpccStartCrypto at h
  split_ifs at h
  split at h
  · cases h
  · rename_i keys hkeys
    cases h
    exact ⟨keys,hkeys,rfl⟩

/-- From the same exchange a client makes the keys of the server, each for the other
direction. -/
theorem clientKeys (h : Consistent c s) (nonceServer nonceClient : Nonce) (ts : BitVec 32)
    (tempKey : Bytes) :
    aesCreateKeys P.digests true
        {nonceServer, nonceClient, clientTimestamp := ts, server := c.remoteAddress,
         client := c.ourAddress, secret := c.mainSecret, tempKey} =
      (aesCreateKeys P.digests false
        (serverExchange s nonceServer nonceClient ts tempKey)).map .swap := by
  have hipv6 := aesCreateKeys_ipv6 P.digests true
    (serverExchange s nonceServer nonceClient ts tempKey) h.ipv6
  have hswap := aesCreateKeys_swap P.digests false
    (serverExchange s nonceServer nonceClient ts tempKey)
  have hserver : c.remoteAddress = ⟨s.ourAddress.ip,s.ourPort,c.remoteIpv6⟩ := by
    rw [← h.serverIp,← h.serverPort]
    rfl
  have hclient : c.ourAddress = ⟨s.remoteAddress.ip,s.remotePort,c.ourIpv6⟩ := by
    rw [← h.clientIp,← h.clientPort]
    rfl
  rw [Bool.not_false] at hswap
  rw [← hswap,← hipv6,hserver,hclient,h.secret]
  rfl

/-- The client that has taken the answer of a server. -/
theorem client_nonce {keys : Option AesKeyData} {ns : Bytes} (hcons : Consistent c s) (hbare : Bare e)
    (hanswer : Answer P s e.nonce e.nonceTime e.cryptoTemp keys ns)
    (h : tcpRpccProcessNoncePacket P c e ns = .ok e') :
    ∃ flags temp, e' = withKeys P {e with cryptoFlags := flags, cryptoTemp := temp}
      (keys.map .swap) := by
  unfold tcpRpccProcessNoncePacket at h
  cases hanswer with
  | unencrypted =>
      rw [nonceSchema_none] at h
      replace h := (of_ite_error (of_ite_error h).2).2
      split_ifs at h
      cases h
      have hnone : Bare {e with cryptoFlags := rpcfAllowUnenc} :=
        ⟨hbare.keys,hbare.write,hbare.read⟩
      exact ⟨_,e.cryptoTemp,hnone.withKeys_none.symm⟩
  | aes nonce time keys hkeys =>
      rw [nonceSchema_aes] at h
      replace h := (of_ite_error h).2
      dsimp only at h
      iterate 7 replace h := (of_ite_error h).2
      obtain ⟨keys',hkeys',rfl⟩ := startCrypto_ok (recode_ok h)
      have hnonce := nonceOf_nonce (keySignature s.mainSecret) time .aes nonce []
      rw [List.append_nil] at hnonce
      rw [hnonce] at hkeys'
      rw [clientKeys hcons,hkeys] at hkeys'
      cases hkeys'
      exact ⟨e.cryptoFlags,none,rfl⟩
  | dh nonce time keys a b htemp hkeys =>
      rw [nonceSchema_dh _ _ _ _ (P.length_power b)] at h
      replace h := (of_ite_error h).2
      dsimp only at h
      iterate 7 replace h := (of_ite_error h).2
      obtain ⟨keys',hkeys',rfl⟩ := startCrypto_ok (recode_ok h)
      rw [htemp] at hkeys'
      dsimp only at hkeys'
      rw [nonceGa_dh _ _ _ _ (P.length_power b),P.shared_comm,nonceDhPacket_eq,nonceOf_nonce,
        clientKeys hcons,hkeys] at hkeys'
      cases hkeys'
      exact ⟨e.cryptoFlags,none,rfl⟩

end Teleproxy.RpcSession
