import Teleproxy.RpcChannel
import Teleproxy.RpcSession

/-!
# The stages of an RPC handshake

A connection goes through five stages: the nonce of the client is under way, the server
has answered, the client has its keys too and its handshake packet is under way, the
server is ready, both are ready. In each but the second both directions are joined. In
the second the server has ciphers and the client has none, but the server has nothing to
send behind its answer, and nothing comes to it. A side that fails before it is ready
never becomes ready.

Below is what becomes of a stage when a side takes its next packet.
-/
namespace Teleproxy.RpcStages
open ClientInput (Bytes)
open PacketParser (lookup4 store4 lookup4_store4)
open Obfs2Header (store2)
open BlockCipher (Carries carries_nil)
open RpcKeys RpcHandshake RpcSession RpcChannel

variable {σ : Type*} {P : Primitives σ} {c s : Node} {X : Crc} {C S a b : Endpoint σ} {env : Env}

/-- What a stage depends on at one side. -/
structure View where
  offered : List Bytes
  checked : List Packet
  keys : Option AesKeyData
  ready : Bool
  crc : Crc
  encrypted : Bool
  /-- The packet that a client begins with. -/
  first : Bytes

def view (P : Primitives σ) (c : Node) (e : Endpoint σ) : View :=
  ⟨offered e,e.checked,e.keys,e.ready,e.customCrcPartial,e.writeAeskey.isSome,hello P c e⟩

/-- The stages in which both directions are joined, at the client and at the server. -/
inductive Progress : Crc → View → View → Prop
  | hello {v u : View} (offered : v.offered = [v.first]) (silent : u.offered = [])
      (checked : v.checked = [] ∧ u.checked = []) (keys : v.keys = none ∧ u.keys = none)
      (ready : v.ready = false ∧ u.ready = false)
      (plain : v.encrypted = false ∧ u.encrypted = false) : Progress .crc32 v u
  | shaking {v u : View} (offered : v.offered.length = 2 ∧ u.offered.length = 1)
      (checked : v.checked.length = 1 ∧ u.checked.length = 1) (keys : v.keys = u.keys.map .swap)
      (ready : v.ready = false ∧ u.ready = false) : Progress .crc32 v u
  | half {X : Crc} {v u : View} {hs : Bytes} (offered : v.offered.length = 2)
      (checked : v.checked.length = 1 ∧ u.checked.length = 2) (keys : v.keys = u.keys.map .swap)
      (ready : v.ready = false ∧ u.ready = true) (crc : u.crc = X)
      (flags : u.offered[1]? = some hs ∧
        (lookup4 (hs.drop 4) &&& rpcfUseCrc32c ≠ 0#32 ↔ X = .crc32c)) : Progress X v u
  | working {X : Crc} {v u : View} (checked : 2 ≤ v.checked.length ∧ 2 ≤ u.checked.length)
      (keys : v.keys = u.keys.map .swap) (crc : v.crc = X ∧ u.crc = X) : Progress X v u

/-- The server without its ciphers. -/
def bare (e : Endpoint σ) : Endpoint σ := {e with writeAeskey := none, readAeskey := none}

/-- The answer of the server is under way, and nothing else. -/
structure Answered (P : Primitives σ) (s : Node) (C S : Endpoint σ) : Prop where
  pair : Pair P .crc32 C (bare S)
  client : C.outQueue = [] ∧ C.out = [] ∧ C.socket = []
  server : S.outQueue = [] ∧ S.out = [] ∧ S.inU = [] ∧ S.inBuf = []
  sent : S.checked = C.sent ∧ C.sent.length = 1
  checked : C.checked = []
  bareClient : Bare C
  answer : ∃ ns, S.sent.map Packet.payload = [ns] ∧
    Answer P s C.nonce C.nonceTime C.cryptoTemp S.keys ns
  ciphers : withKeys P S S.keys = S
  ready : C.ready = false ∧ S.ready = false

/-- A side that will not be ready. -/
def Lost (e : Endpoint σ) : Prop := e.error ≠ none ∧ e.ready = false

def Inv (P : Primitives σ) (c s : Node) (C S : Endpoint σ) : Prop :=
  Lost C ∨ Lost S ∨ Answered P s C S ∨
    ∃ X, Pair P X C S ∧ Progress X (view P c C) (view P c S)

theorem view_writer (h : Pair P X a b) :
    view P c (cpuTcpServerWriter P a) = view P c a := by
  obtain ⟨is,plain,hflow⟩ := h.forth.flow
  obtain ⟨m,bytes,w,heq,hsome,-⟩ := writer_eq (P := P) hflow.aligned h.forth.sends.number
    h.forth.sends.queue
  rw [heq,view,view,offered,offered,List.map_append,payload_stamps,List.append_nil,hsome]
  rfl

theorem length_bytes (p : ProcessId) : p.bytes.length = 12 := by
  simp [ProcessId.bytes,store4,store2]

theorem handshake_framed (flags : BitVec 32) (x y : ProcessId) :
    Framed (handshakePacket flags x y) := by
  have hlen : (handshakePacket flags x y).length = 32 := by
    rw [handshakePacket,List.length_append,List.length_append,length_bytes,length_bytes]
    rfl
  rw [Framed,hlen]
  decide

theorem handshake_flags (flags : BitVec 32) (x y : ProcessId) :
    lookup4 ((handshakePacket flags x y).drop 4) = flags := by
  rw [handshakePacket,List.append_assoc,List.append_assoc]
  exact lookup4_store4 _ _

theorem nonce_framed {msg : Bytes} (h : msg.length = 32 ∨ msg.length = 296) : Framed msg := by
  rw [Framed]
  omega

theorem length_nonceDhPacket (key ts : BitVec 32) (nonce : Nonce) {gA : Bytes}
    (h : gA.length = 256) : (nonceDhPacket key ts nonce gA).length = 296 := by
  rw [nonceDhPacket_eq,List.length_append,length_noncePacket,List.length_append,h]
  rfl

theorem hello_framed (c : Node) (e : Endpoint σ) : Framed (hello P c e) := by
  apply nonce_framed
  rw [hello]
  cases e.cryptoTemp with
  | none => exact .inl (length_noncePacket _ _ _ _)
  | some a => exact .inr (length_nonceDhPacket _ _ _ (P.length_power a))

theorem Answer.framed {nonceClient : Nonce} {ts : BitVec 32} {temp : Option Bytes}
    {keys : Option AesKeyData} {ns : Bytes} (h : Answer P s nonceClient ts temp keys ns) :
    Framed ns := by
  apply nonce_framed
  cases h with
  | unencrypted => exact .inl (length_noncePacket _ _ _ _)
  | aes nonce time keys h => exact .inl (length_noncePacket _ _ _ _)
  | dh nonce time keys a b htemp h => exact .inr (length_nonceDhPacket _ _ _ (P.length_power b))

theorem rpccSendHandshake_eq (env : Env) (e : Endpoint σ) :
    ∃ pid remotePid raw, Framed raw ∧
      tcpRpccSendHandshakePacket c env e = tcpRpcConnSend {e with pid, remotePid} raw := by
  have hpid : ∃ pid, (if e.pid.ip = 0#32 then initClientPid c env e else e) = {e with pid} := by
    split_ifs
    · exact ⟨_,rfl⟩
    · exact ⟨e.pid,rfl⟩
  obtain ⟨pid,hpid⟩ := hpid
  rw [tcpRpccSendHandshakePacket,hpid]
  by_cases hport : e.remotePid.port = 0#16
  · rw [if_pos hport]
    exact ⟨pid,_,_,handshake_framed _ _ _,rfl⟩
  · rw [if_neg hport]
    exact ⟨pid,e.remotePid,_,handshake_framed _ _ _,rfl⟩

theorem initServerPid_eq (env : Env) (e : Endpoint σ) :
    ∃ pid, initServerPid s env e = {e with pid} := by
  rw [initServerPid]
  by_cases hip : e.pid.ip ≠ 0#32
  · rw [if_pos hip]
    exact ⟨e.pid,rfl⟩
  · rw [if_neg hip]
    exact ⟨_,rfl⟩

/-- A side that failed in a call that does not report it as ready. -/
def Spoiled (e r : Endpoint σ) : Prop := r.error ≠ none ∧ r.ready = e.ready

theorem rpcsHandshake_cases (env : Env) (e : Endpoint σ) (msg : Bytes) :
    Spoiled e (tcpRpcsProcessHandshakePacket s env e msg) ∨
      ∃ pid remotePid flags, tcpRpcsProcessHandshakePacket s env e msg =
        {e with pid, remotePid, cryptoFlags := flags} := by
  obtain ⟨pid,heq⟩ := initServerPid_eq (s := s) env e
  unfold tcpRpcsProcessHandshakePacket
  rw [heq]
  by_cases hnum : e.inPacketNum ≠ -1#32 ∨ lookup4 msg ≠ rpcHandshake
  · rw [if_pos hnum]
    exact .inl ⟨Option.some_ne_none _,rfl⟩
  rw [if_neg hnum]
  by_cases hlen : msg.length ≠ 32
  · rw [if_pos hlen]
    exact .inl ⟨Option.some_ne_none _,rfl⟩
  rw [if_neg hlen]
  dsimp only
  by_cases hpid : matchesPid pid (.ofBytes (msg.drop 20)) = false ∧ s.ignorePid = false
  · rw [if_pos hpid]
    exact .inl ⟨Option.some_ne_none _,rfl⟩
  rw [if_neg hpid]
  by_cases hflags : lookup4 (msg.drop 4) &&& 0xff#32 ≠ 0#32
  · rw [if_pos hflags]
    exact .inl ⟨Option.some_ne_none _,rfl⟩
  rw [if_neg hflags]
  by_cases hcrc : lookup4 (msg.drop 4) &&& s.defaultRpcFlags &&& rpcfUseCrc32c ≠ 0#32
  · rw [if_pos hcrc]
    exact .inr ⟨pid,_,_,rfl⟩
  · rw [if_neg hcrc]
    exact .inr ⟨pid,_,e.cryptoFlags,rfl⟩

/-- The end of the call for a packet of the server. -/
def settle (e : Endpoint σ) : Endpoint σ := if e.error.isSome then e else advance e

/-- What the server does behind its answer. -/
def readied (e : Endpoint σ) : Endpoint σ :=
  if e.error.isSome then e
  else if e.hasFlag rpcfUseCrc32c then {e with customCrcPartial := .crc32c, ready := true}
  else {e with ready := true}

theorem settle_lost {e r : Endpoint σ} (h : Spoiled e r) : Spoiled e (settle r) := by
  rw [settle,if_pos (Option.isSome_iff_ne_none.mpr h.1)]
  exact h

theorem settle_none {e : Endpoint σ} (h : e.error = none) : settle e = advance e :=
  if_neg (by simp [h])

theorem settle_readied {e : Endpoint σ} (h : e.error = none) :
    settle (readied e) =
      advance {e with customCrcPartial := if e.cryptoFlags &&& rpcfUseCrc32c ≠ 0#32 then .crc32c
                        else e.customCrcPartial, ready := true} := by
  rw [readied,if_neg (by simp [h])]
  by_cases hflag : e.cryptoFlags &&& rpcfUseCrc32c ≠ 0#32
  · rw [if_pos hflag,if_pos (by simpa [Endpoint.hasFlag] using hflag)]
    exact settle_none h
  · rw [if_neg hflag,if_neg (by simpa [Endpoint.hasFlag] using hflag)]
    exact settle_none h

/-- The handshake packet of a client at a server: the server is lost, or it answers and takes
the checksum that its answer names. -/
theorem rpcsTake_handshake {e : Endpoint σ} (he : e.error = none) (env : Env) (msg : Bytes) :
    Spoiled e (tcpRpcsTake P s env e (-1#32) msg) ∨
      ∃ pid remotePid flags raw e', Framed raw ∧ lookup4 (raw.drop 4) = flags &&& rpcfUseCrc32c ∧
        e' = tcpRpcConnSendIm P {e with pid, remotePid, cryptoFlags := flags} raw ∧
        tcpRpcsTake P s env e (-1#32) msg =
          advance {e' with customCrcPartial := if flags &&& rpcfUseCrc32c ≠ 0#32 then .crc32c
                             else e.customCrcPartial, ready := true} := by
  have htake : tcpRpcsTake P s env e (-1#32) msg =
      settle (if (tcpRpcsProcessHandshakePacket s env e msg).error.isSome
        then tcpRpcsProcessHandshakePacket s env e msg
        else readied (tcpRpcsSendHandshakePacket P (tcpRpcsProcessHandshakePacket s env e msg))) :=
    rfl
  rw [htake]
  obtain hlost | ⟨pid,remotePid,flags,heq⟩ := rpcsHandshake_cases (s := s) env e msg
  · rw [if_pos (Option.isSome_iff_ne_none.mpr hlost.1)]
    exact .inl (settle_lost hlost)
  · rw [heq,if_neg (by simp [he]),tcpRpcsSendHandshakePacket]
    by_cases hip : pid.ip = 0#32
    · rw [if_pos hip]
      exact .inl ⟨Option.some_ne_none _,rfl⟩
    · rw [if_neg hip]
      refine .inr ⟨pid,remotePid,flags,_,_,handshake_framed _ pid remotePid,
        handshake_flags _ _ _,rfl,?_⟩
      exact settle_readied he

theorem rpccRefuse_spoiled (env : Env) (e : Endpoint σ) (code : ℤ) :
    Spoiled e (tcpRpccRefuse c env e code) := by
  unfold tcpRpccRefuse
  split_ifs
  · exact ⟨Option.some_ne_none _,rfl⟩
  · exact ⟨Option.some_ne_none _,rfl⟩

theorem rpccHandshake_cases (env : Env) (e : Endpoint σ) (msg : Bytes) :
    Spoiled e (tcpRpccProcessHandshakePacket c env e msg) ∨
      ∃ remotePid flags, tcpRpccProcessHandshakePacket c env e msg =
        {e with remotePid, cryptoFlags := flags,
                customCrcPartial := if lookup4 (msg.drop 4) &&& rpcfUseCrc32c = 0#32
                  then e.customCrcPartial else .crc32c} := by
  have hspoiled : ∀ (pid : ProcessId) code,
      Spoiled e (tcpRpccRefuse c env {e with remotePid := pid} code) := by
    intro pid code
    exact rpccRefuse_spoiled (c := c) env {e with remotePid := pid} code
  unfold tcpRpccProcessHandshakePacket
  by_cases hnum : e.inPacketNum-1#32 ≠ -1#32 ∨ lookup4 msg ≠ rpcHandshake
  · rw [if_pos hnum]
    exact .inl ⟨Option.some_ne_none _,rfl⟩
  rw [if_neg hnum]
  by_cases hlen : msg.length ≠ 32
  · rw [if_pos hlen]
    exact .inl (rpccRefuse_spoiled env e _)
  rw [if_neg hlen]
  dsimp only
  by_cases hsender : matchesPid (.ofBytes (msg.drop 8)) e.remotePid = false ∧ c.ignorePid = false
  · rw [if_pos hsender]
    exact .inl (rpccRefuse_spoiled env e _)
  rw [if_neg hsender]
  by_cases hpid : matchesPid e.pid (.ofBytes (msg.drop 20)) = false
  · rw [if_pos hpid]
    exact .inl (hspoiled _ _)
  rw [if_neg hpid]
  by_cases hflags : lookup4 (msg.drop 4) &&& 0xff#32 ≠ 0#32
  · rw [if_pos hflags]
    exact .inl (hspoiled _ _)
  rw [if_neg hflags]
  by_cases hcrc : lookup4 (msg.drop 4) &&& rpcfUseCrc32c = 0#32
  · rw [if_pos hcrc,if_pos hcrc]
    exact .inr ⟨_,e.cryptoFlags,rfl⟩
  rw [if_neg hcrc]
  by_cases hdefault : c.defaultRpcFlags &&& rpcfUseCrc32c = 0#32
  · rw [if_pos hdefault]
    exact .inl (hspoiled _ _)
  · rw [if_neg hdefault,if_neg hcrc]
    exact .inr ⟨_,_,rfl⟩

/-- The handshake packet of a server at a client. -/
theorem rpccTake_handshake {e : Endpoint σ} (he : e.error = none) (env : Env) (msg : Bytes) :
    Spoiled e (tcpRpccTake P c env e (-1#32) msg) ∨
      ∃ remotePid flags, tcpRpccTake P c env e (-1#32) msg =
        {e with remotePid, cryptoFlags := flags, ready := true,
                inPacketNum := e.inPacketNum+1#32,
                customCrcPartial := if lookup4 (msg.drop 4) &&& rpcfUseCrc32c = 0#32
                  then e.customCrcPartial else .crc32c} := by
  rw [tcpRpccTake]
  dsimp only
  rw [if_pos (by decide),if_neg (by decide),if_pos rfl]
  obtain hlost | ⟨remotePid,flags,heq⟩ :=
    rpccHandshake_cases (c := c) env {e with inPacketNum := e.inPacketNum+1#32} msg
  · rw [if_pos (Option.isSome_iff_ne_none.mpr hlost.1)]
    exact .inl hlost
  · rw [heq,if_neg (by simp [he])]
    exact .inr ⟨remotePid,flags,rfl⟩

theorem rpcsTake_nonce (env : Env) (e : Endpoint σ) (msg : Bytes) :
    Spoiled e (tcpRpcsTake P s env e (-2#32) msg) ∨
      ∃ e', tcpRpcsProcessNoncePacket P s env e msg = .ok e' ∧
        (e'.error = none → tcpRpcsTake P s env e (-2#32) msg = advance e') := by
  cases hproc : tcpRpcsProcessNoncePacket P s env e msg with
  | error f =>
      have htake : tcpRpcsTake P s env e (-2#32) msg = settle (e.fail f) := by
        rw [tcpRpcsTake,hproc]
        rfl
      rw [htake]
      exact .inl (settle_lost ⟨Option.some_ne_none _,rfl⟩)
  | ok e' =>
      have htake : tcpRpcsTake P s env e (-2#32) msg = settle e' := by
        rw [tcpRpcsTake,hproc]
        rfl
      rw [htake]
      exact .inr ⟨e',rfl,settle_none⟩

theorem rpccTake_nonce (env : Env) (e : Endpoint σ) (msg : Bytes) :
    Spoiled e (tcpRpccTake P c env e (-2#32) msg) ∨
      ∃ e', tcpRpccProcessNoncePacket P c (advance e) msg = .ok e' ∧
        tcpRpccTake P c env e (-2#32) msg = tcpRpccSendHandshakePacket c env e' := by
  cases hproc : tcpRpccProcessNoncePacket P c (advance e) msg with
  | error f =>
      have htake : tcpRpccTake P c env e (-2#32) msg = (advance e).fail f := by
        rw [advance] at hproc
        rw [tcpRpccTake,hproc]
        rfl
      rw [htake]
      exact .inl ⟨Option.some_ne_none _,rfl⟩
  | ok e' =>
      refine .inr ⟨e',rfl,?_⟩
      rw [advance] at hproc
      rw [tcpRpccTake,hproc]
      rfl

section
variable {p : Packet} {rest : Bytes}

/-- The server takes the packet that the client begins with. -/
theorem hello_taken (hpair : Pair P .crc32 C S) (hoffered : offered C = [hello P c C])
    (hsilent : offered S = []) (hchecked : C.checked = [] ∧ S.checked = [])
    (hkeys : C.keys = none ∧ S.keys = none) (hready : C.ready = false ∧ S.ready = false)
    (hplain : C.writeAeskey = none ∧ S.writeAeskey = none) (hS : S.error = none)
    (hp : C.sent[S.checked.length]? = some p)
    (hflow : ∃ is plain, Flow P C (cut S p rest) is plain) :
    Inv P c s C (tcpRpcsTake P s env (cut S p rest) p.num p.payload) := by
  obtain ⟨is,plain,hflow⟩ := hflow
  have hcount : S.checked.length = 0 := congrArg List.length hchecked.2
  rw [hcount] at hp
  obtain ⟨hsent,hqueue,hmsg⟩ := sent_single hoffered hp
  have hcut : (cut S p rest).checked = [p] := congrArg (·++[p]) hchecked.2
  obtain ⟨-,-,hrest,hout,hinU,hsocket,hall,hread⟩ :=
    hflow.drained hplain.1 (by rw [hsent,hcut])
  -- nothing is under way to the client
  obtain ⟨is',plain',hback⟩ := hpair.back.flow
  rw [offered,List.append_eq_nil_iff,List.map_eq_nil_iff] at hsilent
  obtain ⟨-,-,hinBuf,hSout,hCinU,hSsocket,-,hCread⟩ :=
    hback.drained hplain.2 (by rw [hsilent.1]; exact Nat.zero_le _)
  have hhears := hpair.forth.hears hS
  have hnum : p.num = -2#32 := (hpair.forth.sends.stamped 0 p hp).1
  rw [hnum,hmsg]
  obtain hlost | ⟨e,hproc,heq⟩ := rpcsTake_nonce (P := P) (s := s) env (cut S p rest) (hello P c C)
  · exact .inr (.inl ⟨hlost.1,hlost.2.trans hready.2⟩)
  · have hbare : Bare (cut S p rest) := ⟨hkeys.2,hplain.2,hread⟩
    obtain ⟨flags,time,nonce,keys,ns,hanswer,hanswered⟩ := server_nonce hbare hproc
    rw [heq (by rw [hanswered]; exact hS),hanswered]
    have htakes := hhears.takes (by omega) ((crcAt_crc32 _).trans
      (hhears.crc.trans (crcAt_crc32 _)).symm) p
    have hstamp := hpair.back.sends.stamp hsilent.2 (Answer.framed hanswer)
      (hhears.crc.trans ((crcAt_crc32 _).trans (crcAt_crc32 _).symm))
    refine .inr (.inr (.inl ⟨⟨?_,?_⟩,⟨hqueue,hout,hsocket⟩,⟨hsilent.2,hSout,hinU,hrest⟩,
      ⟨hall,congrArg List.length hsent⟩,hchecked.1,⟨hkeys.1,hplain.1,hCread⟩,⟨ns,?_,hanswer⟩,rfl,
      hready⟩))
    · exact .fresh hplain.1 hinU hsocket hrest hout hall hpair.forth.sends
        (fun _ => ⟨htakes.number,htakes.crc,htakes.count⟩) hpair.forth.clean
    · refine ⟨⟨[.packet ⟨S.customCrcPartial,S.outPacketNum,ns⟩],S.frame P ns,?_,fun _ => hCinU,
        ?_,?_,fun _ => rfl,?_⟩,⟨hstamp.queue,hstamp.framed,hstamp.number,hstamp.stamped,
        hstamp.current⟩,hpair.back.hears,hpair.back.clean⟩
      · rw [hCread,hCinU]
        refine ⟨rfl,?_⟩
        change S.socket++S.frame P ns = _
        rw [hSsocket]
        rfl
      · change C.inBuf++S.frame P ns++S.out = _
        rw [hinBuf,hSout]
        rfl
      · change C.checked++[_] = S.sent++[_]
        rw [hchecked.1,hsilent.1]
        rfl
      · change 4 ∣ S.out.length
        rw [hSout]
        exact Nat.dvd_zero 4
    · change (S.sent++[_]).map Packet.payload = _
      rw [hsilent.1]
      rfl

theorem Answered.idle (h : Answered P s C S) {m : ℕ} {buf : Bytes} {f : Option Failure}
    (hpair : Pair P .crc32 (bare S) {C with skipBytes := m, inBuf := buf, error := f}) :
    Answered P s {C with skipBytes := m, inBuf := buf, error := f} S :=
  ⟨hpair.symm,h.client,h.server,h.sent,h.checked,
    ⟨h.bareClient.keys,h.bareClient.write,h.bareClient.read⟩,h.answer,h.ciphers,h.ready⟩

/-- The client takes the answer. -/
theorem Answered.taken (hcons : Consistent c s) (h : Answered P s C S) (hC : C.error = none)
    (hp : S.sent[C.checked.length]? = some p)
    (hflow : ∃ is plain, Flow P (bare S) (cut C p rest) is plain) :
    Inv P c s (tcpRpccTake P c env (cut C p rest) p.num p.payload) S := by
  obtain ⟨is,plain,hflow⟩ := hflow
  obtain ⟨ns,hsent,hanswer⟩ := h.answer
  have hcount : C.checked.length = 0 := congrArg List.length h.checked
  rw [hcount] at hp
  have hoffered : offered S = [ns] := by
    rw [offered,hsent,h.server.1]
    rfl
  obtain ⟨hsentS,-,hmsg⟩ := sent_single hoffered hp
  have hcut : (cut C p rest).checked = [p] := congrArg (·++[p]) h.checked
  obtain ⟨-,-,hrest,-,hCinU,hSsocket,hall,-⟩ :=
    hflow.drained rfl (by change S.sent.length ≤ _; rw [hsentS,hcut])
  have hhears := h.pair.back.hears hC
  have hsends := h.pair.back.sends
  have hnum : p.num = -2#32 := (hsends.stamped 0 p hp).1
  rw [hnum,hmsg]
  obtain hlost | ⟨e,hproc,htake⟩ := rpccTake_nonce (P := P) (c := c) env (cut C p rest) ns
  · exact .inl ⟨hlost.1,hlost.2.trans h.ready.1⟩
  · obtain ⟨flags,temp,hkeys⟩ := client_nonce (e := advance (cut C p rest)) hcons
      ⟨h.bareClient.keys,h.bareClient.write,h.bareClient.read⟩ hanswer hproc
    obtain ⟨pid,remotePid,raw,hraw,heq⟩ := rpccSendHandshake_eq (c := c) env e
    subst hkeys
    rw [htake,heq]
    have hwrite := congrArg Endpoint.writeAeskey h.ciphers
    have hread := congrArg Endpoint.readAeskey h.ciphers
    have htakes := hhears.takes (by omega) ((crcAt_crc32 _).trans
      (hhears.crc.trans (crcAt_crc32 _)).symm) p
    have hclient := h.pair.forth.sends
    refine .inr (.inr (.inr ⟨.crc32,⟨?_,?_⟩,.shaking ?_ ?_ rfl h.ready⟩))
    · refine .fresh ?_ h.server.2.2.1 h.client.2.2 h.server.2.2.2 h.client.2.1 h.sent.1
        ⟨?_,hclient.framed,hclient.number,hclient.stamped,fun i _ => ?_⟩
        (fun he => ?_) h.pair.forth.clean
      · rw [← hread]
        change (S.keys.map _).map _ = S.keys.map _
        rw [Option.map_map]
        rfl
      · intro x hx
        change x ∈ C.outQueue++[raw] at hx
        rw [h.client.1,List.nil_append,List.mem_singleton] at hx
        rw [hx]
        exact hraw
      · exact hhears.crc.trans ((crcAt_crc32 _).trans (crcAt_crc32 _).symm)
      · have hhear := h.pair.forth.hears he
        exact ⟨hhear.number,hhear.crc,hhear.count⟩
    · refine .fresh ?_ hCinU hSsocket hrest h.server.2.1 hall
        ⟨hsends.queue,hsends.framed,hsends.number,hsends.stamped,hsends.current⟩
        (fun _ => ⟨htakes.number,htakes.crc,htakes.count⟩) h.pair.back.clean
      rw [← hwrite]
      change S.keys.map _ = (S.keys.map _).map _
      rw [Option.map_map]
      rfl
    · refine ⟨?_,congrArg List.length hoffered⟩
      change (C.sent.map Packet.payload++(C.outQueue++[raw])).length = 2
      rw [h.client.1,List.length_append,List.length_map,h.sent.2]
      rfl
    · exact ⟨congrArg List.length hcut,(congrArg List.length h.sent.1).trans h.sent.2⟩

/-- The server takes the handshake packet of the client and answers it. -/
theorem shaking_taken (hpair : Pair P .crc32 C S)
    (hoffered : (offered C).length = 2 ∧ (offered S).length = 1)
    (hchecked : C.checked.length = 1 ∧ S.checked.length = 1) (hkeys : C.keys = S.keys.map .swap)
    (hready : C.ready = false ∧ S.ready = false) (hS : S.error = none)
    (hp : C.sent[S.checked.length]? = some p)
    (hflow : ∃ is plain, Flow P C (cut S p rest) is plain) :
    Inv P c s C (tcpRpcsTake P s env (cut S p rest) p.num p.payload) := by
  obtain ⟨is,plain,hflow⟩ := hflow
  obtain ⟨is',plain',hback⟩ := hpair.back.flow
  have hle := hpair.back.checked_le
  have hlen := hoffered.2
  rw [length_offered] at hlen
  have hqueue : S.outQueue = [] := List.length_eq_zero_iff.mp (by omega)
  have hsent : S.sent.length = 1 := by omega
  have hhears := hpair.forth.hears hS
  have hcrc : S.customCrcPartial = .crc32 := hhears.crc.trans (crcAt_crc32 _)
  have hnum : p.num = -1#32 := by
    rw [(hpair.forth.sends.stamped _ p hp).1,hchecked.2]
    decide
  rw [hnum]
  obtain hlost | ⟨pid,remotePid,flags,raw,e,hraw,hflags,rfl,heq⟩ :=
    rpcsTake_handshake (s := s) (e := cut S p rest) hS env p.payload
  · exact .inr (.inl ⟨hlost.1,hlost.2.trans hready.2⟩)
  · rw [heq]
    obtain ⟨Y,hY⟩ : ∃ Y, Y = if flags &&& rpcfUseCrc32c ≠ 0#32 then .crc32c
        else (cut S p rest).customCrcPartial := ⟨_,rfl⟩
    rw [← hY]
    have hstamp := hpair.back.sends.stamp hqueue hraw (hcrc.trans (crcAt_crc32 _).symm)
    have hagree := hstamp.agree (by
      rw [length_offered]
      change (S.sent++[_]).length+S.outQueue.length ≤ 2
      rw [hqueue,List.length_append,hsent]
      rfl) Y
    have hsend := hback.sendIm (P := P) hraw
    have htakes := hhears.takes (by omega) ((crcAt_crc32 _).trans hcrc.symm) p
    have htwo : (S.checked++[p]).length = 2 := by rw [List.length_append,hchecked.2]; rfl
    refine .inr (.inr (.inr ⟨Y,⟨?_,?_⟩,@Progress.half Y _ _ raw hoffered.1 ⟨hchecked.1,htwo⟩ hkeys
      ⟨hready.1,rfl⟩ rfl ⟨?_,?_⟩⟩))
    · refine ⟨⟨is,plain,hflow.carries,hflow.inU,hflow.bytes,hflow.packets,hflow.words,
        hflow.aligned⟩,hpair.forth.sends.agree hoffered.1.le Y,fun _ => ⟨htakes.number,?_,
        htakes.count⟩,hpair.forth.clean⟩
      exact (crcAt_late Y (Nat.le_of_eq htwo.symm)).symm
    · refine ⟨⟨_,plain',hsend.carries,hsend.inU,hsend.bytes,hsend.packets,hsend.words,
        hsend.aligned⟩,⟨hagree.queue,hagree.framed,hagree.number,hagree.stamped,?_⟩,
        fun he => (hpair.back.hears he).agree (by omega) Y,hpair.back.clean⟩
      intro i hi
      change i < S.outQueue.length at hi
      rw [hqueue] at hi
      cases hi
    · change ((S.sent++[_]).map Packet.payload++S.outQueue)[1]? = some raw
      rw [hqueue,List.append_nil,List.map_append,List.getElem?_append_right
        (by rw [List.length_map,hsent]),List.length_map,hsent]
      rfl
    · rw [hflags,BitVec.and_assoc,BitVec.and_self,hY]
      split_ifs with hflag
      · exact iff_of_true hflag rfl
      · refine iff_of_false hflag ?_
        change ¬S.customCrcPartial = _
        rw [hcrc]
        decide

/-- The client takes the handshake packet of the server. -/
theorem half_taken {hs : Bytes} (hpair : Pair P X C S) (hoffered : (offered C).length = 2)
    (hchecked : C.checked.length = 1 ∧ S.checked.length = 2) (hkeys : C.keys = S.keys.map .swap)
    (hready : C.ready = false ∧ S.ready = true) (hcrcS : S.customCrcPartial = X)
    (hflags : (offered S)[1]? = some hs ∧
      (lookup4 (hs.drop 4) &&& rpcfUseCrc32c ≠ 0#32 ↔ X = .crc32c)) (hC : C.error = none)
    (hp : S.sent[C.checked.length]? = some p)
    (hflow : ∃ is plain, Flow P S (cut C p rest) is plain) :
    Inv P c s (tcpRpccTake P c env (cut C p rest) p.num p.payload) S := by
  obtain ⟨is,plain,hflow⟩ := hflow
  obtain ⟨is',plain',hforth⟩ := hpair.forth.flow
  have hle := hpair.forth.checked_le
  rw [length_offered] at hoffered
  have hqueue : C.outQueue = [] := List.length_eq_zero_iff.mp (by omega)
  have hhears := hpair.back.hears hC
  have hcrc : C.customCrcPartial = .crc32 := by
    rw [hhears.crc,hchecked.1]
    rfl
  have hnum : p.num = -1#32 := by
    rw [(hpair.back.sends.stamped _ p hp).1,hchecked.1]
    decide
  rw [hchecked.1] at hp
  have hmsg : p.payload = hs := by
    have hlt := (List.getElem?_eq_some_iff.mp hp).1
    have hget := hflags.1
    rw [offered,List.getElem?_append_left (by rwa [List.length_map]),List.getElem?_map,hp] at hget
    exact Option.some.inj hget
  rw [hnum]
  obtain hlost | ⟨remotePid,flags,heq⟩ :=
    rpccTake_handshake (c := c) (e := cut C p rest) hC env p.payload
  · exact .inl ⟨hlost.1,hlost.2.trans hready.1⟩
  · rw [heq,hmsg]
    have hX : (if lookup4 (hs.drop 4) &&& rpcfUseCrc32c = 0#32 then (cut C p rest).customCrcPartial
        else .crc32c) = X := by
      split_ifs with hflag
      · refine hcrc.trans ?_
        cases X with
        | crc32 => rfl
        | crc32c => exact absurd hflag (hflags.2.mpr rfl)
      · exact (hflags.2.mp hflag).symm
    rw [hX]
    have htwo : (C.checked++[p]).length = 2 := by rw [List.length_append,hchecked.1]; rfl
    have hsends := hpair.forth.sends
    refine .inr (.inr (.inr ⟨X,⟨?_,?_⟩,.working ⟨htwo.ge,hchecked.2.ge⟩ hkeys ⟨rfl,hcrcS⟩⟩))
    · refine ⟨⟨is',plain',hforth.carries,hforth.inU,hforth.bytes,hforth.packets,hforth.words,
        hforth.aligned⟩,⟨hsends.queue,hsends.framed,hsends.number,hsends.stamped,?_⟩,
        hpair.forth.hears,hpair.forth.clean⟩
      intro i hi
      change i < C.outQueue.length at hi
      rw [hqueue] at hi
      cases hi
    · refine ⟨⟨is,plain,hflow.carries,hflow.inU,hflow.bytes,hflow.packets,hflow.words,
        hflow.aligned⟩,hpair.back.sends,fun _ => ⟨?_,?_,?_⟩,hpair.back.clean⟩
      · change C.inPacketNum+1#32 = number (C.checked++[p]).length
        rw [htwo,hhears.number,hchecked.1,number_succ]
      · exact (crcAt_late X htwo.ge).symm
      · change (C.checked++[p]).length ≤ 2^31+2
        rw [htwo]
        decide

end

theorem rpccTake_late {e : Endpoint σ} {i : ℕ} (h2 : 2 ≤ i) (hi : i < 2^31+2) (msg : Bytes) :
    tcpRpccTake P c env e (number i) msg =
      tcpRpcDefaultExecute (advance e) msg := by
  rw [tcpRpccTake]
  dsimp only
  rw [if_neg (number_late h2 hi)]
  rfl

theorem rpcsTake_late {e : Endpoint σ} (he : e.error = none) {i : ℕ} (h2 : 2 ≤ i)
    (hi : i < 2^31+2) (msg : Bytes) :
    tcpRpcsTake P s env e (number i) msg =
      tcpRpcDefaultExecute (advance e) msg := by
  rw [tcpRpcsTake,if_neg (number_late h2 hi)]
  unfold tcpRpcDefaultExecute
  split_ifs with hping hsome hsome
  · exact absurd hsome (by simp [he,tcpRpcConnSend])
  · rfl
  · exact absurd hsome (by simp [he])
  · rfl

/-- A number beyond `0x7fffffff` is negative, and the packet is refused. -/
theorem rpccTake_last (e : Endpoint σ) (msg : Bytes) :
    tcpRpccTake P c env e (number (2^31+2)) msg =
      (advance e).fail (.refused (-5)) := by
  rw [tcpRpccTake]
  dsimp only
  rw [if_pos number_last.1,if_neg number_last.2.1,if_neg number_last.2.2]
  rfl

theorem rpcsTake_last (e : Endpoint σ) (msg : Bytes) :
    tcpRpcsTake P s env e (number (2^31+2)) msg = e.fail (.refused (-1)) := by
  rw [tcpRpcsTake,if_pos number_last.1,if_neg number_last.2.1,if_neg number_last.2.2]
  rfl

section
variable {p : Packet} {rest : Bytes}

theorem two_le_cut (h : 2 ≤ b.checked.length) : 2 ≤ (b.checked++[p]).length := by
  rw [List.length_append]
  omega

theorem working_client (hpair : Pair P X C S) (hchecked : 2 ≤ C.checked.length ∧ 2 ≤ S.checked.length)
    (hkeys : C.keys = S.keys.map .swap) (hcrc : C.customCrcPartial = X ∧ S.customCrcPartial = X)
    (hC : C.error = none) (hp : S.sent[C.checked.length]? = some p)
    (hflow : ∃ is plain, Flow P S (cut C p rest) is plain) :
    Inv P c s (tcpRpccTake P c env (cut C p rest) p.num p.payload) S := by
  have hcount := (hpair.back.hears hC).count
  rw [(hpair.back.sends.stamped _ p hp).1]
  refine .inr (.inr (.inr ⟨X,?_⟩))
  by_cases hlast : C.checked.length = 2^31+2
  · rw [hlast,rpccTake_last]
    exact ⟨(hpair.symm.stops (.inr rfl) hflow).symm,.working ⟨two_le_cut hchecked.1,hchecked.2⟩ hkeys hcrc⟩
  · rw [rpccTake_late hchecked.1 (by omega)]
    have hnext := hpair.symm.executes hC hchecked.symm (by omega) hcrc.1 hflow p.payload
    obtain ⟨queue,heq⟩ := execute_eq (advance (cut C p rest)) p.payload
    rw [heq] at hnext ⊢
    exact ⟨hnext.symm,.working ⟨two_le_cut hchecked.1,hchecked.2⟩ hkeys hcrc⟩

theorem working_server (hpair : Pair P X C S) (hchecked : 2 ≤ C.checked.length ∧ 2 ≤ S.checked.length)
    (hkeys : C.keys = S.keys.map .swap) (hcrc : C.customCrcPartial = X ∧ S.customCrcPartial = X)
    (hS : S.error = none) (hp : C.sent[S.checked.length]? = some p)
    (hflow : ∃ is plain, Flow P C (cut S p rest) is plain) :
    Inv P c s C (tcpRpcsTake P s env (cut S p rest) p.num p.payload) := by
  have hcount := (hpair.forth.hears hS).count
  rw [(hpair.forth.sends.stamped _ p hp).1]
  refine .inr (.inr (.inr ⟨X,?_⟩))
  by_cases hlast : S.checked.length = 2^31+2
  · rw [hlast,rpcsTake_last]
    exact ⟨hpair.stops (.inl rfl) hflow,.working ⟨hchecked.1,two_le_cut hchecked.2⟩ hkeys hcrc⟩
  · rw [rpcsTake_late (e := cut S p rest) hS hchecked.2 (by omega)]
    have hnext := hpair.executes hS hchecked (by omega) hcrc.2 hflow p.payload
    obtain ⟨queue,heq⟩ := execute_eq (advance (cut S p rest)) p.payload
    rw [heq] at hnext ⊢
    exact ⟨hnext,.working ⟨hchecked.1,two_le_cut hchecked.2⟩ hkeys hcrc⟩

end

end Teleproxy.RpcStages
