import Teleproxy.RpcStages

/-!
# Agreement of the RPC handshake

Every step keeps the stage of a connection or leads to the next one: the readers, the
writers, packets to send and failures from outside. So in every run two sides that are
both ready have each other's keys, and in both directions each packet is checked with the
number and the function that its sender used.
-/
namespace Teleproxy.RpcAgreement
open ClientInput (Bytes)
open RpcKeys RpcHandshake RpcSession RpcChannel RpcStages
open StepSystem (run)

variable {σ : Type*} {P : Primitives σ} {c s : Node} {X : Crc} {C S a b : Endpoint σ} {env : Env}

theorem client_turn (hcons : Consistent c s) (h : Inv P c s C S) (hC : C.error = none) :
    Inv P c s (tcpRpccTurn P c env C) S := by
  rcases h with hlost | hlost | hanswered | ⟨X,hpair,hprogress⟩
  · exact absurd hC hlost.1
  · exact .inr (.inl hlost)
  · obtain ⟨m,rest,f,heq,hnext⟩ | ⟨p,rest,hp,heq,hflow⟩ := turn_pair (n := c) hanswered.pair.symm hC
      .client ⟨-1,-2,-3,-4⟩ (tcpRpccTake P c env)
    · rw [tcpRpccTurn,heq]
      exact .inr (.inr (.inl (hanswered.idle hnext)))
    · rw [tcpRpccTurn,heq]
      exact hanswered.taken hcons hC hp hflow
  · obtain ⟨m,rest,f,heq,hnext⟩ | ⟨p,rest,hp,heq,hflow⟩ := turn_pair (n := c) hpair.symm hC
      .client ⟨-1,-2,-3,-4⟩ (tcpRpccTake P c env)
    · rw [tcpRpccTurn,heq]
      exact .inr (.inr (.inr ⟨X,hnext.symm,hprogress⟩))
    · rw [tcpRpccTurn,heq]
      cases hprogress with
      | hello offered silent checked keys ready plain =>
          exact (no_next ((congrArg List.length silent).le.trans (Nat.zero_le _)) hp).elim
      | shaking offered checked keys ready =>
          exact (no_next (offered.2.trans checked.1.symm).le hp).elim
      | half offered checked keys ready crc flags =>
          exact half_taken hpair offered checked keys ready crc flags hC hp hflow
      | working checked keys crc => exact working_client hpair checked keys crc hC hp hflow

theorem joined_turn (h : Pair P X C S) (hprogress : Progress X (view P c C) (view P c S))
    (hS : S.error = none) : Inv P c s C (tcpRpcsTurn P s env S) := by
  obtain ⟨m,rest,f,heq,hnext⟩ | ⟨p,rest,hp,heq,hflow⟩ := turn_pair (n := s) h hS
    S.serverSide ⟨-1,-1,-1,-1⟩ (tcpRpcsTake P s env)
  · rw [tcpRpcsTurn,heq]
    exact .inr (.inr (.inr ⟨X,hnext,hprogress⟩))
  · rw [tcpRpcsTurn,heq]
    cases hprogress with
    | hello offered silent checked keys ready plain =>
        exact hello_taken h offered silent checked keys ready
          ⟨Option.isSome_eq_false_iff.mp plain.1 |> Option.isNone_iff_eq_none.mp,
            Option.isSome_eq_false_iff.mp plain.2 |> Option.isNone_iff_eq_none.mp⟩ hS hp hflow
    | shaking offered checked keys ready =>
        exact shaking_taken h offered checked keys ready hS hp hflow
    | half offered checked keys ready crc flags =>
        exact (no_next (offered.trans checked.2.symm).le hp).elim
    | working checked keys crc => exact working_server h checked keys crc hS hp hflow

theorem server_turn (h : Inv P c s C S) (hS : S.error = none) (hbuf : S.inBuf ≠ []) :
    Inv P c s C (tcpRpcsTurn P s env S) := by
  rcases h with hlost | hlost | hanswered | ⟨X,hpair,hprogress⟩
  · exact .inl hlost
  · exact absurd hS hlost.1
  · exact absurd hanswered.server.2.2.2 hbuf
  · exact joined_turn hpair hprogress hS

/-- What each turn keeps, a reader keeps. -/
theorem reader_keeps {I : Endpoint σ → Prop} {turn : Endpoint σ → Endpoint σ}
    (hturn : ∀ e, I e → e.error = none → e.inBuf ≠ [] → I (turn e))
    (hskip : ∀ e, I e → I {e with skipBytes := 0}) {e : Endpoint σ} {piece : Bytes}
    (h : I (e.receive P piece)) : I (cpuTcpServerReader P turn e piece) := by
  have hloop : ∀ fuel e, I e → I (parseLoop turn fuel e) := by
    intro fuel
    induction fuel with
    | zero => exact fun e h => h
    | succ fuel ih =>
        intro e h
        rw [parseLoop]
        split_ifs with hstop
        · exact h
        · rw [not_or,not_or,Bool.not_eq_true,Option.isSome_eq_false_iff,
            Option.isNone_iff_eq_none] at hstop
          exact ih _ (hturn e h hstop.1 hstop.2.1)
  rw [cpuTcpServerReader]
  split_ifs
  · exact h
  · exact hloop _ _ (hskip _ h)

theorem client_skips (h : Inv P c s C S) : Inv P c s {C with skipBytes := 0} S := by
  rcases h with hlost | hlost | hanswered | ⟨X,hpair,hprogress⟩
  · exact .inl hlost
  · exact .inr (.inl hlost)
  · exact .inr (.inr (.inl (hanswered.idle (hanswered.pair.symm.waits 0))))
  · exact .inr (.inr (.inr ⟨X,(hpair.symm.waits 0).symm,hprogress⟩))

theorem server_skips (h : Inv P c s C S) : Inv P c s C {S with skipBytes := 0} := by
  rcases h with hlost | hlost | hanswered | ⟨X,hpair,hprogress⟩
  · exact .inl hlost
  · exact .inr (.inl hlost)
  · exact .inr (.inr (.inl ⟨hanswered.pair.waits 0,hanswered.client,hanswered.server,
      hanswered.sent,hanswered.checked,hanswered.bareClient,hanswered.answer,
      congrArg (fun e => {e with skipBytes := 0}) hanswered.ciphers,hanswered.ready⟩))
  · exact .inr (.inr (.inr ⟨X,hpair.waits 0,hprogress⟩))

theorem view_receive (h : Pair P X a b) (m : ℕ) :
    view P c (b.receive P (a.socket.take m)) = view P c b := by
  obtain ⟨is,plain,hflow⟩ := h.forth.flow
  obtain ⟨r,inU,rest,plain',heq,-⟩ := hflow.receive m
  rw [heq]
  rfl

theorem client_receives (h : Inv P c s C S) (hC : C.error = none) (m : ℕ) :
    Inv P c s (C.receive P (S.socket.take m)) {S with socket := S.socket.drop m} := by
  rcases h with hlost | hlost | hanswered | ⟨X,hpair,hprogress⟩
  · exact absurd hC hlost.1
  · exact .inr (.inl hlost)
  · have hnext := hanswered.pair.symm.receive m
    change Pair P .crc32 _ (C.receive P (S.socket.take m)) at hnext
    rw [receive_plain hanswered.bareClient.read] at hnext ⊢
    exact .inr (.inr (.inl ⟨hnext.symm,hanswered.client,hanswered.server,hanswered.sent,
      hanswered.checked,⟨hanswered.bareClient.keys,hanswered.bareClient.write,
        hanswered.bareClient.read⟩,hanswered.answer,
      congrArg (fun e => {e with socket := S.socket.drop m}) hanswered.ciphers,hanswered.ready⟩))
  · refine .inr (.inr (.inr ⟨X,(hpair.symm.receive m).symm,?_⟩))
    rw [view_receive hpair.symm]
    exact hprogress

theorem server_receives (h : Inv P c s C S) (hS : S.error = none) (m : ℕ) :
    Inv P c s {C with socket := C.socket.drop m} (S.receive P (C.socket.take m)) := by
  rcases h with hlost | hlost | hanswered | ⟨X,hpair,hprogress⟩
  · exact .inl hlost
  · exact absurd hS hlost.1
  · have hsocket := hanswered.client.2.2
    have hdrop : C.socket.drop m = C.socket := by rw [hsocket,List.drop_nil]
    have hsame : {C with socket := C.socket.drop m} = C := by rw [hdrop]
    rw [hsame,hsocket,List.take_nil,receive_nil hanswered.server.2.2.1]
    exact .inr (.inr (.inl hanswered))
  · refine .inr (.inr (.inr ⟨X,hpair.receive m,?_⟩))
    rw [view_receive hpair]
    exact hprogress

theorem lost_writer (h : Lost a) : Lost (cpuTcpServerWriter P a) := by
  rw [cpuTcpServerWriter]
  split
  · exact ⟨Option.some_ne_none _,h.2⟩
  · exact h

theorem client_writes (h : Inv P c s C S) : Inv P c s (cpuTcpServerWriter P C) S := by
  rcases h with hlost | hlost | hanswered | ⟨X,hpair,hprogress⟩
  · exact .inl (lost_writer hlost)
  · exact .inr (.inl hlost)
  · rw [writer_idle hanswered.client.1 hanswered.client.2.1]
    exact .inr (.inr (.inl hanswered))
  · refine .inr (.inr (.inr ⟨X,hpair.writer,?_⟩))
    rw [view_writer hpair]
    exact hprogress

theorem server_writes (h : Inv P c s C S) : Inv P c s C (cpuTcpServerWriter P S) := by
  rcases h with hlost | hlost | hanswered | ⟨X,hpair,hprogress⟩
  · exact .inl hlost
  · exact .inr (.inl (lost_writer hlost))
  · rw [writer_idle hanswered.server.1 hanswered.server.2.1]
    exact .inr (.inr (.inl hanswered))
  · refine .inr (.inr (.inr ⟨X,hpair.symm.writer.symm,?_⟩))
    rw [view_writer hpair.symm]
    exact hprogress

theorem client_sends (h : Inv P c s C S) (raw : Bytes) : Inv P c s (send C raw) S := by
  rw [send]
  split_ifs with hsend
  · obtain ⟨hready,hraw⟩ := hsend
    rcases h with hlost | hlost | hanswered | ⟨X,hpair,hprogress⟩
    · exact absurd (hready.symm.trans hlost.2) (by decide)
    · exact .inr (.inl hlost)
    · exact absurd (hready.symm.trans hanswered.ready.1) (by decide)
    · have hle := hpair.back.checked_le
      cases hprogress with
      | hello offered silent checked keys ready plain =>
          exact absurd (hready.symm.trans ready.1) (by decide)
      | shaking offered checked keys ready =>
          exact absurd (hready.symm.trans ready.1) (by decide)
      | half offered checked keys ready crc flags =>
          exact absurd (hready.symm.trans ready.1) (by decide)
      | working checked keys crc =>
          refine .inr (.inr (.inr ⟨X,hpair.send hraw ?_,.working checked keys crc⟩))
          have htwo : 2 ≤ S.checked.length := checked.2
          have hsent := hpair.forth.checked_le
          exact crc.1.trans (crcAt_late X (by omega)).symm
  · exact h

theorem server_sends (h : Inv P c s C S) (raw : Bytes) : Inv P c s C (send S raw) := by
  rw [send]
  split_ifs with hsend
  · obtain ⟨hready,hraw⟩ := hsend
    rcases h with hlost | hlost | hanswered | ⟨X,hpair,hprogress⟩
    · exact .inl hlost
    · exact absurd (hready.symm.trans hlost.2) (by decide)
    · exact absurd (hready.symm.trans hanswered.ready.2) (by decide)
    · cases hprogress with
      | hello offered silent checked keys ready plain =>
          exact absurd (hready.symm.trans ready.2) (by decide)
      | shaking offered checked keys ready =>
          exact absurd (hready.symm.trans ready.2) (by decide)
      | half offered checked keys ready crc flags =>
          obtain ⟨hhs,hiff⟩ := flags
          change (RpcChannel.offered S)[1]? = _ at hhs
          have hlt := (List.getElem?_eq_some_iff.mp hhs).1
          have hmore : RpcChannel.offered (tcpRpcConnSend S raw) = RpcChannel.offered S++[raw] :=
            (List.append_assoc _ _ _).symm
          refine .inr (.inr (.inr ⟨X,(hpair.symm.send hraw ?_).symm,
            .half offered checked keys ready crc ⟨?_,hiff⟩⟩))
          · rw [length_offered] at hlt
            exact Eq.trans crc (crcAt_late X hlt).symm
          · change (RpcChannel.offered (tcpRpcConnSend S raw))[1]? = _
            rw [hmore,List.getElem?_append_left hlt]
            exact hhs
      | working checked keys crc =>
          refine .inr (.inr (.inr ⟨X,(hpair.symm.send hraw ?_).symm,.working checked keys crc⟩))
          have htwo : 2 ≤ C.checked.length := checked.1
          have hsent := hpair.back.checked_le
          exact crc.2.trans (crcAt_late X (by omega)).symm
  · exact h

theorem aborted_clean (code : ℤ) : Failure.aborted ≠ .checksum code ∧ Failure.aborted ≠ .number code :=
  ⟨nofun,nofun⟩

theorem client_aborts (h : Inv P c s C S) : Inv P c s (abort C) S := by
  rw [abort]
  split_ifs
  · exact h
  · rcases h with hlost | hlost | hanswered | ⟨X,hpair,hprogress⟩
    · exact .inl ⟨Option.some_ne_none _,hlost.2⟩
    · exact .inr (.inl hlost)
    · exact .inl ⟨Option.some_ne_none _,hanswered.ready.1⟩
    · exact .inr (.inr (.inr ⟨X,(hpair.symm.fail aborted_clean).symm,hprogress⟩))

theorem server_aborts (h : Inv P c s C S) : Inv P c s C (abort S) := by
  rw [abort]
  split_ifs
  · exact h
  · rcases h with hlost | hlost | hanswered | ⟨X,hpair,hprogress⟩
    · exact .inl hlost
    · exact .inr (.inl ⟨Option.some_ne_none _,hlost.2⟩)
    · exact .inr (.inl ⟨Option.some_ne_none _,hanswered.ready.2⟩)
    · exact .inr (.inr (.inr ⟨X,hpair.fail aborted_clean,hprogress⟩))

theorem inv_start (c s : Node) (env : Env) (pc ps : ProcessId) :
    Inv P c s (tcpRpccConnected P c env pc) (tcpRpcsInitAccepted s ps) := by
  have hoffered : offered (tcpRpccConnected P c env pc) = [hello P c (tcpRpccConnected P c env pc)] := by
    unfold tcpRpccConnected hello
    dsimp only
    split_ifs <;> rfl
  refine .inr (.inr (.inr ⟨.crc32,⟨?_,?_⟩,.hello hoffered rfl ⟨rfl,rfl⟩ ⟨rfl,rfl⟩ ⟨rfl,rfl⟩
    ⟨rfl,rfl⟩⟩))
  · refine .fresh rfl rfl rfl rfl rfl rfl ⟨?_,nofun,rfl,nofun,?_⟩
      (fun _ => ⟨rfl,rfl,Nat.zero_le _⟩)
      fun _ => ⟨(Option.some_ne_none _).symm,(Option.some_ne_none _).symm⟩
    · intro raw hraw
      change raw ∈ offered (tcpRpccConnected P c env pc) at hraw
      rw [hoffered,List.mem_singleton] at hraw
      rw [hraw]
      exact hello_framed _ _
    · exact fun i _ => (crcAt_crc32 _).symm
  · exact .fresh rfl rfl rfl rfl rfl rfl ⟨nofun,nofun,rfl,nofun,nofun⟩
      (fun _ => ⟨rfl,rfl,Nat.zero_le _⟩)
      fun _ => ⟨(Option.some_ne_none _).symm,(Option.some_ne_none _).symm⟩

theorem inv_step (hcons : Consistent c s) (w : World σ) (ev : Event)
    (h : Inv P c s w.client w.server) :
    Inv P c s (step P c s w ev).client (step P c s w ev).server := by
  cases ev with
  | clientReader bytes env =>
      change Inv P c s (RpcSession.read P (tcpRpccTurn P c env) w.client w.server bytes).1
        (RpcSession.read P (tcpRpccTurn P c env) w.client w.server bytes).2
      rw [RpcSession.read]
      split_ifs with hC
      · exact h
      · rw [Bool.not_eq_true,Option.isSome_eq_false_iff,Option.isNone_iff_eq_none] at hC
        exact reader_keeps (I := fun e => Inv P c s e _) (fun e he hnone _ => client_turn hcons he hnone)
          (fun e he => client_skips he) (client_receives h hC bytes)
  | serverReader bytes env =>
      change Inv P c s (RpcSession.read P (tcpRpcsTurn P s env) w.server w.client bytes).2
        (RpcSession.read P (tcpRpcsTurn P s env) w.server w.client bytes).1
      rw [RpcSession.read]
      split_ifs with hS
      · exact h
      · rw [Bool.not_eq_true,Option.isSome_eq_false_iff,Option.isNone_iff_eq_none] at hS
        exact reader_keeps (I := fun e => Inv P c s _ e) (fun e he hnone hbuf => server_turn he hnone hbuf)
          (fun e he => server_skips he) (server_receives h hS bytes)
  | clientWriter => exact client_writes h
  | serverWriter => exact server_writes h
  | clientSend raw => exact client_sends h raw
  | serverSend raw => exact server_sends h raw
  | clientAbort => exact client_aborts h
  | serverAbort => exact server_aborts h

theorem inv_run (hcons : Consistent c s) (env : Env) (pc ps : ProcessId) (events : List Event) :
    Inv P c s (run (step P c s) (start P c s env pc ps) events).client
      (run (step P c s) (start P c s env pc ps) events).server :=
  StepSystem.run_preserves (P := fun w => Inv P c s w.client w.server)
    (fun w ev h => inv_step hcons w ev h) events (inv_start c s env pc ps)

/-- Two sides that are ready have the same keys for the two directions. In every direction the
packets that were checked are a first part of those that were sent, each with the number and
the checksum of its sender, and none was refused for these. -/
theorem handshake_agreement (hcons : Consistent c s) (env : Env) (pc ps : ProcessId)
    (events : List Event) (w : World σ) (hw : w = run (step P c s) (start P c s env pc ps) events)
    (hclient : w.client.ready = true) (hserver : w.server.ready = true) :
    w.client.keys = w.server.keys.map .swap ∧
      w.server.checked <+: w.client.sent ∧ w.client.checked <+: w.server.sent ∧
      Clean w.client ∧ Clean w.server := by
  have hinv := inv_run (P := P) hcons env pc ps events
  rw [← hw] at hinv
  rcases hinv with hlost | hlost | hanswered | ⟨X,hpair,hprogress⟩
  · exact absurd (hclient.symm.trans hlost.2) (by decide)
  · exact absurd (hserver.symm.trans hlost.2) (by decide)
  · exact absurd (hclient.symm.trans hanswered.ready.1) (by decide)
  · obtain ⟨is,plain,hforth⟩ := hpair.forth.flow
    obtain ⟨is',plain',hback⟩ := hpair.back.flow
    refine ⟨?_,⟨_,hforth.packets⟩,⟨_,hback.packets⟩,hpair.back.clean,hpair.forth.clean⟩
    cases hprogress with
    | hello offered silent checked keys ready plain =>
        exact absurd (hclient.symm.trans ready.1) (by decide)
    | shaking offered checked keys ready =>
        exact absurd (hclient.symm.trans ready.1) (by decide)
    | half offered checked keys ready crc flags => exact keys
    | working checked keys crc => exact keys

/-- Libraries whose results can be evaluated. -/
def samplePrimitives : Primitives UInt8 where
  digests := ⟨fun bs => List.replicate 16 (bs.foldl (·+·) 0),
    fun bs => List.replicate 20 (bs.foldl (·^^^·) 0)⟩
  crc X bs := RpcRoundTrip.sampleSum bs+(if X = .crc32 then 0#32 else 1#32)
  cipher := RpcRoundTrip.sampleCipher
  size_eq := rfl
  start key iv := key.headD 0+iv.headD 0
  isGood _ := true
  power a := List.replicate 256 (a.headD 0)
  shared g a := [g.headD 0+a.headD 0]
  length_power _ := List.length_replicate
  shared_comm a b := congrArg (fun x => [x]) (UInt8.add_comm (a.headD 0) (b.headD 0))

def sampleNode (flags ourIp ourPort remoteIp remotePort : BitVec 32) : Node :=
  {defaultRpcFlags := flags, mainSecret := List.replicate 32 7, natInfo := [], ourIp, ourPort,
   ourIpv6 := [], remoteIp, remotePort, remoteIpv6 := [], maxPacketLen := 0, ignorePid := false,
   getpid := 5, getMyIpv4 := 1}

def sampleClient : Node := sampleNode (rpcfUseCrc32c ||| rpcfReqDh) 10#32 1000#32 20#32 443#32
def sampleServer : Node := sampleNode rpcfUseCrc32c 20#32 443#32 10#32 1000#32

def sampleEnv (n : UInt8) : Env := ⟨100#32,⟨List.replicate 16 n,List.length_replicate⟩,[n],true⟩

/-- A handshake with a DH exchange, in which the second packet of the client comes in two
pieces, and one packet more. -/
def sampleRun : List Event :=
  [.clientWriter,.serverReader 400 (sampleEnv 2),.clientReader 400 (sampleEnv 3),.clientWriter,
   .serverReader 20 (sampleEnv 4),.serverReader 400 (sampleEnv 4),.serverWriter,
   .clientReader 400 (sampleEnv 5),.clientSend [1,2,3,4],.clientWriter,
   .serverReader 400 (sampleEnv 6)]

def sampleWorld : World UInt8 :=
  run (step samplePrimitives sampleClient sampleServer)
    (start samplePrimitives sampleClient sampleServer (sampleEnv 1) ⟨0,0,0,0⟩ ⟨0,0,0,0⟩) sampleRun

theorem sampleWorld_ready :
    sampleWorld.client.ready = true ∧ sampleWorld.server.ready = true ∧
      sampleWorld.client.keys.isSome = true ∧ sampleWorld.server.checked.length = 3 := by
  decide +kernel

theorem handshake_agreement_sample :
    sampleWorld.client.keys.isSome = true ∧ sampleWorld.server.checked.length = 3 ∧
      sampleWorld.client.keys = sampleWorld.server.keys.map .swap ∧
      sampleWorld.server.checked <+: sampleWorld.client.sent ∧
      sampleWorld.client.checked <+: sampleWorld.server.sent ∧
      Clean sampleWorld.client ∧ Clean sampleWorld.server := by
  obtain ⟨hclient,hserver,hkeys,hchecked⟩ := sampleWorld_ready
  have hcons : Consistent sampleClient sampleServer :=
    ⟨rfl,rfl,rfl,rfl,rfl,fun _ => ⟨rfl,rfl⟩⟩
  exact ⟨hkeys,hchecked,handshake_agreement hcons (sampleEnv 1) ⟨0,0,0,0⟩ ⟨0,0,0,0⟩ sampleRun
    sampleWorld rfl hclient hserver⟩

end Teleproxy.RpcAgreement
