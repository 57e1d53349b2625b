import Teleproxy.ReloadUniqueness
import Teleproxy.WorkerProcess

/-!
# What one step of a worker can do

A connection holds a slot from the step that stores its secret id until its
close handler has run. Most of what a worker does is quiet: it moves no
connection in or out of a slot and leaves key, state and connection counter of
every slot alone. `step_effect` lists the steps that are not: the attach at the
header, the two close handlers, an accepted ClientHello, a reload and a sweep.
The results on counters, slots and the accept gate start from that list.
-/
namespace Teleproxy.WorkerProcess
open SecretSlots SecretReload ReloadUniqueness

variable {cfg : Config} {w w' w₁ w₂ : Worker} {i j : ℕ} {c c' : Conn} {x y z : Slot}
  {s t : Fin extSecretMaxSlots}

/-- The slot still serves the same secret, and its byte counters have not gone
down. -/
structure Continues (x y : Slot) : Prop where
  key : y.key = x.key
  state : y.state = x.state
  received : x.bytesReceived ≤ y.bytesReceived
  sent : x.bytesSent ≤ y.bytesSent

theorem Continues.refl (x : Slot) : Continues x x := ⟨rfl,rfl,le_refl _,le_refl _⟩

theorem Continues.trans (h : Continues x y) (h' : Continues y z) : Continues x z :=
  ⟨h'.key.trans h.key,h'.state.trans h.state,h.received.trans h'.received,h.sent.trans h'.sent⟩

theorem continues_ipTrackConnect (workers : ℤ) (preciseNow : ℚ) (a : Addr) (x : Slot) :
    Continues x (ipTrackConnect workers preciseNow a x) ∧
      (ipTrackConnect workers preciseNow a x).connections = x.connections := by
  unfold ipTrackConnect
  dsimp only
  split
  · exact ⟨⟨rfl,rfl,le_refl _,le_refl _⟩,rfl⟩
  · split
    · exact ⟨⟨rfl,rfl,le_refl _,le_refl _⟩,rfl⟩
    · split <;> exact ⟨⟨rfl,rfl,le_refl _,le_refl _⟩,rfl⟩

theorem continues_attachSlot (workers : ℤ) (preciseNow : ℚ) (a : Addr) (x : Slot) :
    Continues x (attachSlot workers preciseNow a x) ∧
      (attachSlot workers preciseNow a x).connections = x.connections+1 := by
  have h := continues_ipTrackConnect workers preciseNow a
    {x with connections := x.connections+1, connectionsCreated := x.connectionsCreated+1}
  exact ⟨⟨h.1.key,h.1.state,h.1.received,h.1.sent⟩,h.2⟩

theorem continues_detachSlot (a : Addr) (x : Slot) :
    Continues x (detachSlot a x) ∧ (detachSlot a x).connections = x.connections-1 := by
  unfold detachSlot ipTrackDisconnect
  split <;> exact ⟨⟨rfl,rfl,le_refl _,le_refl _⟩,rfl⟩

theorem continues_countRejection (r : Rejection) (x : Slot) :
    Continues x (countRejection r x) ∧ (countRejection r x).connections = x.connections := by
  cases r <;> exact ⟨⟨rfl,rfl,le_refl _,le_refl _⟩,rfl⟩

/-- The close handler of the connection has not run yet. -/
def Conn.live (c : Conn) : Bool := !c.failed || c.closeQueued

/-- The connection is counted in slot `s`. -/
def Conn.holds (s : Fin extSecretMaxSlots) (c : Conn) : Bool :=
  c.type.carriesSecretId && c.live && c.extraInt2 == s.val+1

structure Conn.Sane (c : Conn) : Prop where
  failed : c.failed → c.error
  queued : c.closeQueued → c.failed ∧ c.type.isExt
  handshake : c.inPacketNum = -3 → c.extraInt2 = 0
  packets : c.inPacketNum = -3 ∨ 0 ≤ c.inPacketNum
  direct : c.type.isDirectClient → 0 ≤ c.inPacketNum

structure Conn.Quiet (c c' : Conn) : Prop where
  holds : ∀ s, c'.holds s = c.holds s
  isTls : c'.isTls = c.isTls
  addr : c'.addr = c.addr
  live : c'.live = true → c.live = true
  sane : c.Sane → c'.Sane

structure Conn.Fresh (c : Conn) : Prop where
  holds : ∀ s, c.holds s = false
  isTls : c.isTls = false
  sane : c.Sane

theorem Conn.Quiet.refl (c : Conn) : c.Quiet c := ⟨fun _ => rfl,rfl,rfl,id,id⟩

theorem Conn.Quiet.trans {c₁ c₂ c₃ : Conn} (h : c₁.Quiet c₂) (h' : c₂.Quiet c₃) : c₁.Quiet c₃ :=
  ⟨fun s => (h'.holds s).trans (h.holds s),h'.isTls.trans h.isTls,h'.addr.trans h.addr,
    h.live ∘ h'.live,h'.sane ∘ h.sane⟩

theorem Conn.Fresh.quiet {c c' : Conn} (h : c.Fresh) (h' : c.Quiet c') : c'.Fresh :=
  ⟨fun s => (h'.holds s).trans (h.holds s),h'.isTls.trans h.isTls,h'.sane h.sane⟩

/-- A connection without error has nothing of its close done. -/
theorem Conn.Sane.open (h : c.Sane) (he : c.error = false) :
    c.failed = false ∧ c.closeQueued = false := by
  have hf : c.failed = false := by
    cases hf : c.failed with
    | false => rfl
    | true => rw [h.failed hf] at he; cases he
  refine ⟨hf,?_⟩
  cases hq : c.closeQueued with
  | false => rfl
  | true => rw [(h.queued hq).1] at hf; cases hf

theorem slotOfId_eq_some {sid : ℤ} : slotOfId sid = some s ↔ sid = s.val+1 := by
  unfold slotOfId
  constructor
  · intro h
    split at h
    · rename_i hs
      cases h
      simp only [Int.toNat_sub_of_le (by omega : 1 ≤ sid)]
      omega
    · cases h
  · intro h
    have hs := s.isLt
    rw [dif_pos (by simp only [extSecretMaxSlots] at hs ⊢; omega)]
    simp [h]

theorem slotOfId_eq_none {sid : ℤ} : slotOfId sid = none ↔ ∀ s : Fin extSecretMaxSlots,
    sid ≠ s.val+1 := by
  rw [Option.eq_none_iff_forall_ne_some]
  exact forall_congr' fun s => not_congr slotOfId_eq_some

structure Quiet (w w' : Worker) : Prop where
  pinned : w'.table.pinned = w.table.pinned
  cnt : w'.table.cnt = w.table.cnt
  slots : ∀ s, Continues (w.table.slots s) (w'.table.slots s)
  connections : ∀ s, (w'.table.slots s).connections = (w.table.slots s).connections
  conns : Store.Evolves Conn.Quiet Conn.Fresh w.conns w'.conns

theorem Quiet.of_eq (ht : w'.table = w.table) (hc : w'.conns = w.conns) : Quiet w w' := by
  refine ⟨by rw [ht],by rw [ht],fun s => ?_,fun s => by rw [ht],?_⟩
  · rw [ht]
    exact Continues.refl _
  · rw [hc]
    exact Store.Evolves.refl Conn.Quiet.refl _

theorem Quiet.refl (w : Worker) : Quiet w w := Quiet.of_eq rfl rfl

theorem Quiet.trans (h : Quiet w w₁) (h' : Quiet w₁ w₂) : Quiet w w₂ :=
  ⟨h'.pinned.trans h.pinned,h'.cnt.trans h.cnt,fun s => (h.slots s).trans (h'.slots s),
    fun s => (h'.connections s).trans (h.connections s),
    h.conns.trans (fun _ _ _ => Conn.Quiet.trans) (fun _ _ => Conn.Fresh.quiet) h'.conns⟩

/-- Gauges and clocks do not matter. -/
theorem Quiet.of_gauges (h : Quiet w₁ w') (ht : w₁.table = w.table) (hc : w₁.conns = w.conns) :
    Quiet w w' := (Quiet.of_eq ht hc).trans h

theorem Quiet.modConn {f : Conn → Conn} (hf : ∀ c, w.conns.get i = some c → c.Quiet (f c)) :
    Quiet w (w.modConn i f) :=
  ⟨rfl,rfl,fun _ => Continues.refl _,fun _ => rfl,Store.Evolves.modify Conn.Quiet.refl hf⟩

theorem Quiet.newConn (hc : c.Fresh) : Quiet w (w.newConn c) :=
  ⟨rfl,rfl,fun _ => Continues.refl _,fun _ => rfl,Store.Evolves.push Conn.Quiet.refl hc⟩

theorem Quiet.modSlot (s : Fin extSecretMaxSlots) {f : Slot → Slot}
    (hf : ∀ x, Continues x (f x) ∧ (f x).connections = x.connections) :
    Quiet w (w.modSlot s f) := by
  have hslot : ∀ t, Continues (w.table.slots t) ((w.modSlot s f).table.slots t) ∧
      ((w.modSlot s f).table.slots t).connections = (w.table.slots t).connections := by
    intro t
    by_cases ht : t = s
    · subst ht
      simpa [Worker.modSlot] using hf (w.table.slots t)
    · simpa [Worker.modSlot,ht] using Continues.refl _
  exact ⟨rfl,rfl,fun t => (hslot t).1,fun t => (hslot t).2,
    Store.Evolves.refl Conn.Quiet.refl _⟩

theorem quiet_failConnection (i : ℕ) (w : Worker) : Quiet w (failConnection i w) :=
  Quiet.modConn fun _ _ =>
    ⟨fun _ => rfl,rfl,rfl,id,fun h => ⟨fun _ => rfl,h.queued,h.handshake,h.packets,h.direct⟩⟩

theorem quiet_jobDecref (i : ℕ) (w : Worker) : Quiet w (jobDecref i w) :=
  Quiet.modConn fun _ _ =>
    ⟨fun _ => rfl,rfl,rfl,id,fun h => ⟨h.failed,h.queued,h.handshake,h.packets,h.direct⟩⟩

theorem quiet_setExtra (i : ℕ) (x : Extra) (w : Worker) :
    Quiet w (w.modConn i fun c => {c with extra := x}) :=
  Quiet.modConn fun _ _ =>
    ⟨fun _ => rfl,rfl,rfl,id,fun h => ⟨h.failed,h.queued,h.handshake,h.packets,h.direct⟩⟩

theorem quiet_setExtraInt (i : ℕ) (n : ℤ) (w : Worker) :
    Quiet w (w.modConn i fun c => {c with extraInt := n}) :=
  Quiet.modConn fun _ _ =>
    ⟨fun _ => rfl,rfl,rfl,id,fun h => ⟨h.failed,h.queued,h.handshake,h.packets,h.direct⟩⟩

theorem quiet_touch (x : Extra) (w : Worker) : Quiet w (w.touch x) := by
  unfold Worker.touch
  split
  · exact Quiet.refl w
  · exact Quiet.of_eq rfl rfl

theorem quiet_leak (x : Extra) (w : Worker) : Quiet w (w.leak x) := by
  cases x with
  | null => exact Quiet.refl w
  | rpcFunctions => exact Quiet.refl w
  | conn j =>
      exact Quiet.modConn fun _ _ =>
        ⟨fun _ => rfl,rfl,rfl,id,fun h => ⟨h.failed,h.queued,h.handshake,h.packets,h.direct⟩⟩

theorem quiet_startCrypto (i : ℕ) (w : Worker) : Quiet w (w.modConn i Conn.startCrypto) :=
  Quiet.modConn fun _ _ =>
    ⟨fun _ => rfl,rfl,rfl,id,fun h => ⟨h.failed,h.queued,(by decide : (0 : ℤ) ≠ -3).elim,
      .inr (le_refl _),fun _ => le_refl _⟩⟩

theorem quiet_proxyPassParse (i : ℕ) (x : Extra) (w : Worker) :
    Quiet w (tcpProxyPassParseExecute i x w) := by
  cases x with
  | null => exact quiet_failConnection i w
  | rpcFunctions => exact quiet_touch _ w
  | conn j => exact quiet_touch _ w

theorem fresh_outbound (t : ConnType) (i : ℕ) (ht : t.carriesSecretId = false) :
    (outboundConn t i).Fresh :=
  ⟨fun s => by simp [Conn.holds,outboundConn,ht],rfl,by simp [outboundConn],
    by simp [outboundConn],by simp [outboundConn],.inr (le_refl _),fun _ => le_refl _⟩

/-- Handing a client over to the backend moves nobody: it holds no slot before
its header is read. -/
theorem quiet_proxyConnection (b : Backend) (hc : w.conns.get i = some c) (hs : c.Sane)
    (he : c.error = false) (hn : c.inPacketNum = -3) : Quiet w (proxyConnection i b w) := by
  have hopen := hs.open he
  have hzero : c.extraInt2 = 0 := hs.handshake hn
  have hclear : Quiet w (w.modConn i fun c => {c with extraInt2 := 0}) := by
    refine Quiet.modConn fun d hd => ?_
    rw [hc] at hd
    cases hd
    exact ⟨fun s => by simp [Conn.holds,Conn.live,hzero],rfl,rfl,id,
      fun h => ⟨h.failed,h.queued,fun _ => rfl,h.packets,h.direct⟩⟩
  unfold proxyConnection
  refine hclear.trans ?_
  cases b with
  | unreachable => exact quiet_failConnection _ _
  | notAllocated =>
      refine Quiet.trans ?_ (quiet_failConnection _ _)
      exact Quiet.modConn fun _ _ =>
        ⟨fun _ => rfl,rfl,rfl,id,fun h => ⟨h.failed,h.queued,h.handshake,h.packets,h.direct⟩⟩
  | connected =>
      refine Quiet.trans (Quiet.newConn (fresh_outbound .proxyPass i rfl))
        (Quiet.trans (Quiet.modConn ?_) (quiet_proxyPassParse _ _ _))
      · intro d hd
        have hi : i ≠ (w.modConn i fun c => {c with extraInt2 := 0}).conns.size := by
          simpa [Worker.modConn] using Store.ne_size hc
        simp only [Worker.newConn] at hd
        rw [Store.get_push_other _ _ hi] at hd
        simp only [Worker.modConn,Store.get_modify_same,hc,Option.map_some,
          Option.some.injEq] at hd
        subst hd
        refine ⟨fun s => ?_,rfl,rfl,id,fun h => ⟨h.failed,?_,h.handshake,h.packets,?_⟩⟩
        · have hne : ((0 : ℤ) == s.val+1) = false := beq_eq_false_iff_ne.mpr (by omega)
          simp [Conn.holds,hne]
        · simp [hopen.2]
        · exact fun h' => by cases h'

theorem quiet_handshakeTimeout (b : Backend) (hc : w.conns.get i = some c) (hs : c.Sane)
    (he : c.error = false) (hn : c.inPacketNum = -3) :
    Quiet w (handleHandshakeTimeout cfg i b w) := by
  unfold handleHandshakeTimeout
  split
  · exact quiet_proxyConnection b hc hs he hn
  · exact quiet_failConnection i w

theorem quiet_scheduleRetry (i : ℕ) (attempt : ℤ) (w : Worker) :
    Quiet w (directScheduleRetry i attempt w) := by
  unfold directScheduleRetry
  split
  · exact (quiet_failConnection _ _).of_gauges rfl rfl
  · exact (quiet_setExtraInt i (attempt+1) w).trans (Quiet.of_eq rfl rfl)

theorem fresh_dcConn (i : ℕ) (c : Conn) (targetDc dcId : ℤ) (a : ℕ) :
    (dcConn cfg i c targetDc dcId a).Fresh := by
  have h := fresh_outbound .directDc i rfl
  exact ⟨fun _ => rfl,h.isTls,h.sane.failed,h.sane.queued,
    fun hn => (by decide : (0 : ℤ) ≠ -3).elim hn,h.sane.packets,h.sane.direct⟩

theorem quiet_linkDc (i : ℕ) (c : Conn) (targetDc dcId : ℤ) (a : ℕ) (w : Worker) :
    Quiet w (linkDc cfg i c targetDc dcId a w) := by
  unfold linkDc
  refine Quiet.trans (Quiet.newConn (fresh_dcConn i c targetDc dcId a))
    (Quiet.trans (Quiet.modConn ?_) (Quiet.of_eq rfl rfl))
  exact fun _ _ => ⟨fun _ => rfl,rfl,rfl,id,fun h => ⟨h.failed,h.queued,h.handshake,h.packets,h.direct⟩⟩

theorem quiet_retryDcConnection (i : ℕ) (c : Conn) (attempt : Option ℕ) (w : Worker) :
    Quiet w (directRetryDcConnection cfg i c attempt w) := by
  unfold directRetryDcConnection
  cases directDcLookup cfg.dcOverrides c.extraInt4 with
  | none =>
      exact (quiet_setExtraInt i 0 w).trans ((quiet_failConnection _ _).of_gauges rfl rfl)
  | some dcId =>
      cases attempt with
      | none => exact (quiet_scheduleRetry _ _ _).of_gauges rfl rfl
      | some a => exact (quiet_linkDc i c c.extraInt4 dcId a w).trans (quiet_setExtraInt i 0 _)

/-- The switch to a relay type keeps a client in its slot. -/
theorem quiet_connectToDc (targetDc : ℤ) (attempt : Option ℕ) (hd : w.conns.get i = some c')
    (hs : c'.Sane) (he : c'.error = false) (ht : c'.type.isExt) (hn : 0 ≤ c'.inPacketNum) :
    Quiet w (directConnectToDc cfg i c targetDc attempt w) := by
  have hopen := hs.open he
  unfold directConnectToDc
  cases directDcLookup cfg.dcOverrides targetDc with
  | none => exact (quiet_failConnection _ _).of_gauges rfl rfl
  | some dcId =>
      have htype : Quiet w (w.modConn i fun c =>
          {c with type := if c.isTls then .directClientDrs else .directClient}) := by
        refine Quiet.modConn fun d hd' => ?_
        rw [hd] at hd'
        cases hd'
        refine ⟨fun s => ?_,rfl,rfl,id,fun h => ⟨h.failed,?_,h.handshake,h.packets,fun _ => hn⟩⟩
        · have hcar : c'.type.carriesSecretId = true := by simp [ConnType.carriesSecretId,ht]
          have hcar' : ConnType.carriesSecretId
              (if c'.isTls = true then .directClientDrs else .directClient) = true := by
            split <;> rfl
          simp only [Conn.holds,Conn.live,hcar,hcar']
        · simp [hopen.2]
      refine htype.trans ?_
      cases attempt with
      | none => exact (quiet_scheduleRetry _ _ _).of_gauges rfl rfl
      | some a => exact quiet_linkDc _ _ _ _ _ _

theorem quiet_relayCharged (i : ℕ) (x : Extra) {charge : Slot → Slot}
    (hf : ∀ x, Continues x (charge x) ∧ (charge x).connections = x.connections) (w : Worker) :
    Quiet w (relayCharged cfg i x s charge w) := by
  unfold relayCharged
  refine (Quiet.modSlot s hf).trans ?_
  dsimp only
  split
  · exact (Quiet.modSlot s (continues_countRejection .quota)).trans (quiet_failConnection _ _)
  · exact quiet_proxyPassParse _ _ _

theorem continues_chargeReceived (n : ℕ) (x : Slot) :
    Continues x (chargeReceived n x) ∧ (chargeReceived n x).connections = x.connections :=
  ⟨⟨rfl,rfl,by simp only [chargeReceived]; omega,le_refl _⟩,rfl⟩

theorem continues_chargeSent (n : ℕ) (x : Slot) :
    Continues x (chargeSent n x) ∧ (chargeSent n x).connections = x.connections :=
  ⟨⟨rfl,rfl,le_refl _,by simp only [chargeSent]; omega⟩,rfl⟩

theorem quiet_clientParse (i : ℕ) (c : Conn) (n : ℕ) (w : Worker) :
    Quiet w (tcpDirectClientParseExecute cfg i c n w) := by
  unfold tcpDirectClientParseExecute
  cases c.extra with
  | null =>
      dsimp only
      split
      · exact Quiet.refl w
      · exact quiet_failConnection i w
  | rpcFunctions => exact quiet_touch _ w
  | conn j =>
      refine (quiet_touch (.conn j) w).trans ?_
      dsimp only
      split
      · cases slotOfId c.extraInt2 with
        | none => exact quiet_proxyPassParse _ _ _
        | some s =>
            dsimp only
            split
            · exact quiet_relayCharged _ _ (continues_chargeReceived n) _
            · exact quiet_proxyPassParse _ _ _
      · exact Quiet.refl _

theorem quiet_setCrypto (i : ℕ) (w : Worker) : Quiet w (tcpDirectDcSendObfs2Init i w) :=
  Quiet.modConn fun _ _ =>
    ⟨fun _ => rfl,rfl,rfl,id,fun h => ⟨h.failed,h.queued,h.handshake,h.packets,h.direct⟩⟩

theorem quiet_dcParse (i : ℕ) (c : Conn) (n : ℕ) (r : Socks5Reply) (w : Worker) :
    Quiet w (tcpDirectDcParseExecute cfg i c n r w) := by
  unfold tcpDirectDcParseExecute
  split
  · cases socks5HandleResponse cfg c.extraInt r with
    | none => exact quiet_failConnection i w
    | some state =>
        refine (quiet_setExtraInt i state w).trans ?_
        dsimp only
        split
        · exact quiet_setCrypto i _
        · exact Quiet.refl _
  · cases c.extra with
    | null => exact quiet_proxyPassParse _ _ _
    | rpcFunctions => exact quiet_proxyPassParse _ _ _
    | conn k =>
        refine (quiet_touch (.conn k) w).trans ?_
        dsimp only
        split
        · split
          · exact quiet_relayCharged _ _ (continues_chargeSent n) _
          · exact quiet_proxyPassParse _ _ _
        · exact quiet_proxyPassParse _ _ _

theorem quiet_closeExtra (i : ℕ) (x : Extra) (w : Worker) : Quiet w (closeExtra i x w) := by
  cases x with
  | null => exact Quiet.refl w
  | rpcFunctions => exact (quiet_touch _ w).trans (quiet_setExtra i _ _)
  | conn k =>
      exact ((quiet_touch _ w).trans (quiet_setExtra i _ _)).trans
        ((quiet_failConnection k _).trans (quiet_jobDecref k _))

theorem quiet_detachForRetry (i k : ℕ) (client : Conn) (w : Worker) :
    Quiet w (detachForRetry i k client w) := by
  unfold detachForRetry
  refine Quiet.trans ?_ (quiet_jobDecref k _)
  refine Quiet.trans ?_ (quiet_scheduleRetry k client.extraInt _)
  have h := (quiet_touch (.conn k) w).trans ((quiet_leak client.extra _).trans
    ((quiet_setExtra k .null _).trans (quiet_setExtra i .null _)))
  exact h.trans (Quiet.of_eq rfl rfl)

/-- Each slot continues, or it was draining and empty and has been released. -/
structure Swept (w w' : Worker) : Prop where
  pinned : w'.table.pinned = w.table.pinned
  slots : ∀ s, Continues (w.table.slots s) (w'.table.slots s) ∧
      (w'.table.slots s).connections = (w.table.slots s).connections ∨
    w.table.pinned ≤ s.val ∧ (w.table.slots s).state = .draining ∧
      (w.table.slots s).connections = 0 ∧ (w'.table.slots s).state = .free ∧
      (w'.table.slots s).connections = 0
  conns : Store.Evolves Conn.Quiet Conn.Fresh w.conns w'.conns

theorem Quiet.swept (h : Quiet w w') : Swept w w' :=
  ⟨h.pinned,fun s => .inl ⟨h.slots s,h.connections s⟩,h.conns⟩

theorem Swept.trans (h : Swept w w₁) (h' : Swept w₁ w₂) : Swept w w₂ := by
  refine ⟨h'.pinned.trans h.pinned,fun s => ?_,
    h.conns.trans (fun _ _ _ => Conn.Quiet.trans) (fun _ _ => Conn.Fresh.quiet) h'.conns⟩
  rcases h.slots s with ⟨hc,hn⟩ | ⟨hp,hd,hz,hf,hz'⟩
  · rcases h'.slots s with ⟨hc',hn'⟩ | ⟨hp',hd',hz₁,hrest⟩
    · exact .inl ⟨hc.trans hc',hn'.trans hn⟩
    · exact .inr ⟨h.pinned ▸ hp',hc.state ▸ hd',hn ▸ hz₁,hrest⟩
  · rcases h'.slots s with ⟨hc',hn'⟩ | ⟨-,hd',-⟩
    · exact .inr ⟨hp,hd,hz,hc'.state.trans hf,hn'.trans hz'⟩
    · rw [hf] at hd'
      cases hd'

theorem swept_release (s : Fin extSecretMaxSlots) (w : Worker) :
    Swept w {w with table := tcpRpcsDrainReleaseSlotIfEmpty s w.table} := by
  have hpin : (tcpRpcsDrainReleaseSlotIfEmpty s w.table).pinned = w.table.pinned :=
    (release_slot_cases s s w.table).1
  refine ⟨hpin,fun t => ?_,Store.Evolves.refl Conn.Quiet.refl _⟩
  rcases (release_slot_cases s t w.table).2 with h | ⟨rfl,hp,hd,hz,hf⟩
  · refine .inl ⟨?_,congrArg Slot.connections h⟩
    simpa only [h] using Continues.refl _
  · refine .inr ⟨hp,hd,hz,hf,?_⟩
    simp [tcpRpcsDrainReleaseSlotIfEmpty,hd,hz,Nat.not_lt.mpr hp,zeroCounters,ipTrackClearSlot]

theorem quiet_forceClose (s : Fin extSecretMaxSlots) (w : Worker) :
    Quiet w (tcpRpcsDrainForceCloseForSlot s w) := by
  unfold tcpRpcsDrainForceCloseForSlot
  split_ifs with hp
  · exact Quiet.refl w
  · clear hp
    generalize List.range w.conns.size = is
    induction is generalizing w with
    | nil => exact Quiet.refl w
    | cons i is ih =>
        refine Quiet.trans ?_ (ih _)
        unfold Worker.withConn
        dsimp only
        split
        · split
          · refine (Quiet.modSlot s ?_).trans (quiet_failConnection _ _)
            exact fun _ => ⟨⟨rfl,rfl,le_refl _,le_refl _⟩,rfl⟩
          · exact Quiet.refl w
        · exact Quiet.refl w

theorem swept_sweepSlot (w : Worker) (s : Fin extSecretMaxSlots) : Swept w (sweepSlot w s) := by
  unfold sweepSlot
  split
  · exact (Quiet.refl w).swept
  · split
    · exact swept_release s w
    · split
      · exact (quiet_forceClose s w).swept
      · exact (Quiet.refl w).swept

theorem swept_drainSweep (w : Worker) : Swept w (drainSweepGw w) := by
  unfold drainSweepGw
  generalize (allSlots.filter fun s => w.table.pinned ≤ s.val ∧ s.val < w.table.cnt) = slots
  induction slots generalizing w with
  | nil => exact (Quiet.refl w).swept
  | cons s slots ih => exact (swept_sweepSlot w s).trans (ih _)

theorem obfs2ParseHeader_some {decrypt : Option Key → Option (Tag × ℤ)} {secrets : List Key}
    {randPadOnly : Bool} {tag : Tag} {dc : ℤ} {sid : ℕ}
    (h : obfs2ParseHeader decrypt secrets randPadOnly = some (tag,dc,sid)) :
    (secrets = [] ∧ decrypt none = some (tag,dc)) ∨
      ∃ k, secrets[sid]? = some k ∧ decrypt (some k) = some (tag,dc) := by
  unfold obfs2ParseHeader at h
  obtain ⟨⟨k,n⟩,hmem,hk⟩ := List.exists_of_findSome?_eq_some h
  rw [List.mem_zipIdx_iff_getElem?] at hmem
  have hdec : decrypt k = some (tag,dc) ∧ n = sid := by
    dsimp only at hk
    split at hk
    · rename_i heq
      split_ifs at hk
      simp only [Option.some.injEq,Prod.mk.injEq] at hk
      exact ⟨by rw [heq,hk.1,hk.2.1],hk.2.2⟩
    · cases hk
  obtain ⟨hdec,rfl⟩ := hdec
  cases secrets with
  | nil =>
      left
      have hn : k = none := by
        have := List.mem_of_getElem? hmem
        simpa using this
      exact ⟨rfl,hn ▸ hdec⟩
  | cons a as =>
      right
      simp only [List.isEmpty_cons,Bool.false_eq_true,if_false,List.getElem?_map,
        Option.map_eq_some_iff] at hmem
      obtain ⟨k',hk',rfl⟩ := hmem
      exact ⟨k',hk',hdec⟩

theorem mem_compactToSlot {T : SlotTable} :
    s ∈ compactToSlot T ↔ s.val < T.cnt ∧ (T.slots s).state ≠ .free := by
  simp [compactToSlot]

/-- An accepted header passed the checks of its slot unless it came over TLS,
and its secret id is a slot in use, or else no slot is in use and the id is
whatever lay in memory. -/
theorem headerOutcome_accepted {h : Header} {secretId : ℤ} {tag : Tag} {dc : ℤ}
    (hout : headerOutcome cfg w c h = .accepted secretId tag dc) :
    headerRejection cfg w c secretId = none ∧
      ((∃ s ∈ compactToSlot w.table, secretId = s.val) ∨
        compactToSlot w.table = [] ∧ h.decrypt none = some (tag,dc) ∧
          secretId = h.uninitialized) := by
  unfold headerOutcome at hout
  split at hout
  · cases hout
  split at hout
  · cases hout
  · rename_i tag' dc' sid hparse
    split_ifs at hout
    dsimp only at hout
    split at hout
    · cases hout
    · rename_i hrej
      cases hout
      refine ⟨hrej,?_⟩
      rcases obfs2ParseHeader_some hparse with ⟨hnil,hdec⟩ | ⟨k,hk,-⟩
      · rw [List.map_eq_nil_iff] at hnil
        exact .inr ⟨hnil,hdec,by simp [secretIdOf,hnil]⟩
      · rw [List.getElem?_map,Option.map_eq_some_iff] at hk
        obtain ⟨s,hs,-⟩ := hk
        exact .inl ⟨s,List.mem_of_getElem? hs,by simp [secretIdOf,hs]⟩

/-- The client record in the moment its close handler starts. -/
def Conn.fail (c : Conn) : Conn := {c with failed := true, refcnt := c.refcnt-1}

/-- The client record after its close notification was taken off the queue. -/
def Conn.notify (c : Conn) : Conn := {c with closeQueued := false, refcnt := c.refcnt-1}

inductive Effect (cfg : Config) (w : Worker) : Event → Worker → Prop
  | quiet {e : Event} {w' : Worker} : Quiet w w' → Effect cfg w e w'
  | attach {i : ℕ} {c : Conn} {h : Header} {attempt : Option ℕ} {b : Backend} {secretId : ℤ}
      {tag : Tag} {dc : ℤ} {w' : Worker} :
      w.conns.get i = some c → c.awaitsHeader →
      headerOutcome cfg w c h = .accepted secretId tag dc →
      Quiet (attachConnection cfg i c secretId tag dc w) w' →
      Effect cfg w (.obfs2Header i h attempt b) w'
  | hello {i : ℕ} {c : Conn} {h : ClientHello} {b : Backend} {s : Fin extSecretMaxSlots} :
      w.conns.get i = some c → helloOutcome cfg w c h = .accepted s →
      Effect cfg w (.clientHello i h b) (w.modConn i fun c => {c with isTls := true})
  | close {i : ℕ} {c : Conn} {w' : Worker} :
      w.conns.get i = some c → c.error → c.failed = false → c.type.isDirectClient →
      Quiet (releaseClient c (w.modConn i Conn.fail)) w' → Effect cfg w (.abort i) w'
  | notified {i : ℕ} {c : Conn} :
      w.conns.get i = some c → c.closeQueued →
      Effect cfg w (.closeNotified i) (mtprotoExtRpcClose c (w.modConn i Conn.notify))
  | reload {confs : List SecretConf} {timeout : ℚ} :
      Effect cfg w (.reload confs timeout) (step cfg w (.reload confs timeout))
  | sweep {w' : Worker} : Swept w w' → Effect cfg w .sweep w'

/-- Every connection record is consistent. -/
def AllSane (w : Worker) : Prop := ∀ i c, w.conns.get i = some c → c.Sane

theorem Conn.awaitsHeader_iff : c.awaitsHeader = true ↔
    c.error = false ∧ c.skipping = false ∧ c.type.isExt ∧ c.inPacketNum = -3 := by
  simp [Conn.awaitsHeader,and_assoc]

theorem modConn_modConn (w : Worker) (i : ℕ) (f g : Conn → Conn) :
    (w.modConn i f).modConn i g = w.modConn i (g ∘ f) := by
  simp only [Worker.modConn,Store.modify_modify]

theorem effect_clientHello (h : ClientHello) (b : Backend) (hc : w.conns.get i = some c)
    (hs : c.Sane) :
    Effect cfg w (.clientHello i h b) (clientHello cfg i c h b w) := by
  unfold clientHello
  split_ifs with hguard
  · exact .quiet (Quiet.refl w)
  · have hawait : c.awaitsHeader = true := by
      cases ha : c.awaitsHeader with
      | true => rfl
      | false => exact (hguard (.inl ha)).elim
    obtain ⟨he,-,-,hn⟩ := Conn.awaitsHeader_iff.mp hawait
    cases hout : helloOutcome cfg w c h with
    | fallback => exact .quiet (quiet_proxyConnection b hc hs he hn)
    | rejected s r =>
        refine .quiet ((Quiet.modSlot s (continues_countRejection r)).trans ?_)
        exact quiet_proxyConnection b hc hs he hn
    | accepted s => exact .hello hc hout

theorem attachConnection_conns (i : ℕ) (c : Conn) (secretId : ℤ) (tag : Tag) (dc : ℤ)
    (w : Worker) : (attachConnection cfg i c secretId tag dc w).conns =
      (w.modConn i (Conn.attach secretId tag dc)).conns := by
  unfold attachConnection
  dsimp only
  split <;> rfl

theorem Conn.Sane.attach (hs : c.Sane) (ht : c.type.isExt) (secretId : ℤ) (tag : Tag) (dc : ℤ) :
    (c.attach secretId tag dc).Sane ∧ (c.attach secretId tag dc).type.isExt := by
  have hext : (c.attach secretId tag dc).type.isExt = true := by
    simp only [Conn.attach]
    split
    · rfl
    · exact ht
  exact ⟨⟨hs.failed,fun hq => ⟨(hs.queued hq).1,hext⟩,(by decide : (0 : ℤ) ≠ -3).elim,
    .inr (le_refl _),fun _ => le_refl _⟩,hext⟩

theorem effect_obfs2Header (h : Header) (attempt : Option ℕ) (b : Backend)
    (hc : w.conns.get i = some c) (hs : c.Sane) :
    Effect cfg w (.obfs2Header i h attempt b) (obfs2Header cfg i c h attempt b w) := by
  unfold obfs2Header
  by_cases hguard : c.awaitsHeader = false
  · rw [if_pos hguard]
    exact .quiet (Quiet.refl w)
  · rw [if_neg hguard]
    have hawait : c.awaitsHeader = true := by simpa using hguard
    obtain ⟨he,-,ht,hn⟩ := Conn.awaitsHeader_iff.mp hawait
    cases hout : headerOutcome cfg w c h with
    | fallback => exact .quiet (quiet_proxyConnection b hc hs he hn)
    | skip =>
        refine .quiet (Quiet.modConn fun _ _ => ?_)
        exact ⟨fun _ => rfl,rfl,rfl,id,fun h => ⟨h.failed,h.queued,h.handshake,h.packets,h.direct⟩⟩
    | cipherFailed => exact .quiet ((quiet_startCrypto i w).trans (quiet_failConnection i _))
    | rejected s r =>
        refine .quiet ((quiet_startCrypto i w).trans ?_)
        exact (Quiet.modSlot s (continues_countRejection r)).trans (quiet_failConnection i _)
    | accepted secretId tag dc =>
        refine .attach hc hawait hout ?_
        dsimp only
        split_ifs
        · have hget : (attachConnection cfg i c secretId tag dc w).conns.get i =
              some (c.attach secretId tag dc) := by
            rw [attachConnection_conns]
            simp [Worker.modConn,hc]
          have hatt := hs.attach ht secretId tag dc
          exact quiet_connectToDc dc attempt hget hatt.1 he hatt.2 (le_refl _)
        · exact Quiet.refl _

theorem quiet_alarm (throttled : Bool) (attempt : Option ℕ) (b : Backend)
    (hc : w.conns.get i = some c) (hs : c.Sane) :
    Quiet w (alarm cfg i c throttled attempt b w) := by
  unfold alarm
  by_cases he : c.error = true
  · rw [if_pos he]
    exact Quiet.refl w
  · rw [if_neg he]
    have he' : c.error = false := by simpa using he
    have htimeout : Quiet w
        (if c.inPacketNum = -3 then handleHandshakeTimeout cfg i b w else w) := by
      split_ifs with hn
      · exact quiet_handshakeTimeout b hc hs he' hn
      · exact Quiet.refl w
    have hwait : ∀ w', Quiet w w' → Quiet w (if throttled then w else w') := by
      intro w' hw'
      split_ifs
      · exact Quiet.refl w
      · exact hw'
    have hretry : ∀ w', Quiet w w' → Quiet w
        (if c.extra = .null ∧ c.extraInt > 0 then directRetryDcConnection cfg i c attempt w
          else w') := by
      intro w' hw'
      split_ifs
      · exact quiet_retryDcConnection i c attempt w
      · exact hw'
    cases c.type with
    | extServer => exact htimeout
    | extServerDrs => exact hwait _ htimeout
    | directClient => exact hwait _ (hretry w (Quiet.refl w))
    | directClientDrs => exact hwait _ (hretry _ htimeout)
    | directDc => exact Quiet.refl w
    | proxyPass => exact Quiet.refl w

theorem quiet_parse (n : ℕ) (r : Socks5Reply) (hc : w.conns.get i = some c) (hs : c.Sane) :
    Quiet w (parseExecute cfg i c n r w) := by
  have hext : Quiet w (if c.inPacketNum = -3 then w
      else w.modConn i fun c => {c with inPacketNum := c.inPacketNum+1}) := by
    split_ifs with hn
    · exact Quiet.refl w
    · refine Quiet.modConn fun d hd => ?_
      rw [hc] at hd
      cases hd
      have hpos : 0 ≤ c.inPacketNum := hs.packets.resolve_left hn
      exact ⟨fun _ => rfl,rfl,rfl,id,fun h => ⟨h.failed,h.queued,fun h' => by dsimp only at h'; omega,
        .inr (by dsimp only; omega),fun _ => by dsimp only; omega⟩⟩
  unfold parseExecute
  cases c.type with
  | extServer => exact hext
  | extServerDrs => exact hext
  | directClient => exact quiet_clientParse i c n w
  | directClientDrs => exact quiet_clientParse i c n w
  | directDc => exact quiet_dcParse i c n r w
  | proxyPass => exact quiet_proxyPassParse i c.extra w

theorem quiet_connected (i : ℕ) (c : Conn) (w : Worker) : Quiet w (connected cfg i c w) := by
  have hready : Quiet w (w.modConn i fun c => {c with readyPending := false}) :=
    Quiet.modConn fun _ _ =>
      ⟨fun _ => rfl,rfl,rfl,id,fun h => ⟨h.failed,h.queued,h.handshake,h.packets,h.direct⟩⟩
  unfold connected tcpDirectDcConnected
  dsimp only
  split_ifs
  · exact Quiet.refl w
  · exact hready.trans (quiet_setExtraInt i 1 _)
  · exact hready.trans (quiet_setCrypto i _)
  · exact hready

theorem quiet_directClose_rest (i : ℕ) (c : Conn) (who : ℤ) (w : Worker)
    (hr : retryClient w c = none) : Quiet (releaseClient c w) (tcpDirectClose i c who w) := by
  unfold tcpDirectClose
  rw [hr]
  dsimp only
  split_ifs
  · exact (quiet_closeExtra i c.extra _).of_gauges rfl rfl
  · exact quiet_closeExtra i c.extra _

theorem retryClient_directClient (ht : c.type.isDirectClient) (w : Worker) :
    retryClient w c = none := by
  unfold retryClient
  cases hx : c.extra with
  | null => rfl
  | rpcFunctions => rfl
  | conn k =>
      have : c.type ≠ .directDc := by
        intro h
        rw [h] at ht
        cases ht
      simp [this]

theorem releaseClient_other (ht : c.type.isDirectClient = false) (w : Worker) :
    releaseClient c w = w := by simp [releaseClient,ht]

/-- A connection that holds no slot by its type closes quietly. -/
theorem quiet_fail (hc : w.conns.get i = some c) (he : c.error)
    (ht : c.type.carriesSecretId = false) : Quiet w (w.modConn i Conn.fail) := by
  refine Quiet.modConn fun d hd => ?_
  rw [hc] at hd
  cases hd
  refine ⟨fun s => ?_,rfl,rfl,fun h => ?_,fun h => ⟨fun _ => he,?_,h.handshake,h.packets,h.direct⟩⟩
  · simp [Conn.holds,Conn.fail,ht]
  · have hq : c.closeQueued = true := h
    simp [Conn.live,hq]
  · exact fun hq => ⟨rfl,(h.queued hq).2⟩

theorem effect_abort (hc : w.conns.get i = some c) :
    Effect cfg w (.abort i) (jsAbort i c w) := by
  unfold jsAbort
  split_ifs with hguard
  · exact .quiet (Quiet.refl w)
  · have he : c.error = true := by
      cases h : c.error with
      | true => rfl
      | false => exact (hguard (.inl h)).elim
    have hf : c.failed = false := by
      cases h : c.failed with
      | false => rfl
      | true => exact (hguard (.inr h)).elim
    change Effect cfg w (.abort i) (closeConnection i c (w.modConn i Conn.fail))
    -- `tcp_rpcs_close_connection` sets both flags, so the client stays counted
    have hext : c.type.isExt → Quiet w (tcpRpcsCloseConnection i (w.modConn i Conn.fail)) := by
      intro ht
      rw [tcpRpcsCloseConnection,modConn_modConn]
      refine Quiet.modConn fun d hd => ?_
      rw [hc] at hd
      cases hd
      have hlive : c.live = true := by simp [Conn.live,hf]
      refine ⟨fun s => ?_,rfl,rfl,fun _ => hlive,
        fun h => ⟨fun _ => he,fun _ => ⟨rfl,ht⟩,h.handshake,h.packets,h.direct⟩⟩
      simp [Conn.holds,Conn.live,Conn.fail,hf]
    unfold closeConnection
    cases ht : c.type with
    | extServer => exact .quiet (hext (by rw [ht]; rfl))
    | extServerDrs => exact .quiet (hext (by rw [ht]; rfl))
    | directClient =>
        have hd : c.type.isDirectClient = true := by rw [ht]; rfl
        exact .close hc he hf hd (quiet_directClose_rest i c 0 _ (retryClient_directClient hd _))
    | directClientDrs =>
        have hd : c.type.isDirectClient = true := by rw [ht]; rfl
        exact .close hc he hf hd (quiet_directClose_rest i c 0 _ (retryClient_directClient hd _))
    | directDc =>
        refine .quiet ((quiet_fail hc he (by rw [ht]; rfl)).trans ?_)
        cases hr : retryClient (w.modConn i Conn.fail) c with
        | none =>
            have h := quiet_directClose_rest i c 0 (w.modConn i Conn.fail) hr
            rwa [releaseClient_other (by rw [ht]; rfl)] at h
        | some kc =>
            dsimp only [tcpDirectClose]
            rw [hr]
            exact quiet_detachForRetry i kc.1 kc.2 _
    | proxyPass =>
        refine .quiet ((quiet_fail hc he (by rw [ht]; rfl)).trans ?_)
        exact quiet_closeExtra i c.extra _

/-- What a step of the worker can do to slots and to the connections in them. -/
theorem step_effect (hs : AllSane w) (e : Event) : Effect cfg w e (step cfg w e) := by
  have hwith : ∀ (e : Event) (i : ℕ) (f : Conn → Worker),
      (∀ c, w.conns.get i = some c → Effect cfg w e (f c)) → Effect cfg w e (w.withConn i f) := by
    intro e i f hf
    unfold Worker.withConn
    cases hc : w.conns.get i with
    | none => exact .quiet (Quiet.refl w)
    | some c => exact hf c hc
  cases e with
  | accept a =>
      refine .quiet (Quiet.newConn ⟨fun s => ?_,rfl,⟨by simp,by simp,by simp,.inl rfl,fun h => by cases h⟩⟩)
      have hne : ((0 : ℤ) == s.val+1) = false := beq_eq_false_iff_ne.mpr (by omega)
      simp [Conn.holds,hne]
  | upgrade i s =>
      refine hwith _ i _ fun c hc => ?_
      split_ifs
      · refine .quiet (Quiet.modConn fun _ _ => ?_)
        exact ⟨fun _ => rfl,rfl,rfl,id,fun h => ⟨h.failed,h.queued,h.handshake,h.packets,h.direct⟩⟩
      · exact .quiet (Quiet.refl w)
  | clientHello i h b => exact hwith _ i _ fun c hc => effect_clientHello h b hc (hs i c hc)
  | obfs2Header i h attempt b =>
      exact hwith _ i _ fun c hc => effect_obfs2Header h attempt b hc (hs i c hc)
  | data i n r =>
      refine hwith _ i _ fun c hc => ?_
      split_ifs
      · exact .quiet (Quiet.refl w)
      · exact .quiet (quiet_parse n r hc (hs i c hc))
  | connected i => exact hwith _ i _ fun c _ => .quiet (quiet_connected i c w)
  | alarm i throttled attempt b =>
      exact hwith _ i _ fun c hc => .quiet (quiet_alarm throttled attempt b hc (hs i c hc))
  | netFail i => exact .quiet (quiet_failConnection i w)
  | abort i => exact hwith _ i _ fun c hc => effect_abort hc
  | closeNotified i =>
      refine hwith _ i _ fun c hc => ?_
      unfold runCloseNotification
      split_ifs with hq
      · exact .notified hc hq
      · exact .quiet (Quiet.refl w)
  | finish i =>
      refine hwith _ i _ fun c hc => ?_
      unfold jsFinish
      split_ifs
      · refine .quiet (Quiet.modConn fun _ _ => ?_)
        exact ⟨fun _ => rfl,rfl,rfl,id,fun h => ⟨h.failed,h.queued,h.handshake,h.packets,h.direct⟩⟩
      · exact .quiet (Quiet.refl w)
  | reload confs timeout => exact .reload
  | sweep => exact .sweep (swept_drainSweep w)
  | tick now preciseNow => exact .quiet (Quiet.of_eq rfl rfl)

theorem allSane_evolves (hs : AllSane w)
    (h : Store.Evolves Conn.Quiet Conn.Fresh w.conns w'.conns) : AllSane w' :=
  fun _ _ hc => h.forall hs (fun _ _ h => h.sane) (fun _ h => h.sane) hc

theorem allSane_modConn {f : Conn → Conn} (hs : AllSane w)
    (hf : ∀ c, w.conns.get i = some c → c.Sane → (f c).Sane) : AllSane (w.modConn i f) := by
  intro j c hc
  by_cases hj : j = i
  · subst hj
    simp only [Worker.modConn,Store.get_modify_same,Option.map_eq_some_iff] at hc
    obtain ⟨d,hd,rfl⟩ := hc
    exact hf d hd (hs j d hd)
  · simp only [Worker.modConn,Store.get_modify_other _ _ hj] at hc
    exact hs j c hc

theorem releaseClient_conns (c : Conn) (w : Worker) : (releaseClient c w).conns = w.conns := by
  unfold releaseClient
  split_ifs
  · dsimp only
    split <;> rfl
  · rfl

theorem mtprotoExtRpcClose_conns (c : Conn) (w : Worker) :
    (mtprotoExtRpcClose c w).conns = w.conns := by
  unfold mtprotoExtRpcClose
  split <;> rfl

theorem AllSane.of_conns (hs : AllSane w) (h : w'.conns = w.conns) : AllSane w' :=
  fun i c hc => hs i c (h ▸ hc)

theorem allSane_step (hs : AllSane w) (e : Event) : AllSane (step cfg w e) := by
  have h : Effect cfg w e (step cfg w e) := step_effect hs e
  generalize hw' : step cfg w e = w' at h
  cases h with
  | quiet h => exact allSane_evolves hs h.conns
  | attach hc hawait hout h =>
      refine allSane_evolves (AllSane.of_conns ?_ (attachConnection_conns _ _ _ _ _ _)) h.conns
      refine allSane_modConn hs fun d hd hd' => ?_
      rw [hc] at hd
      cases hd
      exact (hd'.attach (Conn.awaitsHeader_iff.mp hawait).2.2.1 _ _ _).1
  | hello hc hout =>
      exact allSane_modConn hs fun d _ h => ⟨h.failed,h.queued,h.handshake,h.packets,h.direct⟩
  | close hc he hf ht h =>
      refine allSane_evolves (AllSane.of_conns ?_ (releaseClient_conns _ _)) h.conns
      refine allSane_modConn hs fun d hd hd' => ?_
      rw [hc] at hd
      cases hd
      exact ⟨fun _ => he,fun hq => ⟨rfl,(hd'.queued hq).2⟩,hd'.handshake,hd'.packets,hd'.direct⟩
  | notified hc hq =>
      refine AllSane.of_conns ?_ (mtprotoExtRpcClose_conns _ _)
      exact allSane_modConn hs fun d _ h =>
        ⟨h.failed,fun h' => (Bool.false_ne_true h').elim,h.handshake,h.packets,h.direct⟩
  | reload => exact hw' ▸ hs
  | sweep h => exact allSane_evolves hs h.conns

/-- A header that every key decrypts to a request for data centre 2. -/
def anyHeader : Header := {decrypt := fun _ => some (.pad,2)}

theorem allSane_start (T : SlotTable) : AllSane (start T) := by
  intro i c hc
  cases hc

end Teleproxy.WorkerProcess
