import Teleproxy.WorkerSteps

/-!
# Paired connections

The two ends of a relay point at each other through `extra`, and each of the
two pointers owns a reference. `Paired` says so for all connections of a
worker, together with the count of references behind every connection. It is
kept by everything but one path of `direct_connect_to_dc`. When the first
attempt fails before a connection exists, the type has been switched already
while `extra` still holds the RPC function table.
-/
namespace Teleproxy.Pairing
open SecretSlots SecretReload ReloadUniqueness WorkerProcess StepSystem

variable {cfg : Config} {w w' w₁ w₂ : Worker} {i j k : ℕ} {c c' d : Conn} {e : Event}

/-- The references that stand for pointers from other connections. -/
def Conn.linked (c : Conn) : ℤ :=
  c.refcnt-(if c.failed then 0 else 1)-(if c.closeQueued then 1 else 0)-c.leaked

theorem linked_add (n : ℤ) (hr : c'.refcnt = c.refcnt+n) (hf : c'.failed = c.failed)
    (hq : c'.closeQueued = c.closeQueued) (hl : c'.leaked = c.leaked) :
    Conn.linked c' = Conn.linked c+n := by
  rw [Conn.linked,Conn.linked,hr,hf,hq,hl]
  split_ifs <;> omega

/-- The number of connections whose `extra` points at `j`. -/
def links (j : ℕ) (w : Worker) : ℕ := w.conns.count fun c => c.extra == .conn j

/-- `j` is a connection whose memory is its own, and it points back at `i`, or
it has been closed. -/
def PointsBack (w : Worker) (i j : ℕ) : Prop :=
  i ≠ j ∧ ∃ d, w.conns.get j = some d ∧ d.freed = false ∧
    (d.extra = .conn i ∨ d.extra = .null ∧ d.failed = true)

/-- The part of the invariant that is about one record. -/
structure Conn.Typed (c : Conn) : Prop where
  ext : c.type.isExt = true → c.extra = .rpcFunctions
  relay : c.type.isExt = false → c.extra ≠ .rpcFunctions
  first : c.type.isExt = true → c.extraInt ≤ 0
  retry : c.type.isDirectClient = true → 0 < c.extraInt → c.extra = .null
  freed : c.freed = true → c.failed = true
  leaked : 0 ≤ c.leaked

structure Paired (w : Worker) : Prop where
  typed : ∀ i c, w.conns.get i = some c → Conn.Typed c
  back : ∀ i c j, w.conns.get i = some c → c.extra = .conn j → PointsBack w i j
  refs : ∀ j c, w.conns.get j = some c → Conn.linked c = links j w
  tame : w.wild = 0

/-- The pointer is the same, and so is the number of references that pointers
own. -/
structure Conn.SameLinks (c c' : Conn) : Prop where
  extra : c'.extra = c.extra
  freed : c'.freed = c.freed
  failed : c.failed = true → c'.failed = true
  linked : Conn.linked c' = Conn.linked c
  typed : Conn.Typed c → Conn.Typed c'

theorem Conn.SameLinks.refl (c : Conn) : Conn.SameLinks c c := ⟨rfl,rfl,id,rfl,id⟩

theorem Conn.SameLinks.trans {c₁ c₂ c₃ : Conn} (h : Conn.SameLinks c₁ c₂)
    (h' : Conn.SameLinks c₂ c₃) : Conn.SameLinks c₁ c₃ :=
  ⟨h'.extra.trans h.extra,h'.freed.trans h.freed,h'.failed ∘ h.failed,h'.linked.trans h.linked,
    h'.typed ∘ h.typed⟩

structure Still (w w' : Worker) : Prop where
  conns : Store.Evolves Conn.SameLinks (fun _ => False) w.conns w'.conns
  wild : w'.wild = w.wild

theorem Still.of_eq (hc : w'.conns = w.conns) (hw : w'.wild = w.wild) : Still w w' :=
  ⟨by rw [hc]; exact Store.Evolves.refl Conn.SameLinks.refl _,hw⟩

theorem Still.refl (w : Worker) : Still w w := Still.of_eq rfl rfl

theorem Still.trans (h : Still w w₁) (h' : Still w₁ w₂) : Still w w₂ :=
  ⟨h.conns.trans (fun _ _ _ => Conn.SameLinks.trans) (fun _ _ hf _ => hf) h'.conns,
    h'.wild.trans h.wild⟩

theorem Still.of_gauges (h : Still w₁ w') (hc : w₁.conns = w.conns) (hw : w₁.wild = w.wild) :
    Still w w' := (Still.of_eq hc hw).trans h

theorem Still.modConn {f : Conn → Conn}
    (hf : ∀ c, w.conns.get i = some c → Conn.SameLinks c (f c)) : Still w (w.modConn i f) :=
  ⟨Store.Evolves.modify Conn.SameLinks.refl hf,rfl⟩

theorem still_modSlot (s : Fin extSecretMaxSlots) (f : Slot → Slot) (w : Worker) :
    Still w (w.modSlot s f) := Still.of_eq rfl rfl

theorem still_failConnection (i : ℕ) (w : Worker) : Still w (failConnection i w) :=
  Still.modConn fun _ _ =>
    ⟨rfl,rfl,id,rfl,fun h => ⟨h.ext,h.relay,h.first,h.retry,h.freed,h.leaked⟩⟩

theorem Still.links (h : Still w w') (j : ℕ) : links j w' = links j w :=
  h.conns.count (fun _ _ h => by rw [h.extra]) fun _ hf => hf.elim

theorem Still.get_back (h : Still w w') (hc : w'.conns.get i = some c') :
    ∃ c, w.conns.get i = some c ∧ Conn.SameLinks c c' := by
  rcases h.conns.2 i c' hc with hold | ⟨-,hf⟩
  · exact hold
  · exact hf.elim

theorem Paired.still (hp : Paired w) (h : Still w w') : Paired w' where
  typed i c' hc' := by
    obtain ⟨c,hc,hsame⟩ := h.get_back hc'
    exact hsame.typed (hp.typed i c hc)
  back i c' j hc' hx := by
    obtain ⟨c,hc,hsame⟩ := h.get_back hc'
    rw [hsame.extra] at hx
    obtain ⟨hne,d,hd,hfree,hback⟩ := hp.back i c j hc hx
    obtain ⟨d',hd',hsd⟩ := h.conns.get hd
    refine ⟨hne,d',hd',hsd.freed.trans hfree,?_⟩
    rw [hsd.extra]
    exact hback.imp_right fun hn => ⟨hn.1,hsd.failed hn.2⟩
  refs j c' hc' := by
    obtain ⟨c,hc,hsame⟩ := h.get_back hc'
    rw [hsame.linked,h.links j]
    exact hp.refs j c hc
  tame := h.wild.trans hp.tame

theorem PointsBack.isConnection (h : PointsBack w i j) : w.isConnection (.conn j) = true := by
  obtain ⟨-,d,hd,hfree,-⟩ := h
  simp [Worker.isConnection,hd,hfree]

theorem touch_of_isConnection {x : Extra} (h : w.isConnection x = true) : w.touch x = w := by
  simp [Worker.touch,h]

/-- The newest connection can be used at once. -/
theorem touch_new (w : Worker) (s : Store Conn) (d : Conn) (hd : d.freed = false)
    (hw : w.conns = s.push d) : w.touch (.conn s.size) = w := by
  refine touch_of_isConnection ?_
  simp only [Worker.isConnection,hw,Store.get_push_new,Option.any_some,hd,Bool.not_false]

theorem isConnection_congr (h : w'.conns = w.conns) (x : Extra) :
    w'.isConnection x = w.isConnection x := by
  unfold Worker.isConnection
  rw [h]

theorem still_relay {x : Extra} (hx : x = .null ∨ w.isConnection x = true) :
    Still w (tcpDirectRelay i x w) := by
  cases x with
  | null => exact still_failConnection i w
  | rpcFunctions =>
      rcases hx with hx | hx
      · cases hx
      · cases hx
  | conn j =>
      have h : w.isConnection (.conn j) = true := hx.resolve_left (by simp)
      have heq : tcpDirectRelay i (.conn j) w = w := touch_of_isConnection h
      rw [heq]
      exact Still.refl w

theorem still_relayCharged {s : Fin extSecretMaxSlots} {f : Slot → Slot}
    (h : w.isConnection (.conn j) = true) :
    Still w (relayCharged cfg i (.conn j) s f w) := by
  unfold relayCharged
  refine (still_modSlot s f w).trans ?_
  dsimp only
  split_ifs
  · exact (still_modSlot s _ _).trans (still_failConnection i _)
  · exact still_relay (.inr h)

theorem still_clientParse (n : ℕ) (hp : Paired w) (hc : w.conns.get i = some c)
    (ht : c.type.isExt = false) : Still w (tcpDirectClientParseExecute cfg i c n w) := by
  unfold tcpDirectClientParseExecute
  cases hx : c.extra with
  | null =>
      dsimp only
      split_ifs
      · exact Still.refl w
      · exact still_failConnection i w
  | rpcFunctions => exact ((hp.typed i c hc).relay ht hx).elim
  | conn j =>
      have hj : w.isConnection (.conn j) = true := (hp.back i c j hc hx).isConnection
      dsimp only
      rw [touch_of_isConnection hj]
      split
      · split
        · split
          · exact still_relayCharged hj
          · exact still_relay (.inr hj)
        · exact still_relay (.inr hj)
      · exact Still.refl w

theorem still_setExtraInt {n : ℤ}
    (h : ∀ c, w.conns.get i = some c → 0 < n →
      c.type.isExt = false ∧ (c.type.isDirectClient = true → c.extra = .null)) :
    Still w (w.modConn i fun c => {c with extraInt := n}) := by
  refine Still.modConn fun c hc => ⟨rfl,rfl,id,rfl,fun ht => ⟨ht.ext,ht.relay,fun he => ?_,
    fun hd hn => (h c hc hn).2 hd,ht.freed,ht.leaked⟩⟩
  by_contra hn
  have hext := (h c hc (not_le.mp hn)).1
  rw [he] at hext
  cases hext

theorem still_setCrypto (i : ℕ) (b : Bool) (w : Worker) :
    Still w (w.modConn i fun c => {c with crypto := b}) :=
  Still.modConn fun _ _ =>
    ⟨rfl,rfl,id,rfl,fun h => ⟨h.ext,h.relay,h.first,h.retry,h.freed,h.leaked⟩⟩

theorem still_dcParse (n : ℕ) (r : Socks5Reply) (hp : Paired w) (hc : w.conns.get i = some c)
    (ht : c.type = .directDc) : Still w (tcpDirectDcParseExecute cfg i c n r w) := by
  unfold tcpDirectDcParseExecute
  split
  · cases socks5HandleResponse cfg c.extraInt r with
    | none => exact still_failConnection i w
    | some state =>
        have hset : Still w (w.modConn i fun c => {c with extraInt := state}) := by
          refine still_setExtraInt fun c' hc' _ => ?_
          rw [hc] at hc'
          cases hc'
          rw [ht]
          exact ⟨rfl,fun h => by cases h⟩
        refine hset.trans ?_
        dsimp only
        split_ifs
        · exact still_setCrypto i true _
        · exact Still.refl _
  · cases hx : c.extra with
    | null => exact still_relay (.inl rfl)
    | rpcFunctions => exact ((hp.typed i c hc).relay (by rw [ht]; rfl) hx).elim
    | conn k =>
        have hk : w.isConnection (.conn k) = true := (hp.back i c k hc hx).isConnection
        dsimp only
        rw [touch_of_isConnection hk]
        split
        · split
          · exact still_relayCharged hk
          · exact still_relay (.inr hk)
        · exact still_relay (.inr hk)

theorem links_size (hp : Paired w) : links w.conns.size w = 0 := by
  by_contra h
  obtain ⟨i,c,hc,hx⟩ := Store.exists_of_count_pos (Nat.pos_of_ne_zero h)
  obtain ⟨-,d,hd,-⟩ := hp.back i c _ hc (by simpa using hx)
  exact Store.ne_size hd rfl

/-- A connection without a partner gets a new one: both pointers are set and
both references counted. -/
theorem paired_link {f : Conn → Conn} (hp : Paired w) (hc : w.conns.get i = some c)
    (hx : ∀ j, c.extra ≠ .conn j) (hopen : c.failed = false)
    (hconns : w'.conns = (w.conns.modify i f).push d) (hwild : w'.wild = w.wild)
    (hfx : (f c).extra = .conn w.conns.size) (hff : (f c).freed = c.freed)
    (hfl : Conn.linked (f c) = Conn.linked c+1) (hft : Conn.Typed (f c))
    (hdx : d.extra = .conn i) (hdf : d.freed = false) (hdl : Conn.linked d = 1)
    (hdt : Conn.Typed d) : Paired w' := by
  have hi : i ≠ w.conns.size := Store.ne_size hc
  have hgeti : w'.conns.get i = some (f c) := by
    rw [hconns,Store.get_push_other _ _ (by simpa using hi)]
    simp [hc]
  have hgete : w'.conns.get w.conns.size = some d := by
    have h := Store.get_push_new (w.conns.modify i f) d
    rwa [Store.size_modify,← hconns] at h
  have hget : ∀ x, x ≠ i → x ≠ w.conns.size → w'.conns.get x = w.conns.get x := by
    intro x hxi hxe
    rw [hconns,Store.get_push_other _ _ (by simpa using hxe),Store.get_modify_other _ _ hxi]
  have hlinks : ∀ x, links x w' =
      links x w+(if x = w.conns.size then 1 else 0)+(if x = i then 1 else 0) := by
    intro x
    have hmod := Store.count_modify hc (fun c => c.extra == .conn x) f
    have hcx : (c.extra == .conn x) = false := beq_eq_false_iff_ne.mpr (hx x)
    simp only [hcx,Bool.false_eq_true,if_false,Nat.add_zero,hfx,beq_iff_eq,Extra.conn.injEq]
      at hmod
    rw [links,hconns,Store.count_push,hmod]
    simp only [hdx,beq_iff_eq,Extra.conn.injEq,links]
    simp only [eq_comm]
  have hfree : c.freed = false := by
    cases h : c.freed with
    | false => rfl
    | true => rw [(hp.typed i c hc).freed h] at hopen; cases hopen
  refine ⟨fun x a ha => ?_,fun x a y ha hxy => ?_,fun x a ha => ?_,hwild.trans hp.tame⟩
  · rcases eq_or_ne x i with rfl | hxi
    · cases hgeti.symm.trans ha
      exact hft
    rcases eq_or_ne x w.conns.size with rfl | hxe
    · cases hgete.symm.trans ha
      exact hdt
    exact hp.typed x a (hget x hxi hxe ▸ ha)
  · rcases eq_or_ne x i with rfl | hxi
    · cases hgeti.symm.trans ha
      rw [hfx,Extra.conn.injEq] at hxy
      subst hxy
      exact ⟨hi,d,hgete,hdf,.inl hdx⟩
    rcases eq_or_ne x w.conns.size with rfl | hxe
    · cases hgete.symm.trans ha
      rw [hdx,Extra.conn.injEq] at hxy
      subst hxy
      exact ⟨hi.symm,f c,hgeti,hff.trans hfree,.inl hfx⟩
    · rw [hget x hxi hxe] at ha
      obtain ⟨hne,b,hb,hbf,hback⟩ := hp.back x a y ha hxy
      have hyi : y ≠ i := by
        rintro rfl
        rw [hc] at hb
        cases hb
        rcases hback with h | ⟨-,h⟩
        · exact hx x h
        · rw [hopen] at h
          cases h
      have hye : y ≠ w.conns.size := Store.ne_size hb
      exact ⟨hne,b,(hget y hyi hye).trans hb,hbf,hback⟩
  · rw [hlinks x]
    rcases eq_or_ne x i with rfl | hxi
    · cases hgeti.symm.trans ha
      rw [hfl,hp.refs x c hc,if_neg hi,if_pos rfl]
      push_cast
      omega
    rcases eq_or_ne x w.conns.size with rfl | hxe
    · cases hgete.symm.trans ha
      rw [hdl,links_size hp,if_pos rfl,if_neg hxi]
      rfl
    · rw [hget x hxi hxe] at ha
      rw [if_neg hxi,if_neg hxe]
      exact hp.refs x a ha

/-- The end `i` lets go of its partner `k`, which may let go of `i` at the same
time. Each pointer that goes takes its reference along, or leaves it behind in
`leaked`. -/
theorem paired_unlink {f g : Conn → Conn} (hp : Paired w) (hc : w.conns.get i = some c)
    (hx : c.extra = .conn k) (hd : w.conns.get k = some d)
    (hconns : w'.conns = (w.conns.modify i f).modify k g) (hwild : w'.wild = w.wild)
    (hfx : (f c).extra = .null) (hff : (f c).freed = c.freed) (hffail : (f c).failed = true)
    (hft : Conn.Typed (f c))
    (hfl : Conn.linked (f c) + (if d.extra = .conn i then 1 else 0) =
      Conn.linked c + if (g d).extra = .conn i then 1 else 0)
    (hgx : (g d).extra = d.extra ∨ (g d).extra = .null) (hgf : (g d).freed = d.freed)
    (hgfail : d.failed = true → (g d).failed = true) (hgt : Conn.Typed (g d))
    (hgl : Conn.linked (g d) = Conn.linked d-1) : Paired w' := by
  obtain ⟨hik,d',hd',hdfree,hback⟩ := hp.back i c k hc hx
  rw [hd] at hd'
  cases hd'
  have hki : k ≠ i := hik.symm
  have hgeti : w'.conns.get i = some (f c) := by
    rw [hconns,Store.get_modify_other _ _ hik]
    simp [hc]
  have hgetk : w'.conns.get k = some (g d) := by
    rw [hconns,Store.get_modify_same,Store.get_modify_other _ _ hki,hd]
    rfl
  have hget : ∀ x, x ≠ i → x ≠ k → w'.conns.get x = w.conns.get x := by
    intro x hxi hxk
    rw [hconns,Store.get_modify_other _ _ hxk,Store.get_modify_other _ _ hxi]
  have hdx : ∀ x, x ≠ i → d.extra ≠ .conn x := by
    intro x hxi h
    rcases hback with h' | ⟨h',-⟩
    · rw [h,Extra.conn.injEq] at h'
      exact hxi h'
    · rw [h] at h'
      cases h'
  have hgdx : ∀ x, x ≠ i → (g d).extra ≠ .conn x := by
    intro x hxi h
    rcases hgx with h' | h'
    · exact hdx x hxi (h' ▸ h)
    · rw [h] at h'
      cases h'
  have hlinks : ∀ x, links x w'+(if k = x then 1 else 0)+(if d.extra = .conn x then 1 else 0) =
      links x w+(if (g d).extra = .conn x then 1 else 0) := by
    intro x
    have hdk : (w.conns.modify i f).get k = some d := by
      rw [Store.get_modify_other _ _ hki,hd]
    have h₁ := Store.count_modify hc (fun c => c.extra == .conn x) f
    have h₂ := Store.count_modify hdk (fun c => c.extra == .conn x) g
    simp only [hx,hfx,beq_iff_eq,Extra.conn.injEq,reduceCtorEq,if_false,Nat.add_zero] at h₁
    simp only [beq_iff_eq] at h₂
    simp only [links,hconns]
    omega
  refine ⟨fun x a ha => ?_,fun x a y ha hxy => ?_,fun x a ha => ?_,hwild.trans hp.tame⟩
  · rcases eq_or_ne x i with rfl | hxi
    · cases hgeti.symm.trans ha
      exact hft
    rcases eq_or_ne x k with rfl | hxk
    · cases hgetk.symm.trans ha
      exact hgt
    exact hp.typed x a (hget x hxi hxk ▸ ha)
  · rcases eq_or_ne x i with rfl | hxi
    · cases hgeti.symm.trans ha
      rw [hfx] at hxy
      cases hxy
    rcases eq_or_ne x k with rfl | hxk
    · cases hgetk.symm.trans ha
      have hyi : y = i := by
        by_contra hyi
        exact hgdx y hyi hxy
      subst hyi
      have hdy : d.extra = .conn y := by
        rcases hgx with h | h
        · exact h ▸ hxy
        · rw [h] at hxy
          cases hxy
      obtain ⟨-,c',hc',hcfree,-⟩ := hp.back x d y hd hdy
      rw [hc] at hc'
      cases hc'
      exact ⟨hki,f c,hgeti,hff.trans hcfree,.inr ⟨hfx,hffail⟩⟩
    · rw [hget x hxi hxk] at ha
      obtain ⟨hne,b,hb,hbf,hbb⟩ := hp.back x a y ha hxy
      have hyi : y ≠ i := by
        rintro rfl
        rw [hc] at hb
        cases hb
        rw [hx] at hbb
        rcases hbb with h | ⟨h,-⟩
        · rw [Extra.conn.injEq] at h
          exact hxk h.symm
        · cases h
      rcases eq_or_ne y k with rfl | hyk
      · rw [hd] at hb
        cases hb
        have hnull : d.extra = .null ∧ d.failed = true :=
          hbb.resolve_left (hdx x hxi)
        refine ⟨hne,g d,hgetk,hgf.trans hbf,.inr ⟨?_,hgfail hnull.2⟩⟩
        rcases hgx with h | h
        · exact h.trans hnull.1
        · exact h
      · exact ⟨hne,b,(hget y hyi hyk).trans hb,hbf,hbb⟩
  · have hl := hlinks x
    rcases eq_or_ne x i with rfl | hxi
    · cases hgeti.symm.trans ha
      rw [if_neg hki] at hl
      have hr := hp.refs x c hc
      split_ifs at hl hfl <;> omega
    rw [if_neg (hdx x hxi),if_neg (hgdx x hxi)] at hl
    rcases eq_or_ne x k with rfl | hxk
    · cases hgetk.symm.trans ha
      rw [if_pos rfl] at hl
      have hr := hp.refs x d hd
      omega
    · rw [hget x hxi hxk] at ha
      rw [if_neg hxk.symm] at hl
      have hr := hp.refs x a ha
      omega

theorem no_partner (hp : Paired w) (hc : w.conns.get i = some c) (ht : c.type.isExt = true)
    (j : ℕ) : c.extra ≠ .conn j := by
  rw [(hp.typed i c hc).ext ht]
  exact fun h => by cases h

theorem not_ext_of_null (hp : Paired w) (hc : w.conns.get i = some c) (hx : c.extra = .null) :
    c.type.isExt = false := by
  cases ht : c.type.isExt with
  | false => rfl
  | true =>
      rw [(hp.typed i c hc).ext ht] at hx
      cases hx

theorem outbound_typed {t : ConnType} (i : ℕ) (he : t.isExt = false)
    (hd : t.isDirectClient = false) : Conn.Typed (outboundConn t i) :=
  ⟨by simp [outboundConn,he],by simp [outboundConn],fun _ => le_refl _,
    by simp [outboundConn,hd],by simp [outboundConn],le_refl _⟩

theorem size_modConn (w : Worker) (i : ℕ) (f : Conn → Conn) :
    (w.modConn i f).conns.size = w.conns.size := rfl

/-- A client after the backend was opened for it. -/
def proxied (e : ℕ) (c : Conn) : Conn :=
  {c with extraInt2 := 0, crypto := false, refcnt := c.refcnt+1, type := .proxyPass,
          extra := .conn e}

theorem paired_proxyConnection (b : Backend) (hp : Paired w) (hc : w.conns.get i = some c)
    (ht : c.type.isExt = true) (hopen : c.failed = false) : Paired (proxyConnection i b w) := by
  have hclear : Still w (w.modConn i fun c => {c with extraInt2 := 0}) :=
    Still.modConn fun _ _ =>
      ⟨rfl,rfl,id,rfl,fun h => ⟨h.ext,h.relay,h.first,h.retry,h.freed,h.leaked⟩⟩
  unfold proxyConnection
  cases b with
  | unreachable => exact hp.still (hclear.trans (still_failConnection i _))
  | notAllocated =>
      exact hp.still (hclear.trans ((still_setCrypto i false _).trans (still_failConnection i _)))
  | connected =>
      have hconns : ((w.modConn i fun c => {c with extraInt2 := 0}).newConn
          (outboundConn .proxyPass i)).modConn i (fun c =>
            {c with crypto := false, refcnt := c.refcnt+1, type := .proxyPass,
                    extra := .conn w.conns.size}) =
          {w with conns :=
            (w.conns.modify i (proxied w.conns.size)).push (outboundConn .proxyPass i)} := by
        simp only [Worker.modConn,Worker.newConn]
        rw [Store.modify_push _ _ _ (by simpa using Store.ne_size hc),Store.modify_modify]
        rfl
      have htyped := hp.typed i c hc
      have hpair : Paired {w with conns :=
          (w.conns.modify i (proxied w.conns.size)).push (outboundConn .proxyPass i)} :=
        paired_link (f := proxied w.conns.size) hp hc (no_partner hp hc ht) hopen rfl rfl rfl rfl
          (linked_add 1 rfl rfl rfl rfl)
          ⟨by simp [ConnType.isExt,proxied],by simp [proxied],fun _ => htyped.first ht,
            by simp [ConnType.isDirectClient,proxied],htyped.freed,htyped.leaked⟩
          rfl rfl rfl (outbound_typed i rfl rfl)
      dsimp only [tcpProxyPassParseExecute]
      rw [size_modConn,hconns]
      have htouch := touch_new {w with conns :=
          (w.conns.modify i (proxied w.conns.size)).push (outboundConn .proxyPass i)}
        (w.conns.modify i (proxied w.conns.size)) (outboundConn .proxyPass i) rfl rfl
      exact hpair.still (Still.of_eq (congrArg Worker.conns htouch) (congrArg Worker.wild htouch))

theorem dcConn_typed (i : ℕ) (c : Conn) (targetDc dcId : ℤ) (a : ℕ) :
    Conn.Typed (dcConn cfg i c targetDc dcId a) := by
  have h := outbound_typed (t := .directDc) i rfl rfl
  exact ⟨h.ext,h.relay,h.first,h.retry,h.freed,h.leaked⟩

/-- A client after its first connection to a data centre was made. -/
def connectedTo (e : ℕ) (c : Conn) : Conn :=
  {c with type := if c.isTls then .directClientDrs else .directClient,
          extra := .conn e, refcnt := c.refcnt+1}

/-- A client after a retry has connected it. -/
def reconnectedTo (e : ℕ) (c : Conn) : Conn :=
  {c with extra := .conn e, refcnt := c.refcnt+1, extraInt := 0}

theorem paired_connectToDc {targetDc : ℤ} {attempt : Option ℕ} (hp : Paired w)
    (hc : w.conns.get i = some c) (ht : c.type.isExt = true) (hopen : c.failed = false)
    (hok : (directDcLookup cfg.dcOverrides targetDc).isSome = true → attempt.isSome = true) :
    Paired (directConnectToDc cfg i c' targetDc attempt w) := by
  unfold directConnectToDc
  cases hdc : directDcLookup cfg.dcOverrides targetDc with
  | none => exact hp.still ((still_failConnection i _).of_gauges rfl rfl)
  | some dcId =>
      obtain ⟨a,rfl⟩ := Option.isSome_iff_exists.mp (hok (by rw [hdc]; rfl))
      have htyped := hp.typed i c hc
      refine paired_link (f := connectedTo w.conns.size)
        (d := dcConn cfg i c' targetDc dcId a) hp hc (no_partner hp hc ht) hopen ?_ rfl rfl rfl
        (linked_add 1 rfl rfl rfl rfl) ⟨fun h => ?_,fun _ => ?_,fun _ => htyped.first ht,
          fun _ h => ?_,htyped.freed,htyped.leaked⟩ rfl rfl rfl (dcConn_typed _ _ _ _ _)
      · simp only [linkDc,Worker.modConn,Worker.newConn]
        rw [Store.modify_push _ _ _ (by simpa using Store.ne_size hc),Store.modify_modify]
        rfl
      · simp only [connectedTo] at h
        split at h <;> cases h
      · simp [connectedTo]
      · have hfirst := htyped.first ht
        simp only [connectedTo] at h
        omega

theorem paired_scheduleRetry {attempt : ℤ} (hp : Paired w) (hc : w.conns.get i = some c)
    (hx : c.extra = .null) : Paired (directScheduleRetry i attempt w) := by
  unfold directScheduleRetry
  split_ifs
  · exact hp.still ((still_failConnection i _).of_gauges rfl rfl)
  · refine hp.still (Still.trans (still_setExtraInt fun c' hc' _ => ?_) (Still.of_eq rfl rfl))
    rw [hc] at hc'
    cases hc'
    exact ⟨not_ext_of_null hp hc hx,fun _ => hx⟩

theorem paired_retryDcConnection (attempt : Option ℕ) (hp : Paired w)
    (hc : w.conns.get i = some c) (hx : c.extra = .null) (hopen : c.failed = false) :
    Paired (directRetryDcConnection cfg i c attempt w) := by
  unfold directRetryDcConnection
  cases directDcLookup cfg.dcOverrides c.extraInt4 with
  | none =>
      have hzero : Still w (w.modConn i fun c => {c with extraInt := 0}) :=
        still_setExtraInt fun _ _ h => (lt_irrefl _ h).elim
      exact hp.still (hzero.trans ((still_failConnection i _).of_gauges rfl rfl))
  | some dcId =>
      cases attempt with
      | none =>
          have hp' : Paired {w with directDcConnectionsFailed := w.directDcConnectionsFailed+1} :=
            hp.still (Still.of_eq rfl rfl)
          exact paired_scheduleRetry hp' hc hx
      | some a =>
          have htyped := hp.typed i c hc
          refine paired_link (f := reconnectedTo w.conns.size)
            (d := dcConn cfg i c c.extraInt4 dcId a) hp hc (by simp [hx]) hopen ?_ rfl rfl rfl
            (linked_add 1 rfl rfl rfl rfl) ⟨fun h => ?_,fun _ => ?_,fun _ => le_refl _,
              fun _ h => ?_,htyped.freed,htyped.leaked⟩ rfl rfl rfl (dcConn_typed _ _ _ _ _)
          · simp only [linkDc,Worker.modConn,Worker.newConn]
            rw [Store.modify_modify,Store.modify_push _ _ _ (by simpa using Store.ne_size hc)]
            rfl
          · rw [reconnectedTo] at h
            rw [not_ext_of_null hp hc hx] at h
            cases h
          · simp [reconnectedTo]
          · simp [reconnectedTo] at h

theorem isConnection_modConn_other {f : Conn → Conn} (hk : k ≠ i) :
    (w.modConn i f).isConnection (.conn k) = w.isConnection (.conn k) := by
  simp [Worker.isConnection,Worker.modConn,hk]

/-- A relay end closes: it lets go of its partner and fails it. -/
theorem paired_closeExtra (hp : Paired w) (hc : w.conns.get i = some c)
    (hopen : c.failed = false) (hq : c.closeQueued = false)
    (ht : c.type.isExt = false) (hconns : w₁.conns = (w.modConn i Conn.fail).conns)
    (hwild : w₁.wild = w.wild) : Paired (closeExtra i c.extra w₁) := by
  have htyped := hp.typed i c hc
  cases hx : c.extra with
  | null =>
      refine hp.still (Still.trans (Still.modConn (f := Conn.fail) fun d hd => ?_)
        (Still.of_eq hconns hwild))
      rw [hc] at hd
      cases hd
      refine ⟨rfl,rfl,fun _ => rfl,?_,fun h => ⟨h.ext,h.relay,h.first,h.retry,fun _ => rfl,
        h.leaked⟩⟩
      simp only [Conn.linked,Conn.fail,hopen,hq]
      simp
  | rpcFunctions => exact (htyped.relay ht hx).elim
  | conn k =>
      obtain ⟨hik,d,hd,hfree,-⟩ := hp.back i c k hc hx
      have hconn : w₁.isConnection (.conn k) = true := by
        rw [isConnection_congr hconns,isConnection_modConn_other hik.symm]
        exact (hp.back i c k hc hx).isConnection
      have hdt := hp.typed k d hd
      refine paired_unlink (f := fun c => {Conn.fail c with extra := .null})
        (g := fun d => {d with error := true, refcnt := d.refcnt-1}) hp hc hx hd ?_ ?_ rfl rfl rfl
        ⟨fun h => ?_,fun _ => by simp,htyped.first,fun _ _ => rfl,fun _ => rfl,htyped.leaked⟩ ?_
        (.inl rfl) rfl id ⟨hdt.ext,hdt.relay,hdt.first,hdt.retry,hdt.freed,hdt.leaked⟩
        (linked_add (-1) rfl rfl rfl rfl)
      · simp only [closeExtra,touch_of_isConnection hconn,failConnection,jobDecref,Worker.modConn,
          hconns,Store.modify_modify]
        rfl
      · simp only [closeExtra,touch_of_isConnection hconn]
        exact hwild
      · have h' : c.type.isExt = true := h
        rw [ht] at h'
        cases h'
      · have hl : Conn.linked {Conn.fail c with extra := .null} = Conn.linked c := by
          simp only [Conn.linked,Conn.fail,hopen,hq]
          simp
        rw [hl]

/-- The data-centre end after its client was detached for a retry. -/
def lostForRetry (i : ℕ) (client c : Conn) : Conn :=
  {Conn.fail c with extra := .null,
                    leaked := c.leaked + if client.extra = .conn i then 1 else 0}

/-- The client end. -/
def waitsForRetry (client c : Conn) : Conn :=
  {c with extra := .null, extraInt := client.extraInt+1, refcnt := c.refcnt-1}

theorem detachForRetry_conns {client : Conn} (hik : i ≠ k)
    (hconn : w.isConnection (.conn k) = true) (hint : client.extraInt < directMaxRetries)
    (hback : client.extra = .conn i ∨ client.extra = .null) :
    (detachForRetry i k client (w.modConn i Conn.fail)).conns =
        (w.conns.modify i (lostForRetry i client)).modify k (waitsForRetry client) ∧
      (detachForRetry i k client (w.modConn i Conn.fail)).wild = w.wild := by
  have hconn' : (w.modConn i Conn.fail).isConnection (.conn k) = true := by
    rwa [isConnection_modConn_other hik.symm]
  have hretry : ∀ v : Worker, directScheduleRetry k client.extraInt v =
      {v.modConn k (fun c => {c with extraInt := client.extraInt+1}) with
        directDcRetries := v.directDcRetries+1} := by
    intro v
    rw [directScheduleRetry,if_neg (by simpa using hint)]
    rfl
  simp only [detachForRetry,touch_of_isConnection hconn',hretry,jobDecref]
  refine ⟨Store.ext_get ?_ fun j => ?_,?_⟩
  · rcases hback with h | h <;> rw [h] <;> rfl
  · rcases hback with h | h
    · have hlost : lostForRetry i client =
          fun c => {Conn.fail c with extra := .null, leaked := c.leaked+1} := by
        funext c
        simp [lostForRetry,h]
      rw [hlost,h]
      simp only [Worker.leak,Worker.modConn,Store.get_modify]
      rcases eq_or_ne j i with rfl | hji
      · simp only [if_pos,if_neg hik,Option.map_map]
        rfl
      · rcases eq_or_ne j k with rfl | hjk
        · simp only [if_pos,if_neg hji,Option.map_map]
          rfl
        · simp only [if_neg hji,if_neg hjk]
    · have hlost : lostForRetry i client = fun c => {Conn.fail c with extra := .null} := by
        funext c
        simp [lostForRetry,h,Conn.fail]
      rw [hlost,h]
      simp only [Worker.leak,Worker.modConn,Store.get_modify]
      rcases eq_or_ne j i with rfl | hji
      · simp only [if_pos,if_neg hik,Option.map_map]
        rfl
      · rcases eq_or_ne j k with rfl | hjk
        · simp only [if_pos,if_neg hji,Option.map_map]
          rfl
        · simp only [if_neg hji,if_neg hjk]
  · rcases hback with h | h <;> rw [h] <;> rfl

theorem retryClient_some {client : Conn} (h : retryClient w c = some (k,client)) :
    c.extra = .conn k ∧ w.conns.get k = some client ∧ client.extraInt < directMaxRetries := by
  unfold retryClient at h
  split at h
  · rename_i hx
    split at h
    · split at h
      · rename_i hd
        split at h
        · rename_i hint
          cases h
          exact ⟨hx,hd,hint⟩
        · cases h
      · cases h
    · cases h
  · cases h

theorem paired_detachForRetry {client : Conn} (hp : Paired w) (hc : w.conns.get i = some c)
    (hopen : c.failed = false) (hq : c.closeQueued = false)
    (hr : retryClient (w.modConn i Conn.fail) c = some (k,client)) :
    Paired (detachForRetry i k client (w.modConn i Conn.fail)) := by
  obtain ⟨hx,hd,hint⟩ := retryClient_some hr
  obtain ⟨hik,d,hd',hfree,hback⟩ := hp.back i c k hc hx
  have hclient : client = d := by
    simp only [Worker.modConn,Store.get_modify_other _ _ hik.symm] at hd
    exact Option.some.inj (hd.symm.trans hd')
  subst hclient
  have hback' : client.extra = .conn i ∨ client.extra = .null := hback.imp_right fun h => h.1
  have hconns := detachForRetry_conns hik (hp.back i c k hc hx).isConnection hint hback'
  have htyped := hp.typed i c hc
  have hct := hp.typed k client hd'
  have hcx : client.extra ≠ .rpcFunctions := by
    rcases hback' with h | h <;> rw [h] <;> simp
  refine paired_unlink hp hc hx hd' hconns.1 hconns.2 rfl rfl rfl
    ⟨fun h => ?_,fun _ => by simp [lostForRetry],htyped.first,fun _ _ => rfl,fun _ => rfl,?_⟩ ?_
    (.inr rfl) rfl id
    ⟨fun h => ?_,fun _ => by simp [waitsForRetry],fun h => ?_,fun _ _ => rfl,hct.freed,
      hct.leaked⟩ (linked_add (-1) rfl rfl rfl rfl)
  · rw [htyped.ext h] at hx
    cases hx
  · have hl := htyped.leaked
    simp only [lostForRetry]
    split_ifs <;> omega
  · simp only [Conn.linked,lostForRetry,waitsForRetry,Conn.fail,hopen,hq,reduceCtorEq,if_true,
      if_false]
    split_ifs <;> omega
  · exact (hcx (hct.ext h)).elim
  · exact (hcx (hct.ext h)).elim

theorem paired_abort (hp : Paired w) (hs : AllSane w) (hc : w.conns.get i = some c) :
    Paired (jsAbort i c w) := by
  unfold jsAbort
  split_ifs with hguard
  · exact hp
  · have herr : c.error = true := by
      cases h : c.error with
      | true => rfl
      | false => exact (hguard (.inl h)).elim
    have hopen : c.failed = false := by
      cases h : c.failed with
      | false => rfl
      | true => exact (hguard (.inr h)).elim
    have hq : c.closeQueued = false := by
      cases h : c.closeQueued with
      | false => rfl
      | true => rw [((hs i c hc).queued h).1] at hopen; cases hopen
    change Paired (closeConnection i c (w.modConn i Conn.fail))
    have hqueue : Paired (tcpRpcsCloseConnection i (w.modConn i Conn.fail)) := by
      rw [tcpRpcsCloseConnection,modConn_modConn]
      refine hp.still (Still.modConn fun d hd => ?_)
      rw [hc] at hd
      cases hd
      refine ⟨rfl,rfl,fun _ => rfl,?_,
        fun h => ⟨h.ext,h.relay,h.first,h.retry,fun _ => rfl,h.leaked⟩⟩
      simp only [Conn.linked,Conn.fail,hopen,hq,Function.comp_apply]
      simp only [if_true,Bool.false_eq_true,if_false]
      omega
    have hrelay : c.type.isExt = false → c.type ≠ .proxyPass →
        Paired (tcpDirectClose i c 0 (w.modConn i Conn.fail)) := by
      intro ht _
      unfold tcpDirectClose
      cases hr : retryClient (w.modConn i Conn.fail) c with
      | some kc => exact paired_detachForRetry hp hc hopen hq hr
      | none =>
          refine paired_closeExtra hp hc hopen hq ht ?_ ?_
          · simp [releaseClient_conns]
          · simp only [ne_eq,not_true_eq_false,and_false,if_false]
            unfold releaseClient
            split_ifs
            · split <;> rfl
            · rfl
    unfold closeConnection
    cases ht : c.type with
    | extServer => exact hqueue
    | extServerDrs => exact hqueue
    | directClient => exact hrelay (by rw [ht]; rfl) (by rw [ht]; decide)
    | directClientDrs => exact hrelay (by rw [ht]; rfl) (by rw [ht]; decide)
    | directDc => exact hrelay (by rw [ht]; rfl) (by rw [ht]; decide)
    | proxyPass => exact paired_closeExtra hp hc hopen hq (by rw [ht]; rfl) rfl rfl

theorem paired_notified (hp : Paired w) (hc : w.conns.get i = some c) :
    Paired (runCloseNotification i c w) := by
  unfold runCloseNotification
  split_ifs with hq
  · have hnotify : Still w (w.modConn i Conn.notify) := by
      refine Still.modConn fun d hd => ?_
      rw [hc] at hd
      cases hd
      refine ⟨rfl,rfl,id,?_,fun h => ⟨h.ext,h.relay,h.first,h.retry,h.freed,h.leaked⟩⟩
      change c.refcnt-1-(if c.failed then 0 else 1)-0-c.leaked =
        c.refcnt-(if c.failed then 0 else 1)-(if c.closeQueued then 1 else 0)-c.leaked
      rw [if_pos hq]
      split_ifs <;> omega
    refine hp.still (hnotify.trans (Still.of_eq (mtprotoExtRpcClose_conns _ _) ?_))
    unfold mtprotoExtRpcClose
    split <;> rfl
  · exact hp

/-- Only a connection that nothing points at is freed. -/
theorem paired_finish (hp : Paired w) (hc : w.conns.get i = some c) :
    Paired (jsFinish i c w) := by
  unfold jsFinish
  split_ifs with hfin
  · obtain ⟨hfail,hzero⟩ := hfin
    have hnone : links i w = 0 := by
      have hr := hp.refs i c hc
      have hl := (hp.typed i c hc).leaked
      rw [Conn.linked,hfail,hzero] at hr
      simp only [if_true] at hr
      split_ifs at hr <;> omega
    have hget : ∀ x, x ≠ i → (w.modConn i fun c =>
        {c with freed := true, crypto := false}).conns.get x = w.conns.get x :=
      fun x hx => Store.get_modify_other _ _ hx
    have hgeti : (w.modConn i fun c => {c with freed := true, crypto := false}).conns.get i =
        some {c with freed := true, crypto := false} := by simp [Worker.modConn,hc]
    have hlinks : ∀ x, links x (w.modConn i fun c =>
        {c with freed := true, crypto := false}) = links x w := by
      intro x
      exact Nat.add_right_cancel
        (Store.count_modify hc (fun c => c.extra == .conn x) _)
    refine ⟨fun x a ha => ?_,fun x a y ha hxy => ?_,fun x a ha => ?_,hp.tame⟩
    · rcases eq_or_ne x i with rfl | hxi
      · cases hgeti.symm.trans ha
        have h := hp.typed x c hc
        exact ⟨h.ext,h.relay,h.first,h.retry,fun _ => hfail,h.leaked⟩
      · exact hp.typed x a (hget x hxi ▸ ha)
    · have hold : ∃ a', w.conns.get x = some a' ∧ a'.extra = .conn y := by
        rcases eq_or_ne x i with rfl | hxi
        · cases hgeti.symm.trans ha
          exact ⟨c,hc,hxy⟩
        · exact ⟨a,hget x hxi ▸ ha,hxy⟩
      obtain ⟨a',ha',hxy'⟩ := hold
      obtain ⟨hne,d,hd,hdf,hback⟩ := hp.back x a' y ha' hxy'
      have hyi : y ≠ i := by
        rintro rfl
        have hpos := Store.count_pos (p := fun c => c.extra == .conn y) ha' (by simp [hxy'])
        rw [links] at hnone
        omega
      exact ⟨hne,d,(hget y hyi).trans hd,hdf,hback⟩
    · rw [hlinks x]
      rcases eq_or_ne x i with rfl | hxi
      · cases hgeti.symm.trans ha
        exact hp.refs x c hc
      · exact hp.refs x a (hget x hxi ▸ ha)
  · exact hp

/-- The first attempt to reach a known data centre for an accepted client
yields a connection. -/
def FirstAttemptConnects (cfg : Config) (w : Worker) (e : Event) : Prop :=
  ∀ i h attempt b c secretId tag dc, e = .obfs2Header i h attempt b →
    w.conns.get i = some c → headerOutcome cfg w c h = .accepted secretId tag dc →
    cfg.directMode = true → (directDcLookup cfg.dcOverrides dc).isSome = true →
    attempt.isSome = true

theorem paired_obfs2Header {h : Header} {attempt : Option ℕ} {b : Backend} (hp : Paired w)
    (hs : AllSane w) (hc : w.conns.get i = some c)
    (hok : FirstAttemptConnects cfg w (.obfs2Header i h attempt b)) :
    Paired (obfs2Header cfg i c h attempt b w) := by
  unfold obfs2Header
  by_cases hguard : c.awaitsHeader = false
  · rw [if_pos hguard]
    exact hp
  rw [if_neg hguard]
  obtain ⟨herr,-,ht,hn⟩ := Conn.awaitsHeader_iff.mp (by simpa using hguard)
  have hopen : c.failed = false := ((hs i c hc).open herr).1
  have hstart : Still w (w.modConn i Conn.startCrypto) :=
    Still.modConn fun _ _ =>
      ⟨rfl,rfl,id,rfl,fun h => ⟨h.ext,h.relay,h.first,h.retry,h.freed,h.leaked⟩⟩
  cases hout : headerOutcome cfg w c h with
  | fallback => exact paired_proxyConnection b hp hc ht hopen
  | skip =>
      exact hp.still (Still.modConn fun _ _ =>
        ⟨rfl,rfl,id,rfl,fun h => ⟨h.ext,h.relay,h.first,h.retry,h.freed,h.leaked⟩⟩)
  | cipherFailed => exact hp.still (hstart.trans (still_failConnection i _))
  | rejected s r =>
      exact hp.still (hstart.trans ((still_modSlot s _ _).trans (still_failConnection i _)))
  | accepted secretId tag dc =>
      have hext := ((hs i c hc).attach ht secretId tag dc).2
      have hatt : Still w (attachConnection cfg i c secretId tag dc w) := by
        refine Still.trans (Still.modConn (f := Conn.attach secretId tag dc) fun d hd => ?_)
          (Still.of_eq (attachConnection_conns _ _ _ _ _ _) ?_)
        · rw [hc] at hd
          cases hd
          refine ⟨rfl,rfl,id,rfl,fun h => ⟨fun _ => h.ext ht,fun h' => ?_,fun _ => h.first ht,
            fun h' => ?_,h.freed,h.leaked⟩⟩
          · rw [hext] at h'
            cases h'
          · have hd' : (c.attach secretId tag dc).type.isDirectClient = false := by
              cases htype : (c.attach secretId tag dc).type with
              | extServer => rfl
              | extServerDrs => rfl
              | _ => rw [htype] at hext; cases hext
            rw [hd'] at h'
            cases h'
        · unfold attachConnection
          dsimp only
          split <;> rfl
      dsimp only
      split_ifs with hdirect
      · have hget : (attachConnection cfg i c secretId tag dc w).conns.get i =
            some (c.attach secretId tag dc) := by
          rw [attachConnection_conns]
          simp [Worker.modConn,hc]
        exact paired_connectToDc (hp.still hatt) hget hext hopen
          (hok i h attempt b c secretId tag dc rfl hc hout hdirect)
      · exact hp.still hatt

theorem paired_clientHello {h : ClientHello} {b : Backend} (hp : Paired w) (hs : AllSane w)
    (hc : w.conns.get i = some c) : Paired (clientHello cfg i c h b w) := by
  unfold clientHello
  split_ifs with hguard
  · exact hp
  · have hawait : c.awaitsHeader = true := by
      cases ha : c.awaitsHeader with
      | true => rfl
      | false => exact (hguard (.inl ha)).elim
    obtain ⟨herr,-,ht,hn⟩ := Conn.awaitsHeader_iff.mp hawait
    have hopen : c.failed = false := ((hs i c hc).open herr).1
    cases helloOutcome cfg w c h with
    | fallback => exact paired_proxyConnection b hp hc ht hopen
    | rejected s r =>
        have hp' : Paired (w.modSlot s (countRejection r)) := hp.still (still_modSlot s _ w)
        exact paired_proxyConnection b hp' hc ht hopen
    | accepted s =>
        exact hp.still (Still.modConn fun _ _ =>
          ⟨rfl,rfl,id,rfl,fun h => ⟨h.ext,h.relay,h.first,h.retry,h.freed,h.leaked⟩⟩)

theorem paired_alarm (throttled : Bool) (attempt : Option ℕ) (b : Backend) (hp : Paired w)
    (hs : AllSane w) (hc : w.conns.get i = some c) :
    Paired (alarm cfg i c throttled attempt b w) := by
  unfold alarm
  by_cases herr : c.error = true
  · rw [if_pos herr]
    exact hp
  rw [if_neg herr]
  have hopen : c.failed = false := ((hs i c hc).open (by simpa using herr)).1
  have htimeout : c.type.isExt = true → Paired (handleHandshakeTimeout cfg i b w) := by
    intro ht
    unfold handleHandshakeTimeout
    split_ifs
    · exact paired_proxyConnection b hp hc ht hopen
    · exact hp.still (still_failConnection i w)
  have hretry : c.extra = .null → Paired (directRetryDcConnection cfg i c attempt w) :=
    fun hx => paired_retryDcConnection attempt hp hc hx hopen
  cases ht : c.type with
  | extServer =>
      dsimp only
      split_ifs
      · exact htimeout (by rw [ht]; rfl)
      · exact hp
  | extServerDrs =>
      dsimp only
      split_ifs
      · exact hp
      · exact htimeout (by rw [ht]; rfl)
      · exact hp
  | directClient =>
      dsimp only
      split_ifs with h₁ h₂
      · exact hp
      · exact hretry h₂.1
      · exact hp
  | directClientDrs =>
      dsimp only
      split_ifs with h₁ h₂ h₃
      · exact hp
      · exact hretry h₂.1
      · have hnum := (hs i c hc).direct (by rw [ht]; rfl)
        omega
      · exact hp
  | directDc => exact hp
  | proxyPass => exact hp

theorem still_forceClose (s : Fin extSecretMaxSlots) (w : Worker) :
    Still w (tcpRpcsDrainForceCloseForSlot s w) := by
  unfold tcpRpcsDrainForceCloseForSlot
  split_ifs with hpin
  · exact Still.refl w
  · clear hpin
    generalize List.range w.conns.size = is
    induction is generalizing w with
    | nil => exact Still.refl w
    | cons i is ih =>
        refine Still.trans ?_ (ih _)
        unfold Worker.withConn
        dsimp only
        split
        · split
          · exact (still_modSlot s _ w).trans (still_failConnection _ _)
          · exact Still.refl w
        · exact Still.refl w

theorem still_drainSweep (w : Worker) : Still w (drainSweepGw w) := by
  unfold drainSweepGw
  generalize (allSlots.filter fun s => w.table.pinned ≤ s.val ∧ s.val < w.table.cnt) = slots
  induction slots generalizing w with
  | nil => exact Still.refl w
  | cons s slots ih =>
      refine Still.trans ?_ (ih _)
      unfold sweepSlot
      split_ifs
      · exact Still.refl w
      · exact Still.of_eq rfl rfl
      · exact still_forceClose s w
      · exact Still.refl w

theorem paired_accept (a : Addr) (hp : Paired w) : Paired (w.newConn {addr := a}) := by
  have hlinks : ∀ x, links x (w.newConn {addr := a}) = links x w := by
    intro x
    rw [links,Worker.newConn,Store.count_push]
    rfl
  have hget : ∀ x, x ≠ w.conns.size →
      (w.newConn {addr := a}).conns.get x = w.conns.get x :=
    fun x hx => Store.get_push_other _ _ hx
  have hnew : (w.newConn {addr := a}).conns.get w.conns.size = some {addr := a} :=
    Store.get_push_new _ _
  refine ⟨fun x c hc => ?_,fun x c y hc hxy => ?_,fun x c hc => ?_,hp.tame⟩
  · rcases eq_or_ne x w.conns.size with rfl | hx
    · cases hnew.symm.trans hc
      refine ⟨fun _ => rfl,fun h => ?_,fun _ => le_refl _,fun h => ?_,fun h => ?_,le_refl _⟩
      · cases h
      · cases h
      · cases h
    · exact hp.typed x c (hget x hx ▸ hc)
  · rcases eq_or_ne x w.conns.size with rfl | hx
    · cases hnew.symm.trans hc
      cases hxy
    · rw [hget x hx] at hc
      obtain ⟨hne,d,hd,hrest⟩ := hp.back x c y hc hxy
      exact ⟨hne,d,(hget y (Store.ne_size hd)).trans hd,hrest⟩
  · rw [hlinks x]
    rcases eq_or_ne x w.conns.size with rfl | hx
    · cases hnew.symm.trans hc
      rw [links_size hp]
      rfl
    · exact hp.refs x c (hget x hx ▸ hc)

theorem paired_parse (n : ℕ) (r : Socks5Reply) (hp : Paired w) (hc : w.conns.get i = some c) :
    Paired (parseExecute cfg i c n r w) := by
  have hext : Still w (if c.inPacketNum = -3 then w
      else w.modConn i fun c => {c with inPacketNum := c.inPacketNum+1}) := by
    split_ifs
    · exact Still.refl w
    · exact Still.modConn fun _ _ =>
        ⟨rfl,rfl,id,rfl,fun h => ⟨h.ext,h.relay,h.first,h.retry,h.freed,h.leaked⟩⟩
  unfold parseExecute
  cases ht : c.type with
  | extServer => exact hp.still hext
  | extServerDrs => exact hp.still hext
  | directClient => exact hp.still (still_clientParse n hp hc (by rw [ht]; rfl))
  | directClientDrs => exact hp.still (still_clientParse n hp hc (by rw [ht]; rfl))
  | directDc => exact hp.still (still_dcParse n r hp hc ht)
  | proxyPass =>
      have hx : c.extra = .null ∨ w.isConnection c.extra = true := by
        cases hx : c.extra with
        | null => exact .inl rfl
        | rpcFunctions => exact ((hp.typed i c hc).relay (by rw [ht]; rfl) hx).elim
        | conn j => exact .inr (hp.back i c j hc hx).isConnection
      exact hp.still (still_relay hx)

theorem paired_connected (hp : Paired w) (hc : w.conns.get i = some c) :
    Paired (connected cfg i c w) := by
  have hready : Still w (w.modConn i fun c => {c with readyPending := false}) :=
    Still.modConn fun _ _ =>
      ⟨rfl,rfl,id,rfl,fun h => ⟨h.ext,h.relay,h.first,h.retry,h.freed,h.leaked⟩⟩
  unfold connected tcpDirectDcConnected
  dsimp only
  split_ifs with h₁ h₂ h₃
  · exact hp
  · refine hp.still (hready.trans (still_setExtraInt fun d hd _ => ?_))
    simp only [Worker.modConn,Store.get_modify_same,hc,Option.map_some,Option.some.injEq] at hd
    subst hd
    refine ⟨?_,fun h => ?_⟩
    · simp only [h₂]
      rfl
    · simp only [h₂] at h
      cases h
  · exact hp.still (hready.trans (still_setCrypto i true _))
  · exact hp.still hready

theorem paired_step (hp : Paired w) (hs : AllSane w) (hok : FirstAttemptConnects cfg w e) :
    Paired (step cfg w e) := by
  have hwith : ∀ (i : ℕ) (f : Conn → Worker),
      (∀ c, w.conns.get i = some c → Paired (f c)) → Paired (w.withConn i f) := by
    intro i f hf
    unfold Worker.withConn
    cases hc : w.conns.get i with
    | none => exact hp
    | some c => exact hf c hc
  cases e with
  | accept a => exact paired_accept a hp
  | upgrade i s =>
      refine hwith i _ fun c hc => ?_
      split_ifs
      · exact hp.still (Still.modConn fun _ _ =>
          ⟨rfl,rfl,id,rfl,fun h => ⟨h.ext,h.relay,h.first,h.retry,h.freed,h.leaked⟩⟩)
      · exact hp
  | clientHello i h b => exact hwith i _ fun c hc => paired_clientHello hp hs hc
  | obfs2Header i h attempt b => exact hwith i _ fun c hc => paired_obfs2Header hp hs hc hok
  | data i n r =>
      refine hwith i _ fun c hc => ?_
      split_ifs
      · exact hp
      · exact paired_parse n r hp hc
  | connected i => exact hwith i _ fun c hc => paired_connected hp hc
  | alarm i throttled attempt b =>
      exact hwith i _ fun c hc => paired_alarm throttled attempt b hp hs hc
  | netFail i => exact hp.still (still_failConnection i w)
  | abort i => exact hwith i _ fun c hc => paired_abort hp hs hc
  | closeNotified i => exact hwith i _ fun c hc => paired_notified hp hc
  | finish i => exact hwith i _ fun c hc => paired_finish hp hc
  | reload confs timeout => exact hp.still (Still.of_eq rfl rfl)
  | sweep => exact hp.still (still_drainSweep w)
  | tick now preciseNow => exact hp.still (Still.of_eq rfl rfl)

theorem paired_start (T : SlotTable) : Paired (start T) := by
  refine ⟨fun i c hc => ?_,fun i c j hc => ?_,fun i c hc => ?_,rfl⟩ <;> cases hc

/-- In every run of a worker in which the first attempt to reach a data centre
always yields a connection, the connections are paired in every state. -/
theorem paired_throughout (cfg : Config) (T : SlotTable) (es : List Event)
    (hm : Meets (step cfg) (FirstAttemptConnects cfg) (start T) es) :
    Throughout (step cfg) Paired (start T) es :=
  throughout_of_invariant (P := fun w => Paired w ∧ AllSane w)
    (fun _ e h hok => ⟨paired_step h.1 h.2 hok,allSane_step h.2 e⟩) (fun _ h => h.1)
    ⟨paired_start T,allSane_start T⟩ hm

/-- A client whose data centre is lost before the handshake and reached again by
the retry. -/
def retriedClient : List Event :=
  [.accept ⟨1,zeroIpv6⟩,.obfs2Header 0 anyHeader (some 0) .connected,.netFail 1,.abort 1,
    .alarm 0 false (some 0) .connected,.connected 2,.data 0 100 .incomplete]

theorem paired_throughout_retried_client :
    Meets (step {}) (FirstAttemptConnects {}) (start (pinnedTable [firstSecret])) retriedClient ∧
      Throughout (step {}) Paired (start (pinnedTable [firstSecret])) retriedClient := by
  have hm : Meets (step {}) (FirstAttemptConnects {}) (start (pinnedTable [firstSecret]))
      retriedClient := by
    refine ⟨?_,?_,?_,?_,?_,?_,?_,trivial⟩ <;> intro i h attempt b c secretId tag dc he <;> cases he
    exact fun _ _ _ _ => rfl
  exact ⟨hm,paired_throughout {} _ _ hm⟩

/-- All addresses of the data centre refuse the first attempt: the client is of
a relay type while its `extra` is the function table, and the next bytes it
sends are handed to that table as if it were a connection. -/
theorem refused_first_attempt_not_paired :
    ¬ Paired (run (step {}) (start (pinnedTable [firstSecret]))
        [.accept ⟨1,zeroIpv6⟩,.obfs2Header 0 anyHeader none .connected]) ∧
      (run (step {}) (start (pinnedTable [firstSecret]))
        [.accept ⟨1,zeroIpv6⟩,.obfs2Header 0 anyHeader none .connected,
          .data 0 100 .incomplete]).wild = 1 := by
  refine ⟨fun hp => ?_,by decide⟩
  exact (hp.typed 0 _ rfl).relay rfl rfl

/-- The reference left behind by a detached client keeps the connection from
ever being freed. -/
theorem leaked_never_freed (hp : Paired w) (hc : w.conns.get i = some c) (hl : 0 < c.leaked) :
    jsFinish i c w = w := by
  have hr := hp.refs i c hc
  unfold jsFinish
  rw [if_neg]
  rintro ⟨hfail,hzero⟩
  rw [Conn.linked,hfail,hzero] at hr
  simp only [if_true] at hr
  split_ifs at hr <;> omega

end Teleproxy.Pairing
