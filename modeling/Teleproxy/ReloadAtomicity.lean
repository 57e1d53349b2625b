import Teleproxy.Lib.Counting
import Teleproxy.SecretReload

/-!
# When a failing reload leaves the table alone

A reload fails when a new key finds no free slot, or when too many slots are
active once all keys are placed. In both cases the four passes have already
written the table. This module computes, from the table and the configuration
alone, whether a reload has room and whether it would write anything, and
proves that these two questions decide its atomicity.
-/
namespace Teleproxy.ReloadAtomicity
open SecretSlots SecretReload Counting
variable {T : SlotTable} {s : Fin extSecretMaxSlots}

theorem settle_free (preciseNow : ℚ) (confs : List SecretConf) (T : SlotTable)
    (s : Fin extSecretMaxSlots) :
    ((settle preciseNow confs T).slots s).state = .free ↔ (T.slots s).state = .free := by
  rw [settle_slots]
  cases hn : namedBy T s (configured T confs) with
  | some c =>
      have h := (slotOfKey_some (namedBy_some hn).2).2.1
      simp [configureSlot,h]
  | none =>
      by_cases ha : passA T s
      · have h : (T.slots s).state = .active := by
          simp only [passA,Bool.and_eq_true,beq_iff_eq] at ha
          exact ha.2
        simp [ha,h]
      · simp [ha]

theorem freeSlots_settle (preciseNow : ℚ) (confs : List SecretConf) (T : SlotTable) :
    freeSlots (settle preciseNow confs T) = freeSlots T := by
  refine List.filter_congr fun s _ => ?_
  have h := settle_free preciseNow confs T s
  rw [Bool.eq_iff_iff]
  simp [h]

/-- The slots whose key the configuration still lists. -/
def keptSlots (T : SlotTable) (confs : List SecretConf) : List (Fin extSecretMaxSlots) :=
  allSlots.filter fun s => (namedBy T s (configured T confs)).isSome

theorem settle_active (preciseNow : ℚ) (confs : List SecretConf) (T : SlotTable)
    (s : Fin extSecretMaxSlots) :
    (T.pinned ≤ s.val ∧ ((settle preciseNow confs T).slots s).state = .active) ↔
      (namedBy T s (configured T confs)).isSome := by
  rw [settle_slots]
  cases hn : namedBy T s (configured T confs) with
  | some c =>
      have h := (slotOfKey_some (namedBy_some hn).2).1
      simp [configureSlot,h]
  | none =>
      by_cases ha : passA T s
      · simp [ha]
      · simp only [ha,Bool.false_eq_true,if_false,Option.isSome_none,iff_false,not_and]
        intro hp hs
        exact ha (by simp [passA,hp,hs])

theorem activeTotal_settle (preciseNow : ℚ) (confs : List SecretConf) (T : SlotTable) :
    activeTotal (settle preciseNow confs T) = T.pinned+(keptSlots T confs).length := by
  rw [activeTotal,settle_pinned,keptSlots,← List.countP_eq_length_filter]
  congr 1
  refine List.countP_congr fun s _ => ?_
  rw [← settle_active preciseNow confs T s]
  simp

theorem activeTotal_place (h : s ∈ freeSlots T) (c : SecretConf) (x : Slot) :
    activeTotal (T.set s (placeSlot s c x)) = activeTotal T+1 := by
  have hs := mem_freeSlots.mp h
  rw [activeTotal,activeTotal,set_pinned,Nat.add_assoc]
  congr 1
  refine countP_add_one (s := s) (List.nodup_finRange _) (List.mem_finRange s) ?_ ?_ ?_
  · simp [hs.2]
  · simp [placeSlot,zeroCounters,configureSlot,ipTrackClearSlot,hs.1]
  · intro t _ ht
    rw [set_slots_other _ _ ht]

theorem passD_activeTotal (T : SlotTable) (cs : List SecretConf)
    (hok : (passD T cs).2 = true) : activeTotal (passD T cs).1 = activeTotal T+cs.length := by
  induction cs generalizing T with
  | nil => simp [passD]
  | cons c cs ih =>
      cases hf : freeSlots T with
      | nil => simp [passD,freeSlot_eq,hf] at hok
      | cons s rest =>
          have hstep : passD T (c::cs) = passD (T.set s (placeSlot s c (T.slots s))) cs := by
            simp [passD,freeSlot_eq,hf]
          rw [hstep] at hok ⊢
          rw [ih _ hok,activeTotal_place (by simp [hf]),List.length_cons]
          omega

/-- Every new key finds a free slot and the active slots stay within bounds. -/
def HasRoom (T : SlotTable) (confs : List SecretConf) : Prop :=
  (newKeys T confs).length ≤ (freeSlots T).length ∧
    T.pinned+(keptSlots T confs).length+(newKeys T confs).length ≤ extSecretMaxActive

theorem reload_fails_iff (preciseNow : ℚ) (confs : List SecretConf) (T : SlotTable) :
    (tcpRpcsReloadExtSecrets preciseNow confs T).1 = -1 ↔ ¬ HasRoom T confs := by
  have hok := (passD_spec (settle preciseNow confs T) (newKeys T confs)).2.1
  have hact := passD_activeTotal (settle preciseNow confs T) (newKeys T confs)
  rw [freeSlots_settle] at hok
  rw [activeTotal_settle] at hact
  rw [reload_eq,commit,HasRoom]
  by_cases hl : (newKeys T confs).length ≤ (freeSlots T).length
  · rw [decide_eq_true hl] at hok
    rw [hok,hact hok]
    simp only [Bool.true_eq_false,if_false,hl,true_and,not_le]
    split_ifs with h <;> simpa using h
  · rw [decide_eq_false hl] at hok
    simp [hok,hl]

/-- A failing reload ends with whatever passes A to D have written. -/
theorem reload_failed_table {preciseNow : ℚ} {confs : List SecretConf}
    (h : (tcpRpcsReloadExtSecrets preciseNow confs T).1 = -1) :
    (tcpRpcsReloadExtSecrets preciseNow confs T).2 =
      (passD (settle preciseNow confs T) (newKeys T confs)).1 := by
  rw [reload_eq,commit] at h ⊢
  split_ifs at h ⊢ <;> simp_all

/-- The configuration asks for no write at all: it repeats the settings of
every active slot, mentions no draining one, and no key of it can be placed. -/
structure NothingToWrite (T : SlotTable) (confs : List SecretConf) : Prop where
  active : ∀ s, T.pinned ≤ s.val → (T.slots s).state = .active →
    ∃ c, namedBy T s (configured T confs) = some c ∧ configureSlot s c (T.slots s) = T.slots s
  draining : ∀ s, (T.slots s).state = .draining → namedBy T s (configured T confs) = none
  fresh : newKeys T confs = [] ∨ freeSlots T = []

theorem placedIn_eq_none {cs : List SecretConf} (h : cs = [] ∨ freeSlots T = []) :
    placedIn T cs s = none := by
  rcases h with h | h <;> simp [placedIn,h]

theorem settle_eq_iff (preciseNow : ℚ) (confs : List SecretConf) (T : SlotTable) :
    (∀ s, (settle preciseNow confs T).slots s = T.slots s) ↔
      (∀ s, T.pinned ≤ s.val → (T.slots s).state = .active →
        ∃ c, namedBy T s (configured T confs) = some c ∧
          configureSlot s c (T.slots s) = T.slots s) ∧
      ∀ s, (T.slots s).state = .draining → namedBy T s (configured T confs) = none := by
  constructor
  · intro h
    refine ⟨fun s hp ha => ?_,fun s hd => ?_⟩
    · have hs := h s
      rw [settle_slots] at hs
      cases hn : namedBy T s (configured T confs) with
      | some c => exact ⟨c,rfl,by simpa only [hn] using hs⟩
      | none =>
          have hA : passA T s = true := by simp [passA,hp,ha]
          simp only [hn,hA,if_true] at hs
          have := congrArg Slot.state hs
          simp [ha] at this
    · have hs := h s
      rw [settle_slots] at hs
      cases hn : namedBy T s (configured T confs) with
      | none => rfl
      | some c =>
          have hst := congrArg Slot.state hs
          simp [hn,configureSlot,hd] at hst
  · rintro ⟨ha,hd⟩ s
    rw [settle_slots]
    cases hn : namedBy T s (configured T confs) with
    | some c =>
        obtain ⟨hp,hf,-⟩ := slotOfKey_some (namedBy_some hn).2
        cases hst : (T.slots s).state with
        | free => exact (hf hst).elim
        | draining => rw [hd s hst] at hn; cases hn
        | active =>
            obtain ⟨c',hc',he⟩ := ha s hp hst
            rw [hn] at hc'
            cases hc'
            exact he
    | none =>
        by_cases hA : passA T s
        · simp only [passA,Bool.and_eq_true,decide_eq_true_eq,beq_iff_eq] at hA
          obtain ⟨c,hc,-⟩ := ha s hA.1 hA.2
          rw [hn] at hc
          cases hc
        · simp [hA]

theorem passes_eq_iff (preciseNow : ℚ) (confs : List SecretConf) (T : SlotTable) :
    (passD (settle preciseNow confs T) (newKeys T confs)).1 = T ↔ NothingToWrite T confs := by
  obtain ⟨hs,-,hcnt,hp⟩ := passD_spec (settle preciseNow confs T) (newKeys T confs)
  have hslots : (passD (settle preciseNow confs T) (newKeys T confs)).1 = T ↔
      ∀ s, (passD (settle preciseNow confs T) (newKeys T confs)).1.slots s = T.slots s := by
    rw [settle_cnt] at hcnt
    rw [settle_pinned] at hp
    constructor
    · intro h s
      rw [h]
    · intro h
      generalize passD (settle preciseNow confs T) (newKeys T confs) = d at *
      obtain ⟨⟨slots,cnt,pinned⟩,ok⟩ := d
      obtain ⟨slots',cnt',pinned'⟩ := T
      simp only [SlotTable.mk.injEq] at *
      exact ⟨funext h,hcnt,hp⟩
  rw [hslots]
  constructor
  · intro h
    have hfresh : newKeys T confs = [] ∨ freeSlots T = [] := by
      by_contra hne
      rw [not_or] at hne
      obtain ⟨c,cs,hc⟩ := List.exists_cons_of_ne_nil hne.1
      obtain ⟨f,fs,hf⟩ := List.exists_cons_of_ne_nil hne.2
      have hplace : placedIn (settle preciseNow confs T) (newKeys T confs) f = some c := by
        simp [placedIn,freeSlots_settle,hf,hc]
      have hstate := congrArg Slot.state ((hs f).symm.trans (h f))
      have hfree : (T.slots f).state = .free := (mem_freeSlots.mp (by simp [hf])).2
      simp [hplace,placeSlot,zeroCounters,configureSlot,ipTrackClearSlot,hfree] at hstate
    have hsettle : ∀ s, (settle preciseNow confs T).slots s = T.slots s := by
      intro s
      have hnone : placedIn (settle preciseNow confs T) (newKeys T confs) s = none :=
        placedIn_eq_none (by rwa [freeSlots_settle])
      rw [← h s,hs s,hnone]
    obtain ⟨ha,hd⟩ := (settle_eq_iff preciseNow confs T).mp hsettle
    exact ⟨ha,hd,hfresh⟩
  · intro h s
    have hnone : placedIn (settle preciseNow confs T) (newKeys T confs) s = none :=
      placedIn_eq_none (by rw [freeSlots_settle]; exact h.fresh)
    rw [hs s,hnone]
    exact (settle_eq_iff preciseNow confs T).mpr ⟨h.active,h.draining⟩ s

/-- A client with this key passes the slot search and the draining check. -/
def AcceptsKey (T : SlotTable) (k : Key) : Prop :=
  ∃ s, s.val < T.cnt ∧ (T.slots s).state = .active ∧ (T.slots s).key = k

def releaseAll (ids : List (Fin extSecretMaxSlots)) (T : SlotTable) : SlotTable :=
  ids.foldl (fun T s => tcpRpcsDrainReleaseSlotIfEmpty s T) T

/-- A reload that fails changes nothing, now or after later releases. -/
def FailsCleanly (preciseNow : ℚ) (confs : List SecretConf) (T : SlotTable) : Prop :=
  (tcpRpcsReloadExtSecrets preciseNow confs T).1 = -1 →
    (tcpRpcsReloadExtSecrets preciseNow confs T).2 = T ∧
      ∀ ids k, AcceptsKey (releaseAll ids (tcpRpcsReloadExtSecrets preciseNow confs T).2) k ↔
        AcceptsKey (releaseAll ids T) k

/-- Exactly the reloads that fit, and the ones with nothing to write, are
atomic: every other reload fails with part of its writes in place. -/
theorem reload_failsCleanly_iff (preciseNow : ℚ) (confs : List SecretConf) (T : SlotTable) :
    FailsCleanly preciseNow confs T ↔ HasRoom T confs ∨ NothingToWrite T confs := by
  have hfail := reload_fails_iff preciseNow confs T
  have hsame := passes_eq_iff preciseNow confs T
  constructor
  · intro h
    by_cases hr : HasRoom T confs
    · exact .inl hr
    · have hf := hfail.mpr hr
      exact .inr (hsame.mp ((reload_failed_table hf).symm.trans (h hf).1))
  · intro h hf
    have hn : NothingToWrite T confs := h.resolve_left (hfail.mp hf)
    have ht := (reload_failed_table hf).trans (hsame.mpr hn)
    refine ⟨ht,fun ids k => ?_⟩
    rw [ht]

/-- Sixteen command-line secrets and one more secret in the file. The reload
is refused, but slot 16 is active from then on. -/
def cliSecrets : List SecretConf :=
  (List.range 16).map fun i => {key := Vector.replicate 16 (UInt8.ofNat i)}

theorem reload_seventeenth_secret_not_clean :
    ¬ FailsCleanly 0 [{key := Vector.replicate 16 255}] (pinnedTable cliSecrets) := by
  intro h
  have hf : (tcpRpcsReloadExtSecrets 0 [{key := Vector.replicate 16 255}]
      (pinnedTable cliSecrets)).1 = -1 := by decide
  have hs := congrArg (fun T : SlotTable => (T.slots 16).state) (h hf).1
  revert hs
  decide

end Teleproxy.ReloadAtomicity
