import Teleproxy.Lib.StepSystem
import Teleproxy.ReloadAtomicity

/-!
# One key, one slot, over whole runs of reloads

A run interleaves reloads of arbitrary configurations with releases of drained
slots. Keys stay apart, and a repeated reload is a no-op, in every run in which
no configuration lists a key twice that is still new to the table. Pass B sends
both entries of a key that is already held to one slot, but pass D gives each
entry of a new key a slot of its own.
-/
namespace Teleproxy.ReloadUniqueness
open SecretSlots SecretReload ReloadAtomicity StepSystem
variable {T : SlotTable} {s t : Fin extSecretMaxSlots}

/-- No two slots in use hold the same key. -/
def KeysDistinct (T : SlotTable) : Prop :=
  ∀ s t, (T.slots s).state ≠ .free → (T.slots t).state ≠ .free →
    (T.slots s).key = (T.slots t).key → s = t

/-- What reloads and releases keep, whatever is loaded. -/
def PinnedActive (T : SlotTable) : Prop :=
  ∀ s : Fin extSecretMaxSlots, s.val < T.pinned → (T.slots s).state = .active

/-- Every key listed twice is already held by some slot in use. -/
def RepeatsOnlyHeldKeys (T : SlotTable) (confs : List SecretConf) : Prop :=
  ∀ k, 2 ≤ (confs.map SecretConf.key).count k →
    ∃ s, (T.slots s).state ≠ .free ∧ (T.slots s).key = k

theorem slotOfKey_iff (hd : KeysDistinct T) {k : Key} :
    slotOfKey T k = some s ↔
      T.pinned ≤ s.val ∧ (T.slots s).state ≠ .free ∧ (T.slots s).key = k := by
  refine ⟨slotOfKey_some,fun ⟨hp,hf,hk⟩ => ?_⟩
  cases h : slotOfKey T k with
  | none => exact (slotOfKey_none.mp h s hp hf hk).elim
  | some t =>
      obtain ⟨-,htf,htk⟩ := slotOfKey_some h
      rw [hd t s htf hf (htk.trans hk.symm)]

theorem mem_configured {confs : List SecretConf} {c : SecretConf} :
    c ∈ configured T confs ↔
      c ∈ confs ∧ ∀ p : Fin extSecretMaxSlots, p.val < T.pinned → (T.slots p).key ≠ c.key := by
  simp [configured,collidesWithPinned,allSlots]

theorem mem_newKeys (ha : PinnedActive T) {confs : List SecretConf} {c : SecretConf} :
    c ∈ newKeys T confs ↔
      c ∈ confs ∧ ∀ s, (T.slots s).state ≠ .free → (T.slots s).key ≠ c.key := by
  rw [newKeys,List.mem_filter,mem_configured,Option.isNone_iff_eq_none,slotOfKey_none,and_assoc]
  refine and_congr_right fun _ => ⟨fun h s hs => ?_,fun h => ⟨fun p hp => ?_,fun s _ => h s⟩⟩
  · rcases Nat.lt_or_ge s.val T.pinned with hlt | hge
    · exact h.1 s hlt
    · exact h.2 s hge hs
  · exact h p (by rw [ha p hp]; simp)

/-- Under the condition on repeats, pass D places pairwise different keys. -/
theorem newKeys_nodup (ha : PinnedActive T) {confs : List SecretConf}
    (hr : RepeatsOnlyHeldKeys T confs) : ((newKeys T confs).map SecretConf.key).Nodup := by
  rw [List.nodup_iff_count_le_one]
  intro k
  by_contra hk
  have hsub : ((newKeys T confs).map SecretConf.key).Sublist (confs.map SecretConf.key) :=
    (List.filter_sublist.trans List.filter_sublist).map _
  obtain ⟨s,hs,hsk⟩ := hr k (by have := hsub.count_le k; omega)
  have hmem : k ∈ (newKeys T confs).map SecretConf.key :=
    List.count_pos_iff.mp (by omega)
  obtain ⟨c,hc,rfl⟩ := List.mem_map.mp hmem
  exact ((mem_newKeys ha).mp hc).2 s hs hsk

/-- Different slots receive different keys from pass D. -/
theorem placedIn_injective {cs : List SecretConf} {c c' : SecretConf}
    (hn : (cs.map SecretConf.key).Nodup) (hs : placedIn T cs s = some c)
    (ht : placedIn T cs t = some c') (hk : c.key = c'.key) : s = t := by
  have hmem : ∀ {u d}, placedIn T cs u = some d → (u,d) ∈ (freeSlots T).zip cs := by
    intro u d h
    obtain ⟨l₁,l₂,hl,-⟩ := List.lookup_eq_some_iff.mp h
    rw [hl]
    simp
  obtain ⟨i,hi,hsi⟩ := List.getElem_of_mem (hmem hs)
  obtain ⟨j,hj,htj⟩ := List.getElem_of_mem (hmem ht)
  rw [List.getElem_zip,Prod.mk.injEq] at hsi htj
  have hij : i = j := by
    rw [List.length_zip] at hi hj
    have hi' : i < (cs.map SecretConf.key).length := by simp; omega
    have hj' : j < (cs.map SecretConf.key).length := by simp; omega
    have hget : (cs.map SecretConf.key)[i] = (cs.map SecretConf.key)[j] := by
      rw [List.getElem_map,List.getElem_map,hsi.2,htj.2,hk]
    exact hn.getElem_inj_iff.mp hget
  subst hij
  rw [← hsi.1,← htj.1]

theorem settle_key (preciseNow : ℚ) (confs : List SecretConf) (T : SlotTable)
    (s : Fin extSecretMaxSlots) :
    ((settle preciseNow confs T).slots s).key = (T.slots s).key := by
  rw [settle_slots]
  cases namedBy T s (configured T confs) with
  | some c => rfl
  | none => by_cases h : passA T s <;> simp [h]

/-- Each slot after all four passes, in terms of the table before them. -/
theorem passes_slots (preciseNow : ℚ) (confs : List SecretConf) (T : SlotTable)
    (s : Fin extSecretMaxSlots) :
    (∃ c, placedIn T (newKeys T confs) s = some c ∧ (T.slots s).state = .free ∧
        (passD (settle preciseNow confs T) (newKeys T confs)).1.slots s =
          placeSlot s c ((settle preciseNow confs T).slots s)) ∨
      placedIn T (newKeys T confs) s = none ∧
        (passD (settle preciseNow confs T) (newKeys T confs)).1.slots s =
          (settle preciseNow confs T).slots s := by
  have hs := (passD_spec (settle preciseNow confs T) (newKeys T confs)).1 s
  have hpl : placedIn (settle preciseNow confs T) (newKeys T confs) s =
      placedIn T (newKeys T confs) s := by rw [placedIn,freeSlots_settle,placedIn]
  rw [hpl] at hs
  cases h : placedIn T (newKeys T confs) s with
  | none => exact .inr ⟨rfl,by simpa only [h] using hs⟩
  | some c =>
      exact .inl ⟨c,rfl,(mem_freeSlots.mp (placedIn_some h).1).2,by simpa only [h] using hs⟩

@[simp] theorem placeSlot_key (s : ℕ) (c : SecretConf) (x : Slot) :
    (placeSlot s c x).key = c.key := rfl

@[simp] theorem placeSlot_state (s : ℕ) (c : SecretConf) (x : Slot) :
    (placeSlot s c x).state = .active := rfl

theorem passes_keysDistinct (preciseNow : ℚ) {confs : List SecretConf} (hd : KeysDistinct T)
    (ha : PinnedActive T) (hr : RepeatsOnlyHeldKeys T confs) :
    KeysDistinct (passD (settle preciseNow confs T) (newKeys T confs)).1 := by
  intro s t hs ht hk
  rcases passes_slots preciseNow confs T s with ⟨c,hc,-,hcs⟩ | ⟨-,hcs⟩ <;>
    rcases passes_slots preciseNow confs T t with ⟨d,hdt,-,hct⟩ | ⟨-,hct⟩ <;>
    rw [hcs] at hs hk <;> rw [hct] at ht hk
  · exact placedIn_injective (newKeys_nodup ha hr) hc hdt (by simpa using hk)
  · rw [placeSlot_key,settle_key] at hk
    rw [ne_eq,settle_free] at ht
    exact (((mem_newKeys ha).mp (placedIn_some hc).2).2 t ht hk.symm).elim
  · rw [placeSlot_key,settle_key] at hk
    rw [ne_eq,settle_free] at hs
    exact (((mem_newKeys ha).mp (placedIn_some hdt).2).2 s hs hk).elim
  · rw [settle_key,settle_key] at hk
    rw [ne_eq,settle_free] at hs ht
    exact hd s t hs ht hk

/-- A reload ends with the table of the four passes, up to the count. -/
theorem reload_table (preciseNow : ℚ) (confs : List SecretConf) (T : SlotTable) :
    (tcpRpcsReloadExtSecrets preciseNow confs T).2.slots =
        (passD (settle preciseNow confs T) (newKeys T confs)).1.slots ∧
      (tcpRpcsReloadExtSecrets preciseNow confs T).2.pinned = T.pinned := by
  have hp := (passD_spec (settle preciseNow confs T) (newKeys T confs)).2.2.2
  rw [settle_pinned] at hp
  rw [reload_eq,commit]
  split_ifs <;> exact ⟨rfl,hp⟩

/-- Pinned slots take part in no pass. -/
theorem reload_pinned_slot (preciseNow : ℚ) (confs : List SecretConf) (T : SlotTable)
    (hs : s.val < T.pinned) :
    (tcpRpcsReloadExtSecrets preciseNow confs T).2.slots s = T.slots s := by
  have hname : namedBy T s (configured T confs) = none := by
    refine namedBy_none.mpr fun c _ hc => ?_
    have := (slotOfKey_some hc).1
    omega
  have hsettle : (settle preciseNow confs T).slots s = T.slots s := by
    rw [settle_slots,hname]
    simp [passA,hs]
  rw [(reload_table preciseNow confs T).1]
  rcases passes_slots preciseNow confs T s with ⟨c,hc,-,-⟩ | ⟨-,h⟩
  · have := (mem_freeSlots.mp (placedIn_some hc).1).1
    omega
  · rw [h,hsettle]

theorem reload_pinnedActive (preciseNow : ℚ) (confs : List SecretConf) (ha : PinnedActive T) :
    PinnedActive (tcpRpcsReloadExtSecrets preciseNow confs T).2 := by
  intro s hs
  rw [(reload_table preciseNow confs T).2] at hs
  rw [reload_pinned_slot preciseNow confs T hs]
  exact ha s hs

theorem reload_keysDistinct (preciseNow : ℚ) {confs : List SecretConf} (hd : KeysDistinct T)
    (ha : PinnedActive T) (hr : RepeatsOnlyHeldKeys T confs) :
    KeysDistinct (tcpRpcsReloadExtSecrets preciseNow confs T).2 := by
  have h := passes_keysDistinct preciseNow hd ha hr
  unfold KeysDistinct at h ⊢
  rw [(reload_table preciseNow confs T).1]
  exact h

section Again
variable {preciseNow : ℚ} {confs : List SecretConf}

/-- A successful reload has placed every new key. -/
theorem exists_placedIn (hroom : HasRoom T confs) {c : SecretConf}
    (hc : c ∈ newKeys T confs) : ∃ s, placedIn T (newKeys T confs) s = some c := by
  obtain ⟨i,hi,rfl⟩ := List.getElem_of_mem hc
  have hf : i < (freeSlots T).length := hi.trans_le hroom.1
  refine ⟨(freeSlots T)[i],?_⟩
  rw [placedIn,List.lookup_eq_some_iff]
  refine ⟨((freeSlots T).zip (newKeys T confs)).take i,
    ((freeSlots T).zip (newKeys T confs)).drop (i+1),?_,?_⟩
  · have hz : i < ((freeSlots T).zip (newKeys T confs)).length := by
      rw [List.length_zip]
      omega
    have hget : ((freeSlots T).zip (newKeys T confs))[i] =
        ((freeSlots T)[i],(newKeys T confs)[i]) := List.getElem_zip
    rw [← hget,List.getElem_cons_drop,List.take_append_drop]
  · intro p hp
    obtain ⟨j,hj,rfl⟩ := List.getElem_of_mem hp
    rw [List.length_take,List.length_zip] at hj
    have hjf : j < (freeSlots T).length := by omega
    rw [List.getElem_take,List.getElem_zip,bne_iff_ne]
    intro hne
    have := (nodup_freeSlots T).getElem_inj_iff.mp hne
    omega

theorem reload_success_iff :
    (tcpRpcsReloadExtSecrets preciseNow confs T).1 = 0 ↔ HasRoom T confs := by
  have h := reload_fails_iff preciseNow confs T
  have hret : (tcpRpcsReloadExtSecrets preciseNow confs T).1 = 0 ∨
      (tcpRpcsReloadExtSecrets preciseNow confs T).1 = -1 := by
    rw [reload_eq,commit]
    split_ifs <;> simp
  rcases hret with hr | hr <;> rw [hr] at h ⊢ <;> simpa using h

/-- What a slot holds after a reload: it was placed, refreshed, drained, or
left alone. -/
theorem reload_slot_cases (preciseNow : ℚ) (confs : List SecretConf) (T : SlotTable)
    (s : Fin extSecretMaxSlots) :
    (∃ c x, placedIn T (newKeys T confs) s = some c ∧ (T.slots s).state = .free ∧
        (tcpRpcsReloadExtSecrets preciseNow confs T).2.slots s = placeSlot s c x) ∨
      placedIn T (newKeys T confs) s = none ∧
        ((∃ c, namedBy T s (configured T confs) = some c ∧
            (tcpRpcsReloadExtSecrets preciseNow confs T).2.slots s =
              configureSlot s c (T.slots s)) ∨
          (namedBy T s (configured T confs) = none ∧ T.pinned ≤ s.val ∧
            (T.slots s).state = .active ∧
            (tcpRpcsReloadExtSecrets preciseNow confs T).2.slots s =
              {T.slots s with state := .draining, drainStartedAt := preciseNow}) ∨
          (namedBy T s (configured T confs) = none ∧ passA T s = false ∧
            (tcpRpcsReloadExtSecrets preciseNow confs T).2.slots s = T.slots s)) := by
  rw [(reload_table preciseNow confs T).1]
  rcases passes_slots preciseNow confs T s with ⟨c,hc,hf,hs⟩ | ⟨hnone,hs⟩
  · exact .inl ⟨c,_,hc,hf,hs⟩
  refine .inr ⟨hnone,?_⟩
  rw [hs,settle_slots]
  cases hn : namedBy T s (configured T confs) with
  | some c => exact .inl ⟨c,rfl,rfl⟩
  | none =>
      cases ha : passA T s with
      | false => exact .inr (.inr ⟨rfl,rfl,by simp⟩)
      | true =>
          have h : T.pinned ≤ s.val ∧ (T.slots s).state = .active := by
            simpa [passA] using ha
          exact .inr (.inl ⟨rfl,h.1,h.2,by simp⟩)

theorem configured_reload :
    configured (tcpRpcsReloadExtSecrets preciseNow confs T).2 confs = configured T confs := by
  refine List.filter_congr fun c _ => ?_
  rw [Bool.eq_iff_iff]
  simp only [collidesWithPinned,Bool.not_eq_true',List.any_eq_false,Bool.and_eq_true,
    decide_eq_true_eq,(reload_table preciseNow confs T).2]
  refine forall₂_congr fun p _ => not_congr (and_congr_right fun hp => ?_)
  rw [reload_pinned_slot preciseNow confs T hp]

/-- The second reload matches each entry to the slot the first one left its
key in. -/
theorem slotOfKey_reload (hd : KeysDistinct T) (ha : PinnedActive T)
    (hr : RepeatsOnlyHeldKeys T confs) (k : Key) :
    slotOfKey (tcpRpcsReloadExtSecrets preciseNow confs T).2 k = some s ↔
      slotOfKey T k = some s ∨
        ∃ c, placedIn T (newKeys T confs) s = some c ∧ c.key = k := by
  rw [slotOfKey_iff (reload_keysDistinct preciseNow hd ha hr),slotOfKey_iff hd,
    (reload_table preciseNow confs T).2]
  rcases reload_slot_cases preciseNow confs T s with ⟨c,x,hc,hf,hx⟩ | ⟨hnone,hcase⟩
  · have hp := (mem_freeSlots.mp (placedIn_some hc).1).1
    simp [hx,hf,hc,hp]
  · rcases hcase with ⟨c,hn,hx⟩ | ⟨-,hp,hact,hx⟩ | ⟨-,-,hx⟩
    · obtain ⟨hp,hf,-⟩ := slotOfKey_some (namedBy_some hn).2
      simp [hx,configureSlot,hp,hf,hnone]
    · simp [hx,hp,hact,hnone]
    · simp [hx,hnone]

theorem newKeys_reload (preciseNow : ℚ) (hd : KeysDistinct T) (ha : PinnedActive T)
    (hr : RepeatsOnlyHeldKeys T confs) (hroom : HasRoom T confs) :
    newKeys (tcpRpcsReloadExtSecrets preciseNow confs T).2 confs = [] := by
  rw [newKeys,configured_reload,List.filter_eq_nil_iff]
  intro c hc hnone
  rw [Option.isNone_iff_eq_none] at hnone
  have hnot : ∀ s, slotOfKey (tcpRpcsReloadExtSecrets preciseNow confs T).2 c.key ≠ some s := by
    simp [hnone]
  cases hT : slotOfKey T c.key with
  | some s => exact hnot s ((slotOfKey_reload hd ha hr c.key).mpr (.inl hT))
  | none =>
      have hnew : c ∈ newKeys T confs := List.mem_filter.mpr ⟨hc,by simp [hT]⟩
      obtain ⟨s,hs⟩ := exists_placedIn hroom hnew
      exact hnot s ((slotOfKey_reload hd ha hr c.key).mpr (.inr ⟨c,hs,rfl⟩))

/-- A slot that was in use is named by the same entry both times. -/
theorem namedBy_reload_used (hd : KeysDistinct T) (ha : PinnedActive T)
    (hr : RepeatsOnlyHeldKeys T confs) (hnone : placedIn T (newKeys T confs) s = none) :
    namedBy (tcpRpcsReloadExtSecrets preciseNow confs T).2 s (configured T confs) =
      namedBy T s (configured T confs) := by
  rw [namedBy,namedBy]
  congr 1
  refine List.filter_congr fun c _ => ?_
  rw [Bool.eq_iff_iff,beq_iff_eq,beq_iff_eq,slotOfKey_reload hd ha hr]
  simp [hnone]

/-- A slot that was filled by the first reload is named by that very entry. -/
theorem namedBy_reload_placed (hd : KeysDistinct T) (ha : PinnedActive T)
    (hr : RepeatsOnlyHeldKeys T confs) {c : SecretConf}
    (hc : placedIn T (newKeys T confs) s = some c) :
    namedBy (tcpRpcsReloadExtSecrets preciseNow confs T).2 s (configured T confs) = some c := by
  have hnew := (placedIn_some hc).2
  have hsome : slotOfKey (tcpRpcsReloadExtSecrets preciseNow confs T).2 c.key = some s :=
    (slotOfKey_reload hd ha hr c.key).mpr (.inr ⟨c,hc,rfl⟩)
  have hcconf : c ∈ configured T confs := List.mem_of_mem_filter hnew
  cases hn : namedBy (tcpRpcsReloadExtSecrets preciseNow confs T).2 s (configured T confs) with
  | none => exact (namedBy_none.mp hn c hcconf hsome).elim
  | some d =>
      obtain ⟨hdmem,hds⟩ := namedBy_some hn
      -- both entries have the key of the slot, and that key is new, so it is listed once
      have hkey : d.key = c.key := by
        have h₁ := (slotOfKey_some hds).2.2
        have h₂ := (slotOfKey_some hsome).2.2
        exact h₁.symm.trans h₂
      have hdnew : d ∈ newKeys T confs := by
        rw [mem_newKeys ha] at hnew ⊢
        exact ⟨(mem_configured.mp hdmem).1,by rw [hkey]; exact hnew.2⟩
      rw [List.inj_on_of_nodup_map (newKeys_nodup ha hr) hdnew hnew hkey]

theorem nothingToWrite_again (preciseNow : ℚ) (hd : KeysDistinct T) (ha : PinnedActive T)
    (hr : RepeatsOnlyHeldKeys T confs) (hroom : HasRoom T confs) :
    NothingToWrite (tcpRpcsReloadExtSecrets preciseNow confs T).2 confs := by
  refine ⟨fun s hp hact => ?_,fun s hdr => ?_,.inl (newKeys_reload preciseNow hd ha hr hroom)⟩
  · rw [configured_reload]
    rcases reload_slot_cases preciseNow confs T s with ⟨c,x,hc,-,hx⟩ | ⟨hnone,hcase⟩
    · exact ⟨c,namedBy_reload_placed hd ha hr hc,by rw [hx]; rfl⟩
    · rcases hcase with ⟨c,hn,hx⟩ | ⟨-,-,-,hx⟩ | ⟨-,hA,hx⟩
      · exact ⟨c,(namedBy_reload_used hd ha hr hnone).trans hn,by rw [hx]; rfl⟩
      · rw [hx] at hact
        cases hact
      · rw [hx] at hact
        rw [(reload_table preciseNow confs T).2] at hp
        simp [passA,hp,hact] at hA
  · rw [configured_reload]
    rcases reload_slot_cases preciseNow confs T s with ⟨c,x,hc,-,hx⟩ | ⟨hnone,hcase⟩
    · rw [hx] at hdr
      cases hdr
    · rw [namedBy_reload_used hd ha hr hnone]
      rcases hcase with ⟨c,hn,hx⟩ | ⟨hn,-⟩ | ⟨hn,-⟩
      · rw [hx] at hdr
        cases hdr
      · exact hn
      · exact hn

/-- Committing a committed table only recomputes the same count. -/
theorem commit_again {D : SlotTable} (h : (commit (D,true)).1 = 0) :
    commit ((commit (D,true)).2,true) = (0,(commit (D,true)).2) := by
  by_cases hact : activeTotal D > extSecretMaxActive
  · simp [commit,hact] at h
  · have hc : commit (D,true) = (0,{D with cnt := highWater D}) := by simp [commit,hact]
    rw [hc]
    have hact' : ¬ activeTotal {D with cnt := highWater D} > extSecretMaxActive := hact
    simp only [commit,Bool.true_eq_false,if_false,hact']
    rfl

/-- A second reload of the same list succeeds and changes nothing at all. -/
theorem reload_again (preciseNow' : ℚ) (hd : KeysDistinct T) (ha : PinnedActive T)
    (hr : RepeatsOnlyHeldKeys T confs)
    (hok : (tcpRpcsReloadExtSecrets preciseNow confs T).1 = 0) :
    tcpRpcsReloadExtSecrets preciseNow' confs (tcpRpcsReloadExtSecrets preciseNow confs T).2 =
      (0,(tcpRpcsReloadExtSecrets preciseNow confs T).2) := by
  have hroom := reload_success_iff.mp hok
  have hsame := (passes_eq_iff preciseNow' confs _).mpr
    (nothingToWrite_again preciseNow hd ha hr hroom)
  have hcommit : tcpRpcsReloadExtSecrets preciseNow confs T =
      commit ((passD (settle preciseNow confs T) (newKeys T confs)).1,true) := by
    have h₂ := (passD_spec (settle preciseNow confs T) (newKeys T confs)).2.1
    rw [freeSlots_settle,decide_eq_true hroom.1] at h₂
    rw [reload_eq,← h₂]
  rw [reload_eq preciseNow']
  rw [newKeys_reload preciseNow hd ha hr hroom] at hsame ⊢
  simp only [passD] at hsame ⊢
  rw [hsame]
  rw [hcommit] at hok ⊢
  exact commit_again hok

end Again

theorem release_slot_cases (s t : Fin extSecretMaxSlots) (T : SlotTable) :
    (tcpRpcsDrainReleaseSlotIfEmpty s T).pinned = T.pinned ∧
      ((tcpRpcsDrainReleaseSlotIfEmpty s T).slots t = T.slots t ∨
        t = s ∧ T.pinned ≤ s.val ∧ (T.slots s).state = .draining ∧ (T.slots s).connections = 0 ∧
          ((tcpRpcsDrainReleaseSlotIfEmpty s T).slots t).state = .free) := by
  unfold tcpRpcsDrainReleaseSlotIfEmpty
  split_ifs with h₁ h₂ h₃
  · exact ⟨rfl,.inl rfl⟩
  · exact ⟨rfl,.inl rfl⟩
  · exact ⟨rfl,.inl rfl⟩
  · refine ⟨rfl,?_⟩
    rw [not_not] at h₂ h₃
    by_cases hts : t = s
    · subst hts
      exact .inr ⟨rfl,by omega,h₂,h₃,by simp [zeroCounters,ipTrackClearSlot]⟩
    · exact .inl (set_slots_other _ _ hts)

inductive SlotEvent where
  | reload (preciseNow : ℚ) (confs : List SecretConf)
  | release (s : Fin extSecretMaxSlots)

def slotStep (T : SlotTable) : SlotEvent → SlotTable
  | .reload preciseNow confs => (tcpRpcsReloadExtSecrets preciseNow confs T).2
  | .release s => tcpRpcsDrainReleaseSlotIfEmpty s T

/-- The condition on one event: no key is listed twice while it is new. -/
def NoRepeatedNewKey (T : SlotTable) : SlotEvent → Prop
  | .reload _ confs => RepeatsOnlyHeldKeys T confs
  | .release _ => True

theorem slotStep_invariant (T : SlotTable) (e : SlotEvent) (h : KeysDistinct T ∧ PinnedActive T)
    (hok : NoRepeatedNewKey T e) : KeysDistinct (slotStep T e) ∧ PinnedActive (slotStep T e) := by
  cases e with
  | reload preciseNow confs =>
      exact ⟨reload_keysDistinct preciseNow h.1 h.2 hok,reload_pinnedActive preciseNow confs h.2⟩
  | release r =>
      have hc := fun t => release_slot_cases r t T
      refine ⟨fun s t hs ht hk => ?_,fun s hs => ?_⟩
      · rcases (hc s).2 with h₁ | ⟨-,-,-,-,h₁⟩
        · rcases (hc t).2 with h₂ | ⟨-,-,-,-,h₂⟩
          · simp only [slotStep,h₁,h₂] at hs ht hk
            exact h.1 s t hs ht hk
          · exact (ht h₂).elim
        · exact (hs h₁).elim
      · rw [slotStep,(hc s).1] at hs
        rcases (hc s).2 with h₁ | ⟨he,hp,-⟩
        · rw [slotStep,h₁]
          exact h.2 s hs
        · subst he
          omega

/-- Start-up fills slots from the bottom. -/
structure Filled (T : SlotTable) : Prop where
  distinct : KeysDistinct T
  used : ∀ s : Fin extSecretMaxSlots, s.val < T.cnt → (T.slots s).state = .active
  free : ∀ s : Fin extSecretMaxSlots, T.cnt ≤ s.val → (T.slots s).state = .free

theorem filled_set {c : SecretConf} (h : Filled T)
    (hc : ∀ s, (T.slots s).state ≠ .free → (T.slots s).key ≠ c.key) :
    Filled (tcpRpcsSetExtSecret T c) ∧
      ∀ s, ((tcpRpcsSetExtSecret T c).slots s).state ≠ .free →
        ((tcpRpcsSetExtSecret T c).slots s).key = c.key ∨
          (T.slots s).state ≠ .free ∧
            ((tcpRpcsSetExtSecret T c).slots s).key = (T.slots s).key := by
  unfold tcpRpcsSetExtSecret
  split_ifs with hlt
  swap
  · exact ⟨h,fun s hs => .inr ⟨hs,rfl⟩⟩
  set n : Fin extSecretMaxSlots := ⟨T.cnt,hlt.trans (by decide)⟩ with hn
  set U := T.set n (ipTrackClearSlot (configureSlot n c {T.slots n with key := c.key})) with hU
  have hnew : (U.slots n).key = c.key ∧ (U.slots n).state = .active := by
    simp [hU,ipTrackClearSlot,configureSlot]
  have hold : ∀ s, s ≠ n → U.slots s = T.slots s := fun s hs => set_slots_other _ _ hs
  refine ⟨⟨fun s t hs ht hk => ?_,fun s hs => ?_,fun s hs => ?_⟩,fun s hs => ?_⟩
  · change (U.slots s).state ≠ _ at hs
    change (U.slots t).state ≠ _ at ht
    change (U.slots s).key = (U.slots t).key at hk
    by_cases hsn : s = n <;> by_cases htn : t = n
    · rw [hsn,htn]
    · rw [hsn,hnew.1,hold t htn] at hk
      rw [hold t htn] at ht
      exact (hc t ht hk.symm).elim
    · rw [htn,hnew.1,hold s hsn] at hk
      rw [hold s hsn] at hs
      exact (hc s hs hk).elim
    · rw [hold s hsn] at hs hk
      rw [hold t htn] at ht hk
      exact h.distinct s t hs ht hk
  · change (U.slots s).state = _
    change s.val < T.cnt+1 at hs
    by_cases hsn : s = n
    · rw [hsn,hnew.2]
    · rw [hold s hsn]
      refine h.used s ?_
      have : s.val ≠ T.cnt := fun he => hsn (Fin.ext he)
      omega
  · change (U.slots s).state = _
    change T.cnt+1 ≤ s.val at hs
    have hsn : s ≠ n := by
      intro he
      have hval := congrArg Fin.val he
      simp only [hn] at hval
      omega
    rw [hold s hsn]
    exact h.free s (by omega)
  · change (U.slots s).state ≠ _ at hs
    change (U.slots s).key = _ ∨ _
    by_cases hsn : s = n
    · rw [hsn]
      exact .inl hnew.1
    · rw [hold s hsn] at hs
      exact .inr ⟨hs,by change (U.slots s).key = _; rw [hold s hsn]⟩

theorem filled_foldl {cs : List SecretConf} (hcs : (cs.map SecretConf.key).Nodup) (h : Filled T)
    (hnew : ∀ c ∈ cs, ∀ s, (T.slots s).state ≠ .free → (T.slots s).key ≠ c.key) :
    Filled (cs.foldl tcpRpcsSetExtSecret T) := by
  induction cs generalizing T with
  | nil => exact h
  | cons c cs ih =>
      rw [List.map_cons,List.nodup_cons] at hcs
      obtain ⟨hset,hkeys⟩ := filled_set h (hnew c (by simp))
      refine ih hcs.2 hset fun d hd s hs => ?_
      rcases hkeys s hs with hk | ⟨hs',hk⟩ <;> rw [hk]
      · exact fun he => hcs.1 (he ▸ List.mem_map_of_mem hd)
      · exact hnew d (by simp [hd]) s hs'

theorem pinnedTable_invariant {cs : List SecretConf} (hcs : (cs.map SecretConf.key).Nodup) :
    KeysDistinct (pinnedTable cs) ∧ PinnedActive (pinnedTable cs) := by
  have h : Filled (cs.foldl tcpRpcsSetExtSecret emptyTable) := by
    refine filled_foldl hcs ⟨?_,?_,?_⟩ ?_ <;> simp [KeysDistinct,emptyTable]
  exact ⟨h.distinct,h.used⟩

/-- In every run from a start-up table in which no configuration repeats a new
key, keys stay apart in every state, and from every state reached a successful
reload that repeats no new key is idempotent. -/
theorem run_keys_apart_and_reload_idempotent (cs : List SecretConf)
    (hcs : (cs.map SecretConf.key).Nodup) (es : List SlotEvent)
    (hm : Meets slotStep NoRepeatedNewKey (pinnedTable cs) es) :
    Throughout slotStep KeysDistinct (pinnedTable cs) es ∧
      ∀ preciseNow preciseNow' confs,
        NoRepeatedNewKey (run slotStep (pinnedTable cs) es) (.reload preciseNow confs) →
        (tcpRpcsReloadExtSecrets preciseNow confs (run slotStep (pinnedTable cs) es)).1 = 0 →
        tcpRpcsReloadExtSecrets preciseNow' confs
            (tcpRpcsReloadExtSecrets preciseNow confs (run slotStep (pinnedTable cs) es)).2 =
          (0,(tcpRpcsReloadExtSecrets preciseNow confs (run slotStep (pinnedTable cs) es)).2) := by
  have hinit := pinnedTable_invariant hcs
  have hend := run_invariant slotStep_invariant hinit hm
  refine ⟨throughout_of_invariant slotStep_invariant (fun _ h => h.1) hinit hm,?_⟩
  intro preciseNow preciseNow' confs hr hok
  exact reload_again preciseNow' hend.1 hend.2 hr hok

/-- Only the keys of the list can be repeated in it. -/
theorem repeatsOnlyHeldKeys_of {confs : List SecretConf}
    (h : (confs.map SecretConf.key).all fun k => 2 ≤ (confs.map SecretConf.key).count k →
      ∃ s, (T.slots s).state ≠ .free ∧ (T.slots s).key = k) : RepeatsOnlyHeldKeys T confs := by
  intro k hk
  exact of_decide_eq_true (List.all_eq_true.mp h k (List.count_pos_iff.mp (by omega))) hk

def firstSecret : SecretConf := {key := Vector.replicate 16 1}
def secondSecret : SecretConf := {key := Vector.replicate 16 2}
def thirdSecret : SecretConf := {key := Vector.replicate 16 3}

/-- Two new secrets, a list with the first of them and a pinned one twice, and a release. -/
def sampleReloads : List SlotEvent :=
  [.reload 5 [secondSecret,thirdSecret],
    .reload 6 [firstSecret,secondSecret,firstSecret,secondSecret],.release ⟨2,by decide⟩]

/-- The released slot is taken again by a list that repeats a key that is held. -/
theorem run_keys_apart_held_twice :
    Throughout slotStep KeysDistinct (pinnedTable [firstSecret]) sampleReloads ∧
      tcpRpcsReloadExtSecrets 8 [secondSecret,thirdSecret,secondSecret]
          (tcpRpcsReloadExtSecrets 7 [secondSecret,thirdSecret,secondSecret]
            (run slotStep (pinnedTable [firstSecret]) sampleReloads)).2 =
        (0,(tcpRpcsReloadExtSecrets 7 [secondSecret,thirdSecret,secondSecret]
            (run slotStep (pinnedTable [firstSecret]) sampleReloads)).2) := by
  have h := run_keys_apart_and_reload_idempotent [firstSecret] (by decide) sampleReloads
    ⟨repeatsOnlyHeldKeys_of (by decide +kernel),repeatsOnlyHeldKeys_of (by decide +kernel),
      trivial,trivial⟩
  exact ⟨h.1,h.2 7 8 _ (repeatsOnlyHeldKeys_of (by decide +kernel)) (by decide)⟩

/-- A list with one new key twice is accepted and takes two slots, and loading
it again drains the second of them. -/
theorem reload_repeated_key_takes_two_slots :
    (tcpRpcsReloadExtSecrets 0 [firstSecret,firstSecret] (pinnedTable [])).1 = 0 ∧
      ¬ KeysDistinct
        (run slotStep (pinnedTable []) [.reload 0 [firstSecret,firstSecret]]) ∧
      ((run slotStep (pinnedTable []) [.reload 0 [firstSecret,firstSecret]]).slots 1).state =
        .active ∧
      ((run slotStep (pinnedTable []) [.reload 0 [firstSecret,firstSecret],
        .reload 0 [firstSecret,firstSecret]]).slots 1).state = .draining := by
  refine ⟨by decide,fun h => ?_,by decide,by decide⟩
  have h₀₁ := h 0 1 (by decide) (by decide) (by decide)
  exact absurd h₀₁ (by decide)

end Teleproxy.ReloadUniqueness
