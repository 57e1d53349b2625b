import Teleproxy.MpqSlots

/-!
# Order and contents of a queue block

In every run of any number of threads a block gives back exactly the values that were put
into it, in the order of their numbers, and calls that do not overlap get their numbers in
the order of the calls. A pop that reports an empty block is right: what has been put by then
is taken, or reserved by another pop. A closed block takes no new numbers for a push.
-/
namespace Teleproxy.MpqOrder
open MpqBlock MpqSlots
open StepSystem (run)
open Tickets (Issued)

variable {ι V : Type*} {b : MpQueueBlock V} {o : Op V} {r : Outcome V} {t : ℕ} {v : V}

theorem move_counters {spent : ℕ → Prop} (hm : Move b o r) (hfit : Fits b spent o) :
    b.head ≤ r.block.head ∧ b.tail ≤ r.block.tail ∧ (b.closed = true → r.block.closed = true) := by
  cases hm with
  | claim => exact ⟨Nat.le_succ _,Nat.le_refl _,id⟩
  | fix same => exact ⟨Nat.le_refl _,same ▸ Nat.le_of_lt hfit,id⟩
  | claimTail isOpen => exact ⟨Nat.le_refl _,Nat.le_succ _,id⟩
  | refuse shut => exact ⟨Nat.le_refl _,Nat.le_succ _,id⟩
  | close => exact ⟨Nat.le_refl _,Nat.le_refl _,fun _ => rfl⟩
  | look | miss | empty | take | mark | skip | put =>
      exact ⟨Nat.le_refl _,Nat.le_refl _,id⟩

/-- A new number of a push is the tail of an open block. -/
theorem move_pushTicket (hm : Move b o r) (h : r.op.pushTicket = some t) :
    o.pushTicket = some t ∨ t = b.tail ∧ b.closed = false := by
  cases hm with
  | look pop push => exact .inl (push t h)
  | claimTail isOpen => exact .inr ⟨(Option.some.inj h).symm,isOpen⟩
  | miss | empty | claim | take | mark | skip | fix | refuse | put | close => cases h

theorem move_popTicket (hm : Move b o r) (h : r.op.popTicket = some t) :
    o.popTicket = some t ∨ t = b.head := by
  cases hm with
  | look pop push => exact .inl (pop ▸ h)
  | claim => exact .inr (Option.some.inj h).symm
  | miss | empty | take | mark | skip | fix | claimTail | refuse | put | close => cases h

theorem move_pushed (hm : Move b o r) (h : r.event = some (.pushed t v)) :
    o.pushTicket = some t := by
  cases hm with
  | put => cases h; rfl
  | look | miss | empty | claim | take | mark | skip | fix | claimTail | refuse | close => cases h

theorem move_popped (hm : Move b o r) (h : r.event = some (.popped t v)) :
    o.popTicket = some t := by
  cases hm with
  | take => cases h; rfl
  | look | miss | empty | claim | mark | skip | fix | claimTail | refuse | put | close => cases h

/-- Only a pop that has used its number and read a short tail reports an empty block. -/
theorem move_empty_tail (hm : Move b o r) (h : r.event = some .empty) :
    ∃ k, o = .popTail k ∧ b.tail ≤ k+1 := by
  cases hm with
  | @empty k short => exact ⟨k,rfl,short⟩
  | look | miss | claim | take | mark | skip | fix | claimTail | refuse | put | close => cases h

theorem rests_tickets (h : o.Rests) : o.pushTicket = none ∧ o.popTicket = none := by
  cases o <;> first | exact ⟨rfl,rfl⟩ | cases h

section
variable {s : State ι V} {i j : ι}

/-- What a thread has done since a state in which it was at rest. -/
structure Since (s₀ : State ι V) (i : ι) (s : State ι V) : Prop where
  head : s₀.block.head ≤ s.block.head
  tail : s₀.block.tail ≤ s.block.tail
  push : ∀ t, (s.ops i).pushTicket = some t → s₀.block.tail ≤ t
  pop : ∀ t, (s.ops i).popTicket = some t → s₀.block.head ≤ t
  log : ∃ new, s.log = s₀.log++new ∧ (∀ t v, (i,Event.pushed t v) ∈ new → s₀.block.tail ≤ t) ∧
    ∀ t v, (i,Event.popped t v) ∈ new → s₀.block.head ≤ t

theorem Since.start (h : (s.ops i).Rests) : Since s i s where
  head := Nat.le_refl _
  tail := Nat.le_refl _
  push t ht := by rw [(rests_tickets h).1] at ht; cases ht
  pop t ht := by rw [(rests_tickets h).2] at ht; cases ht
  log := ⟨[],(List.append_nil _).symm,fun _ _ h => absurd h List.not_mem_nil,
    fun _ _ h => absurd h List.not_mem_nil⟩

variable [DecidableEq ι]

theorem Since.call {s₀ : State ι V} (h : Since s₀ i s) (hpush : o.pushTicket = none)
    (hpop : o.popTicket = none) : Since s₀ i (s.call j o) := by
  refine {h with push := fun t ht => ?_, pop := fun t ht => ?_}
  · change (Function.update s.ops j o i).pushTicket = _ at ht
    by_cases hij : i = j
    · subst hij
      rw [Function.update_self,hpush] at ht
      cases ht
    · rw [Function.update_of_ne hij] at ht
      exact h.push t ht
  · change (Function.update s.ops j o i).popTicket = _ at ht
    by_cases hij : i = j
    · subst hij
      rw [Function.update_self,hpop] at ht
      cases ht
    · rw [Function.update_of_ne hij] at ht
      exact h.pop t ht

theorem Since.settle {s₀ : State ι V} (h : Since s₀ i s) (hs : Inv s)
    (hm : Move s.block (s.ops j) r) : Since s₀ i (s.settle j r) := by
  have hcounters := move_counters hm (hs.fits j)
  refine ⟨h.head.trans hcounters.1,h.tail.trans hcounters.2.1,fun t ht => ?_,fun t ht => ?_,?_⟩
  · change (Function.update s.ops j r.op i).pushTicket = _ at ht
    by_cases hij : i = j
    · subst hij
      rw [Function.update_self] at ht
      rcases move_pushTicket hm ht with hold | ⟨rfl,-⟩
      · exact h.push t hold
      · exact h.tail
    · rw [Function.update_of_ne hij] at ht
      exact h.push t ht
  · change (Function.update s.ops j r.op i).popTicket = _ at ht
    by_cases hij : i = j
    · subst hij
      rw [Function.update_self] at ht
      rcases move_popTicket hm ht with hold | rfl
      · exact h.pop t hold
      · exact h.head
    · rw [Function.update_of_ne hij] at ht
      exact h.pop t ht
  · obtain ⟨new,hlog,hpush,hpop⟩ := h.log
    refine ⟨new++(r.event.map fun e => (j,e)).toList,?_,fun t v hmem => ?_,fun t v hmem => ?_⟩
    · rw [← List.append_assoc,← hlog]
      rfl
    · rcases List.mem_append.mp hmem with hmem | hmem
      · exact hpush t v hmem
      · rw [Option.mem_toList,Option.map_eq_some_iff] at hmem
        obtain ⟨e,he,heq⟩ := hmem
        cases heq
        exact h.push t (move_pushed hm he)
    · rcases List.mem_append.mp hmem with hmem | hmem
      · exact hpop t v hmem
      · rw [Option.mem_toList,Option.map_eq_some_iff] at hmem
        obtain ⟨e,he,heq⟩ := hmem
        cases heq
        exact h.pop t (move_popped hm he)

variable [DecidableEq V]

theorem run_inv (h : Inv s) (acts : List (Action ι V)) : Inv (run step s acts) :=
  StepSystem.run_preserves (P := Inv) (fun _ a hs => step_inv hs a) acts h

theorem Since.step {s₀ : State ι V} (h : Since s₀ i s) (hs : Inv s) (a : Action ι V) :
    Since s₀ i (MpqBlock.step s a) := by
  cases a with
  | push j v =>
      dsimp only [MpqBlock.step]
      split
      · exact h.call rfl rfl
      · exact h
  | pop j =>
      dsimp only [MpqBlock.step]
      split
      · exact h.call rfl rfl
      · exact h
  | step j => exact h.settle hs (perform_move _ _)

theorem Since.run {s₀ : State ι V} (hs : Inv s₀) (hrest : (s₀.ops i).Rests)
    (acts : List (Action ι V)) : Since s₀ i (StepSystem.run MpqBlock.step s₀ acts) :=
  (StepSystem.run_preserves (P := fun s => Inv s ∧ Since s₀ i s)
    (fun _ a h => ⟨step_inv h.1 a,h.2.step h.1 a⟩) acts ⟨hs,.start hrest⟩).2

/-- Every value that was put is taken at most once, under its number, and waits in its node
until then. Numbers below the head that are not taken yet are reserved by a pop; so values
are taken in the order of their numbers. -/
theorem block_contents (first : Option (ι × V)) (isSmall : Bool) (acts : List (Action ι V)) :
    let s := run step (start first isSmall) acts
    (pushed s).Nodup ∧ (popped s).Nodup ∧ (∀ p ∈ s.pops, p ∈ s.pushes) ∧
      (∀ u v, (u,v) ∈ s.pushes → u ∉ popped s →
        (s.block.node u).idx = u ∧ (s.block.node u).val = some v) ∧
      (∀ u ∈ pushed s, u < s.block.head → u ∈ popped s ∨ Holds s u) ∧
      ∀ t ∈ popped s, ∀ u ∈ pushed s, u < t → u ∈ popped s ∨ Holds s u := by
  intro s
  have h : Inv s := run_inv (start_inv first isSmall) acts
  have hserved : ∀ u ∈ pushed s, u < s.block.head → u ∈ popped s ∨ Holds s u := by
    intro u hu hlt
    by_cases hin : u ∈ popped s
    · exact .inl hin
    · exact .inr (h.served u hu hin hlt)
  exact ⟨h.pushes.nodup,h.pops.nodup,h.sub,h.stored,hserved,
    fun t ht u hu hlt => hserved u hu (hlt.trans (h.pops.usedBelow t ht))⟩

/-- A call that begins when another one has ended gets the larger number, and a pop that
reports an empty block sees nothing that is not taken or reserved by another pop. -/
theorem calls_in_order (first : Option (ι × V)) (isSmall : Bool) (before after : List (Action ι V))
    (i : ι) :
    let s := run step (start first isSmall) before
    ((s.ops i).Rests → ∃ new, (run step s after).log = s.log++new ∧
      (∀ t v, (i,Event.pushed t v) ∈ new → ∀ u ∈ pushed s, u < t) ∧
      ∀ t v, (i,Event.popped t v) ∈ new → ∀ u ∈ popped s, u < t) ∧
    ((step s (.step i)).log = s.log++[(i,.empty)] → ∀ u ∈ pushed s, u ∈ popped s ∨
      ∃ j, j ≠ i ∧ (s.ops j).popTicket = some u) := by
  intro s
  have h : Inv s := run_inv (start_inv first isSmall) before
  refine ⟨fun hrest => ?_,fun hlog u hu => ?_⟩
  · obtain ⟨new,hlog,hpush,hpop⟩ := (Since.run h hrest after).log
    exact ⟨new,hlog,fun t v hmem u hu => (h.pushes.usedBelow u hu).trans_le (hpush t v hmem),
      fun t v hmem u hu => (h.pops.usedBelow u hu).trans_le (hpop t v hmem)⟩
  · have hevent : (perform s.block (s.ops i)).event = some .empty := by
      have htail := List.append_cancel_left hlog
      cases he : (perform s.block (s.ops i)).event with
      | none =>
          rw [he] at htail
          cases htail
      | some e =>
          rw [he] at htail
          cases htail
          rfl
    obtain ⟨k,hop,hshort⟩ := move_empty_tail (perform_move _ _) hevent
    have hk : k < s.block.head := by
      have hfit := h.fits i
      rwa [hop] at hfit
    by_cases hin : u ∈ popped s
    · exact .inl hin
    · obtain ⟨j,hj⟩ := h.served u hu hin (by have := h.pushes.usedBelow u hu; omega)
      refine .inr ⟨j,fun hji => ?_,hj⟩
      rw [hji,hop] at hj
      cases hj

end

end Teleproxy.MpqOrder
