import Mathlib.Data.List.Infix
import Teleproxy.MpqChain

/-!
# Order and contents of a queue

Whatever blocks the values of a queue have gone to: each is taken at most once, and only when
everything ahead of it is taken or reserved. Calls that do not overlap get places in the
order of the calls. A queue is reported as empty only when at some moment of the call nothing
was left to take.
-/
namespace Teleproxy.MpqFifo
open MpqBlock MpqSlots MpqOrder MpqList MpqChain
open StepSystem (run)

variable {ι V : Type*} {w w' w₀ : MpQueue ι V} {i j : ι} {q k t u : ℕ}

/-- The place of a value: its block, and its number there. -/
def Before (k u q t : ℕ) : Prop := k < q ∨ k = q ∧ u < t

/-- Numbers that a pop has gone past are taken or reserved. -/
theorem served_before (h : Linked w) (ht : t ∈ popped (w.blocks q)) (hu : u ∈ pushed (w.blocks k))
    (hbefore : Before k u q t) : u ∈ popped (w.blocks k) ∨ Holds (w.blocks k) u := by
  rcases hbefore with hlt | ⟨rfl,hlt⟩
  · have hq : q ≤ w.head := by
      by_contra hgt
      rw [h.untouched q (Nat.lt_of_not_le hgt)] at ht
      cases ht
    exact (h.drained k (hlt.trans_le hq)).served (h.inv k) hu
  · by_cases hin : u ∈ popped (w.blocks k)
    · exact .inl hin
    · exact .inr ((h.inv k).served u hu hin (hlt.trans ((h.inv k).pops.usedBelow t ht)))

/-- A value that is neither taken nor reserved is at or behind the head. -/
theorem waiting (h : Linked w) {v : V} (hu : (u,v) ∈ (w.blocks k).pushes)
    (hno : u ∉ popped (w.blocks k)) (hfree : ¬Holds (w.blocks k) u) :
    w.head ≤ k ∧ (w.blocks k).block.head ≤ u ∧ ((w.blocks k).block.node u).val = some v := by
  have hin : u ∈ pushed (w.blocks k) := List.mem_map_of_mem hu
  refine ⟨?_,?_,((h.inv k).stored u v hu hno).2⟩
  · by_contra hlt
    rcases (h.drained k (Nat.lt_of_not_le hlt)).served (h.inv k) hin with hpop | hheld
    · exact hno hpop
    · exact hfree hheld
  · by_contra hlt
    exact hfree ((h.inv k).served u hin hno (Nat.lt_of_not_le hlt))

/-- Everything that was put is taken, or a pop other than that of `i` has its number. -/
def Exhausted (w : MpQueue ι V) (i : ι) : Prop :=
  ∀ k, ∀ u ∈ pushed (w.blocks k), u ∈ popped (w.blocks k) ∨
    ∃ j, j ≠ i ∧ ((w.blocks k).ops j).popTicket = some u

theorem exhausted (h : Linked w) (hlast : q+1 = w.count) (hle : q ≤ w.head)
    (hbelow : ∀ u ∈ pushed (w.blocks q), u < (w.blocks q).block.head)
    (hfree : ∀ k, ((w.blocks k).ops i).popTicket = none) : Exhausted w i := by
  intro k u hu
  by_cases hin : u ∈ popped (w.blocks k)
  · exact .inl hin
  · have hlt : u < (w.blocks k).block.head := by
      rcases Nat.lt_trichotomy k q with hk | rfl | hk
      · exact (h.drained k (hk.trans_le hle)).pushed u hu
      · exact hbelow u hu
      · rw [h.fresh k (by omega)] at hu
        cases hu
    obtain ⟨j,hj⟩ := (h.inv k).served u hu hin hlt
    refine .inr ⟨j,fun hji => ?_,hj⟩
    rw [hji,hfree k] at hj
    cases hj

theorem mem_pushed_of_log {s : State ι V} {v : V} (h : (j,Event.pushed u v) ∈ s.log) :
    u ∈ MpqSlots.pushed s :=
  List.mem_map.mpr ⟨(u,v),List.mem_filterMap.mpr ⟨_,h,rfl⟩,rfl⟩

theorem free_of_out (h : Linked w) (hout : current (w.pcs i) = none) (k : ℕ) :
    ((w.blocks k).ops i).popTicket = none := (rests_tickets (h.rests hout k)).2

/-- A pop that finds the last block empty has seen the queue exhausted. -/
theorem exhausted_of_empty [DecidableEq V] (h : Linked w) (hpc : w.pcs i = .popFirst q)
    (hlast : q+1 = w.count)
    (hevent : (perform (w.blocks q).block ((w.blocks q).ops i)).event = some .empty) :
    Exhausted w i := by
  have hk := h.knows i
  rw [hpc] at hk
  have hshort := empty_short (h.inv q) hevent
  obtain ⟨n,hop,-⟩ := move_empty_tail (perform_move _ _) hevent
  refine exhausted h hlast hk.1
    (fun u hu => ((h.inv q).pushes.usedBelow u hu).trans_le hshort) fun k => ?_
  by_cases hkq : k = q
  · rw [hkq,hop]
    rfl
  · refine (rests_tickets (by_contra fun hin => hkq ?_)).2
    have hsite := h.site i k hin
    rw [hpc] at hsite
    exact (Option.some.inj hsite).symm

/-- A value is put or taken by a thread inside of the block. -/
theorem event_site [DecidableEq V] (h : Linked w) {e : Event V} {v : V}
    (hevent : (perform (w.blocks q).block ((w.blocks q).ops i)).event = some e) :
    (e = .pushed t v → ∃ x, w.pcs i = .pushBlock x q) ∧
      (e = .popped t v → w.pcs i = .popFirst q ∨ w.pcs i = .popSecond q) := by
  have hmove := perform_move (w.blocks q).block ((w.blocks q).ops i)
  have hknows := h.knows i
  have hsite : ∀ {o : Op V}, (w.blocks q).ops i = o → ¬o.Rests → w.pcs i = .popFirst q ∨
      w.pcs i = .popSecond q ∨ ∃ x, w.pcs i = .pushBlock x q := by
    intro o ho hbusy
    have hcurrent := h.site i q (ho ▸ hbusy)
    cases hpc : w.pcs i <;> rw [hpc] at hcurrent <;> cases hcurrent
    · exact .inl rfl
    · exact .inr (.inl rfl)
    · exact .inr (.inr ⟨_,rfl⟩)
  obtain ⟨o,ho⟩ : ∃ o, (w.blocks q).ops i = o := ⟨_,rfl⟩
  rw [ho] at hevent hmove
  constructor
  · rintro rfl
    have hticket := move_pushed hmove hevent
    have hnot : ¬InPop o := by
      cases o <;> first | exact id | cases hticket
    rcases hsite ho (by rintro hrest; rw [(rests_tickets hrest).1] at hticket; cases hticket) with
      hpc | hpc | hpc
    · rw [hpc] at hknows
      exact absurd (ho ▸ hknows.2) hnot
    · rw [hpc] at hknows
      exact absurd (ho ▸ hknows.2.2.1) hnot
    · exact hpc
  · rintro rfl
    have hticket := move_popped hmove hevent
    rcases hsite ho (by rintro hrest; rw [(rests_tickets hrest).2] at hticket; cases hticket) with
      hpc | hpc | ⟨x,hpc⟩
    · exact .inl hpc
    · exact .inr hpc
    · rw [hpc] at hknows
      exact absurd (inPop_of_ticket hticket) (ho ▸ hknows.2.busy.2)

section
variable [DecidableEq ι]

theorem goto_self {pc : Pc V} : (w.goto i pc).pcs i = pc := Function.update_self ..

variable [DecidableEq V]

/-- Where a thread has come from, for the results that say something about the queue. -/
def Came (w : MpQueue ι V) (i : ι) : Pc V → Prop
  | .answered true =>
      (∃ q n, w.pcs i = .emptyTail q n ∧ (w.blocks q).block.closed = false ∧
        (w.blocks q).block.tail ≤ n) ∨ ∃ q, w.pcs i = .emptyNext q ∧ w.count ≤ q+1
  | .popped none => ∃ q, w.pcs i = .popNext q ∧ w.count ≤ q+1
  | .popNext q =>
      w.pcs i = .popFirst q ∧ (MpqBlock.step (w.blocks q) (.step i)).ops i = .popped none
  | .popFirst q => w.pcs i = .popFirst q ∨ w.pcs i = .popCheck q ∧ w.head = q
  | _ => True

theorem came (hbusy : ¬(w.pcs i).Rests) : Came w i ((w.perform i).pcs i) := by
  unfold MpQueue.perform
  split
  case h_1 hpc | h_2 hpc | h_3 hpc | h_4 hpc => exact absurd (hpc ▸ trivial) hbusy
  case h_6 q hpc =>
    split
    next heq =>
      rw [MpQueue.enter,goto_self]
      exact .inr ⟨hpc,heq⟩
    · rw [goto_self]
      trivial
  case h_7 q hpc =>
    rw [MpQueue.access,goto_self]
    unfold popResult
    split
    · trivial
    next hop => exact ⟨hpc,hop⟩
    · exact .inl hpc
  case h_8 q hpc =>
    split
    · rw [MpQueue.enter,goto_self]
      trivial
    next hlast =>
      rw [goto_self]
      exact ⟨q,hpc,Nat.le_of_not_lt hlast⟩
  case h_9 q hpc =>
    rw [MpQueue.access,goto_self]
    unfold popResult
    split <;> trivial
  case h_15 v q hpc =>
    rw [MpQueue.access,goto_self]
    unfold pushResult
    split <;> trivial
  case h_22 q n hpc =>
    split
    next hopen =>
      rw [goto_self]
      by_cases hshort : (w.blocks q).block.tail ≤ n
      · rw [decide_eq_true hshort]
        exact .inl ⟨q,n,hpc,hopen,hshort⟩
      · rw [decide_eq_false hshort]
        trivial
    · split <;> rw [goto_self] <;> trivial
  case h_23 q hpc =>
    rw [goto_self]
    split
    · trivial
    next hlast => exact .inr ⟨q,hpc,Nat.le_of_not_lt hlast⟩
  case h_12 | h_20 =>
    rw [goto_self]
    split <;> trivial
  case h_13 | h_17 =>
    split <;> first | rw [MpQueue.enter,goto_self]; trivial | rw [goto_self]; trivial
  all_goals
    rw [goto_self]
    trivial

/-- `mpq_is_empty` answers 1 only when nothing is left to take. -/
theorem exhausted_of_answer (h : Linked w) (hbusy : ¬(w.pcs i).Rests)
    (hanswer : (w.perform i).pcs i = .answered true) : Exhausted w i := by
  have hk := h.knows i
  have hhead := h.head
  have hcame := came hbusy
  rw [hanswer] at hcame
  rcases hcame with ⟨q,n,hpc,hopen,hshort⟩ | ⟨q,hpc,hlast⟩
  · rw [hpc] at hk
    have hlast : q+1 = w.count := by
      by_contra hne
      rw [h.closed q (by have := hk.1; omega)] at hopen
      cases hopen
    exact exhausted h hlast hk.1
      (fun u hu => ((h.inv q).pushes.usedBelow u hu).trans_le (hshort.trans hk.2))
      (free_of_out h (congrArg current hpc))
  · rw [hpc] at hk
    exact exhausted h (by have := hk.1; omega) hk.1 hk.2.pushed
      (free_of_out h (congrArg current hpc))

/-- A pop that has found the block `q` empty in its first look. -/
def Saw (w : MpQueue ι V) (i : ι) (q : ℕ) : Prop :=
  w.pcs i = .popFirst q ∧ SawEmpty ((w.blocks q).ops i) ∨ w.pcs i = .popNext q

omit [DecidableEq ι] [DecidableEq V] in
theorem Saw.busy (h : Saw w i q) : ¬(w.pcs i).Rests := by
  rcases h with ⟨hpc,-⟩ | hpc <;> rw [hpc] <;> exact id

theorem perform_rests (hrest : (w.pcs i).Rests) : w.perform i = w := by
  unfold MpQueue.perform
  split <;> first
    | rfl
    | (rename_i hpc
       rw [hpc] at hrest
       exact hrest.elim)

/-- When a pop has just found the last block empty, the queue was exhausted. -/
theorem Saw.back_perform (h : Linked w) (hsaw : Saw (w.perform i) i q) :
    Saw w i q ∨ w.pcs i = .popFirst q ∧ (q+1 = w.count → Exhausted w i) := by
  have hbusy : ¬(w.pcs i).Rests := fun hrest => hsaw.busy (by
    rw [perform_rests hrest]
    exact hrest)
  have hcame := came hbusy
  have hlook : w.pcs i = .popFirst q → SawEmpty ((MpqBlock.step (w.blocks q) (.step i)).ops i) →
      Saw w i q ∨ w.pcs i = .popFirst q ∧ (q+1 = w.count → Exhausted w i) := by
    intro hpc hempty
    rw [step_self] at hempty
    rcases perform_sawEmpty hempty with hold | hevent
    · exact .inl (.inl ⟨hpc,hold⟩)
    · exact .inr ⟨hpc,fun hlast => exhausted_of_empty h hpc hlast hevent⟩
  rcases hsaw with ⟨hpc,hempty⟩ | hpc
  · rw [hpc] at hcame
    rcases hcame with hold | ⟨hold,heq⟩
    · refine hlook hold ?_
      have hblock : (w.perform i).blocks q = MpqBlock.step (w.blocks q) (.step i) := by
        unfold MpQueue.perform
        rw [hold]
        exact Function.update_self ..
      rwa [hblock] at hempty
    · have hblock : (w.perform i).blocks q = MpqBlock.step (w.blocks q) (.pop i) := by
        unfold MpQueue.perform
        rw [hold]
        dsimp only
        rw [if_pos heq]
        exact Function.update_self ..
      rw [hblock,(call_op (h.rests (congrArg current hold) q)).1] at hempty
      cases hempty
  · rw [hpc] at hcame
    exact hlook hcame.1 (hcame.2 ▸ trivial)

theorem Saw.back (h : Linked w) {a : MpqList.Action ι V} (hsaw : Saw (MpqList.step w a) i q) :
    Saw w i q ∨ w.pcs i = .popFirst q ∧ (q+1 = w.count → Exhausted w i) := by
  by_cases hi : i = actor a
  · cases a with
    | step j =>
        obtain rfl : i = j := hi
        exact hsaw.back_perform h
    | push j v | pop j | isEmpty j =>
        obtain rfl : i = j := hi
        dsimp only [MpqList.step] at hsaw
        split at hsaw
        · rcases hsaw with ⟨hpc,-⟩ | hpc <;> rw [goto_self] at hpc <;> cases hpc
        · exact .inl hsaw
  · left
    have hturn := h.step a
    rwa [Saw,hturn.pcs i hi,hturn.ops i hi q] at hsaw

/-- A pop that has seen its block empty goes on to the next one, or the queue was exhausted at
some moment of the call. -/
theorem saw_run (acts : List (MpqList.Action ι V)) (q : ℕ)
    (hsaw : Saw (run MpqList.step initMpQueue acts) i q) :
    q+1 < (run MpqList.step initMpQueue acts).count ∨ ∃ pre post, acts = pre++post ∧
      Exhausted (run MpqList.step (initMpQueue : MpQueue ι V) pre) i ∧ ∀ mid, mid <+: post →
        ¬((run MpqList.step initMpQueue (pre++mid)).pcs i).Rests := by
  induction acts using List.reverseRecOn with
  | nil => rcases hsaw with ⟨hpc,-⟩ | hpc <;> cases hpc
  | append_singleton acts a ih =>
      have h : Linked (run MpqList.step initMpQueue acts) := run_linked acts
      have hbusy := hsaw.busy
      rw [StepSystem.run_concat] at hsaw ⊢
      have hcount := (h.step a).ahead.count
      -- a run that goes on after the queue was exhausted
      have hmore : ∀ pre post : List (MpqList.Action ι V), acts = pre++post →
          (∀ mid, mid <+: post → ¬((run MpqList.step initMpQueue (pre++mid)).pcs i).Rests) →
          ∀ mid, mid <+: post++[a] →
            ¬((run MpqList.step initMpQueue (pre++mid)).pcs i).Rests := by
        intro pre post hacts hmid mid hle
        rcases List.prefix_concat_iff.mp hle with rfl | hle
        · rwa [← List.append_assoc,← hacts]
        · exact hmid mid hle
      rcases hsaw.back h with hold | ⟨hpc,hex⟩
      · rcases ih hold with hlt | ⟨pre,post,hacts,hex,hmid⟩
        · exact .inl (hlt.trans_le hcount)
        · exact .inr ⟨pre,post++[a],by rw [hacts,List.append_assoc],hex,hmore pre post hacts hmid⟩
      · by_cases hlast : q+1 = (run MpqList.step initMpQueue acts).count
        · refine .inr ⟨acts,[a],rfl,hex hlast,
            hmore acts [] (List.append_nil _).symm fun mid hle => ?_⟩
          rw [List.prefix_nil.mp hle,List.append_nil,hpc]
          exact id
        · have hle := (h.knows i)
          rw [hpc] at hle
          exact .inl (lt_of_lt_of_le (by have := hle.1; have := h.head; omega) hcount)

/-- `mpq_is_empty` answers 1 in a state in which everything that was put is taken or reserved
by pops, and `mpq_pop` answers with a null pointer only when there was such a state during the
call. -/
theorem queue_empty (acts : List (MpqList.Action ι V)) (i : ι) :
    let w := run MpqList.step (initMpQueue : MpQueue ι V) acts
    ¬(w.pcs i).Rests →
      ((w.perform i).pcs i = .answered true → Exhausted w i) ∧
      ((w.perform i).pcs i = .popped none → ∃ pre post, acts = pre++post ∧
        Exhausted (run MpqList.step (initMpQueue : MpQueue ι V) pre) i ∧ ∀ mid, mid <+: post →
          ¬((run MpqList.step (initMpQueue : MpQueue ι V) (pre++mid)).pcs i).Rests) := by
  intro w hbusy
  have h : Linked w := run_linked acts
  refine ⟨exhausted_of_answer h hbusy,fun hnull => ?_⟩
  have hcame := came hbusy
  rw [hnull] at hcame
  obtain ⟨q,hpc,hlast⟩ := hcame
  exact (saw_run acts q (.inr hpc)).resolve_left (Nat.not_lt.mpr hlast)

/-- The places that a call which began in `w₀` may go to. -/
def Later (w₀ : MpQueue ι V) : Pc V → Prop
  | .popCheck q | .popFirst q | .popNext q | .popSecond q | .popMove q => w₀.head ≤ q
  | .pushCheck _ q | .pushNext _ q | .pushMove _ q | .pushBlock _ q | .pushSize _ q
  | .pushLink _ q _ => w₀.tail ≤ q
  | _ => True

/-- What a thread has done since a state in which it was at rest. -/
structure Done (w₀ : MpQueue ι V) (i : ι) (w : MpQueue ι V) : Prop where
  ahead : Ahead w₀ w
  pc : Later w₀ (w.pcs i)
  since : ∀ q < w₀.count, Since (w₀.blocks q) i (w.blocks q)
  pushed : ∀ q t v, (i,Event.pushed t v) ∈ (w.blocks q).log →
    (i,Event.pushed t v) ∈ (w₀.blocks q).log ∨ w₀.tail ≤ q
  popped : ∀ q t v, (i,Event.popped t v) ∈ (w.blocks q).log →
    (i,Event.popped t v) ∈ (w₀.blocks q).log ∨ w₀.head ≤ q

theorem later_perform (h : Later w₀ (w.pcs i)) (hhead : w₀.head ≤ w.head)
    (htail : w₀.tail ≤ w.tail) : Later w₀ ((w.perform i).pcs i) := by
  unfold MpQueue.perform
  split
  case h_1 | h_2 | h_3 | h_4 => exact h
  case h_5 => rw [goto_self]; exact hhead
  case h_11 => rw [goto_self]; exact htail
  case h_6 q hpc | h_8 q hpc | h_13 v q hpc =>
    rw [hpc] at h
    split
    all_goals first | rw [MpQueue.enter,goto_self] | rw [goto_self]
    all_goals first | exact h | trivial
  case h_7 q hpc | h_9 q hpc =>
    rw [hpc] at h
    rw [MpQueue.access,goto_self]
    unfold popResult
    split
    · trivial
    · exact h
    · exact h
  case h_15 v q hpc =>
    rw [hpc] at h
    rw [MpQueue.access,goto_self]
    unfold pushResult
    split
    · trivial
    · exact h
    · exact h
  case h_12 v q hpc =>
    rw [hpc] at h
    rw [goto_self]
    split
    · exact h
    · trivial
  case h_16 v q hpc =>
    rw [hpc] at h
    rw [goto_self]
    exact h
  case h_17 v q small hpc => split <;> rw [goto_self] <;> trivial
  case h_20 | h_23 =>
    rw [goto_self]
    split <;> trivial
  case h_22 => split <;> first | rw [goto_self]; trivial | (split <;> rw [goto_self] <;> trivial)
  all_goals
    rw [goto_self]
    trivial

theorem mem_log_step {s : State ι V} {a : MpqBlock.Action ι V} {e : Event V}
    (h : (i,e) ∈ (MpqBlock.step s a).log) :
    (i,e) ∈ s.log ∨ a = .step i ∧ (perform s.block (s.ops i)).event = some e := by
  cases a with
  | push j v | pop j =>
      dsimp only [MpqBlock.step] at h
      split at h <;> exact .inl h
  | step j =>
      rcases List.mem_append.mp h with h | h
      · exact .inl h
      · right
        rw [Option.mem_toList,Option.map_eq_some_iff] at h
        obtain ⟨e',he,heq⟩ := h
        cases heq
        exact ⟨rfl,he⟩

theorem Done.step (h : Done w₀ i w) (hw : Linked w) (h₀ : Linked w₀) (a : MpqList.Action ι V) :
    Done w₀ i (MpqList.step w a) := by
  have hturn := hw.step a
  have hcount := h.ahead.count
  have hnew : ∀ q e, (i,e) ∈ ((MpqList.step w a).blocks q).log → (i,e) ∈ (w.blocks q).log ∨
      w₀.count ≤ q ∨ (perform (w.blocks q).block ((w.blocks q).ops i)).event = some e := by
    intro q e he
    rcases hturn.blocks q with hblock | ⟨b,-,hblock⟩ | rfl
    · exact .inl (hblock ▸ he)
    · rw [hblock] at he
      exact (mem_log_step he).imp id fun hb => .inr hb.2
    · exact .inr (.inl hcount)
  refine ⟨h.ahead.trans hturn.ahead,?_,fun q hq => ?_,fun q t v he => ?_,fun q t v he => ?_⟩
  · by_cases hi : i = actor a
    · cases a with
      | step j =>
          obtain rfl : i = j := hi
          exact later_perform h.pc h.ahead.head h.ahead.tail
      | push j v | pop j | isEmpty j =>
          obtain rfl : i = j := hi
          dsimp only [MpqList.step]
          split
          · rw [goto_self]
            trivial
          · exact h.pc
    · rw [hturn.pcs i hi]
      exact h.pc
  · rcases hturn.blocks q with hblock | ⟨b,-,hblock⟩ | rfl
    · rw [hblock]
      exact h.since q hq
    · rw [hblock]
      exact (h.since q hq).step (hw.inv q) b
    · exact absurd hq (Nat.not_lt.mpr hcount)
  · rcases hnew q _ he with hold | hfar | hevent
    · exact h.pushed q t v hold
    · exact .inr (h₀.tail.le.trans hfar)
    · obtain ⟨x,hpc⟩ := (event_site hw hevent).1 rfl
      have hlater := h.pc
      rw [hpc] at hlater
      exact .inr hlater
  · rcases hnew q _ he with hold | hfar | hevent
    · exact h.popped q t v hold
    · exact .inr (h₀.head.le.trans hfar)
    · have hlater := h.pc
      rcases (event_site hw hevent).2 rfl with hpc | hpc <;> rw [hpc] at hlater
      · exact .inr hlater
      · exact .inr hlater

/-- The block of a value that was put is at or before the tail, except while the thread that
has linked the block moves the tail. -/
def Published (w : MpQueue ι V) : Prop :=
  ∀ k u v j, (j,Event.pushed u v) ∈ (w.blocks k).log →
    k ≤ w.tail ∨ ∃ p, k = p+1 ∧ w.pcs j = .pushMoved p

theorem perform_link (h : (w.perform i).count ≠ w.count) : ∃ v q small,
    w.pcs i = .pushLink v q small ∧ q+1 = w.count ∧
      w.perform i = (w.link i v small).goto i (.pushMoved q) := by
  unfold MpQueue.perform at h ⊢
  split at h
  case h_17 v q small hpc =>
    split at h
    next hlast =>
      exact ⟨v,q,small,hpc,hlast,if_pos hlast⟩
    · exact absurd rfl h
  case h_22 =>
    split at h
    · exact absurd rfl h
    · split at h <;> exact absurd rfl h
  case h_6 | h_8 | h_13 => split at h <;> exact absurd rfl h
  all_goals exact absurd rfl h

theorem Published.perform (h : Published w) (hw : Linked w) (i : ι) : Published (w.perform i) := by
  have hturn := hw.perform i
  intro k u v j hmem
  -- an event of the state before
  have hold : (j,Event.pushed u v) ∈ (w.blocks k).log →
      k ≤ (w.perform i).tail ∨ ∃ p, k = p+1 ∧ (w.perform i).pcs j = .pushMoved p := by
    intro hmem
    rcases h k u v j hmem with hle | ⟨p,hp,hpc⟩
    · exact .inl (hle.trans hturn.ahead.tail)
    · by_cases hji : j = i
      · subst hji
        have hk := hw.knows j
        rw [hpc] at hk
        left
        unfold MpQueue.perform
        rw [hpc]
        change k ≤ if w.tail = p then p+1 else w.tail
        split
        · exact hp.le
        next hne => exact hp.trans_le (Nat.lt_of_le_of_ne hk.1 (Ne.symm hne))
      · exact .inr ⟨p,hp,(hturn.pcs j hji).trans hpc⟩
  rcases hturn.blocks k with hblock | ⟨b,hb,hblock⟩ | rfl
  · exact hold (hblock ▸ hmem)
  · rw [hblock] at hmem
    rcases mem_log_step hmem with hmem | ⟨rfl,hevent⟩
    · exact hold hmem
    · obtain ⟨x,hpc⟩ := (event_site hw hevent).1 rfl
      have hk := hw.knows j
      rw [hpc] at hk
      exact .inl (hk.1.trans hturn.ahead.tail)
  · by_cases hcount : (w.perform i).count = w.count
    · rw [hturn.linked.fresh _ hcount.le] at hmem
      cases hmem
    · obtain ⟨x,q,small,hpc,hlast,heq⟩ := perform_link hcount
      have hblock : (w.perform i).blocks w.count = start (some (i,x)) small := by
        rw [heq]
        exact Function.update_self ..
      rw [hblock] at hmem
      cases List.mem_singleton.mp hmem
      exact .inr ⟨q,hlast.symm,by rw [heq]; exact goto_self⟩

theorem Published.step (h : Published w) (hw : Linked w) (a : MpqList.Action ι V) :
    Published (MpqList.step w a) := by
  have hcall : ∀ i pc, (w.pcs i).Rests → Published (w.goto i pc) := by
    intro i pc hrest k u v j hmem
    rcases h k u v j hmem with hle | ⟨p,hp,hpc⟩
    · exact .inl hle
    · by_cases hji : j = i
      · subst hji
        rw [hpc] at hrest
        exact hrest.elim
      · exact .inr ⟨p,hp,(Function.update_of_ne hji ..).trans hpc⟩
  cases a with
  | step i => exact h.perform hw i
  | push i v | pop i | isEmpty i =>
      dsimp only [MpqList.step]
      split
      next hrest => exact hcall i _ hrest
      · exact h

theorem run_published (acts : List (MpqList.Action ι V)) :
    Published (run MpqList.step initMpQueue acts) :=
  (StepSystem.run_preserves (P := fun w => Linked w ∧ Published w)
    (fun _ a h => ⟨(h.1.step a).linked,h.2.step h.1 a⟩) acts
    ⟨init_linked,fun _ _ _ _ hmem => absurd hmem List.not_mem_nil⟩).2

/-- A value whose `mpq_push` has returned. -/
def Returned (w : MpQueue ι V) (k u : ℕ) : Prop :=
  ∃ j v, (j,Event.pushed u v) ∈ (w.blocks k).log ∧ ∀ p, k = p+1 → w.pcs j ≠ .pushMoved p

/-- In every run, every value is taken at most once, and only when all that is ahead of it is
taken or reserved by a pop; what is neither waits behind the head. -/
theorem queue_contents (acts : List (MpqList.Action ι V)) :
    let w := run MpqList.step (initMpQueue : MpQueue ι V) acts
    (∀ q, (pushed (w.blocks q)).Nodup ∧ (popped (w.blocks q)).Nodup ∧
        ∀ p ∈ (w.blocks q).pops, p ∈ (w.blocks q).pushes) ∧
      (∀ q, ∀ t ∈ popped (w.blocks q), ∀ k, ∀ u ∈ pushed (w.blocks k), Before k u q t →
        u ∈ popped (w.blocks k) ∨ Holds (w.blocks k) u) ∧
      ∀ k u v, (u,v) ∈ (w.blocks k).pushes → u ∉ popped (w.blocks k) → ¬Holds (w.blocks k) u →
        w.head ≤ k ∧ (w.blocks k).block.head ≤ u ∧ ((w.blocks k).block.node u).val = some v := by
  intro w
  have h : Linked w := run_linked acts
  exact ⟨fun q => ⟨(h.inv q).pushes.nodup,(h.inv q).pops.nodup,(h.inv q).sub⟩,
    fun q t ht k u hu hbefore => served_before h ht hu hbefore,
    fun k u v hu hno hfree => waiting h hu hno hfree⟩

/-- A push that begins when others have returned puts its value behind theirs, and a pop that
begins when others have taken values takes one behind these. -/
theorem queue_order (before after : List (MpqList.Action ι V)) (i : ι) :
    let w₀ := run MpqList.step (initMpQueue : MpQueue ι V) before
    let w := run MpqList.step w₀ after
    (w₀.pcs i).Rests →
      (∀ q t v, (i,Event.pushed t v) ∈ (w.blocks q).log →
        (i,Event.pushed t v) ∉ (w₀.blocks q).log → ∀ k u, Returned w₀ k u → Before k u q t) ∧
      ∀ q t v, (i,Event.popped t v) ∈ (w.blocks q).log →
        (i,Event.popped t v) ∉ (w₀.blocks q).log → ∀ k, ∀ u ∈ popped (w₀.blocks k),
          Before k u q t := by
  intro w₀ w hrest
  have h₀ : Linked w₀ := run_linked before
  have hdone : Done w₀ i w := by
    refine (StepSystem.run_preserves (P := fun w => Linked w ∧ Done w₀ i w)
      (fun _ a h => ⟨(h.1.step a).linked,h.2.step h.1 h₀ a⟩) after ⟨h₀,h₀.refl (i := i) |>.ahead,
        ?_,fun q _ => .start ?_,fun _ _ _ => .inl,fun _ _ _ => .inl⟩).2
    · cases hpc : w₀.pcs i <;> rw [hpc] at hrest <;> trivial
    · refine h₀.rests ?_ q
      cases hpc : w₀.pcs i <;> rw [hpc] at hrest <;> first | rfl | cases hrest
  constructor
  · rintro q t v hmem hnew k u ⟨j,x,hput,hreturned⟩
    have hq := (hdone.pushed q t v hmem).resolve_left hnew
    have hk : k ≤ w₀.tail := (run_published before k u x j hput).resolve_right
      fun hp => hp.elim fun p hp => hreturned p hp.1 hp.2
    rcases (hk.trans hq).lt_or_eq with hlt | rfl
    · exact .inl hlt
    · refine .inr ⟨rfl,?_⟩
      have hlt := (h₀.inv k).pushes.usedBelow u (mem_pushed_of_log hput)
      obtain ⟨new,hlog,hpush,-⟩ := (hdone.since k (hk.trans_lt h₀.tail)).log
      rw [hlog] at hmem
      exact hlt.trans_le (hpush t v ((List.mem_append.mp hmem).resolve_left hnew))
  · intro q t v hmem hnew k u hu
    have hq := (hdone.popped q t v hmem).resolve_left hnew
    have hk : k ≤ w₀.head := by
      by_contra hgt
      rw [h₀.untouched k (Nat.lt_of_not_le hgt)] at hu
      cases hu
    rcases (hk.trans hq).lt_or_eq with hlt | rfl
    · exact .inl hlt
    · refine .inr ⟨rfl,?_⟩
      have hlt := (h₀.inv k).pops.usedBelow u hu
      obtain ⟨new,hlog,-,hpop⟩ := (hdone.since k (hk.trans_lt h₀.head)).log
      rw [hlog] at hmem
      exact hlt.trans_le (hpop t v ((List.mem_append.mp hmem).resolve_left hnew))

end

end Teleproxy.MpqFifo
