import Teleproxy.MpqSemaphore

/-!
# Every value that was waited for is there

The semaphore counts the values that no thread has a right to: its value, the threads that
will give back what they took from it, those that may take a value and those that have put
one without posting it make up what is in the queue. So a pop that has got through the
semaphore never finds the queue empty.
-/
namespace Teleproxy.MpqCredit
open MpqBlock MpqSlots MpqOrder MpqList MpqChain MpqFifo MpqSemaphore
open StepSystem (run)

variable {ι V : Type*} {i j : ι} {q : ℕ}

/-- How many values of a block are not taken. -/
def left (s : State ι V) : ℤ := (pushed s).length-(popped s).length

def remaining (w : MpQueue ι V) : ℤ := ∑ k ∈ Finset.range w.count, left (w.blocks k)

def gain : Option (Event V) → ℤ
  | some (.pushed _ _) => 1
  | some (.popped _ _) => -1
  | _ => 0

/-- What the end of a call on a block says about the block. -/
def opWorth : Op V → ℤ
  | .pushed (some _) => 1
  | .popped (some _) => -1
  | _ => 0

/-- What a call on a queue has put and not yet returned, or has just taken. -/
def worth : Pc V → ℤ
  | .pushMoved _ | .pushed => 1
  | .popped (some _) => -1
  | _ => 0

theorem left_settle [DecidableEq ι] {s : State ι V} {r : Outcome V} :
    left (s.settle i r) = left s+gain r.event := by
  unfold left pushed popped
  rw [pushes_settle,pops_settle,List.map_append,List.map_append,List.length_append,
    List.length_append]
  rcases r.event with _ | e
  · simp [gain]
  · cases e with
    | pushed t v => simp [gain,Event.push?,Event.pop?]; ring
    | popped t v => simp [gain,Event.push?,Event.pop?]; ring
    | empty => simp [gain,Event.push?,Event.pop?]

theorem perform_gain [DecidableEq V] (b : MpQueueBlock V) {o : Op V} (ho : ¬o.Rests) :
    gain (perform b o).event = opWorth (perform b o).op := by
  cases o with
  | popIdx h val | fixHead closed t | fixAgain t h | popTail h | fixSwap t h
  | pushHead val n t d | pushSwap val n t d | pushCheck val n t | pushAdd val n =>
      dsimp only [perform]
      split <;> rfl
  | popSwap h d =>
      dsimp only [perform,popNode]
      split
      · split
        · split <;> rfl
        · rfl
      · rfl
  | pushIdx val n t old =>
      dsimp only [perform]
      split
      · split <;> rfl
      · rfl
  | popAdd | popVal h | fixTail | pushVal val n t | pushClose => rfl
  | idle | popped val | pushed pos => exact absurd trivial ho

section
variable {w : MpQueue ι V}

theorem remaining_setBlock {s : State ι V} (hq : q < w.count) :
    remaining (w.setBlock q s) = remaining w+(left s-left (w.blocks q)) := by
  have hmem : q ∈ Finset.range w.count := Finset.mem_range.mpr hq
  unfold remaining MpQueue.setBlock
  dsimp only
  rw [← Finset.add_sum_erase _ _ hmem,← Finset.add_sum_erase _ _ hmem,Function.update_self]
  have hrest : ∑ k ∈ (Finset.range w.count).erase q, left (Function.update w.blocks q s k) =
      ∑ k ∈ (Finset.range w.count).erase q, left (w.blocks k) :=
    Finset.sum_congr rfl fun k hk => by rw [Function.update_of_ne (Finset.ne_of_mem_erase hk)]
  rw [hrest]
  ring

theorem remaining_link {v : V} {small : Bool} :
    remaining (w.link i v small) = remaining w+1 := by
  unfold remaining MpQueue.link
  dsimp only
  rw [Finset.sum_range_succ,Function.update_self]
  have hrest : ∑ k ∈ Finset.range w.count,
      left (Function.update w.blocks w.count (start (some (i,v)) small) k) =
      ∑ k ∈ Finset.range w.count, left (w.blocks k) :=
    Finset.sum_congr rfl fun k hk => by
      rw [Function.update_of_ne (Finset.mem_range.mp hk).ne]
  rw [hrest]
  rfl

variable [DecidableEq ι] [DecidableEq V]

theorem left_call {s : State ι V} {a : MpqBlock.Action ι V} (ha : ∀ j, a ≠ .step j) :
    left (MpqBlock.step s a) = left s := by
  cases a with
  | push j v | pop j =>
      dsimp only [MpqBlock.step]
      split <;> rfl
  | step j => exact absurd rfl (ha j)

theorem remaining_enter {a : MpqBlock.Action ι V} {p : Pc V} (hq : q < w.count)
    (ha : ∀ j, a ≠ .step j) : remaining (w.enter i q a p) = remaining w := by
  change remaining (w.setBlock q _) = _
  rw [remaining_setBlock hq,left_call ha,sub_self,add_zero]

theorem remaining_access {next : Op V → Pc V} (hq : q < w.count)
    (hbusy : ¬((w.blocks q).ops i).Rests) : remaining (w.access i q next) =
      remaining w+opWorth ((MpqBlock.step (w.blocks q) (.step i)).ops i) := by
  change remaining (w.setBlock q ((w.blocks q).settle i _)) = _
  rw [remaining_setBlock hq,left_settle,perform_gain _ hbusy,step_self]
  ring

theorem remaining_popAccess {pc next : Pc V} (hq : q < w.count) (hin : InPop ((w.blocks q).ops i))
    (hpc : worth pc = 0) (hnext : worth next = 0) :
    remaining (w.access i q (popResult pc next)) =
      remaining w+worth ((w.access i q (popResult pc next)).pcs i) := by
  have hres := popResult_cases (perform_inPop (w.blocks q).block hin) pc next
  rw [← step_self] at hres
  rw [remaining_access hq hin.busy,MpQueue.access,goto_self]
  rcases hres with ⟨v,hop,hres⟩ | ⟨hop,hres⟩ | ⟨hop,hres⟩ <;> rw [hres]
  · rw [hop]
    rfl
  · rw [hop,hnext]
    rfl
  · rw [hpc]
    cases ho : (MpqBlock.step (w.blocks q) (.step i)).ops i <;> rw [ho] at hop <;>
      first | rfl | cases hop

theorem remaining_pushAccess {pc next : Pc V} (hq : q < w.count)
    (hin : InPush ((w.blocks q).ops i)) (hpc : worth pc = 0) (hnext : worth next = 0) :
    remaining (w.access i q (pushResult pc next)) =
      remaining w+worth ((w.access i q (pushResult pc next)).pcs i) := by
  have hres := pushResult_cases (perform_inPush (w.blocks q).block hin) pc next
  rw [← step_self] at hres
  rw [remaining_access hq hin.busy.1,MpQueue.access,goto_self]
  rcases hres with ⟨t,hop,hres⟩ | ⟨hop,hres⟩ | ⟨hop,hres⟩ <;> rw [hres]
  · rw [hop]
    rfl
  · rw [hop,hnext]
    rfl
  · rw [hpc]
    cases ho : (MpqBlock.step (w.blocks q) (.step i)).ops i <;> rw [ho] at hop <;>
      first | rfl | cases hop

/-- A step changes what is in the queue by what it changes for its thread. -/
theorem remaining_perform (h : Linked w) (hbusy : ¬(w.pcs i).Rests) :
    remaining (w.perform i) = remaining w+(worth ((w.perform i).pcs i)-worth (w.pcs i)) := by
  have hk := h.knows i
  have hstill : ∀ {w' : MpQueue ι V} {pc : Pc V}, remaining w' = remaining w →
      worth pc = worth (w.pcs i) →
      remaining (w'.goto i pc) =
        remaining w+(worth ((w'.goto i pc).pcs i)-worth (w.pcs i)) := by
    intro w' pc hsame hworth
    rw [goto_self,hworth,sub_self,add_zero]
    exact hsame
  unfold MpQueue.perform
  split
  case h_1 hpc | h_2 hpc | h_3 hpc | h_4 hpc => exact absurd (hpc ▸ trivial) hbusy
  case h_6 q hpc | h_8 q hpc =>
    rw [hpc] at hk
    split
    · have hle := remaining_enter (w := w) (i := i) (p := .popFirst q) (a := .pop i)
        (show q < w.count from hk.trans_lt h.head) (fun j hj => by cases hj)
      refine hstill ?_ (by rw [hpc]; rfl)
      exact hle
    · exact hstill rfl (by rw [hpc]; rfl)
  case h_7 q hpc =>
    rw [hpc] at hk
    rw [remaining_popAccess (hk.1.trans_lt h.head) hk.2 rfl rfl,hpc]
    exact congrArg _ (sub_zero _).symm
  case h_9 q hpc =>
    rw [hpc] at hk
    rw [remaining_popAccess (hk.1.trans_lt h.head) hk.2.2.1 rfl rfl,hpc]
    exact congrArg _ (sub_zero _).symm
  case h_13 v q hpc =>
    rw [hpc] at hk
    split
    · exact hstill rfl (by rw [hpc]; rfl)
    · have hle := remaining_enter (w := w) (i := i) (p := .pushBlock v q) (a := .push i v)
        (show q < w.count from hk.trans_lt h.tail) (fun j hj => by cases hj)
      refine hstill ?_ (by rw [hpc]; rfl)
      exact hle
  case h_15 v q hpc =>
    rw [hpc] at hk
    rw [remaining_pushAccess (hk.1.trans_lt h.tail) hk.2 rfl rfl,hpc]
    exact congrArg _ (sub_zero _).symm
  case h_17 v q small hpc =>
    split
    · rw [goto_self,hpc]
      change remaining (w.link i v small) = _
      rw [remaining_link]
      rfl
    · exact hstill rfl (by rw [hpc]; rfl)
  case h_12 v q hpc | h_20 q hpc | h_23 q hpc =>
    refine hstill rfl ?_
    rw [hpc]
    split <;> rfl
  case h_22 q n hpc =>
    split
    · exact hstill rfl (by rw [hpc]; rfl)
    · split <;> exact hstill rfl (by rw [hpc]; rfl)
  all_goals exact hstill rfl (by simp only [*]; rfl)

/-- The call that a place in the functions for the queue belongs to. -/
def kind : Pc V → WPc
  | .idle | .popped _ | .pushed | .answered _ => .rest
  | .popHead | .popCheck _ | .popFirst _ | .popNext _ | .popSecond _ | .popMove _ => .pop
  | .pushTail _ | .pushCheck _ _ | .pushNext _ _ | .pushMove _ _ | .pushBlock _ _ | .pushSize _ _
  | .pushLink _ _ _ | .pushMoved _ => .push
  | .emptyHead | .emptyCheck _ | .emptyFirst _ | .emptyTail _ _ | .emptyNext _
  | .emptyMove _ => .isEmpty

/-- A step stays in its call or ends it. -/
theorem kind_perform (hw : Linked w) (hbusy : ¬(w.pcs i).Rests) :
    kind ((w.perform i).pcs i) = kind (w.pcs i) ∨
      kind (w.pcs i) = .pop ∧ (∃ val, (w.perform i).pcs i = .popped val) ∨
      kind (w.pcs i) = .push ∧ (w.perform i).pcs i = .pushed ∨
      kind (w.pcs i) = .isEmpty ∧ ∃ b, (w.perform i).pcs i = .answered b := by
  have hk := hw.knows i
  unfold MpQueue.perform
  split
  case h_1 hpc | h_2 hpc | h_3 hpc | h_4 hpc => exact absurd (hpc ▸ trivial) hbusy
  case h_7 q hpc =>
    rw [hpc] at hk
    have hres := popResult_cases (perform_inPop (w.blocks q).block hk.2) (.popFirst q) (.popNext q)
    rw [← step_self] at hres
    rw [MpQueue.access,goto_self,hpc]
    rcases hres with ⟨v,-,hres⟩ | ⟨-,hres⟩ | ⟨-,hres⟩ <;> rw [hres]
    · exact .inr (.inl ⟨rfl,_,rfl⟩)
    · exact .inl rfl
    · exact .inl rfl
  case h_9 q hpc =>
    rw [hpc] at hk
    have hres := popResult_cases (perform_inPop (w.blocks q).block hk.2.2.1) (.popSecond q)
      (.popMove q)
    rw [← step_self] at hres
    rw [MpQueue.access,goto_self,hpc]
    rcases hres with ⟨v,-,hres⟩ | ⟨-,hres⟩ | ⟨-,hres⟩ <;> rw [hres]
    · exact .inr (.inl ⟨rfl,_,rfl⟩)
    · exact .inl rfl
    · exact .inl rfl
  case h_15 v q hpc =>
    rw [hpc] at hk
    have hres := pushResult_cases (perform_inPush (w.blocks q).block hk.2) (.pushBlock v q)
      (.pushSize v q)
    rw [← step_self] at hres
    rw [MpQueue.access,goto_self,hpc]
    rcases hres with ⟨t,-,hres⟩ | ⟨-,hres⟩ | ⟨-,hres⟩ <;> rw [hres]
    · exact .inr (.inr (.inl ⟨rfl,rfl⟩))
    · exact .inl rfl
    · exact .inl rfl
  case h_6 q hpc | h_13 v q hpc | h_17 v q small hpc =>
    rw [hpc]
    split <;> first | rw [MpQueue.enter,goto_self]; exact .inl rfl | rw [goto_self]; exact .inl rfl
  case h_8 q hpc =>
    rw [hpc]
    split
    · rw [MpQueue.enter,goto_self]
      exact .inl rfl
    · rw [goto_self]
      exact .inr (.inl ⟨rfl,_,rfl⟩)
  case h_12 v q hpc | h_20 q hpc =>
    rw [hpc,goto_self]
    split <;> exact .inl rfl
  case h_18 q hpc =>
    rw [hpc,goto_self]
    exact .inr (.inr (.inl ⟨rfl,rfl⟩))
  case h_22 q n hpc =>
    rw [hpc]
    split
    · rw [goto_self]
      exact .inr (.inr (.inr ⟨rfl,_,rfl⟩))
    · split <;> rw [goto_self]
      · exact .inr (.inr (.inr ⟨rfl,_,rfl⟩))
      · exact .inl rfl
  case h_23 q hpc =>
    rw [hpc,goto_self]
    split
    · exact .inl rfl
    · exact .inr (.inr (.inr ⟨rfl,_,rfl⟩))
  all_goals
    rw [goto_self]
    simp only [*]
    exact .inl rfl

end

/-- The call on the queue that a thread is in. -/
def inner : WPc → WPc
  | .pop => .pop
  | .push => .push
  | .isEmpty => .isEmpty
  | _ => .rest

/-- What a thread has a right to in the queue, or has put there and not posted. -/
def owed : WPc → Pc V → ℤ
  | .pop, pc => 1+worth pc
  | .push, pc => worth pc
  | .tryBack _ _, _ | .waitBack _, _ | .post, _ | .failed, _ => 1
  | _, _ => 0

/-- What a thread has taken from the semaphore and will give back. -/
def back : WPc → ℤ
  | .tryBack _ _ | .waitBack _ => 1
  | _ => 0

/-- A thread that may take a value. -/
def takes : WPc → ℤ
  | .pop => 1
  | _ => 0

theorem worth_of_kind {p : Pc V} (h : kind p ≠ .rest) :
    0 ≤ worth p ∧ (kind p ≠ .push → worth p = 0) := by
  cases p <;> first
    | exact absurd rfl h
    | exact ⟨Int.le_refl _,fun _ => rfl⟩
    | exact ⟨Int.one_nonneg,fun hk => absurd rfl hk⟩

theorem takes_back_le {s : WPc} {pc : Pc V} (h : kind pc = inner s) :
    takes s+back s ≤ owed s pc := by
  cases s with
  | pop =>
      have hworth := (worth_of_kind (p := pc) (by rw [h]; exact WPc.noConfusion)).1
      change 1+0 ≤ 1+worth pc
      omega
  | push =>
      have hworth := (worth_of_kind (p := pc) (by rw [h]; exact WPc.noConfusion)).1
      exact hworth
  | _ => simp [takes,back,owed]

theorem left_eq_card {s : State ι V} (h : Inv s) :
    left s = ((pushed s).toFinset \ (popped s).toFinset).card := by
  have hsub : (popped s).toFinset ⊆ (pushed s).toFinset := fun u hu =>
    List.mem_toFinset.mpr (h.popped_pushed (List.mem_toFinset.mp hu))
  rw [Finset.card_sdiff_of_subset hsub,Nat.cast_sub (Finset.card_le_card hsub),
    List.toFinset_card_of_nodup h.pushes.nodup,List.toFinset_card_of_nodup h.pops.nodup]
  rfl

/-- The place where a thread has the number of a pop. -/
def place (w : MpQueue ι V) (j : ι) : (_ : ℕ) × ℕ :=
  ⟨(current (w.pcs j)).getD 0,((w.blocks ((current (w.pcs j)).getD 0)).ops j).popTicket.getD 0⟩

theorem place_eq {w : MpQueue ι V} (hw : Linked w) {u : ℕ}
    (h : ((w.blocks q).ops j).popTicket = some u) : kind (w.pcs j) = .pop ∧ place w j = ⟨q,u⟩ := by
  have hknows := hw.knows j
  have hin := inPop_of_ticket h
  have hcurrent := hw.site j q hin.busy
  constructor
  · cases hpc : w.pcs j <;> rw [hpc] at hcurrent <;> cases hcurrent
    · rfl
    · rfl
    · rw [hpc] at hknows
      exact absurd hin hknows.2.busy.2
  · rw [place,hcurrent,Option.getD_some,h]
    rfl

section
variable [Fintype ι]

def due (w : MpQueueW ι V) : ℤ := ∑ i, owed (w.wpcs i) (w.queue.pcs i)
def pending (w : MpQueueW ι V) : ℤ := ∑ i, back (w.wpcs i)

structure Balanced (w : MpQueueW ι V) : Prop where
  linked : Linked w.queue
  role : ∀ i, kind (w.queue.pcs i) = inner (w.wpcs i)
  total : w.value+due w = remaining w.queue
  covered : 0 ≤ w.value+pending w
  saw : ∀ i q, Saw w.queue i q → q+1 < w.queue.count
  alive : ∀ i, w.wpcs i ≠ .failed

variable {w : MpQueueW ι V}

/-- What is in the queue is more than what threads may take. -/
theorem Balanced.takes_le (h : Balanced w) : ∑ i, takes (w.wpcs i) ≤ remaining w.queue := by
  have hle : ∑ i, takes (w.wpcs i)+pending w ≤ due w := by
    rw [pending,due,← Finset.sum_add_distrib]
    exact Finset.sum_le_sum fun i _ => takes_back_le (h.role i)
  have htotal := h.total
  have hcovered := h.covered
  omega

/-- While a thread may take a value, the queue is not exhausted. -/
theorem Balanced.not_exhausted [DecidableEq ι] (h : Balanced w) (hi : w.wpcs i = .pop) :
    ¬Exhausted w.queue i := by
  intro hex
  have hsub : (Finset.range w.queue.count).sigma (fun k =>
      (pushed (w.queue.blocks k)).toFinset \ (popped (w.queue.blocks k)).toFinset) ⊆
      ((Finset.univ.filter fun j => w.wpcs j = .pop).erase i).image (place w.queue) := by
    rintro ⟨k,u⟩ hmem
    obtain ⟨-,hu⟩ := Finset.mem_sigma.mp hmem
    obtain ⟨hin,hno⟩ := Finset.mem_sdiff.mp hu
    obtain ⟨j,hji,hj⟩ := (hex k u (List.mem_toFinset.mp hin)).resolve_left
      fun hpop => hno (List.mem_toFinset.mpr hpop)
    obtain ⟨hkind,hplace⟩ := place_eq h.linked hj
    refine Finset.mem_image.mpr ⟨j,Finset.mem_erase.mpr ⟨hji,?_⟩,hplace⟩
    refine Finset.mem_filter.mpr ⟨Finset.mem_univ j,?_⟩
    have hrole := h.role j
    rw [hkind] at hrole
    cases hs : w.wpcs j <;> rw [hs] at hrole <;> first | rfl | cases hrole
  have hcard := (Finset.card_le_card hsub).trans Finset.card_image_le
  rw [Finset.card_sigma,Finset.card_erase_of_mem
    (Finset.mem_filter.mpr ⟨Finset.mem_univ i,hi⟩)] at hcard
  have hpos : 0 < (Finset.univ.filter fun j => w.wpcs j = .pop).card :=
    Finset.card_pos.mpr ⟨i,Finset.mem_filter.mpr ⟨Finset.mem_univ i,hi⟩⟩
  have hremaining : remaining w.queue = ∑ k ∈ Finset.range w.queue.count,
      (((pushed (w.queue.blocks k)).toFinset \ (popped (w.queue.blocks k)).toFinset).card : ℤ) :=
    Finset.sum_congr rfl fun k _ => left_eq_card (h.linked.inv k)
  have htakes : ∑ j, takes (w.wpcs j) = (Finset.univ.filter fun j => w.wpcs j = .pop).card := by
    rw [Finset.card_eq_sum_ones,Nat.cast_sum,Finset.sum_filter]
    refine Finset.sum_congr rfl fun j _ => ?_
    cases w.wpcs j <;> rfl
  have hle := h.takes_le
  rw [htakes,hremaining,← Nat.cast_sum] at hle
  omega

variable [DecidableEq ι]

theorem sum_of_others {f g : ι → ℤ} (h : ∀ j, j ≠ i → g j = f j) :
    ∑ j, g j = ∑ j, f j+(g i-f i) := by
  rw [← Finset.add_sum_erase _ g (Finset.mem_univ i),← Finset.add_sum_erase _ f (Finset.mem_univ i),
    Finset.sum_congr rfl fun j hj => h j (Finset.ne_of_mem_erase hj)]
  ring

/-- A step of a thread that does not use the queue. -/
theorem Balanced.goto (h : Balanced w) {d : ℤ} {s : WPc} (hinner : inner (w.wpcs i) = inner s)
    (howed : d+owed s (w.queue.pcs i) = owed (w.wpcs i) (w.queue.pcs i))
    (hcovered : 0 ≤ w.value+d+(pending w+(back s-back (w.wpcs i)))) (halive : s ≠ .failed) :
    Balanced ((w.add d).goto i s) := by
  have hself : ((w.add d).goto i s).wpcs i = s := Function.update_self ..
  have hother : ∀ j, j ≠ i → ((w.add d).goto i s).wpcs j = w.wpcs j :=
    fun j hj => Function.update_of_ne hj ..
  refine ⟨h.linked,fun j => ?_,?_,?_,h.saw,fun j => ?_⟩
  · by_cases hji : j = i
    · subst hji
      rw [hself,← hinner]
      exact h.role j
    · rw [hother j hji]
      exact h.role j
  · have hdue : due ((w.add d).goto i s) = due w+(owed s (w.queue.pcs i)-
        owed (w.wpcs i) (w.queue.pcs i)) := by
      rw [due,sum_of_others (i := i) fun j hj => by rw [hother j hj]]
      rw [hself]
      rfl
    have htotal := h.total
    change w.value+d+due _ = remaining w.queue
    rw [hdue]
    omega
  · have hpending : pending ((w.add d).goto i s) = pending w+(back s-back (w.wpcs i)) := by
      rw [pending,sum_of_others (i := i) fun j hj => by rw [hother j hj]]
      rw [hself]
      rfl
    change 0 ≤ w.value+d+pending _
    rw [hpending]
    exact hcovered
  · by_cases hji : j = i
    · subst hji
      rw [hself]
      exact halive
    · rw [hother j hji]
      exact h.alive j

variable [DecidableEq V]

/-- A step of a thread in a call on the queue. -/
theorem Balanced.access (h : Balanced w) {d : ℤ} {a : MpqList.Action ι V} {f : Pc V → WPc}
    (ha : actor a = i) (hd : d = -1 → 0 < w.value) (hd' : d = -1 ∨ d = 0)
    (hback : back (w.wpcs i) = 0)
    (hrole : kind ((MpqList.step w.queue a).pcs i) =
      inner (f ((MpqList.step w.queue a).pcs i)))
    (howed : d+(owed (f ((MpqList.step w.queue a).pcs i)) ((MpqList.step w.queue a).pcs i)-
        owed (w.wpcs i) (w.queue.pcs i)) =
      remaining (MpqList.step w.queue a)-remaining w.queue)
    (hsafe : back (f ((MpqList.step w.queue a).pcs i)) = 0 ∧
      f ((MpqList.step w.queue a).pcs i) ≠ .failed) :
    Balanced ((w.add d).access i a f) := by
  have hturn := h.linked.step a
  rw [ha] at hturn
  have hself : ((w.add d).access i a f).wpcs i = f ((MpqList.step w.queue a).pcs i) :=
    Function.update_self ..
  have hother : ∀ j, j ≠ i → ((w.add d).access i a f).wpcs j = w.wpcs j :=
    fun j hj => Function.update_of_ne hj ..
  have hpc : ∀ j, j ≠ i → ((w.add d).access i a f).queue.pcs j = w.queue.pcs j := hturn.pcs
  refine ⟨hturn.linked,fun j => ?_,?_,?_,fun j q hsaw => ?_,fun j => ?_⟩
  · by_cases hji : j = i
    · subst hji
      rw [hself]
      exact hrole
    · rw [hother j hji,hpc j hji]
      exact h.role j
  · have hdue : due ((w.add d).access i a f) = due w+
        (owed (f ((MpqList.step w.queue a).pcs i)) ((MpqList.step w.queue a).pcs i)-
          owed (w.wpcs i) (w.queue.pcs i)) := by
      rw [due,sum_of_others (i := i) fun j hj => by rw [hother j hj,hpc j hj]]
      rw [hself]
      rfl
    have htotal := h.total
    change w.value+d+due _ = remaining (MpqList.step w.queue a)
    rw [hdue]
    omega
  · have hpending : pending ((w.add d).access i a f) = pending w := by
      rw [pending,sum_of_others (i := i) fun j hj => by rw [hother j hj]]
      rw [hself,hsafe.1,hback]
      exact add_zero _
    have hnonneg : 0 ≤ pending w := Finset.sum_nonneg fun j _ => by
      cases w.wpcs j <;> simp [back]
    have hcovered := h.covered
    change 0 ≤ w.value+d+pending _
    rw [hpending]
    rcases hd' with rfl | rfl
    · have := hd rfl
      omega
    · omega
  · refine Nat.lt_of_lt_of_le ?_ hturn.ahead.count
    rcases hsaw.back h.linked with hold | ⟨hold,hex⟩
    · exact h.saw j q hold
    · have hhead := h.linked.head
      have hknows := h.linked.knows j
      rw [hold] at hknows
      have hpop : w.wpcs j = .pop := by
        have hj := h.role j
        rw [hold] at hj
        cases hs : w.wpcs j <;> rw [hs] at hj <;> first | rfl | cases hj
      have hne : q+1 ≠ w.queue.count := fun heq => h.not_exhausted hpop (hex heq)
      have := hknows.1
      omega
  · by_cases hji : j = i
    · subst hji
      rw [hself]
      exact hsafe.2
    · rw [hother j hji]
      exact h.alive j

end

/-- A thread that has no part in the books. -/
structure Idle (s : WPc) : Prop where
  inner : inner s = .rest
  owed : ∀ pc : Pc V, owed s pc = 0
  back : back s = 0
  alive : s ≠ .failed

theorem idle_tries (n : ℕ) (waits : Bool) : Idle (V := V) (tries n waits) := by
  unfold tries
  split
  · exact ⟨rfl,fun _ => rfl,rfl,WPc.noConfusion⟩
  · split <;> exact ⟨rfl,fun _ => rfl,rfl,WPc.noConfusion⟩

theorem idle_waitNext (v : ℤ) (q : ℕ) : Idle (V := V) (waitNext v q) := by
  unfold waitNext
  split
  · exact ⟨rfl,fun _ => rfl,rfl,WPc.noConfusion⟩
  · split <;> exact ⟨rfl,fun _ => rfl,rfl,WPc.noConfusion⟩

theorem rests_of_kind {pc : Pc V} (h : kind pc = .rest) : pc.Rests := by
  cases pc <;> trivial

theorem busy_of_kind {pc : Pc V} (h : kind pc ≠ .rest) : ¬pc.Rests := by
  intro hrest
  cases pc <;> first | exact h rfl | cases hrest

theorem add_zero_value {w : MpQueueW ι V} : w.add 0 = w := by
  rw [MpQueueW.add,add_zero]

theorem Balanced.setWaiting [Fintype ι] {w : MpQueueW ι V} (h : Balanced w) (n : ℤ) :
    Balanced {w with waiting := n} :=
  ⟨h.linked,h.role,h.total,h.covered,h.saw,h.alive⟩

section
variable [Fintype ι] [DecidableEq ι] {w : MpQueueW ι V}

theorem Balanced.idle (h : Balanced w) {s : WPc} (hold : Idle (V := V) (w.wpcs i))
    (hs : Idle (V := V) s) : Balanced (w.goto i s) := by
  have hgoto := h.goto (i := i) (d := 0) (s := s) (hold.inner.trans hs.inner.symm)
    (by rw [hold.owed,hs.owed,add_zero]) (by rw [hold.back,hs.back]; simpa using h.covered)
    hs.alive
  rwa [add_zero_value] at hgoto

variable [DecidableEq V]

/-- A thread gets through the semaphore. -/
theorem Balanced.enter (h : Balanced w) (hold : Idle (V := V) (w.wpcs i)) (hvalue : 0 < w.value) :
    Balanced ((w.add (-1)).access i (.pop i) popEnd) := by
  have hstep : MpqList.step w.queue (.pop i) = w.queue.goto i .popHead :=
    if_pos (rests_of_kind ((h.role i).trans hold.inner))
  have hpc : (MpqList.step w.queue (.pop i)).pcs i = .popHead := by
    rw [hstep]
    exact goto_self
  refine h.access rfl (fun _ => hvalue) (.inl rfl) hold.back ?_ ?_ ?_ <;> rw [hpc]
  · rfl
  · rw [hold.owed,hstep]
    change -1+(1+0-0) = remaining w.queue-remaining w.queue
    omega
  · exact ⟨rfl,WPc.noConfusion⟩

/-- An access in a call on the queue that is under way. -/
theorem Balanced.inside (h : Balanced w) {next : Pc V → WPc} (hback : back (w.wpcs i) = 0)
    (hbusy : ¬(w.queue.pcs i).Rests)
    (hnext : kind ((w.queue.perform i).pcs i) = inner (next ((w.queue.perform i).pcs i)) ∧
      owed (next ((w.queue.perform i).pcs i)) ((w.queue.perform i).pcs i)-
          owed (w.wpcs i) (w.queue.pcs i) =
        worth ((w.queue.perform i).pcs i)-worth (w.queue.pcs i) ∧
      back (next ((w.queue.perform i).pcs i)) = 0 ∧
      next ((w.queue.perform i).pcs i) ≠ .failed) : Balanced (w.access i (.step i) next) := by
  have haccess := h.access (i := i) (d := 0) (a := .step i) (f := next) rfl
    (fun h0 => absurd h0 (by decide)) (.inr rfl) hback hnext.1 (by
      change _ = remaining (w.queue.perform i)-remaining w.queue
      rw [remaining_perform h.linked hbusy,zero_add]
      refine hnext.2.1.trans ?_
      ring) hnext.2.2
  rwa [add_zero_value] at haccess

/-- A thread that has got through the semaphore takes a value. -/
theorem Balanced.pop (h : Balanced w) (hs : w.wpcs i = .pop) :
    Balanced (w.access i (.step i) popEnd) := by
  have hkind : kind (w.queue.pcs i) = .pop := (h.role i).trans (by rw [hs]; rfl)
  have hbusy : ¬(w.queue.pcs i).Rests := busy_of_kind (by rw [hkind]; exact WPc.noConfusion)
  have hworth := (worth_of_kind (p := w.queue.pcs i) (by rw [hkind]; exact WPc.noConfusion)).2
    (by rw [hkind]; exact WPc.noConfusion)
  refine h.inside (by rw [hs]; rfl) hbusy ?_
  rcases kind_perform h.linked hbusy with heq | ⟨-,_ | v,hpc⟩ | ⟨hpush,-⟩ | ⟨hempty,-⟩
  · have hnext : popEnd ((w.queue.perform i).pcs i) = .pop := by
      rw [hkind] at heq
      cases hpc : (w.queue.perform i).pcs i <;> rw [hpc] at heq <;> first | rfl | cases heq
    rw [hnext,hs]
    exact ⟨heq.trans hkind,add_sub_add_left_eq_sub _ _ _,rfl,WPc.noConfusion⟩
  · have hcame := came hbusy
    rw [hpc] at hcame
    obtain ⟨q,hnext,hlast⟩ := hcame
    exact absurd (h.saw i q (.inr hnext)) (Nat.not_lt.mpr hlast)
  · rw [hpc,hs,hworth]
    refine ⟨rfl,?_,rfl,WPc.noConfusion⟩
    change 0-(1+worth (w.queue.pcs i)) = -1-0
    rw [hworth]
    rfl
  · rw [hkind] at hpush
    cases hpush
  · rw [hkind] at hempty
    cases hempty

theorem Balanced.push (h : Balanced w) (hs : w.wpcs i = .push) :
    Balanced (w.access i (.step i) pushEnd) := by
  have hkind : kind (w.queue.pcs i) = .push := (h.role i).trans (by rw [hs]; rfl)
  have hbusy : ¬(w.queue.pcs i).Rests := busy_of_kind (by rw [hkind]; exact WPc.noConfusion)
  refine h.inside (by rw [hs]; rfl) hbusy ?_
  rcases kind_perform h.linked hbusy with heq | ⟨hpop,-⟩ | ⟨-,hpc⟩ | ⟨hempty,-⟩
  · have hnext : pushEnd ((w.queue.perform i).pcs i) = .push := by
      rw [hkind] at heq
      cases hpc : (w.queue.perform i).pcs i <;> rw [hpc] at heq <;> first | rfl | cases heq
    rw [hnext,hs]
    exact ⟨heq.trans hkind,rfl,rfl,WPc.noConfusion⟩
  · rw [hkind] at hpop
    cases hpop
  · rw [hpc,hs]
    exact ⟨rfl,rfl,rfl,WPc.noConfusion⟩
  · rw [hkind] at hempty
    cases hempty

theorem Balanced.isEmpty (h : Balanced w) (hs : w.wpcs i = .isEmpty) :
    Balanced (w.access i (.step i) emptyEnd) := by
  have hkind : kind (w.queue.pcs i) = .isEmpty := (h.role i).trans (by rw [hs]; rfl)
  have hbusy : ¬(w.queue.pcs i).Rests := busy_of_kind (by rw [hkind]; exact WPc.noConfusion)
  have hworth : ∀ {pc : Pc V}, kind pc = .isEmpty → worth pc = 0 := fun {pc} hpc =>
    (worth_of_kind (p := pc) (by rw [hpc]; exact WPc.noConfusion)).2
      (by rw [hpc]; exact WPc.noConfusion)
  refine h.inside (by rw [hs]; rfl) hbusy ?_
  rw [hs,hworth hkind]
  rcases kind_perform h.linked hbusy with heq | ⟨hpop,-⟩ | ⟨hpush,-⟩ | ⟨-,b,hpc⟩
  · have hnext : emptyEnd ((w.queue.perform i).pcs i) = .isEmpty := by
      rw [hkind] at heq
      cases hpc : (w.queue.perform i).pcs i <;> rw [hpc] at heq <;> first | rfl | cases heq
    rw [hnext,hworth (heq.trans hkind)]
    exact ⟨heq.trans hkind,rfl,rfl,WPc.noConfusion⟩
  · rw [hkind] at hpop
    cases hpop
  · rw [hkind] at hpush
    cases hpush
  · rw [hpc]
    exact ⟨rfl,rfl,rfl,WPc.noConfusion⟩

theorem Balanced.perform (h : Balanced w) (i : ι) : Balanced (w.perform i) := by
  have hcovered := h.covered
  unfold MpQueueW.perform
  split
  case h_1 | h_2 => exact h
  case h_3 n waits hs =>
    refine h.idle (by rw [hs]; exact ⟨rfl,fun _ => rfl,rfl,WPc.noConfusion⟩) ?_
    split
    · exact ⟨rfl,fun _ => rfl,rfl,WPc.noConfusion⟩
    · exact idle_tries _ _
  case h_4 n waits hs =>
    split
    next hvalue =>
      exact h.enter (by rw [hs]; exact ⟨rfl,fun _ => rfl,rfl,WPc.noConfusion⟩) hvalue
    · refine h.goto (by rw [hs]; rfl) (by rw [hs]; rfl) ?_ WPc.noConfusion
      rw [hs]
      change 0 ≤ w.value+-1+(pending w+(1-0))
      omega
  case h_5 n waits hs =>
    have hidle := idle_tries (V := V) (n-1) waits
    refine h.goto (by rw [hs,hidle.inner]; rfl) (by rw [hs,hidle.owed]; rfl) ?_ hidle.alive
    rw [hs,hidle.back]
    change 0 ≤ w.value+1+(pending w+(0-1))
    omega
  case h_6 q hs =>
    exact h.idle (by rw [hs]; exact ⟨rfl,fun _ => rfl,rfl,WPc.noConfusion⟩) (idle_waitNext _ _)
  case h_7 q hs =>
    split
    next hvalue =>
      exact h.enter (by rw [hs]; exact ⟨rfl,fun _ => rfl,rfl,WPc.noConfusion⟩) hvalue
    · refine h.goto (by rw [hs]; rfl) (by rw [hs]; rfl) ?_ WPc.noConfusion
      rw [hs]
      change 0 ≤ w.value+-1+(pending w+(1-0))
      omega
  case h_8 q hs =>
    have hidle := idle_waitNext (V := V) (w.value+1) q
    refine h.goto (by rw [hs,hidle.inner]; rfl) (by rw [hs,hidle.owed]; rfl) ?_ hidle.alive
    rw [hs,hidle.back]
    change 0 ≤ w.value+1+(pending w+(0-1))
    omega
  case h_9 hs =>
    exact (h.setWaiting _).idle
      (by change Idle (w.wpcs i); rw [hs]; exact ⟨rfl,fun _ => rfl,rfl,WPc.noConfusion⟩)
      ⟨rfl,fun _ => rfl,rfl,WPc.noConfusion⟩
  case h_10 hs =>
    exact h.idle (by rw [hs]; exact ⟨rfl,fun _ => rfl,rfl,WPc.noConfusion⟩)
      ⟨rfl,fun _ => rfl,rfl,WPc.noConfusion⟩
  case h_11 hs =>
    exact (h.setWaiting _).idle
      (by change Idle (w.wpcs i); rw [hs]; exact ⟨rfl,fun _ => rfl,rfl,WPc.noConfusion⟩)
      ⟨rfl,fun _ => rfl,rfl,WPc.noConfusion⟩
  case h_12 hs => exact h.pop hs
  case h_13 hs => exact h.push hs
  case h_14 hs =>
    refine h.goto (by rw [hs]; rfl) (by rw [hs]; rfl) ?_ WPc.noConfusion
    rw [hs]
    change 0 ≤ w.value+1+(pending w+(0-0))
    omega
  case h_15 hs =>
    exact h.idle (by rw [hs]; exact ⟨rfl,fun _ => rfl,rfl,WPc.noConfusion⟩)
      ⟨rfl,fun _ => rfl,rfl,WPc.noConfusion⟩
  case h_16 hs => exact h.isEmpty hs

/-- A call of `mpq_push` or `mpq_is_empty` begins. -/
theorem Balanced.call (h : Balanced w) {a : MpqList.Action ι V} {pc : Pc V} {next : Pc V → WPc}
    (hrest : w.wpcs i = .rest) (ha : actor a = i)
    (hstep : (w.queue.pcs i).Rests → MpqList.step w.queue a = w.queue.goto i pc)
    (hpc : kind pc = inner (next pc) ∧ owed (next pc) pc = 0 ∧ back (next pc) = 0 ∧
      next pc ≠ .failed) : Balanced (w.access i a next) := by
  have hgoto := hstep (rests_of_kind ((h.role i).trans (by rw [hrest]; rfl)))
  have hself : (MpqList.step w.queue a).pcs i = pc := by
    rw [hgoto]
    exact goto_self
  have haccess := h.access (d := 0) (a := a) (f := next) ha (fun h0 => absurd h0 (by decide))
    (.inr rfl) (by rw [hrest]; rfl) (by rw [hself]; exact hpc.1) (by
      rw [hself,hpc.2.1,hrest,hgoto]
      exact (sub_self (remaining w.queue)).symm) (by rw [hself]; exact hpc.2.2)
  rwa [add_zero_value] at haccess

theorem Balanced.step (h : Balanced w) (a : MpqSemaphore.Action ι V) :
    Balanced (MpqSemaphore.step w a) := by
  cases a with
  | pushW i v =>
      dsimp only [MpqSemaphore.step]
      split
      next hrest => exact h.call hrest rfl (fun hr => if_pos hr) ⟨rfl,rfl,rfl,WPc.noConfusion⟩
      · exact h
  | popW i n | popNw i n =>
      dsimp only [MpqSemaphore.step]
      split
      next hrest =>
        exact h.idle (by rw [hrest]; exact ⟨rfl,fun _ => rfl,rfl,WPc.noConfusion⟩) (idle_tries _ _)
      · exact h
  | isEmpty i =>
      dsimp only [MpqSemaphore.step]
      split
      next hrest => exact h.call hrest rfl (fun hr => if_pos hr) ⟨rfl,rfl,rfl,WPc.noConfusion⟩
      · exact h
  | step i => exact h.perform i

end

theorem init_balanced [Fintype ι] : Balanced (initMpQueueW : MpQueueW ι V) where
  linked := init_linked
  role _ := rfl
  total := by
    change 0+∑ _ : ι, (0 : ℤ) = _
    rw [Finset.sum_const_zero]
    rfl
  covered := by
    change 0 ≤ 0+∑ _ : ι, (0 : ℤ)
    rw [Finset.sum_const_zero]
    exact Int.le_refl 0
  saw i q h := by rcases h with ⟨h,-⟩ | h <;> cases h
  alive _ := WPc.noConfusion

/-- In every run of any number of threads, the assertions of `mpq_pop_w` and `mpq_pop_nw` hold,
and when no call is under way the semaphore counts the values of the queue. -/
theorem pop_w_finds [Fintype ι] [DecidableEq ι] [DecidableEq V]
    (acts : List (MpqSemaphore.Action ι V)) :
    let w := run MpqSemaphore.step (initMpQueueW : MpQueueW ι V) acts
    (∀ i, w.wpcs i ≠ .failed) ∧ ((∀ i, w.wpcs i = .rest) → w.value = remaining w.queue) := by
  intro w
  have h : Balanced w :=
    StepSystem.run_preserves (P := Balanced) (fun _ a h => h.step a) acts init_balanced
  refine ⟨h.alive,fun hrest => ?_⟩
  have hdue : due w = 0 := Finset.sum_eq_zero fun i _ => by rw [hrest i]; rfl
  have htotal := h.total
  omega

end Teleproxy.MpqCredit
