import Teleproxy.JobSignals

/-!
# The last signal of a job

`JS_FINISH` is sent by the code itself, with the last reference. From then on
there is one call or one queue entry, no other signal is to be run, and the
handler destroys the job. This needs some care of the handlers: a handler may
return `JOB_FINISH`, and anybody may send the signal, while references are
left; and the handler of `JS_FINISH` may return without destroying the job.
-/
namespace Teleproxy.JobSignals
open StepSystem

/-- The call sends or runs `JS_FINISH`, or is about to. -/
def Pc.Last : Pc → Prop
  | .send sigset | .sendLock sigset | .sendSet sigset => jsFinish ∈ sigset
  | .begin signo | .handler signo => signo = jsFinish
  | .dropRepair _ | .dropLast _ => True
  | _ => False

/-- The call neither sends nor runs another signal. -/
def Pc.Final : Pc → Prop
  | .send sigset | .sendLock sigset | .sendSet sigset => sigset ⊆ {jsFinish}
  | .begin signo | .handler signo => signo = jsFinish
  | _ => True

structure Closing (j : Job) : Prop where
  sole : (jsFinish ∈ j.pending ∨ ∃ a ∈ j.acts, a.pc.Last) →
    j.held = 0 ∧ j.entries.length+j.acts.length = 1 ∧ j.todo ⊆ {jsFinish} ∧
      ∀ a ∈ j.acts, a.pc.Final
  started : j.finished = 0 ∨ j.finished = 1 ∧ ∃ a ∈ j.acts, a.pc = .handler jsFinish

section Calls
variable {j j' : Job} {a a' : Act}

theorem Closing.sole_of_mem (h : Closing j) (ha : a ∈ j.acts)
    (hl : jsFinish ∈ j.pending ∨ a.pc.Last) :
    j.held = 0 ∧ j.entries = [] ∧ j.acts.erase a = [] ∧ j.todo ⊆ {jsFinish} ∧ a.pc.Final := by
  obtain ⟨hheld,hlen,htodo,hfinal⟩ := h.sole (hl.imp_right fun hl => ⟨a,ha,hl⟩)
  have hpos := List.length_pos_of_mem ha
  have herase := List.length_erase_add_one ha
  refine ⟨hheld,?_,?_,htodo,hfinal a ha⟩
  · apply List.length_eq_zero_iff.mp
    omega
  · apply List.length_eq_zero_iff.mp
    omega

/-- A step of one call, from `a` to `a'`. -/
theorem Closing.goOn (h : Closing j) (ha : a ∈ j.acts) (hacts : j'.acts = a'::j.acts.erase a)
    (hheld : j'.held = j.held) (hentries : j'.entries = j.entries)
    (hlast : jsFinish ∈ j'.pending ∨ a'.pc.Last →
      (j.held = 0 ∧ j.entries = [] ∧ j.acts.erase a = []) ∧ j'.todo ⊆ {jsFinish} ∧ a'.pc.Final)
    (hstarted : j'.finished = j.finished ∧ a.pc ≠ .handler jsFinish ∨
      j'.finished = 1 ∧ a'.pc = .handler jsFinish) : Closing j' := by
  constructor
  · intro hs
    have hs : jsFinish ∈ j'.pending ∨ a'.pc.Last := by
      cases hs with
      | inl hp => exact .inl hp
      | inr hb =>
          obtain ⟨b,hb,hbl⟩ := hb
          rw [hacts,List.mem_cons] at hb
          cases hb with
          | inl heq => exact .inr (heq ▸ hbl)
          | inr hb =>
              -- another call at the end would have been the only one
              have hlen := (h.sole (.inr ⟨b,List.mem_of_mem_erase hb,hbl⟩)).2.1
              have herase := List.length_erase_add_one ha
              have hpos := List.length_pos_of_mem hb
              omega
    obtain ⟨⟨h0,he,hr⟩,htodo,hfinal⟩ := hlast hs
    refine ⟨hheld.trans h0,?_,htodo,?_⟩
    · rw [hentries,hacts,he,hr]
      rfl
    · intro b hb
      rw [hacts,hr,List.mem_singleton] at hb
      exact hb ▸ hfinal
  · cases hstarted with
    | inr hnew => exact .inr ⟨hnew.1,a',by simp [hacts],hnew.2⟩
    | inl hold =>
        rw [hold.1]
        refine h.started.imp_right fun hs => ⟨hs.1,?_⟩
        obtain ⟨b,hb,hpc⟩ := hs.2
        have hne : b ≠ a := fun heq => hold.2 (heq ▸ hpc)
        exact ⟨b,by simp [hacts,List.mem_erase_of_ne hne,hb],hpc⟩

/-- A step that neither begins the end nor leaves it. -/
theorem Closing.pass (h : Closing j) (ha : a ∈ j.acts) (hacts : j'.acts = a'::j.acts.erase a)
    (hheld : j'.held = j.held) (hentries : j'.entries = j.entries)
    (hfinished : j'.finished = j.finished) (hpc : a.pc ≠ .handler jsFinish)
    (hkept : jsFinish ∈ j'.pending ∨ a'.pc.Last → jsFinish ∈ j.pending ∨ a.pc.Last)
    (hnew : j.todo ⊆ {jsFinish} → a.pc.Final → j'.todo ⊆ {jsFinish} ∧ a'.pc.Final) :
    Closing j' := by
  apply h.goOn ha hacts hheld hentries
  · intro hl
    obtain ⟨h0,he,hr,htodo,hfinal⟩ := h.sole_of_mem ha (hkept hl)
    exact ⟨⟨h0,he,hr⟩,hnew htodo hfinal⟩
  · exact .inl ⟨hfinished,hpc⟩

theorem todo_union_subset {sigset : Finset Signal} (ht : j.todo ⊆ {jsFinish})
    (hs : sigset ⊆ {jsFinish}) : (j.pending ∪ sigset) ∩ j.allow ⊆ {jsFinish} := by
  intro signo hsigno
  rw [Finset.mem_inter,Finset.mem_union] at hsigno
  cases hsigno.1 with
  | inl hp => exact ht (Finset.mem_inter.mpr ⟨hp,hsigno.2⟩)
  | inr hp => exact hs hp

theorem Closing.advance_send (h : Closing j) {sigset : Finset Signal} {mask : Finset Class}
    {busy : Bool} {subclass : ℤ} (ha : ⟨.send sigset,mask,busy,subclass⟩ ∈ j.acts) :
    Closing (j.advance ⟨.send sigset,mask,busy,subclass⟩) := by
  dsimp only [Job.advance]
  split_ifs
  · refine h.pass ha rfl rfl rfl rfl nofun ?_ ?_
    · exact fun hl => hl.imp_right False.elim
    · exact fun ht _ => ⟨ht,trivial⟩
  · refine h.pass ha rfl rfl rfl rfl nofun ?_ ?_
    · exact fun hl => hl
    · exact fun ht hf => ⟨ht,hf⟩

theorem Closing.advance_sendLock (h : Closing j) {sigset : Finset Signal} {mask : Finset Class}
    {busy : Bool} {subclass : ℤ} (ha : ⟨.sendLock sigset,mask,busy,subclass⟩ ∈ j.acts) :
    Closing (j.advance ⟨.sendLock sigset,mask,busy,subclass⟩) := by
  dsimp only [Job.advance]
  split_ifs
  · refine h.pass ha rfl rfl rfl rfl nofun ?_ ?_
    · exact fun hl => hl
    · exact fun ht hf => ⟨ht,hf⟩
  · refine h.pass ha rfl rfl rfl rfl nofun ?_ ?_
    · exact fun hl => Finset.mem_union.mp (hl.resolve_right id)
    · exact fun ht hf => ⟨todo_union_subset ht hf,trivial⟩

theorem Closing.advance_sendSet (h : Closing j) {sigset : Finset Signal} {mask : Finset Class}
    {busy : Bool} {subclass : ℤ} (ha : ⟨.sendSet sigset,mask,busy,subclass⟩ ∈ j.acts) :
    Closing (j.advance ⟨.sendSet sigset,mask,busy,subclass⟩) := by
  refine h.pass ha rfl rfl rfl rfl nofun ?_ ?_
  · exact fun hl => Finset.mem_union.mp (hl.resolve_right id)
  · exact fun ht hf => ⟨todo_union_subset ht hf,trivial⟩

/-- A call that has nothing to do with signals goes on as one. -/
theorem Closing.move (h : Closing j) (ha : a ∈ j.acts) (hacts : j'.acts = a'::j.acts.erase a)
    (hheld : j'.held = j.held) (hentries : j'.entries = j.entries)
    (hfinished : j'.finished = j.finished) (hpc : a.pc ≠ .handler jsFinish)
    (hpending : j'.pending = j.pending) (hallow : j'.allow = j.allow) (hlast : ¬ a'.pc.Last)
    (hfinal : a'.pc.Final) : Closing j' := by
  apply h.pass ha hacts hheld hentries hfinished hpc
  · rw [hpending]
    exact fun hl => hl.imp_right fun hl => (hlast hl).elim
  · intro ht _
    rw [Job.todo,hpending,hallow]
    exact ⟨ht,hfinal⟩

theorem Closing.advance_unlock (h : Closing j) {mask : Finset Class} {busy : Bool} {subclass : ℤ}
    (ha : ⟨.unlock,mask,busy,subclass⟩ ∈ j.acts) :
    Closing (j.advance ⟨.unlock,mask,busy,subclass⟩) := by
  dsimp only [Job.advance]
  split
  · next ht =>
      have hmax := j.todo.max'_mem ht
      dsimp only [Job.serve]
      split
      · refine h.pass ha rfl rfl rfl rfl nofun ?_ ?_
        · intro hl
          refine .inl (hl.elim id fun hl => ?_)
          have hsigno : j.todo.max' ht = jsFinish := hl
          rw [hsigno] at hmax
          exact (Finset.mem_inter.mp hmax).1
        · exact fun htodo _ => ⟨htodo,Finset.mem_singleton.mp (htodo hmax)⟩
      · generalize (if j.sigclass (j.todo.max' ht) = 0 then jcMain
          else j.sigclass (j.todo.max' ht)) = c
        split_ifs
        · exact h.move ha rfl rfl rfl rfl nofun rfl rfl id trivial
        · exact h.move ha rfl rfl rfl rfl nofun rfl rfl id trivial
  · exact h.move ha rfl rfl rfl rfl nofun rfl rfl id trivial

theorem Closing.advance_begin (h : Closing j) {signo : Signal} {mask : Finset Class} {busy : Bool}
    {subclass : ℤ} (ha : ⟨.begin signo,mask,busy,subclass⟩ ∈ j.acts) :
    Closing (j.advance ⟨.begin signo,mask,busy,subclass⟩) := by
  refine h.goOn ha rfl rfl rfl ?_ ?_
  · intro hl
    have hl : jsFinish ∈ j.pending ∨ Pc.Last (.begin signo) :=
      hl.imp_left Finset.mem_of_mem_erase
    obtain ⟨h0,he,hr,htodo,hfinal⟩ := h.sole_of_mem ha hl
    refine ⟨⟨h0,he,hr⟩,?_,hfinal⟩
    exact (Finset.inter_subset_inter_right (Finset.erase_subset _ _)).trans htodo
  · by_cases hs : signo = jsFinish
    · obtain ⟨_,_,hr,_⟩ := h.sole_of_mem ha (.inr hs)
      have hzero : j.finished = 0 := by
        refine h.started.resolve_right fun hst => ?_
        obtain ⟨_,b,hb,hpc⟩ := hst
        have hne : b ≠ ⟨.begin signo,mask,busy,subclass⟩ := by
          intro heq
          simp [heq] at hpc
        have hmem := (List.mem_erase_of_ne hne).mpr hb
        simp [hr] at hmem
      right
      simp [Job.advance,Job.goOn,hs,hzero]
    · left
      simp [Job.advance,Job.goOn,hs]

theorem Closing.advance_push (h : Closing j) {c : Class} {mask : Finset Class} {busy : Bool}
    {subclass : ℤ} (ha : ⟨.push c,mask,busy,subclass⟩ ∈ j.acts) :
    Closing (j.advance ⟨.push c,mask,busy,subclass⟩) := by
  have herase := List.length_erase_add_one ha
  constructor
  · intro hs
    obtain ⟨hheld,hlen,htodo,hfinal⟩ := h.sole (hs.imp_right fun ⟨b,hb,hl⟩ =>
      ⟨b,List.mem_of_mem_erase hb,hl⟩)
    refine ⟨hheld,?_,htodo,fun b hb => hfinal b (List.mem_of_mem_erase hb)⟩
    simp only [Job.advance,Job.leave,List.length_cons]
    omega
  · refine h.started.imp_right fun hs => ⟨hs.1,?_⟩
    obtain ⟨b,hb,hpc⟩ := hs.2
    have hne : b ≠ ⟨.push c,mask,busy,subclass⟩ := by
      intro heq
      simp [heq] at hpc
    exact ⟨b,(List.mem_erase_of_ne hne).mpr hb,hpc⟩

/-- With the last reference there is no signal left to run. -/
theorem Alive.todo_eq_empty (hA : Alive j) (ha : a ∈ j.acts) (hentries : j.entries = [])
    (hrest : j.acts.erase a = []) (howns : a.pc.owns = false) (hwakes : a.pc.wakes = false) :
    j.todo = ∅ := by
  have hl : j.locked = false := by
    have hown := hA.owner
    rw [countP_of_mem ha,hrest,howns] at hown
    cases hlocked : j.locked with
    | false => rfl
    | true => simp [hlocked] at hown
  apply Finset.not_nonempty_iff_eq_empty.mp
  intro ht
  cases hA.awake hl ht with
  | inl he => exact he hentries
  | inr hb =>
      obtain ⟨b,hb,hw⟩ := hb
      have hmem := (List.perm_cons_erase ha).subset hb
      rw [hrest,List.mem_singleton] at hmem
      simp [hmem,hwakes] at hw

/-- A call that has the last reference begins the end. -/
theorem Closing.begins (h : Closing j) (hA : Alive j) (ha : a ∈ j.acts) (hr : j.refcnt ≤ 1)
    (hrefs : a.pc.refs = 1) (howns : a.pc.owns = false) (hwakes : a.pc.wakes = false)
    (hacts : j'.acts = a'::j.acts.erase a) (hheld : j'.held = j.held)
    (hentries : j'.entries = j.entries) (hfinished : j'.finished = j.finished)
    (htodo : j'.todo = j.todo) (hfinal : a'.pc.Final) : Closing j' := by
  obtain ⟨h0,he,hrest⟩ := hA.alone_of_refcnt ha hrefs hr
  refine h.goOn ha hacts hheld hentries (fun _ => ⟨⟨h0,he,hrest⟩,?_,hfinal⟩) (.inl ⟨hfinished,?_⟩)
  · rw [htodo,hA.todo_eq_empty ha he hrest howns hwakes]
    exact Finset.empty_subset _
  · intro hpc
    simp [hpc,Pc.owns] at howns

theorem Closing.advance_drop (h : Closing j) (hA : Alive j) {unlocking : Bool}
    {mask : Finset Class} {busy : Bool} {subclass : ℤ}
    (ha : ⟨.drop unlocking,mask,busy,subclass⟩ ∈ j.acts) :
    Closing (j.advance ⟨.drop unlocking,mask,busy,subclass⟩) := by
  dsimp only [Job.advance]
  split_ifs with hr
  · exact h.move ha rfl rfl rfl rfl nofun rfl rfl id trivial
  · exact h.begins hA ha (by omega) rfl rfl rfl rfl rfl rfl rfl rfl trivial

theorem Closing.advance_dropSub (h : Closing j) (hA : Alive j) {unlocking : Bool}
    {mask : Finset Class} {busy : Bool} {subclass : ℤ}
    (ha : ⟨.dropSub unlocking,mask,busy,subclass⟩ ∈ j.acts) :
    Closing (j.advance ⟨.dropSub unlocking,mask,busy,subclass⟩) := by
  dsimp only [Job.advance]
  split_ifs with hr
  · exact h.begins hA ha (by omega) rfl rfl rfl rfl rfl rfl rfl rfl trivial
  · constructor
    · intro hs
      -- at the end the only call has the only reference
      obtain ⟨hheld,hlen,_,_⟩ := h.sole (hs.imp_right fun ⟨b,hb,hl⟩ =>
        ⟨b,List.mem_of_mem_erase hb,hl⟩)
      have hpos := List.length_pos_of_mem ha
      have hnil : j.entries = [] := List.length_eq_zero_iff.mp (by omega)
      have hone : j.acts.erase ⟨.dropSub unlocking,mask,busy,subclass⟩ = [] := by
        apply List.length_eq_zero_iff.mp
        have := List.length_erase_add_one ha
        omega
      have hcounted := hA.counted
      rw [references_of_mem ha,hheld,hnil,hone] at hcounted
      exact (hr hcounted).elim
    · refine h.started.imp_right fun hs => ⟨hs.1,?_⟩
      obtain ⟨b,hb,hpc⟩ := hs.2
      have hne : b ≠ ⟨.dropSub unlocking,mask,busy,subclass⟩ := by
        intro heq
        simp [heq] at hpc
      exact ⟨b,(List.mem_erase_of_ne hne).mpr hb,hpc⟩

theorem Closing.advance_dropLast (h : Closing j) {unlocking : Bool} {mask : Finset Class}
    {busy : Bool} {subclass : ℤ} (ha : ⟨.dropLast unlocking,mask,busy,subclass⟩ ∈ j.acts) :
    Closing (j.advance ⟨.dropLast unlocking,mask,busy,subclass⟩) := by
  cases unlocking with
  | false =>
      refine h.pass ha rfl rfl rfl rfl nofun ?_ ?_
      · exact fun _ => .inr trivial
      · exact fun ht _ => ⟨ht,Finset.Subset.refl _⟩
  | true =>
      dsimp only [Job.advance]
      split_ifs
      · refine h.pass ha rfl rfl rfl rfl nofun ?_ ?_
        · exact fun _ => .inr trivial
        · intro ht _
          refine ⟨?_,trivial⟩
          have hsub := todo_union_subset ht (Finset.Subset.refl {jsFinish})
          rwa [Finset.union_comm,← Finset.insert_eq] at hsub
      · exact h

theorem Closing.retry (h : Closing j) (ha : a ∈ j.acts) (hpc : a.pc ≠ .handler jsFinish) :
    Closing (if j.locked then j.goOn a (.drop false) else j.lock a) := by
  split_ifs
  · exact h.move ha rfl rfl rfl rfl hpc rfl rfl id trivial
  · exact h.move ha rfl rfl rfl rfl hpc rfl rfl id trivial

theorem Closing.advance (h : Closing j) (hA : Alive j) (ha : a ∈ j.acts) :
    Closing (j.advance a) := by
  obtain ⟨pc,mask,busy,subclass⟩ := a
  cases pc with
  | send sigset => exact h.advance_send ha
  | sendLock sigset => exact h.advance_sendLock ha
  | sendSet sigset => exact h.advance_sendSet ha
  | sendRetry => exact h.retry ha nofun
  | popped => exact h.move ha rfl rfl rfl rfl nofun rfl rfl id trivial
  | popLock queued =>
      dsimp only [Job.advance]
      split_ifs
      · exact h.move ha rfl rfl rfl rfl nofun rfl rfl id trivial
      · exact h.move ha rfl rfl rfl rfl nofun rfl rfl id trivial
  | popClear queued => exact h.move ha rfl rfl rfl rfl nofun rfl rfl id trivial
  | popRetry => exact h.retry ha nofun
  | unlock => exact h.advance_unlock ha
  | begin signo => exact h.advance_begin ha
  | handler signo => exact h
  | push c => exact h.advance_push ha
  | drop unlocking => exact h.advance_drop hA ha
  | dropSub unlocking => exact h.advance_dropSub hA ha
  | dropRepair unlocking =>
      refine h.pass ha rfl rfl rfl rfl nofun ?_ ?_
      · exact fun _ => .inr trivial
      · exact fun ht _ => ⟨ht,trivial⟩
  | dropLast unlocking => exact h.advance_dropLast ha

/-- A call begins with a reference that was held or in a queue. -/
theorem Closing.enter (h : Closing j) (hacts : j'.acts = a::j.acts) (hheld : j'.held ≤ j.held)
    (hcount : j'.held+j'.entries.length+1 = j.held+j.entries.length)
    (hpending : j'.pending = j.pending) (hallow : j'.allow = j.allow)
    (hfinished : j'.finished = j.finished) (hlast : ¬ a.pc.Last)
    (hfinal : j.held = 0 → a.pc.Final) : Closing j' := by
  constructor
  · intro hs
    have hs : jsFinish ∈ j.pending ∨ ∃ b ∈ j.acts, b.pc.Last := by
      rw [hpending,hacts] at hs
      refine hs.imp_right fun ⟨b,hb,hl⟩ => ?_
      cases List.mem_cons.mp hb with
      | inl heq => exact (hlast (heq ▸ hl)).elim
      | inr hb => exact ⟨b,hb,hl⟩
    obtain ⟨h0,hlen,htodo,hfinals⟩ := h.sole hs
    refine ⟨by omega,?_,?_,?_⟩
    · rw [hacts,List.length_cons]
      omega
    · rwa [Job.todo,hpending,hallow]
    · intro b hb
      rw [hacts,List.mem_cons] at hb
      cases hb with
      | inl heq => exact heq ▸ hfinal h0
      | inr hb => exact hfinals b hb
  · rw [hfinished,hacts]
    refine h.started.imp_right fun hs => ⟨hs.1,?_⟩
    obtain ⟨b,hb,hpc⟩ := hs.2
    exact ⟨b,List.mem_cons_of_mem a hb,hpc⟩

theorem Act.pc_of_handles {signo : Signal} (hh : a.handles = some signo) :
    a.pc = .handler signo := by
  cases hpc : a.pc <;> simp [hpc,Act.handles] at hh ⊢
  exact hh

/-- No reference is taken at the end. -/
theorem Closing.incref (h : Closing j) (hg : 0 < j.held ∨ ∃ a ∈ j.acts, a.handles.isSome)
    (hok : ∀ a ∈ j.acts, a.handles ≠ some jsFinish) :
    Closing {j with refcnt := j.refcnt+1, held := j.held+1} := by
  refine ⟨fun hs => ?_,h.started⟩
  obtain ⟨h0,_,_,hfinal⟩ := h.sole hs
  cases hg with
  | inl hg => omega
  | inr hg =>
      obtain ⟨b,hb,hh⟩ := hg
      obtain ⟨signo,hsigno⟩ := Option.isSome_iff_exists.mp hh
      have hf := hfinal b hb
      rw [Act.pc_of_handles hsigno] at hf
      have hf : signo = jsFinish := hf
      exact (hok b hb (hf ▸ hsigno)).elim

theorem Closing.returns (h : Closing j) (ha : a ∈ j.acts) (hh : a.handles.isSome) {r : Result}
    (hn : a.handles ≠ some jsFinish) (hr : jsFinish ∉ r.signals) :
    Closing (j.finishHandler a (some r)) := by
  obtain ⟨signo,hsigno⟩ := Option.isSome_iff_exists.mp hh
  have hpc := Act.pc_of_handles hsigno
  refine h.goOn ha rfl rfl rfl ?_ (.inl ⟨rfl,?_⟩)
  · intro hl
    have hp : jsFinish ∈ j.pending :=
      (Finset.mem_union.mp (hl.resolve_right id)).resolve_right hr
    have hf := (h.sole_of_mem ha (.inl hp)).2.2.2.2
    rw [hpc] at hf
    have hf : signo = jsFinish := hf
    exact (hn (hf ▸ hsigno)).elim
  · intro heq
    rw [hpc] at heq
    injection heq with heq
    exact hn (heq ▸ hsigno)

end Calls

/-- Nobody but the code itself sends `JS_FINISH`, no handler returns `JOB_FINISH`, and the handler
of `JS_FINISH` destroys the job and takes no reference to it. -/
def Regular (j : Job) : Event → Prop
  | .incref => ∀ a ∈ j.acts, a.handles ≠ some jsFinish
  | .send sigset _ _ => jsFinish ∉ sigset
  | .returns a none => Careful j (.returns a none)
  | .returns a (some r) => a.handles ≠ some jsFinish ∧ jsFinish ∉ r.signals
  | _ => True

instance (j : Job) : ∀ e, Decidable (Careful j e)
  | .returns a none => inferInstanceAs (Decidable (a ∈ j.acts → a.handles.isSome → j.refcnt = 1))
  | .returns _ (some _) | .incref | .send _ _ _ | .decref _ _ | .pop _ _ _ | .advance _ =>
      isTrue trivial

instance (j : Job) : ∀ e, Decidable (Regular j e)
  | .incref => inferInstanceAs (Decidable (∀ a ∈ j.acts, a.handles ≠ some jsFinish))
  | .send sigset _ _ => inferInstanceAs (Decidable (jsFinish ∉ sigset))
  | .returns a none => inferInstanceAs (Decidable (Careful j (.returns a none)))
  | .returns a (some r) =>
      inferInstanceAs (Decidable (a.handles ≠ some jsFinish ∧ jsFinish ∉ r.signals))
  | .decref _ _ | .pop _ _ _ | .advance _ => isTrue trivial

theorem Regular.careful {j : Job} {e : Event} (h : Regular j e) : Careful j e := by
  cases e with
  | returns a r =>
      cases r with
      | none => exact h
      | some r => trivial
  | _ => trivial

/-- The last guarantee: the handler of `JS_FINISH` runs with the last reference, once. -/
structure FinishedLast (j : Job) : Prop where
  last : ∀ a ∈ j.acts, a.handles = some jsFinish →
    j.held = 0 ∧ j.entries = [] ∧ j.acts.length = 1
  once : j.finished ≤ 1

def Ending (j : Job) : Prop :=
  (Gone j ∧ j.finished ≤ 1) ∨ (j.destroyed = false ∧ Alive j ∧ Closing j)

theorem Closing.finished_le {j : Job} (h : Closing j) : j.finished ≤ 1 := by
  cases h.started with
  | inl h0 => omega
  | inr h1 => exact h1.1.le

theorem Closing.step {j : Job} (h : Closing j) (hA : Alive j) (e : Event) (hok : Regular j e) :
    Closing (step j e) ∨ (step j e).destroyed = true ∧ (step j e).finished = j.finished := by
  cases e with
  | incref =>
      rw [JobSignals.step]
      split_ifs with hg
      · exact .inl (h.incref hg hok)
      · exact .inl h
  | send sigset mask busy =>
      rw [JobSignals.step]
      split_ifs with hg
      · refine .inl (h.enter rfl (Nat.sub_le _ _) ?_ rfl rfl rfl hok fun h0 => ?_)
        · dsimp only
          omega
        · omega
      · exact .inl h
  | decref mask busy =>
      rw [JobSignals.step]
      split_ifs with hg
      · refine .inl (h.enter rfl (Nat.sub_le _ _) ?_ rfl rfl rfl id fun _ => trivial)
        dsimp only
        omega
      · exact .inl h
  | pop c mask busy =>
      rw [JobSignals.step]
      split_ifs with hg
      · refine .inl (h.enter rfl Nat.le.refl ?_ rfl rfl rfl id fun _ => trivial)
        have := List.length_erase_add_one hg.1
        dsimp only
        omega
      · exact .inl h
  | advance a =>
      rw [JobSignals.step]
      split_ifs with ha
      · exact .inl (h.advance hA ha)
      · exact .inl h
  | returns a r =>
      rw [JobSignals.step]
      split_ifs with ha
      · cases r with
        | none => exact .inr ⟨rfl,rfl⟩
        | some r => exact .inl (h.returns ha.1 ha.2 hok.1 hok.2)
      · exact .inl h

theorem ending_step (j : Job) (e : Event) (h : Ending j) (hok : Regular j e) :
    Ending (step j e) := by
  cases h with
  | inl h =>
      rw [h.1.step e]
      exact .inl h
  | inr h =>
      obtain ⟨hd,hA,hC⟩ := h
      have hC' := hC.step hA e hok
      cases hA.step hd e hok.careful with
      | inl hG =>
          refine .inl ⟨hG,?_⟩
          cases hC' with
          | inl hC' => exact hC'.finished_le
          | inr hC' => exact hC'.2 ▸ hC.finished_le
      | inr hA' =>
          refine .inr ⟨hA'.1,hA'.2,hC'.resolve_right fun hgone => ?_⟩
          simp [hA'.1] at hgone

theorem Ending.finishedLast {j : Job} (h : Ending j) : FinishedLast j := by
  cases h with
  | inl h => exact ⟨by simp [h.1.acts],h.2⟩
  | inr h =>
      refine ⟨fun a ha hh => ?_,h.2.2.finished_le⟩
      have hlast : a.pc.Last := by
        rw [Act.pc_of_handles hh]
        rfl
      obtain ⟨h0,he,hr,_⟩ := h.2.2.sole_of_mem ha (.inr hlast)
      refine ⟨h0,he,?_⟩
      have := List.length_erase_add_one ha
      rw [hr] at this
      simpa using this.symm

theorem closing_start {x : Creation} (hx : jsFinish ∉ x.signals) : Closing (start x) := by
  constructor
  · intro hs
    simp [start,hx,Pc.Last] at hs
  · exact .inl rfl

/-- In every run of calls for one job, whatever its handlers return, at most one handler runs, a
pending signal is not forgotten and the count is right, as long as a handler that destroys the job
has the last reference. If moreover only the code itself sends `JS_FINISH`, and its handler
destroys the job, that handler runs when no other reference and no queue entry is left, and once. -/
theorem signals_kept_and_finish_last (x : Creation) (es : List Event) :
    (Meets step Careful (start x) es → Throughout step Sound (start x) es) ∧
    (jsFinish ∉ x.signals → Meets step Regular (start x) es →
      Throughout step FinishedLast (start x) es) := by
  constructor
  · intro hm
    exact throughout_of_invariant invariant_step (fun _ h => h.sound)
      (.inr ⟨rfl,alive_start x⟩) hm
  · intro hx hm
    exact throughout_of_invariant ending_step (fun _ h => h.finishedLast)
      (.inr ⟨rfl,alive_start x,closing_start hx⟩) hm

/-- A job whose signals 0 and `JS_FINISH` run in threads of class 4, with a holder. -/
def sample : Creation :=
  {allow := {0,7}, sigclass := fun _ => 4, signals := {0}, held := 1, mask := {3}}

def sampleResult (signals : Finset Signal) : Result :=
  {signals := signals, allow := {0,7}, sigclass := fun _ => 4}

/-- The creator queues the job, a thread of class 4 runs it, and the holder drops its reference. -/
def sampleRun : List Event :=
  let creator (pc : Pc) : Event := .advance ⟨pc,{3},false,0⟩
  let worker (pc : Pc) : Event := .advance ⟨pc,{4},false,0⟩
  [creator .unlock,creator (.push 4),
   .pop 4 {4} false,worker .popped,worker (.popLock {4}),worker .unlock,worker (.begin 0),
   .returns ⟨.handler 0,{4},false,0⟩ (some (sampleResult ∅)),
   worker .unlock,worker (.drop true),worker (.dropSub true),
   .decref {3} false,creator (.drop false),creator (.dropLast false),creator (.send {7}),
   creator (.sendLock {7}),creator .unlock,creator (.push 4),
   .pop 4 {4} false,worker .popped,worker (.popLock {4}),worker .unlock,worker (.begin 7),
   .returns ⟨.handler 7,{4},false,0⟩ none]

theorem sample_kept_and_finished :
    ((run step (start sample) sampleRun).destroyed = true ∧
      (run step (start sample) sampleRun).finished = 1) ∧
    Throughout step Sound (start sample) sampleRun ∧
    Throughout step FinishedLast (start sample) sampleRun := by
  refine ⟨by decide +kernel,?_,?_⟩
  · exact (signals_kept_and_finish_last sample sampleRun).1 (by decide +kernel)
  · exact (signals_kept_and_finish_last sample sampleRun).2 (by decide) (by decide +kernel)

/-- A handler returns `JOB_FINISH` while a reference is held; and a handler of `JS_FINISH` that
does not destroy the job is run again. -/
theorem finish_with_reference_and_twice :
    let a (pc : Pc) : Act := ⟨pc,{4},false,0⟩
    let here : Creation := {sample with mask := {4}}
    let early : List Event :=
      [.advance (a .unlock),.advance (a (.begin 0)),
       .returns (a (.handler 0)) (some (sampleResult {7})),
       .advance (a .unlock),.advance (a (.begin 7))]
    let last : Creation := {here with signals := ∅, held := 0}
    let finish : List Event :=
      [.advance (a .unlock),.advance (a (.drop true)),.advance (a (.dropLast true)),
       .advance (a .unlock),.advance (a (.begin 7))]
    let twice : List Event := finish++.returns (a (.handler 7)) (some (sampleResult ∅))::finish
    (Meets step Careful (start here) early ∧
      ¬ FinishedLast (run step (start here) early)) ∧
    (Meets step Careful (start last) twice ∧
      ¬ FinishedLast (run step (start last) twice)) := by
  intro a here early last finish twice
  refine ⟨⟨by decide +kernel,fun h => ?_⟩,⟨by decide +kernel,fun h => ?_⟩⟩
  · have hmem : a (.handler 7) ∈ (run step (start here) early).acts := by decide +kernel
    have hheld : (run step (start here) early).held = 1 := by decide +kernel
    have hlast := (h.last _ hmem rfl).1
    omega
  · have htwice : (run step (start last) twice).finished = 2 := by decide +kernel
    have honce := h.once
    omega

end Teleproxy.JobSignals
