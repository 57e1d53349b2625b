import Mathlib.Algebra.BigOperators.Group.Finset.Basic
import Mathlib.Algebra.Order.BigOperators.Group.Finset
import Mathlib.Algebra.Order.Group.Int
import Mathlib.Data.Multiset.AddSub
import Mathlib.Order.RelIso.Set
import Mathlib.Data.Fintype.EquivFin

/-!
# Heaps with reference counts

A cell holds a count and a body, and the body holds references to other cells. The
references from outside are the roots. While a cell is being rebuilt it is open: the
references in its body are kept among the roots, and what the body says meanwhile does not
matter. A cell whose count has come down to zero waits to be erased and holds none.
-/
namespace Teleproxy.RefCount
variable {B : Type*}

structure Cell (B : Type*) where
  refcnt : ℤ
  body : B
  deriving DecidableEq, Repr

/-- An erased cell leaves its address empty, and no address is given out twice. -/
structure Heap (B : Type*) where
  cell : ℕ → Option (Cell B)
  size : ℕ
  fresh : ∀ p, size ≤ p → cell p = none

/-- What goes wrong in a run. -/
inductive Fault where
  | assertion
  | null
  | released
  | fuel
  deriving DecidableEq, Repr

section Bind
variable {S T : Type}

@[simp] theorem ok_bind (a : S) (f : S → Except Fault T) : (Except.ok a >>= f) = f a := rfl
@[simp] theorem error_bind (e : Fault) (f : S → Except Fault T) :
    (Except.error e >>= f) = .error e := rfl

end Bind

/-- The address in a pointer that is followed. -/
def deref (p : Option ℕ) : Except Fault ℕ := p.elim (.error .null) .ok

@[simp] theorem deref_some (p : ℕ) : deref (some p) = .ok p := rfl

/-- The reference in a pointer. -/
def ofPtr (p : Option ℕ) : Multiset ℕ := p.elim 0 fun q => {q}

@[simp] theorem ofPtr_none : ofPtr none = 0 := rfl
@[simp] theorem ofPtr_some (p : ℕ) : ofPtr (some p) = {p} := rfl

theorem mem_ofPtr {p : Option ℕ} {q : ℕ} : q ∈ ofPtr p ↔ p = some q := by
  cases p with
  | none => simp
  | some r => rw [ofPtr_some,Multiset.mem_singleton,Option.some_inj,eq_comm]

namespace Heap

def empty : Heap B := ⟨fun _ => none,0,fun _ _ => rfl⟩

/-- The count at an address, zero where there is no cell. -/
def count (h : Heap B) (p : ℕ) : ℤ := (h.cell p).elim 0 Cell.refcnt

/-- The cell behind an address, which must not have been released. -/
def read (h : Heap B) (p : ℕ) : Except Fault (Cell B) := (h.cell p).elim (.error .released) .ok

def modify (h : Heap B) (p : ℕ) (f : Cell B → Cell B) : Heap B where
  cell := Function.update h.cell p ((h.cell p).map f)
  size := h.size
  fresh := by
    intro q hq
    by_cases hqp : q = p
    · rw [hqp,Function.update_self,h.fresh p (hqp ▸ hq),Option.map_none]
    · rw [Function.update_of_ne hqp,h.fresh q hq]

def add (h : Heap B) (p : ℕ) (n : ℤ) : Heap B := h.modify p fun c => {c with refcnt := c.refcnt+n}

def write (h : Heap B) (p : ℕ) (f : B → B) : Heap B := h.modify p fun c => {c with body := f c.body}

def erase (h : Heap B) (p : ℕ) : Heap B where
  cell := Function.update h.cell p none
  size := h.size
  fresh := by
    intro q hq
    by_cases hqp : q = p
    · rw [hqp,Function.update_self]
    · rw [Function.update_of_ne hqp,h.fresh q hq]

/-- A new cell with one reference, at the address `h.size`. -/
def alloc (h : Heap B) (b : B) : Heap B where
  cell := Function.update h.cell h.size (some ⟨1,b⟩)
  size := h.size+1
  fresh := by
    intro q hq
    rw [Function.update_of_ne (by omega),h.fresh q (by omega)]

variable {h : Heap B} {p q : ℕ} {c : Cell B}

theorem lt_size (hc : h.cell p = some c) : p < h.size := by
  by_contra hle
  rw [h.fresh p (by omega)] at hc
  cases hc

theorem read_eq (hc : h.cell p = some c) : h.read p = .ok c := by rw [read,hc]; rfl

theorem read_none (hc : h.cell p = none) : h.read p = .error .released := by rw [read,hc]; rfl

theorem count_eq (hc : h.cell p = some c) : h.count p = c.refcnt := by rw [count,hc]; rfl

theorem exists_of_count (hp : h.count p ≠ 0) : ∃ c, h.cell p = some c ∧ c.refcnt = h.count p := by
  cases hc : h.cell p with
  | none => exact (hp (by rw [count,hc]; rfl)).elim
  | some c => exact ⟨c,rfl,(count_eq hc).symm⟩

@[simp] theorem modify_size (f : Cell B → Cell B) : (h.modify p f).size = h.size := rfl
@[simp] theorem add_size (n : ℤ) : (h.add p n).size = h.size := rfl
@[simp] theorem write_size (f : B → B) : (h.write p f).size = h.size := rfl
@[simp] theorem erase_size : (h.erase p).size = h.size := rfl
@[simp] theorem alloc_size (b : B) : (h.alloc b).size = h.size+1 := rfl

@[simp] theorem modify_self (f : Cell B → Cell B) : (h.modify p f).cell p = (h.cell p).map f :=
  Function.update_self ..

theorem modify_ne (f : Cell B → Cell B) (hq : q ≠ p) : (h.modify p f).cell q = h.cell q :=
  Function.update_of_ne hq ..

@[simp] theorem erase_self : (h.erase p).cell p = none := Function.update_self ..

theorem erase_ne (hq : q ≠ p) : (h.erase p).cell q = h.cell q := Function.update_of_ne hq ..

@[simp] theorem alloc_self (b : B) : (h.alloc b).cell h.size = some ⟨1,b⟩ := Function.update_self ..

theorem alloc_ne (b : B) (hq : q ≠ h.size) : (h.alloc b).cell q = h.cell q := Function.update_of_ne hq ..

theorem add_self {n : ℤ} (hc : h.cell p = some c) :
    (h.add p n).cell p = some {c with refcnt := c.refcnt+n} := by rw [add,modify_self,hc]; rfl

theorem add_ne {n : ℤ} (hq : q ≠ p) : (h.add p n).cell q = h.cell q := modify_ne _ hq

theorem write_self {f : B → B} (hc : h.cell p = some c) :
    (h.write p f).cell p = some {c with body := f c.body} := by rw [write,modify_self,hc]; rfl

theorem write_ne {f : B → B} (hq : q ≠ p) : (h.write p f).cell q = h.cell q := modify_ne _ hq

theorem write_write (f g : B → B) : (h.write p f).write p g = h.write p (g ∘ f) := by
  have hcell : ((h.write p f).write p g).cell = (h.write p (g ∘ f)).cell := by
    simp only [write,modify,Function.update_self,Function.update_idem,Option.map_map]
    rfl
  simp only [write,modify] at hcell ⊢
  rw [Heap.mk.injEq]
  exact ⟨hcell,rfl⟩

theorem count_add {n : ℤ} (hc : h.cell p = some c) :
    (h.add p n).count q = h.count q+(if q = p then n else 0) := by
  by_cases hq : q = p
  · rw [hq,if_pos rfl,count_eq (add_self hc),count_eq hc]
  · rw [if_neg hq,count,add_ne hq,add_zero,count]

theorem count_write {f : B → B} : (h.write p f).count q = h.count q := by
  by_cases hq : q = p
  · subst hq
    rw [count,write,modify_self,count]
    cases h.cell q with
    | none => rfl
    | some c => rfl
  · rw [count,write_ne hq,count]

end Heap

section References
variable (links : B → Multiset ℕ) (D : Finset ℕ) (h : Heap B)

/-- The references to `q` in the cell at `p`, unless that one is open or waits to be erased. -/
def held (p q : ℕ) : ℕ :=
  match h.cell p with
  | none => 0
  | some c => if p ∈ D ∨ c.refcnt = 0 then 0 else (links c.body).count q

def refs (R : Multiset ℕ) (q : ℕ) : ℕ := R.count q+∑ p ∈ Finset.range h.size, held links D h p q

/-- The cells that can be unfolded to the end. -/
inductive Grounded : ℕ → Prop
  | node {p : ℕ} {c : Cell B} : h.cell p = some c → (∀ q ∈ links c.body, Grounded q) → Grounded p

/-- Every count is the number of references, with the cells of `D` open. -/
structure Counted (R : Multiset ℕ) : Prop where
  counts : ∀ p, h.count p = refs links D h R p
  opened : ∀ p ∈ D, p ∈ R ∧ h.count p = 1

structure Owned (R : Multiset ℕ) : Prop extends Counted links D h R where
  grounded : ∀ p, h.count p ≠ 0 → p ∉ D → Grounded links h p

end References

/-- What `h'` still has of `h` outside of `D` has the body it had. -/
structure Keeps (D : Finset ℕ) (h h' : Heap B) : Prop where
  size : h.size ≤ h'.size
  body : ∀ p < h.size, p ∉ D → ∀ c', h'.cell p = some c' → ∃ c, h.cell p = some c ∧ c.body = c'.body

section Counting
variable {links : B → Multiset ℕ} {D D' : Finset ℕ} {h h' : Heap B} {R R' : Multiset ℕ} {p q : ℕ}
  {c : Cell B}

theorem held_eq (hc : h.cell p = some c) (hp : p ∉ D) (h0 : c.refcnt ≠ 0) :
    held links D h p q = (links c.body).count q := by
  rw [held,hc]
  exact if_neg (not_or.mpr ⟨hp,h0⟩)

theorem held_zero (hc : h.cell p = some c) (h0 : p ∈ D ∨ c.refcnt = 0) : held links D h p q = 0 := by
  rw [held,hc]
  exact if_pos h0

theorem held_none (hc : h.cell p = none) : held links D h p q = 0 := by rw [held,hc]

theorem held_congr (hcell : h'.cell p = h.cell p) (hopen : p ∈ D' ↔ p ∈ D) :
    held links D' h' p q = held links D h p q := by
  simp only [held,hcell,hopen]

theorem sum_held_change (hp : p < h.size) (hsize : h'.size = h.size)
    (hsame : ∀ r, r ≠ p → held links D' h' r q = held links D h r q) :
    ∑ r ∈ Finset.range h'.size, held links D' h' r q+held links D h p q =
      ∑ r ∈ Finset.range h.size, held links D h r q+held links D' h' p q := by
  have hmem := Finset.mem_range.mpr hp
  have hrest : ∑ r ∈ (Finset.range h.size).erase p, held links D' h' r q =
      ∑ r ∈ (Finset.range h.size).erase p, held links D h r q :=
    Finset.sum_congr rfl fun r hr => hsame r (Finset.ne_of_mem_erase hr)
  rw [hsize,← Finset.add_sum_erase _ _ hmem,← Finset.add_sum_erase _ _ hmem,hrest]
  omega

/-- A change of one cell, of its being open, and of the roots. -/
theorem counts_change (hcounts : ∀ r, h.count r = refs links D h R r) (hp : p < h.size)
    (hsize : h'.size = h.size)
    (hsame : ∀ r, r ≠ p → h'.cell r = h.cell r ∧ (r ∈ D' ↔ r ∈ D))
    (hbalance : ∀ q, h'.count q+R.count q+held links D h p q =
      h.count q+R'.count q+held links D' h' p q) :
    ∀ q, h'.count q = refs links D' h' R' q := by
  intro q
  have hsum := @sum_held_change _ links D D' h h' p q hp hsize
    fun r hr => held_congr (hsame r hr).1 (hsame r hr).2
  have hold := hcounts q
  have hnew := hbalance q
  simp only [refs] at hold ⊢
  omega

theorem held_le_refs (hp : p < h.size) : R.count q+held links D h p q ≤ refs links D h R q := by
  have hone := Finset.single_le_sum (f := fun r => held links D h r q)
    (fun r _ => Nat.zero_le _) (Finset.mem_range.mpr hp)
  simp only [refs]
  omega

namespace Counted

theorem nonneg (hC : Counted links D h R) (p : ℕ) : 0 ≤ h.count p := by
  rw [hC.counts p]
  exact Int.natCast_nonneg _

theorem live (hC : Counted links D h R) (hp : p ∈ R) : 0 < h.count p := by
  have hone := Multiset.one_le_count_iff_mem.mpr hp
  rw [hC.counts p,refs]
  omega

/-- What a cell that is not open refers to is there, and is not open. -/
theorem live_link (hC : Counted links D h R) (hc : h.cell p = some c) (h0 : c.refcnt ≠ 0)
    (hp : p ∉ D) (hq : q ∈ links c.body) : 0 < h.count q ∧ q ∉ D := by
  have hone := Multiset.one_le_count_iff_mem.mpr hq
  have hle := @held_le_refs _ links D h R p q (Heap.lt_size hc)
  rw [held_eq hc hp h0] at hle
  have hcount := hC.counts q
  constructor
  · omega
  · intro hopen
    have hroot := Multiset.one_le_count_iff_mem.mpr (hC.opened q hopen).1
    have := (hC.opened q hopen).2
    omega

/-- A root beside which all the open cells are roots too is not open. -/
theorem not_open (hC : Counted links D h (p ::ₘ R)) (hD : ∀ r ∈ D, r ∈ R) : p ∉ D := by
  intro hopen
  have hroot := Multiset.one_le_count_iff_mem.mpr (hD p hopen)
  have hone := (hC.opened p hopen).2
  rw [hC.counts p,refs,Multiset.count_cons_self] at hone
  omega

theorem grounded (hC : Counted links D h' R') (hk : Keeps D h h') (hg : Grounded links h q)
    (hq : h'.count q ≠ 0) (hD : q ∉ D) : Grounded links h' q := by
  induction hg with
  | node hc _ ih =>
      obtain ⟨c',hc',href⟩ := Heap.exists_of_count hq
      obtain ⟨d,hd,hbody⟩ := hk.body _ (Heap.lt_size hc) hD c' hc'
      rw [hc] at hd
      cases hd
      apply Grounded.node hc'
      intro r hr
      have hlive := hC.live_link hc' (by rwa [href]) hD hr
      exact ih r (by rwa [hbody]) hlive.1.ne' hlive.2

end Counted

theorem Owned.step (hO : Owned links D h R) (hC : Counted links D' h' R') (hk : Keeps D' h h')
    (hnew : ∀ q, h'.count q ≠ 0 → q ∉ D' → (h.count q ≠ 0 ∧ q ∉ D) ∨ Grounded links h' q) :
    Owned links D' h' R' := by
  refine ⟨hC,?_⟩
  intro q hq hD
  rcases hnew q hq hD with ⟨hlive,hclosed⟩ | hground
  · exact hC.grounded hk (hO.grounded q hlive hclosed) hq hD
  · exact hground

namespace Keeps

theorem refl (D : Finset ℕ) (h : Heap B) : Keeps D h h := ⟨le_rfl,fun _ _ _ c hc => ⟨c,hc,rfl⟩⟩

theorem mono (hk : Keeps D h h') (hsub : D ⊆ D') : Keeps D' h h' :=
  ⟨hk.size,fun p hp hD => hk.body p hp fun hmem => hD (hsub hmem)⟩

theorem trans {h'' : Heap B} (hk : Keeps D h h') (hk' : Keeps D h' h'') : Keeps D h h'' := by
  refine ⟨hk.size.trans hk'.size,?_⟩
  intro p hp hD c'' hc''
  obtain ⟨c',hc',hbody'⟩ := hk'.body p (by have := hk.size; omega) hD c'' hc''
  obtain ⟨c,hc,hbody⟩ := hk.body p hp hD c' hc'
  exact ⟨c,hc,hbody.trans hbody'⟩

theorem add (n : ℤ) : Keeps D h (h.add p n) := by
  refine ⟨le_rfl,?_⟩
  intro q _ _ c' hc'
  by_cases hq : q = p
  · subst hq
    rw [Heap.add,Heap.modify_self] at hc'
    obtain ⟨c,hc,rfl⟩ := Option.map_eq_some_iff.mp hc'
    exact ⟨c,hc,rfl⟩
  · rw [Heap.add_ne hq] at hc'
    exact ⟨c',hc',rfl⟩

theorem erase : Keeps D h (h.erase p) := by
  refine ⟨le_rfl,?_⟩
  intro q _ _ c' hc'
  by_cases hq : q = p
  · rw [hq,Heap.erase_self] at hc'
    cases hc'
  · rw [Heap.erase_ne hq] at hc'
    exact ⟨c',hc',rfl⟩

theorem alloc (b : B) : Keeps D h (h.alloc b) := by
  refine ⟨Nat.le_succ _,?_⟩
  intro q hq _ c' hc'
  rw [Heap.alloc_ne b hq.ne] at hc'
  exact ⟨c',hc',rfl⟩

theorem write (f : B → B) (hp : p ∈ D ∨ h.size ≤ p) (hk : Keeps D h h') :
    Keeps D h (h'.write p f) := by
  refine ⟨hk.size,?_⟩
  intro q hq hD c' hc'
  have hne : q ≠ p := by
    rintro rfl
    rcases hp with hopen | hnew
    · exact hD hopen
    · omega
  rw [Heap.write_ne hne] at hc'
  exact hk.body q hq hD c' hc'

end Keeps

theorem Owned.size_closed (hO : Owned links D h R) : h.size ∉ D := by
  intro hopen
  have hone := (hO.opened _ hopen).2
  rw [Heap.count,h.fresh h.size le_rfl] at hone
  cases hone

namespace Owned

theorem refcnt_pos (hO : Owned links D h R) (hc : h.cell p = some c) (h0 : c.refcnt ≠ 0) :
    0 < c.refcnt := by
  have hpos := hO.nonneg p
  rw [Heap.count_eq hc] at hpos
  omega

theorem add {n : ℤ} (hO : Owned links D h R) (hc : h.cell p = some c) (h0 : c.refcnt ≠ 0)
    (hD : p ∉ D) (hroots : ∀ r ∈ R, r ≠ p → r ∈ R')
    (hbalance : ∀ q, (if q = p then n else 0)+R.count q+(links c.body).count q =
      R'.count q+(if c.refcnt+n = 0 then 0 else (links c.body).count q : ℕ)) :
    Owned links D (h.add p n) R' := by
  have hheld (q : ℕ) : held links D (h.add p n) p q =
      if c.refcnt+n = 0 then 0 else (links c.body).count q := by
    split
    · next hzero => exact held_zero (Heap.add_self hc) (.inr hzero)
    · next hzero => rw [held_eq (Heap.add_self hc) hD hzero]
  refine hO.step ⟨?_,?_⟩ (.add n) ?_
  · refine counts_change hO.counts (Heap.lt_size hc) rfl (fun r hr => ⟨Heap.add_ne hr,Iff.rfl⟩) ?_
    intro q
    have := hbalance q
    rw [held_eq hc hD h0,hheld,Heap.count_add hc]
    omega
  · intro r hr
    have hne : r ≠ p := fun heq => hD (heq ▸ hr)
    rw [Heap.count_add hc,if_neg hne,add_zero]
    exact ⟨hroots r (hO.opened r hr).1 hne,(hO.opened r hr).2⟩
  · intro q hq hopen
    rw [Heap.count_add hc] at hq
    left
    refine ⟨?_,hopen⟩
    by_cases hqp : q = p
    · rw [hqp,Heap.count_eq hc]
      exact h0
    · rwa [if_neg hqp,add_zero] at hq

/-- One more reference to a cell. -/
theorem incref (hO : Owned links D h R) (hc : h.cell p = some c) (h0 : c.refcnt ≠ 0) (hD : p ∉ D) :
    Owned links D (h.add p 1) (p ::ₘ R) := by
  have hpos := hO.refcnt_pos hc h0
  apply hO.add hc h0 hD
  · intro r hr _
    exact Multiset.mem_cons_of_mem hr
  · intro q
    rw [if_neg (by omega : ¬ c.refcnt+1 = 0),Multiset.count_cons]
    split <;> omega

/-- A reference is given up, and others stay. -/
theorem decref (hO : Owned links D h (p ::ₘ R)) (hc : h.cell p = some c) (h1 : 1 < c.refcnt)
    (hD : p ∉ D) : Owned links D (h.add p (-1)) R := by
  apply hO.add hc (by omega) hD
  · intro r hr hne
    exact (Multiset.mem_cons.mp hr).resolve_left hne
  · intro q
    rw [if_neg (by omega : ¬ c.refcnt+(-1) = 0),Multiset.count_cons]
    split <;> omega

/-- The last reference is given up: the references in the cell are roots now. -/
theorem decref_last (hO : Owned links D h (p ::ₘ R)) (hc : h.cell p = some c) (h1 : c.refcnt = 1)
    (hD : p ∉ D) : Owned links D (h.add p (-1)) (links c.body+R) := by
  apply hO.add hc (by omega) hD
  · intro r hr hne
    exact Multiset.mem_add.mpr (.inr ((Multiset.mem_cons.mp hr).resolve_left hne))
  · intro q
    rw [if_pos (by omega : c.refcnt+(-1) = 0),Multiset.count_cons,Multiset.count_add]
    split <;> omega

theorem erase (hO : Owned links D h R) (hc : h.cell p = some c) (h0 : c.refcnt = 0) :
    Owned links D (h.erase p) R := by
  have hcount (q : ℕ) : (h.erase p).count q = h.count q := by
    by_cases hq : q = p
    · rw [hq,Heap.count,Heap.erase_self,Heap.count_eq hc,h0]
      rfl
    · rw [Heap.count,Heap.erase_ne hq,Heap.count]
  refine hO.step ⟨?_,?_⟩ .erase ?_
  · refine counts_change hO.counts (Heap.lt_size hc) rfl (fun r hr => ⟨Heap.erase_ne hr,Iff.rfl⟩) ?_
    intro q
    rw [held_zero hc (.inr h0),held_none Heap.erase_self,hcount]
  · intro r hr
    rw [hcount]
    exact hO.opened r hr
  · intro q hq hopen
    rw [hcount] at hq
    exact .inl ⟨hq,hopen⟩

theorem alloc {b : B} (hO : Owned links D h R) (hb : links b = 0) :
    Owned links D (h.alloc b) (h.size ::ₘ R) := by
  have hnone := h.fresh h.size le_rfl
  have hzero : h.count h.size = 0 := by rw [Heap.count,hnone]; rfl
  have hcount (q : ℕ) : (h.alloc b).count q = h.count q+(if q = h.size then 1 else 0) := by
    by_cases hq : q = h.size
    · rw [hq,if_pos rfl,hzero,Heap.count_eq (Heap.alloc_self b),zero_add]
    · rw [if_neg hq,add_zero,Heap.count,Heap.alloc_ne b hq,Heap.count]
  have hclosed := hO.size_closed
  refine hO.step ⟨?_,?_⟩ (.alloc b) ?_
  · intro q
    have hsum : ∑ r ∈ Finset.range (h.size+1), held links D (h.alloc b) r q =
        ∑ r ∈ Finset.range h.size, held links D h r q := by
      rw [Finset.sum_range_succ,held_eq (Heap.alloc_self b) hclosed one_ne_zero,hb,
        Multiset.count_zero,add_zero]
      exact Finset.sum_congr rfl fun r hr =>
        held_congr (Heap.alloc_ne b (Finset.mem_range.mp hr).ne) Iff.rfl
    have hold := hO.counts q
    rw [hcount,refs,Heap.alloc_size,hsum,Multiset.count_cons]
    simp only [refs] at hold
    split <;> omega
  · intro r hr
    have hne : r ≠ h.size := fun heq => hclosed (heq ▸ hr)
    rw [hcount,if_neg hne,add_zero]
    exact ⟨Multiset.mem_cons_of_mem (hO.opened r hr).1,(hO.opened r hr).2⟩
  · intro q hq hopen
    rw [hcount] at hq
    by_cases hqs : q = h.size
    · right
      rw [hqs]
      refine .node (Heap.alloc_self b) ?_
      intro r hr
      rw [hb] at hr
      exact (Multiset.notMem_zero r hr).elim
    · rw [if_neg hqs,add_zero] at hq
      exact .inl ⟨hq,hopen⟩

/-- A cell with a single reference is opened. -/
theorem «open» (hO : Owned links D h (p ::ₘ R)) (hc : h.cell p = some c) (h1 : c.refcnt = 1)
    (hD : p ∉ D) : Owned links (insert p D) h (links c.body+p ::ₘ R) := by
  refine hO.step ⟨?_,?_⟩ (.refl _ h) ?_
  · refine counts_change hO.counts (Heap.lt_size hc) rfl
      (fun r hr => ⟨rfl,by simp [hr]⟩) ?_
    intro q
    rw [held_eq hc hD (by omega),held_zero hc (.inl (Finset.mem_insert_self p D)),Multiset.count_add]
    omega
  · intro r hr
    rcases Finset.mem_insert.mp hr with rfl | hr
    · exact ⟨by simp,by rw [Heap.count_eq hc,h1]⟩
    · exact ⟨Multiset.mem_add.mpr (.inr (hO.opened r hr).1),(hO.opened r hr).2⟩
  · intro q hq hopen
    exact .inl ⟨hq,fun hmem => hopen (Finset.mem_insert_of_mem hmem)⟩

/-- The body of an open cell may be anything. -/
theorem write (hO : Owned links D h R) (hp : p ∈ D) (f : B → B) : Owned links D (h.write p f) R := by
  obtain ⟨c,hc,-⟩ := Heap.exists_of_count (by rw [(hO.opened p hp).2]; exact one_ne_zero)
  refine hO.step ⟨?_,?_⟩ (.write f (.inl hp) (.refl D h)) ?_
  · refine counts_change hO.counts (Heap.lt_size hc) rfl (fun r hr => ⟨Heap.write_ne hr,Iff.rfl⟩) ?_
    intro q
    rw [held_zero hc (.inl hp),held_zero (Heap.write_self hc) (.inl hp),Heap.count_write]
  · intro r hr
    rw [Heap.count_write]
    exact hO.opened r hr
  · intro q hq hopen
    rw [Heap.count_write] at hq
    exact .inl ⟨hq,hopen⟩

/-- An open cell is closed when the references in its body are roots. -/
theorem close (hO : Owned links (insert p D) h (links c.body+p ::ₘ R)) (hc : h.cell p = some c)
    (hp : p ∉ D) (hD : ∀ r ∈ D, r ∈ R) : Owned links D h (p ::ₘ R) := by
  have hone := hO.opened p (Finset.mem_insert_self p D)
  rw [Heap.count_eq hc] at hone
  have hlinks (r : ℕ) (hr : r ∈ links c.body) : h.count r ≠ 0 ∧ r ∉ insert p D := by
    have hlive := hO.live (Multiset.mem_add.mpr (.inl hr))
    refine ⟨hlive.ne',?_⟩
    intro hopen
    have hroot : r ∈ p ::ₘ R := by
      rcases Finset.mem_insert.mp hopen with rfl | hmem
      · exact Multiset.mem_cons_self _ _
      · exact Multiset.mem_cons_of_mem (hD r hmem)
    have hcount := hO.counts r
    rw [(hO.opened r hopen).2,refs,Multiset.count_add] at hcount
    have := Multiset.one_le_count_iff_mem.mpr hr
    have := Multiset.one_le_count_iff_mem.mpr hroot
    omega
  refine hO.step ⟨?_,?_⟩ (.refl _ h) ?_
  · refine counts_change hO.counts (Heap.lt_size hc) rfl
      (fun r hr => ⟨rfl,by simp [hr]⟩) ?_
    intro q
    rw [held_eq hc hp (by omega),held_zero hc (.inl (Finset.mem_insert_self p D)),Multiset.count_add]
    omega
  · intro r hr
    exact ⟨Multiset.mem_cons_of_mem (hD r hr),(hO.opened r (Finset.mem_insert_of_mem hr)).2⟩
  · intro q hq hopen
    by_cases hqp : q = p
    · right
      rw [hqp]
      exact .node hc fun r hr => hO.grounded r (hlinks r hr).1 (hlinks r hr).2
    · exact .inl ⟨hq,by simp [hqp,hopen]⟩

end Owned

theorem Owned.opened_cell (hO : Owned links D h R) (hp : p ∈ D) :
    ∃ c, h.cell p = some c ∧ c.refcnt = 1 := by
  have hone := (hO.opened p hp).2
  obtain ⟨c,hc,href⟩ := Heap.exists_of_count (by rw [hone]; exact one_ne_zero)
  exact ⟨c,hc,href.trans hone⟩

/-- A root that is not open is where it was. -/
theorem Owned.root_cell (hO : Owned links D h' (p ::ₘ R)) (hk : Keeps D h h') (hc : h.cell p = some c)
    (hp : p ∉ D) : ∃ c', h'.cell p = some c' ∧ c'.refcnt ≠ 0 ∧ c'.body = c.body := by
  have hlive := hO.live (Multiset.mem_cons_self p R)
  obtain ⟨c',hc',href⟩ := Heap.exists_of_count hlive.ne'
  obtain ⟨d,hd,hbody⟩ := hk.body p (Heap.lt_size hc) hp c' hc'
  rw [hc] at hd
  cases hd
  exact ⟨c',hc',by omega,hbody.symm⟩

/-- The same cells wait to be erased. -/
def SameWaiting (h h' : Heap B) : Prop :=
  ∀ p c, c.refcnt = 0 → (h'.cell p = some c ↔ h.cell p = some c)

namespace SameWaiting

theorem refl (h : Heap B) : SameWaiting h h := fun _ _ _ => Iff.rfl

theorem trans {h'' : Heap B} (hw : SameWaiting h h') (hw' : SameWaiting h' h'') : SameWaiting h h'' :=
  fun p c h0 => (hw' p c h0).trans (hw p c h0)

theorem of_change {d : Cell B} (hne : ∀ q, q ≠ p → h'.cell q = h.cell q) (hd : h'.cell p = some d)
    (hd0 : d.refcnt ≠ 0) (hp : ∀ c, h.cell p = some c → c.refcnt ≠ 0) : SameWaiting h h' := by
  intro q c h0
  by_cases hq : q = p
  · subst hq
    constructor
    · intro hc
      rw [hd] at hc
      cases hc
      exact (hd0 h0).elim
    · intro hc
      exact (hp c hc h0).elim
  · rw [hne q hq]

theorem add {n : ℤ} (hc : h.cell p = some c) (h0 : c.refcnt ≠ 0) (hn : c.refcnt+n ≠ 0) :
    SameWaiting h (h.add p n) := by
  refine of_change (fun q hq => Heap.add_ne hq) (Heap.add_self hc) hn ?_
  intro d hd
  rw [hc] at hd
  cases hd
  exact h0

theorem write (f : B → B) (hc : h.cell p = some c) (h0 : c.refcnt ≠ 0) :
    SameWaiting h (h.write p f) := by
  refine of_change (fun q hq => Heap.write_ne hq) (Heap.write_self hc) h0 ?_
  intro d hd
  rw [hc] at hd
  cases hd
  exact h0

theorem alloc (b : B) : SameWaiting h (h.alloc b) := by
  refine of_change (fun q hq => Heap.alloc_ne b hq) (Heap.alloc_self b) one_ne_zero ?_
  intro d hd
  rw [h.fresh h.size le_rfl] at hd
  cases hd

end SameWaiting

/-- From `h` a run has come to `h'`, where the references from outside are `R`. -/
structure Yields (links : B → Multiset ℕ) (D : Finset ℕ) (h h' : Heap B) (R : Multiset ℕ) : Prop where
  owned : Owned links D h' R
  keeps : Keeps ∅ h h'
  waits : SameWaiting h h'

theorem Yields.refl (hO : Owned links D h R) : Yields links D h h R := ⟨hO,.refl ∅ h,.refl h⟩

theorem Yields.trans {h'' : Heap B} (hy : Yields links D h h' R) (hy' : Yields links D' h' h'' R') :
    Yields links D' h h'' R' := ⟨hy'.owned,hy.keeps.trans hy'.keeps,hy.waits.trans hy'.waits⟩

section Whole
variable (links h R)

/-- All the references to `q`. -/
def references (q : ℕ) : ℕ :=
  R.count q+∑ p ∈ Finset.range h.size, (h.cell p).elim 0 fun c => (links c.body).count q

/-- Every cell counts its references, nothing refers to a cell that is gone, and there are
no loops. -/
structure Consistent : Prop where
  counted : ∀ p c, h.cell p = some c → c.refcnt = references links h R p ∧ 1 ≤ c.refcnt
  live : ∀ p, references links h R p ≠ 0 → (h.cell p).isSome
  grounded : ∀ p, (h.cell p).isSome → Grounded links h p

/-- No cell waits to be erased. -/
def Settled (h : Heap B) : Prop := ∀ p c, h.cell p = some c → c.refcnt ≠ 0

end Whole

theorem Settled.of_sameWaiting (hs : Settled h) (hw : SameWaiting h h') : Settled h' := by
  intro p c hc h0
  exact hs p c ((hw p c h0).mp hc) h0

theorem refs_eq_references (hs : Settled h) (q : ℕ) :
    refs links ∅ h R q = references links h R q := by
  rw [refs,references]
  congr 1
  apply Finset.sum_congr rfl
  intro p _
  cases hc : h.cell p with
  | none => rw [held_none hc]; rfl
  | some c => rw [held_eq hc (Finset.notMem_empty p) (hs p c hc)]; rfl

theorem consistent_iff : Consistent links h R ↔ Owned links ∅ h R ∧ Settled h := by
  constructor
  · intro hcons
    have hs : Settled h := by
      intro p c hc
      have := (hcons.counted p c hc).2
      omega
    refine ⟨⟨⟨?_,?_⟩,?_⟩,hs⟩
    · intro p
      rw [refs_eq_references hs]
      cases hc : h.cell p with
      | none =>
          have hzero : references links h R p = 0 := by
            by_contra hne
            have := hcons.live p hne
            rw [hc] at this
            cases this
          rw [Heap.count,hc,hzero]
          rfl
      | some c => rw [Heap.count_eq hc,(hcons.counted p c hc).1]
    · intro p hp
      exact (Finset.notMem_empty p hp).elim
    · intro p hp _
      obtain ⟨c,hc,-⟩ := Heap.exists_of_count hp
      exact hcons.grounded p (by rw [hc]; rfl)
  · intro ⟨hO,hs⟩
    refine ⟨?_,?_,?_⟩
    · intro p c hc
      have hcount := hO.counts p
      rw [refs_eq_references hs,Heap.count_eq hc] at hcount
      have := hO.refcnt_pos hc (hs p c hc)
      exact ⟨hcount,by omega⟩
    · intro p hp
      have hcount := hO.counts p
      rw [refs_eq_references hs] at hcount
      obtain ⟨c,hc,-⟩ := Heap.exists_of_count (by rw [hcount]; exact_mod_cast hp)
      rw [hc]
      rfl
    · intro p hp
      obtain ⟨c,hc⟩ := Option.isSome_iff_exists.mp hp
      exact hO.grounded p (by rw [Heap.count_eq hc]; exact hs p c hc) (Finset.notMem_empty p)

/-- The cell at `q` refers to `p`. -/
def Refers (links : B → Multiset ℕ) (h : Heap B) (p q : ℕ) : Prop :=
  ∃ c, h.cell q = some c ∧ p ∈ links c.body

theorem Grounded.acc (hg : Grounded links h p) : Acc (Refers links h) p := by
  induction hg with
  | node hc _ ih =>
      constructor
      intro q ⟨d,hd,hq⟩
      rw [hc] at hd
      cases hd
      exact ih q hq

theorem not_transGen_self (hcons : Consistent links h R) :
    ¬ Relation.TransGen (Refers links h) p p := by
  intro hloop
  obtain ⟨q,-,c,hc,-⟩ := Relation.TransGen.tail'_iff.mp hloop
  have hacc := (hcons.grounded p (by rw [hc]; rfl)).acc.transGen
  induction hacc with
  | intro x _ ih => exact ih x hloop hloop hc

/-- Without roots there are no cells. -/
theorem Consistent.empty (hcons : Consistent links h 0) : h.cell p = none := by
  by_contra hne
  let ancestor (a b : Fin h.size) : Prop := Relation.TransGen (Refers links h) b.val a.val
  have : IsTrans (Fin h.size) ancestor := ⟨fun _ _ _ hab hbc => hbc.trans hab⟩
  have : Std.Irrefl ancestor := ⟨fun _ hloop => not_transGen_self hcons hloop⟩
  have hwf := Finite.wellFounded_of_trans_of_irrefl ancestor
  obtain ⟨c,hc⟩ := Option.ne_none_iff_exists'.mp hne
  obtain ⟨top,htop,hmin⟩ := hwf.has_min {a | (h.cell a.val).isSome}
    ⟨⟨p,Heap.lt_size hc⟩,by change (h.cell p).isSome; rw [hc]; rfl⟩
  obtain ⟨d,hd⟩ := Option.isSome_iff_exists.mp htop
  have hcount := hcons.counted top d hd
  have hsum : ∑ q ∈ Finset.range h.size,
      ((h.cell q).elim 0 fun c => (links c.body).count top.val) ≠ 0 := by
    rw [references,Multiset.count_zero] at hcount
    omega
  obtain ⟨q,hq,hpos⟩ := Finset.exists_ne_zero_of_sum_ne_zero hsum
  cases he : h.cell q with
  | none => exact hpos (by rw [he]; rfl)
  | some e =>
      rw [he] at hpos
      refine hmin ⟨q,Finset.mem_range.mp hq⟩ (by change (h.cell q).isSome; rw [he]; rfl) ?_
      exact .single ⟨e,he,Multiset.count_ne_zero.mp hpos⟩

/-- The cells keep their bodies, and one reference to `p` is one to `q` now. -/
structure Moved (p q : ℕ) (h h' : Heap B) : Prop where
  size : h'.size = h.size
  body : ∀ r, (h'.cell r).map Cell.body = (h.cell r).map Cell.body
  count : ∀ r, h'.count r+(if r = p then 1 else 0) = h.count r+(if r = q then 1 else 0)

namespace Moved

theorem refl (p : ℕ) (h : Heap B) : Moved p p h h := ⟨rfl,fun _ => rfl,fun _ => rfl⟩

theorem trans {r : ℕ} {h'' : Heap B} (hm : Moved p q h h') (hm' : Moved q r h' h'') :
    Moved p r h h'' := by
  refine ⟨hm'.size.trans hm.size,fun x => (hm'.body x).trans (hm.body x),?_⟩
  intro x
  have := hm.count x
  have := hm'.count x
  omega

theorem body_add (n : ℤ) (r : ℕ) : ((h.add p n).cell r).map Cell.body = (h.cell r).map Cell.body := by
  by_cases hr : r = p
  · rw [hr,Heap.add,Heap.modify_self,Option.map_map]
    rfl
  · rw [Heap.add_ne hr]

theorem step {d : Cell B} (hc : h.cell p = some c) (hd : h.cell q = some d) :
    Moved p q h ((h.add q 1).add p (-1)) := by
  have hp : ∃ e, (h.add q 1).cell p = some e := by
    by_cases hpq : p = q
    · subst hpq
      exact ⟨_,Heap.add_self hd⟩
    · exact ⟨c,(Heap.add_ne hpq).trans hc⟩
  obtain ⟨e,he⟩ := hp
  refine ⟨rfl,fun r => (body_add _ r).trans (body_add _ r),?_⟩
  intro r
  rw [Heap.count_add he,Heap.count_add hd]
  split <;> omega

theorem cell (hm : Moved p q h h') {r : ℕ} (hc : h.cell r = some c) :
    ∃ c', h'.cell r = some c' ∧ c'.body = c.body := by
  have hbody := hm.body r
  rw [hc] at hbody
  exact Option.map_eq_some_iff.mp hbody

theorem symm (hm : Moved p q h h') : Moved q p h' h :=
  ⟨hm.size.symm,fun r => (hm.body r).symm,fun r => (hm.count r).symm⟩

theorem references_eq (hm : Moved p q h h') (r : ℕ) :
    references links h' R r = references links h R r := by
  rw [references,references,hm.size]
  congr 1
  apply Finset.sum_congr rfl
  intro x _
  have hbody := hm.body x
  cases hc : h.cell x with
  | none =>
      rw [hc,Option.map_none,Option.map_eq_none_iff] at hbody
      rw [hbody]
  | some c =>
      obtain ⟨c',hc',heq⟩ := hm.cell hc
      rw [hc']
      exact congrArg (fun b => (links b).count r) heq

theorem grounded (hm : Moved p q h h') {r : ℕ} (hg : Grounded links h r) : Grounded links h' r := by
  induction hg with
  | node hc _ ih =>
      obtain ⟨c',hc',hbody⟩ := hm.cell hc
      exact .node hc' fun x hx => ih x (by rwa [← hbody])

end Moved

theorem Consistent.count_eq (hcons : Consistent links h R) (p : ℕ) :
    h.count p = references links h R p := by
  obtain ⟨hO,hs⟩ := consistent_iff.mp hcons
  rw [hO.counts p,refs_eq_references hs]

theorem Consistent.move (hcons : Consistent links h (p ::ₘ R)) (hm : Moved p q h h')
    (hp : p = q ∨ 2 ≤ h.count p) : Consistent links h' (q ::ₘ R) := by
  have hcount (r : ℕ) : h'.count r = references links h' (q ::ₘ R) r := by
    have hold := hcons.count_eq r
    have hmove := hm.count r
    rw [hm.references_eq,references,Multiset.count_cons]
    rw [references,Multiset.count_cons] at hold
    split at hmove <;> split at hmove <;> simp_all <;> omega
  refine ⟨?_,?_,?_⟩
  · intro r c' hc'
    obtain ⟨c,hc,-⟩ := hm.symm.cell hc'
    have hone := (hcons.counted r c hc).2
    have hmove := hm.count r
    have hnew := hcount r
    rw [Heap.count_eq hc'] at hmove hnew
    rw [Heap.count_eq hc] at hmove
    refine ⟨hnew,?_⟩
    by_cases hrp : r = p
    · subst hrp
      rcases hp with rfl | htwo
      · omega
      · rw [Heap.count_eq hc] at htwo
        split at hmove <;> omega
    · rw [if_neg hrp] at hmove
      split at hmove <;> omega
  · intro r hr
    have hne : h'.count r ≠ 0 := by
      rw [hcount]
      exact_mod_cast hr
    obtain ⟨c,hc,-⟩ := Heap.exists_of_count hne
    rw [hc]
    rfl
  · intro r hr
    obtain ⟨c',hc'⟩ := Option.isSome_iff_exists.mp hr
    obtain ⟨c,hc,-⟩ := hm.symm.cell hc'
    exact hm.grounded (hcons.grounded r (by rw [hc]; rfl))

end Counting

end Teleproxy.RefCount
