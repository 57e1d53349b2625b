import Mathlib.Data.List.Perm.Basic
import Mathlib.Data.Finset.Dedup
import Mathlib.Data.Finset.Insert
import Mathlib.Data.Finset.SDiff
import Mathlib.Order.Lattice
import Mathlib.Tactic.Common

/-!
# Treaps

Binary trees that are search trees in their keys and heaps in their priorities, with
splitting at a key and merging of two trees as the operations that the others rest on.
-/
namespace Teleproxy

inductive Treap (K Y : Type*) where
  | nil
  | node (left : Treap K Y) (x : K) (y : Y) (right : Treap K Y)
  deriving DecidableEq, Repr

namespace Treap
set_option linter.unusedSectionVars false
variable {K Y : Type*}

/-- The keys from left to right. -/
def keys : Treap K Y → List K
  | nil => []
  | node l x _ r => l.keys++x::r.keys

def size : Treap K Y → ℕ
  | nil => 0
  | node l _ _ r => l.size+r.size+1

theorem length_keys (t : Treap K Y) : t.keys.length = t.size := by
  induction t with
  | nil => rfl
  | node l x y r ihl ihr =>
      rw [keys,size,List.length_append,List.length_cons,ihl,ihr]
      omega

variable [LinearOrder K] [LinearOrder Y]

/-- The keys above `x` go to the right. -/
def split : Treap K Y → K → Treap K Y × Treap K Y
  | nil, _ => (nil,nil)
  | node l k y r, x =>
      if x < k then ((l.split x).1,node (l.split x).2 k y r)
      else (node l k y (r.split x).1,(r.split x).2)

def insert : Treap K Y → K → Y → Treap K Y
  | nil, x, y => node nil x y nil
  | node l k q r, x, y =>
      if y < q then
        if x < k then node (l.insert x y) k q r else node l k q (r.insert x y)
      else node ((node l k q r).split x).1 x y ((node l k q r).split x).2

def merge : Treap K Y → Treap K Y → Treap K Y
  | nil, t => t
  | node l x y r, nil => node l x y r
  | node l x y r, node l' x' y' r' =>
      if y' < y then node l x y (merge r (node l' x' y' r'))
      else node (merge (node l x y r) l') x' y' r'
termination_by s t => s.size+t.size
decreasing_by
  · simp only [size]
    omega
  · simp only [size]
    omega

def delete : Treap K Y → K → Treap K Y
  | nil, _ => nil
  | node l k y r, x =>
      if x = k then l.merge r
      else if x < k then node (l.delete x) k y r
      else node l k y (r.delete x)

/-- The keys increase from left to right. -/
def Search (t : Treap K Y) : Prop := t.keys.Pairwise (· < ·)

/-- The priority at the root is at most `z`. -/
def Below (z : Y) : Treap K Y → Prop
  | nil => True
  | node _ _ y _ => y ≤ z

/-- No node has a higher priority than its parent. -/
def Heaped : Treap K Y → Prop
  | nil => True
  | node l _ y r => l.Below y ∧ r.Below y ∧ l.Heaped ∧ r.Heaped

theorem keys_split (t : Treap K Y) (x : K) : (t.split x).1.keys++(t.split x).2.keys = t.keys := by
  induction t with
  | nil => rfl
  | node l k y r ihl ihr =>
      rw [split]
      split_ifs
      · rw [keys,keys,← List.append_assoc,ihl]
      · rw [keys,keys,List.append_assoc,List.cons_append,ihr]

theorem keys_merge (s t : Treap K Y) : (s.merge t).keys = s.keys++t.keys := by
  induction s, t using merge.induct with
  | case1 t => rw [merge]; rfl
  | case2 l x y r => rw [merge,keys,keys,List.append_nil]
  | case3 l x y r l' x' y' r' hlt ih =>
      rw [merge,if_pos hlt,keys,ih,keys,keys,List.append_assoc,List.cons_append]
  | case4 l x y r l' x' y' r' hlt ih =>
      rw [merge,if_neg hlt,keys,ih,keys,keys,List.append_assoc]

theorem keys_insert (t : Treap K Y) (x : K) (y : Y) : (t.insert x y).keys.Perm (x::t.keys) := by
  induction t with
  | nil => exact .refl _
  | node l k q r ihl ihr =>
      rw [insert]
      split_ifs
      · exact (ihl.append_right _).trans (.refl _)
      · exact ((ihr.cons k).append_left _).trans
          (((List.Perm.swap x k _).append_left _).trans List.perm_middle)
      · rw [keys,← keys_split (node l k q r) x]
        exact List.perm_middle

theorem search_node {l r : Treap K Y} {k : K} {y : Y} :
    (node l k y r).Search ↔ l.Search ∧ r.Search ∧ (∀ a ∈ l.keys, a < k) ∧ (∀ b ∈ r.keys, k < b) := by
  simp only [Search,keys,List.pairwise_append,List.pairwise_cons,List.mem_cons]
  constructor
  · intro ⟨hl,⟨hkr,hr⟩,hcross⟩
    exact ⟨hl,hr,fun a ha => hcross a ha k (.inl rfl),hkr⟩
  · intro ⟨hl,hr,hlk,hkr⟩
    refine ⟨hl,⟨hkr,hr⟩,?_⟩
    intro a ha b hb
    rcases hb with rfl | hb
    · exact hlk a ha
    · exact (hlk a ha).trans (hkr b hb)

theorem split_bounds {t : Treap K Y} (ht : t.Search) (x : K) :
    (∀ a ∈ (t.split x).1.keys, a ≤ x) ∧ ∀ b ∈ (t.split x).2.keys, x < b := by
  induction t with
  | nil => exact ⟨fun a ha => (List.not_mem_nil ha).elim,fun b hb => (List.not_mem_nil hb).elim⟩
  | node l k y r ihl ihr =>
      obtain ⟨hl,hr,hlk,hkr⟩ := search_node.mp ht
      rw [split]
      split_ifs with hx
      · refine ⟨(ihl hl).1,?_⟩
        intro b hb
        rcases List.mem_append.mp hb with hb | hb
        · exact (ihl hl).2 b hb
        · rcases List.mem_cons.mp hb with rfl | hb
          · exact hx
          · exact hx.trans (hkr b hb)
      · refine ⟨?_,(ihr hr).2⟩
        have hkx := not_lt.mp hx
        intro a ha
        rcases List.mem_append.mp ha with ha | ha
        · exact (hlk a ha).le.trans hkx
        · rcases List.mem_cons.mp ha with rfl | ha
          · exact hkx
          · exact (ihr hr).1 a ha

theorem Search.insert {t : Treap K Y} (ht : t.Search) {x : K} (hx : x ∉ t.keys) (y : Y) :
    (t.insert x y).Search := by
  induction t with
  | nil => exact List.pairwise_singleton _ _
  | node l k q r ihl ihr =>
      obtain ⟨hl,hr,hlk,hkr⟩ := search_node.mp ht
      have hxl : x ∉ l.keys := fun h => hx (List.mem_append_left _ h)
      have hxk : x ≠ k := fun h => hx (List.mem_append_right _ (h ▸ List.mem_cons_self))
      have hxr : x ∉ r.keys := fun h => hx (List.mem_append_right _ (List.mem_cons_of_mem _ h))
      rw [Treap.insert]
      split_ifs with hy hlt
      · refine search_node.mpr ⟨ihl hl hxl,hr,?_,hkr⟩
        intro a ha
        rcases List.mem_cons.mp ((keys_insert l x y).mem_iff.mp ha) with rfl | ha
        · exact hlt
        · exact hlk a ha
      · refine search_node.mpr ⟨hl,ihr hr hxr,hlk,?_⟩
        intro b hb
        rcases List.mem_cons.mp ((keys_insert r x y).mem_iff.mp hb) with rfl | hb
        · exact lt_of_le_of_ne (not_lt.mp hlt) hxk.symm
        · exact hkr b hb
      · have hsplit := keys_split (node l k q r) x
        have hbounds := split_bounds ht x
        have hboth : (((node l k q r).split x).1.keys++((node l k q r).split x).2.keys).Pairwise
            (· < ·) := by
          rw [hsplit]
          exact ht
        obtain ⟨hfirst,hsecond,-⟩ := List.pairwise_append.mp hboth
        refine search_node.mpr ⟨hfirst,hsecond,?_,hbounds.2⟩
        intro a ha
        refine lt_of_le_of_ne (hbounds.1 a ha) ?_
        rintro rfl
        exact hx (hsplit ▸ List.mem_append_left _ ha)

theorem keys_delete {t : Treap K Y} (ht : t.Search) (x : K) :
    (t.delete x).keys = t.keys.filter (· ≠ x) := by
  induction t with
  | nil => rfl
  | node l k y r ihl ihr =>
      obtain ⟨hl,hr,hlk,hkr⟩ := search_node.mp ht
      rw [delete,keys,List.filter_append]
      split_ifs with hxk hlt
      · subst hxk
        have hleft : l.keys.filter (· ≠ x) = l.keys := by
          rw [List.filter_eq_self]
          intro a ha
          simpa using (hlk a ha).ne
        have hright : r.keys.filter (· ≠ x) = r.keys := by
          rw [List.filter_eq_self]
          intro b hb
          simpa using (hkr b hb).ne'
        rw [keys_merge,List.filter_cons_of_neg (by simp),hleft,hright]
      · have hright : r.keys.filter (· ≠ x) = r.keys := by
          rw [List.filter_eq_self]
          intro b hb
          simpa using (hlt.trans (hkr b hb)).ne'
        rw [keys,ihl hl,List.filter_cons_of_pos (by simpa using hlt.ne'),hright]
      · have hkx := lt_of_le_of_ne (not_lt.mp hlt) (Ne.symm hxk)
        have hleft : l.keys.filter (· ≠ x) = l.keys := by
          rw [List.filter_eq_self]
          intro a ha
          simpa using ((hlk a ha).trans hkx).ne
        rw [keys,ihr hr,List.filter_cons_of_pos (by simpa using hkx.ne),hleft]

theorem Search.delete {t : Treap K Y} (ht : t.Search) (x : K) : (t.delete x).Search := by
  rw [Search,keys_delete ht]
  exact ht.filter _

theorem below_mono {t : Treap K Y} {y z : Y} (ht : t.Below y) (hyz : y ≤ z) : t.Below z := by
  cases t with
  | nil => trivial
  | node l k q r => exact le_trans ht hyz

theorem below_split {t : Treap K Y} {z : Y} (ht : t.Heaped) (hz : t.Below z) (x : K) :
    (t.split x).1.Below z ∧ (t.split x).2.Below z := by
  induction t with
  | nil => exact ⟨trivial,trivial⟩
  | node l k y r ihl ihr =>
      obtain ⟨hl,hr,hhl,hhr⟩ := ht
      rw [split]
      split_ifs
      · exact ⟨(ihl hhl (below_mono hl hz)).1,hz⟩
      · exact ⟨hz,(ihr hhr (below_mono hr hz)).2⟩

theorem Heaped.split {t : Treap K Y} (ht : t.Heaped) (x : K) :
    (t.split x).1.Heaped ∧ (t.split x).2.Heaped := by
  induction t with
  | nil => exact ⟨trivial,trivial⟩
  | node l k y r ihl ihr =>
      obtain ⟨hl,hr,hhl,hhr⟩ := ht
      rw [Treap.split]
      split_ifs
      · exact ⟨(ihl hhl).1,(below_split hhl hl x).2,hr,(ihl hhl).2,hhr⟩
      · exact ⟨⟨hl,(below_split hhr hr x).1,hhl,(ihr hhr).1⟩,(ihr hhr).2⟩

theorem below_insert {t : Treap K Y} {z y : Y} (hz : t.Below z) (hy : y ≤ z) (x : K) :
    (t.insert x y).Below z := by
  cases t with
  | nil => exact hy
  | node l k q r =>
      rw [insert]
      split_ifs
      · exact hz
      · exact hz
      · exact hy

theorem Heaped.insert {t : Treap K Y} (ht : t.Heaped) (x : K) (y : Y) : (t.insert x y).Heaped := by
  induction t with
  | nil => exact ⟨trivial,trivial,trivial,trivial⟩
  | node l k q r ihl ihr =>
      have hall := ht
      obtain ⟨hl,hr,hhl,hhr⟩ := ht
      rw [Treap.insert]
      split_ifs with hy
      · exact ⟨below_insert hl hy.le x,hr,ihl hhl,hhr⟩
      · exact ⟨hl,below_insert hr hy.le x,hhl,ihr hhr⟩
      · have hbelow := below_split hall (show (node l k q r).Below y from not_lt.mp hy) x
        exact ⟨hbelow.1,hbelow.2,(hall.split x).1,(hall.split x).2⟩

theorem below_merge {s t : Treap K Y} {z : Y} (hs : s.Below z) (ht : t.Below z) :
    (s.merge t).Below z := by
  cases s with
  | nil => rwa [merge]
  | node l x y r =>
      cases t with
      | nil => rwa [merge]
      | node l' x' y' r' =>
          rw [merge]
          split_ifs
          · exact hs
          · exact ht

theorem Heaped.merge {s t : Treap K Y} (hs : s.Heaped) (ht : t.Heaped) : (s.merge t).Heaped := by
  induction s, t using merge.induct with
  | case1 t => rwa [Treap.merge]
  | case2 l x y r => rwa [Treap.merge]
  | case3 l x y r l' x' y' r' hlt ih =>
      obtain ⟨hl,hr,hhl,hhr⟩ := hs
      rw [Treap.merge,if_pos hlt]
      exact ⟨hl,below_merge hr hlt.le,hhl,ih hhr ht⟩
  | case4 l x y r l' x' y' r' hlt ih =>
      obtain ⟨hl,hr,hhl,hhr⟩ := ht
      rw [Treap.merge,if_neg hlt]
      exact ⟨below_merge (not_lt.mp hlt) hl,hr,ih hs hhl,hhr⟩

theorem below_delete {t : Treap K Y} {z : Y} (ht : t.Heaped) (hz : t.Below z) (x : K) :
    (t.delete x).Below z := by
  cases t with
  | nil => trivial
  | node l k y r =>
      rw [delete]
      split_ifs
      · exact below_merge (below_mono ht.1 hz) (below_mono ht.2.1 hz)
      · exact hz
      · exact hz

theorem Heaped.delete {t : Treap K Y} (ht : t.Heaped) (x : K) : (t.delete x).Heaped := by
  induction t with
  | nil => trivial
  | node l k y r ihl ihr =>
      obtain ⟨hl,hr,hhl,hhr⟩ := ht
      rw [Treap.delete]
      split_ifs
      · exact hhl.merge hhr
      · exact ⟨below_delete hhl hl x,hr,ihl hhl,hhr⟩
      · exact ⟨hl,below_delete hhr hr x,hhl,ihr hhr⟩

end Treap

end Teleproxy
