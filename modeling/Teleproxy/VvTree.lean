import Mathlib.Tactic.Common
import Teleproxy.Lib.RefCount
import Teleproxy.Lib.Treap

/-!
# The connection tree

The treap of vv/vv-tree.c in its `TREE_PTHREAD` form. A node is shared by all the versions of
the tree that contain it, and counts the pointers to it. Whoever changes a tree gives up its
own reference to every node on the way down and goes on with a copy. A node's reference to
its connection is taken where the node is made and dropped where it is freed.
-/
namespace Teleproxy.VvTree
open RefCount

/-- `lrand48_j` gives priorities from 0 to 2^31-1. -/
abbrev Priority := Fin (2^31)

structure TreeNode (K : Type) where
  left : Option ℕ
  right : Option ℕ
  x : K
  y : Priority
  deriving DecidableEq, Repr

section Model
variable {K : Type} (xCmp : K → K → ℤ)

/-- `Y_CMP`, a difference of two values of type `int`. -/
def yCmp (a b : Priority) : ℤ := (BitVec.ofNat 32 a-BitVec.ofNat 32 b).toInt

def treeAlloc (h : Heap (TreeNode K)) (x : K) (y : Priority) : Heap (TreeNode K) × ℕ :=
  (h.alloc ⟨none,none,x,y⟩,h.size)

def treeFree : ℕ → Heap (TreeNode K) → Option ℕ → Except Fault (Heap (TreeNode K))
  | 0, _, _ => .error .fuel
  | _+1, h, none => .ok h
  | fuel+1, h, some t => do
      let n ← h.read t
      let h := h.add t (-1)
      if 1 < n.refcnt then
        return h
      if n.refcnt-1 ≠ 0 then
        throw .assertion
      let h ← treeFree fuel h n.body.left
      let n ← h.read t
      let h ← treeFree fuel h n.body.right
      let _ ← h.read t
      return h.erase t

/-- The copy at `r` gets a reference to the child, if there is one. -/
def shareChild (h : Heap (TreeNode K)) (child : Option ℕ) (r : ℕ)
    (f : TreeNode K → TreeNode K) : Except Fault (Heap (TreeNode K)) :=
  match child with
  | none => .ok h
  | some q => do
      let _ ← h.read q
      return (h.add q 1).write r f

def treeClone (fuel : ℕ) (h : Heap (TreeNode K)) (t : ℕ) : Except Fault (Heap (TreeNode K) × ℕ) := do
  let n ← h.read t
  let (h,r) := treeAlloc h n.body.x n.body.y
  let h ← shareChild h n.body.left r fun m => {m with left := n.body.left}
  let h ← shareChild h n.body.right r fun m => {m with right := n.body.right}
  let h ← treeFree fuel h (some t)
  return (h,r)

def setLeft (h : Heap (TreeNode K)) (t : ℕ) (child : Option ℕ) : Except Fault (Heap (TreeNode K)) := do
  let _ ← h.read t
  return h.write t fun n => {n with left := child}

def setRight (h : Heap (TreeNode K)) (t : ℕ) (child : Option ℕ) : Except Fault (Heap (TreeNode K)) := do
  let _ ← h.read t
  return h.write t fun n => {n with right := child}

def treeSplit : ℕ → Heap (TreeNode K) → Option ℕ → K →
    Except Fault (Heap (TreeNode K) × Option ℕ × Option ℕ)
  | 0, _, _, _ => .error .fuel
  | _+1, h, none, _ => .ok (h,none,none)
  | fuel+1, h, some t, x => do
      let (h,t) ← treeClone fuel h t
      let n ← h.read t
      if xCmp x n.body.x < 0 then
        let (h,l,r) ← treeSplit fuel h n.body.left x
        let h ← setLeft h t r
        return (h,l,some t)
      else
        let (h,l,r) ← treeSplit fuel h n.body.right x
        let h ← setRight h t l
        return (h,some t,r)

def treeInsert : ℕ → Heap (TreeNode K) → Option ℕ → K → Priority →
    Except Fault (Heap (TreeNode K) × ℕ)
  | 0, _, _, _, _ => .error .fuel
  | _+1, h, none, x, y => .ok (treeAlloc h x y)
  | fuel+1, h, some t, x, y => do
      let (h,t) ← treeClone fuel h t
      let n ← h.read t
      if yCmp y n.body.y < 0 then
        let c := xCmp x n.body.x
        if c = 0 then
          throw .assertion
        if c < 0 then
          let (h,s) ← treeInsert fuel h n.body.left x y
          let h ← setLeft h t (some s)
          return (h,t)
        else
          let (h,s) ← treeInsert fuel h n.body.right x y
          let h ← setRight h t (some s)
          return (h,t)
      else
        let (h,p) := treeAlloc h x y
        let (h,l,r) ← treeSplit xCmp fuel h (some t) x
        let h ← setLeft h p l
        let h ← setRight h p r
        return (h,p)

def treeMerge : ℕ → Heap (TreeNode K) → Option ℕ → Option ℕ →
    Except Fault (Heap (TreeNode K) × Option ℕ)
  | 0, _, _, _ => .error .fuel
  | _+1, h, none, r => .ok (h,r)
  | _+1, h, some l, none => .ok (h,some l)
  | fuel+1, h, some l, some r => do
      let m ← h.read l
      let n ← h.read r
      if 0 < yCmp m.body.y n.body.y then
        let (h,l) ← treeClone fuel h l
        let m ← h.read l
        let (h,s) ← treeMerge fuel h m.body.right (some r)
        let h ← setRight h l s
        return (h,some l)
      else
        let (h,r) ← treeClone fuel h r
        let n ← h.read r
        let (h,s) ← treeMerge fuel h (some l) n.body.left
        let h ← setLeft h r s
        return (h,some r)

def treeDelete : ℕ → Heap (TreeNode K) → Option ℕ → K →
    Except Fault (Heap (TreeNode K) × Option ℕ)
  | 0, _, _, _ => .error .fuel
  | _+1, _, none, _ => .error .assertion
  | fuel+1, h, some t, x => do
      let (h,t) ← treeClone fuel h t
      let n ← h.read t
      let c := xCmp x n.body.x
      if c = 0 then
        let (h,s) ← treeMerge fuel h n.body.left n.body.right
        let h ← setLeft h t none
        let h ← setRight h t none
        let h ← treeFree fuel h (some t)
        return (h,s)
      else if c < 0 then
        let (h,s) ← treeDelete fuel h n.body.left x
        let h ← setLeft h t s
        return (h,some t)
      else
        let (h,s) ← treeDelete fuel h n.body.right x
        let h ← setRight h t s
        return (h,some t)

end Model

section Representation
variable {K : Type} {h h' : Heap (TreeNode K)} {D : Finset ℕ} {R : Multiset ℕ} {p : Option ℕ} {q : ℕ}
  {t l r : Treap K Priority} {x : K} {y : Priority}

def links (n : TreeNode K) : Multiset ℕ := ofPtr n.left+ofPtr n.right

inductive Rep (h : Heap (TreeNode K)) : Option ℕ → Treap K Priority → Prop
  | nil : Rep h none .nil
  | node {p : ℕ} {n : Cell (TreeNode K)} {l r : Treap K Priority} :
      h.cell p = some n → Rep h n.body.left l → Rep h n.body.right r →
      Rep h (some p) (.node l n.body.x n.body.y r)

theorem Rep.inv (hr : Rep h p (.node l x y r)) : ∃ q n, p = some q ∧ h.cell q = some n ∧
    n.body.x = x ∧ n.body.y = y ∧ Rep h n.body.left l ∧ Rep h n.body.right r := by
  cases hr with
  | node hc hl hr => exact ⟨_,_,rfl,hc,rfl,rfl,hl,hr⟩

theorem Rep.keeps (hr : Rep h p t) (hC : Counted links D h' R) (hk : Keeps D h h')
    (hp : ∀ q, p = some q → 0 < h'.count q ∧ q ∉ D) : Rep h' p t := by
  induction hr with
  | nil => exact .nil
  | @node p n l r hc _ _ ihl ihr =>
      obtain ⟨hlive,hopen⟩ := hp p rfl
      obtain ⟨n',hc',href⟩ := Heap.exists_of_count hlive.ne'
      obtain ⟨m,hm,hbody⟩ := hk.body p (Heap.lt_size hc) hopen n' hc'
      rw [hc] at hm
      cases hm
      rw [hbody] at ihl ihr ⊢
      have hlinks (q : ℕ) (hq : q ∈ links n'.body) : 0 < h'.count q ∧ q ∉ D :=
        hC.live_link hc' (by omega) hopen hq
      exact .node hc' (ihl fun q hq => hlinks q (Multiset.mem_add.mpr (.inl (mem_ofPtr.mpr hq))))
        (ihr fun q hq => hlinks q (Multiset.mem_add.mpr (.inr (mem_ofPtr.mpr hq))))

/-- A root goes on representing what it did. -/
theorem Rep.root (hr : Rep h p t) (hC : Counted links D h' (ofPtr p+R)) (hD : ∀ q ∈ D, q ∈ R)
    (hk : Keeps D h h') : Rep h' p t := by
  apply hr.keeps hC hk
  rintro q rfl
  rw [ofPtr_some,Multiset.singleton_add] at hC
  exact ⟨hC.live (Multiset.mem_cons_self q R),hC.not_open hD⟩

theorem subset_add (hD : ∀ s ∈ D, s ∈ R) (R' : Multiset ℕ) : ∀ s ∈ D, s ∈ R'+R :=
  fun s hs => Multiset.mem_add.mpr (.inr (hD s hs))

theorem open_subset (hD : ∀ s ∈ D, s ∈ R) (q : ℕ) : ∀ s ∈ insert q D, s ∈ q ::ₘ R := by
  intro s hs
  rcases Finset.mem_insert.mp hs with rfl | hs
  · exact Multiset.mem_cons_self s R
  · exact Multiset.mem_cons_of_mem (hD s hs)

theorem treeFree_spec (t : Treap K Priority) : ∀ {fuel : ℕ} {h : Heap (TreeNode K)} {p : Option ℕ}
    {R : Multiset ℕ}, t.size < fuel → Rep h p t → Owned links D h (ofPtr p+R) → (∀ q ∈ D, q ∈ R) →
    ∃ h', treeFree fuel h p = .ok h' ∧ Yields links D h h' R := by
  induction t with
  | nil =>
      intro fuel h p R hfuel hrep hO _
      cases hrep
      cases fuel with
      | zero => exact (Nat.not_lt_zero _ hfuel).elim
      | succ fuel => exact ⟨h,rfl,.refl (by rwa [ofPtr_none,zero_add] at hO)⟩
  | node l x y r ihl ihr =>
      intro fuel h p R hfuel hrep hO hD
      obtain ⟨q,n,rfl,hc,-,-,hl,hr⟩ := hrep.inv
      rw [ofPtr_some,Multiset.singleton_add] at hO
      have hopen := hO.not_open hD
      have hlive := hO.live (Multiset.mem_cons_self q R)
      rw [Heap.count_eq hc] at hlive
      rw [Treap.size] at hfuel
      cases fuel with
      | zero => exact (Nat.not_lt_zero _ hfuel).elim
      | succ fuel =>
          have hfl : l.size < fuel := by omega
          have hfr : r.size < fuel := by omega
          rw [treeFree,Heap.read_eq hc,ok_bind]
          dsimp only
          by_cases hshared : 1 < n.refcnt
          · rw [if_pos hshared]
            exact ⟨_,rfl,hO.decref hc hshared hopen,.add (-1),.add hc (by omega) (by omega)⟩
          · rw [if_neg hshared,if_neg (by omega)]
            have hone : n.refcnt = 1 := by omega
            have hO1 := hO.decref_last hc hone hopen
            have hk1 : Keeps D h (h.add q (-1)) := .add (-1)
            rw [links,add_assoc] at hO1
            have hDr := subset_add hD (ofPtr n.body.right)
            have hDl := subset_add hD (ofPtr n.body.left)
            obtain ⟨h2,hrun2,hy2⟩ := ihl hfl (hl.root hO1.toCounted hDr hk1) hO1 hDr
            have hwait : (h.add q (-1)).cell q = some {n with refcnt := n.refcnt+-1} := Heap.add_self hc
            have hzero : n.refcnt+-1 = 0 := by omega
            have hc2 := (hy2.waits q _ hzero).mpr hwait
            have hr1 : Rep (h.add q (-1)) n.body.right r := by
              rw [add_left_comm] at hO1
              exact hr.root hO1.toCounted hDl hk1
            obtain ⟨h3,hrun3,hy3⟩ := ihr hfr
              (hr1.root hy2.owned.toCounted hD (hy2.keeps.mono (Finset.empty_subset D))) hy2.owned hD
            have hc3 := (hy3.waits q _ hzero).mpr hc2
            refine ⟨h3.erase q,?_,hy3.owned.erase hc3 hzero,?_,?_⟩
            · simp only [hrun2,ok_bind,Heap.read_eq hc2,hrun3,Heap.read_eq hc3]
              rfl
            · exact ((Keeps.add (-1)).trans hy2.keeps).trans (hy3.keeps.trans .erase)
            · intro s m h0
              by_cases hs : s = q
              · rw [hs,Heap.erase_self,hc]
                constructor
                · intro hm
                  cases hm
                · intro hm
                  cases hm
                  omega
              · rw [Heap.erase_ne hs,hy3.waits s m h0,hy2.waits s m h0,Heap.add_ne hs]

/-- The copy at `q` is open. -/
theorem shareChild_spec {child : Option ℕ} {f : TreeNode K → TreeNode K} {n : Cell (TreeNode K)}
    (hO : Owned links D h R) (hq : q ∈ D) (hc : h.cell q = some n)
    (hnone : child = none → f n.body = n.body) (hchild : ∀ s, child = some s → 0 < h.count s ∧ s ∉ D) :
    ∃ h', shareChild h child q f = .ok h' ∧ Owned links D h' (ofPtr child+R) ∧ SameWaiting h h' ∧
      (∃ n', h'.cell q = some n' ∧ n'.body = f n.body) ∧
      ∀ h₀, Keeps ∅ h₀ h → h₀.size ≤ q → Keeps ∅ h₀ h' := by
  cases child with
  | none => exact ⟨h,rfl,by rwa [ofPtr_none,zero_add],.refl h,⟨n,hc,(hnone rfl).symm⟩,fun _ hk _ => hk⟩
  | some s =>
      obtain ⟨hlive,hopen⟩ := hchild s rfl
      obtain ⟨m,hm,href⟩ := Heap.exists_of_count hlive.ne'
      have hsq : q ≠ s := fun heq => hopen (heq ▸ hq)
      have hc1 : (h.add s 1).cell q = some n := (Heap.add_ne hsq).trans hc
      obtain ⟨d,hd,hone⟩ := hO.opened_cell hq
      rw [hc] at hd
      cases hd
      refine ⟨(h.add s 1).write q f,?_,?_,?_,⟨_,Heap.write_self hc1,rfl⟩,?_⟩
      · rw [shareChild,Heap.read_eq hm]
        rfl
      · rw [ofPtr_some,Multiset.singleton_add]
        exact (hO.incref hm (by omega) hopen).write hq f
      · exact (SameWaiting.add hm (by omega) (by omega)).trans (.write f hc1 (by omega))
      · intro h₀ hk hsize
        exact .write f (.inr hsize) (hk.trans (.add 1))

/-- The copy is left open, with the references in it. -/
theorem treeClone_spec {fuel : ℕ} (hfuel : (Treap.node l x y r).size < fuel)
    (hrep : Rep h p (.node l x y r)) (hO : Owned links D h (ofPtr p+R)) (hD : ∀ s ∈ D, s ∈ R) :
    ∃ t h' q n, p = some t ∧ treeClone fuel h t = .ok (h',q) ∧ h'.cell q = some n ∧ n.body.x = x ∧
      n.body.y = y ∧ Rep h' n.body.left l ∧ Rep h' n.body.right r ∧ h.size ≤ q ∧ q ∉ D ∧
      Yields links (insert q D) h h' (ofPtr n.body.left+(ofPtr n.body.right+q ::ₘ R)) := by
  obtain ⟨t,n,rfl,hc,rfl,rfl,hl,hr⟩ := hrep.inv
  rw [ofPtr_some,Multiset.singleton_add] at hO
  have hclosed := hO.size_closed
  have hts : t ≠ h.size := (Heap.lt_size hc).ne
  have hopen : t ∉ insert h.size D := by
    rw [Finset.mem_insert]
    exact not_or.mpr ⟨hts,hO.not_open hD⟩
  have hself := Finset.mem_insert_self h.size D
  -- the copy is made, and opened
  have hO1 := (hO.alloc (b := ⟨none,none,n.body.x,n.body.y⟩) rfl).open (Heap.alloc_self _) rfl hclosed
  have hk1 : Keeps ∅ h (h.alloc ⟨none,none,n.body.x,n.body.y⟩) := .alloc _
  have hw1 : SameWaiting h (h.alloc ⟨none,none,n.body.x,n.body.y⟩) := .alloc _
  have hc1 := Heap.alloc_self (h := h) ⟨none,none,n.body.x,n.body.y⟩
  generalize halloc : h.alloc ⟨none,none,n.body.x,n.body.y⟩ = h1 at hO1 hk1 hw1 hc1
  have hO1 : Owned links (insert h.size D) h1 (t ::ₘ h.size ::ₘ R) := by
    rw [Multiset.cons_swap]
    exact (zero_add (h.size ::ₘ t ::ₘ R)) ▸ hO1
  have hempty := Finset.empty_subset (insert h.size D)
  -- it gets its references to the children
  obtain ⟨n1,hn1,href1,hbody1⟩ := hO1.root_cell (hk1.mono hempty) hc hopen
  obtain ⟨h2,hrun2,hO2,hw2,⟨m2,hm2,hbody2⟩,hkeep2⟩ := shareChild_spec
    (f := fun m => {m with left := n.body.left}) hO1 hself hc1 (by intro hnone; rw [hnone])
    fun s hs => hO1.live_link hn1 href1 hopen
      (hbody1 ▸ Multiset.mem_add.mpr (.inl (mem_ofPtr.mpr hs)))
  have hk2 := hkeep2 h hk1 le_rfl
  rw [Multiset.add_cons] at hO2
  obtain ⟨n2,hn2,href2,hbody3⟩ := hO2.root_cell (hk2.mono hempty) hc hopen
  obtain ⟨h3,hrun3,hO3,hw3,⟨m3,hm3,hbody4⟩,hkeep3⟩ := shareChild_spec
    (f := fun m => {m with right := n.body.right}) hO2 hself hm2 (by intro hnone; rw [hnone,hbody2])
    fun s hs => hO2.live_link hn2 href2 hopen
      (hbody3 ▸ Multiset.mem_add.mpr (.inr (mem_ofPtr.mpr hs)))
  have hk3 := hkeep3 h hk2 le_rfl
  rw [Multiset.add_cons,← Multiset.singleton_add,← ofPtr_some,add_left_comm (ofPtr n.body.right)] at hO3
  -- and the reference to the original is given up
  have hD1 := open_subset hD h.size
  have hD3 := subset_add (subset_add hD1 (ofPtr n.body.right)) (ofPtr n.body.left)
  obtain ⟨h4,hrun4,hy4⟩ := treeFree_spec _ hfuel (hrep.root hO3.toCounted hD3 (hk3.mono hempty)) hO3 hD3
  have hk4 := hk3.trans hy4.keeps
  obtain ⟨n4,hn4,-⟩ := hy4.owned.opened_cell hself
  obtain ⟨m4,hm4,hbody5⟩ := hy4.keeps.body h.size (Heap.lt_size hm3) (Finset.notMem_empty _) n4 hn4
  have hbody : n4.body = n.body := by
    rw [hm3] at hm4
    cases hm4
    rw [← hbody5,hbody4,hbody2]
  refine ⟨t,h4,h.size,n4,rfl,?_,hn4,by rw [hbody],by rw [hbody],?_,?_,le_rfl,hclosed,?_⟩
  · simp only [treeClone,Heap.read_eq hc,ok_bind,treeAlloc,halloc,hrun2,hrun3,hrun4]
    rfl
  · rw [hbody]
    exact hl.root hy4.owned.toCounted (subset_add hD1 _) (hk4.mono hempty)
  · have hO4 := hy4.owned
    rw [add_left_comm] at hO4
    rw [hbody]
    exact hr.root hO4.toCounted (subset_add hD1 _) (hk4.mono hempty)
  · rw [hbody]
    exact ⟨hy4.owned,hk4,hw1.trans (hw2.trans (hw3.trans hy4.waits))⟩

/-- The open node at `q` gets its children and is closed; what other roots represent stays. -/
theorem closes {h₀ : Heap (TreeNode K)} {a b : Option ℕ} {f : TreeNode K → TreeNode K}
    {n : Cell (TreeNode K)} (hy : Yields links (insert q D) h₀ h (ofPtr a+(ofPtr b+q ::ₘ R)))
    (hsize : h₀.size ≤ q) (hq : q ∉ D) (hD : ∀ s ∈ D, s ∈ R) (hc : h.cell q = some n)
    (hf : f n.body = ⟨a,b,x,y⟩) (ha : Rep h a l) (hb : Rep h b r) :
    Yields links D h₀ (h.write q f) (q ::ₘ R) ∧ Rep (h.write q f) (some q) (.node l x y r) ∧
    ∀ s u R', R = ofPtr s+R' → (∀ d ∈ D, d ∈ R') → Rep h s u → Rep (h.write q f) s u := by
  have hself := Finset.mem_insert_self q D
  have hO1 := hy.owned.write hself f
  have hk1 : Keeps (insert q D) h (h.write q f) := .write f (.inl hself) (.refl _ h)
  have hc1 : (h.write q f).cell q = some ⟨n.refcnt,⟨a,b,x,y⟩⟩ := by rw [Heap.write_self hc,hf]
  have hone : n.refcnt = 1 := by
    obtain ⟨m,hm,href⟩ := hy.owned.opened_cell hself
    rw [hc] at hm
    cases hm
    exact href
  have hD1 := open_subset hD q
  refine ⟨⟨?_,.write f (.inr hsize) hy.keeps,hy.waits.trans (.write f hc (by omega))⟩,?_,?_⟩
  · refine Owned.close ?_ hc1 hq hD
    rw [links,add_assoc]
    exact hO1
  · refine .node hc1 (ha.root hO1.toCounted (subset_add hD1 _) hk1) ?_
    rw [add_left_comm] at hO1
    exact hb.root hO1.toCounted (subset_add hD1 _) hk1
  · rintro s u R' rfl hD' hs
    have hO2 : Owned links (insert q D) (h.write q f) (ofPtr s+(ofPtr a+(ofPtr b+q ::ₘ R'))) := by
      rw [← Multiset.add_cons,add_left_comm (ofPtr b),add_left_comm (ofPtr a)] at hO1
      exact hO1
    exact hs.root hO2.toCounted (subset_add (subset_add (open_subset hD' q) _) _) hk1

/-- Nothing is done to a node that is open. -/
theorem opened_body {n : Cell (TreeNode K)} (hy : Yields links D h h' R) (hq : q ∈ D)
    (hc : h.cell q = some n) : ∃ m, h'.cell q = some m ∧ m.body = n.body := by
  obtain ⟨m,hm,-⟩ := hy.owned.opened_cell hq
  obtain ⟨d,hd,hbody⟩ := hy.keeps.body q (Heap.lt_size hc) (Finset.notMem_empty q) m hm
  rw [hc] at hd
  cases hd
  exact ⟨m,hm,hbody.symm⟩

theorem setLeft_eq {n : Cell (TreeNode K)} (hc : h.cell q = some n) (child : Option ℕ) :
    setLeft h q child = .ok (h.write q fun m => {m with left := child}) := by
  rw [setLeft,Heap.read_eq hc]
  rfl

theorem setRight_eq {n : Cell (TreeNode K)} (hc : h.cell q = some n) (child : Option ℕ) :
    setRight h q child = .ok (h.write q fun m => {m with right := child}) := by
  rw [setRight,Heap.read_eq hc]
  rfl

section Rebuild
variable {h₀ h1 h2 : Heap (TreeNode K)} {n : Cell (TreeNode K)} {child : Option ℕ}
variable (hy1 : Yields links (insert q D) h₀ h1 (ofPtr n.body.left+(ofPtr n.body.right+q ::ₘ R)))
variable (hc1 : h1.cell q = some n) (hfresh : h₀.size ≤ q) (hq : q ∉ D)
include hy1 hc1 hfresh hq

/-- A recursive call has made a new left subtree for the open node at `q`. -/
theorem rebuildLeft {R' : Multiset ℕ} (hr : Rep h1 n.body.right r)
    (hy2 : Yields links (insert q D) h1 h2 (ofPtr child+(ofPtr n.body.right+q ::ₘ R')))
    (hD : ∀ s ∈ D, s ∈ R') (hchild : Rep h2 child l) :
    ∃ h3, setLeft h2 q child = .ok h3 ∧ Yields links D h₀ h3 (q ::ₘ R') ∧
      Rep h3 (some q) (.node l n.body.x n.body.y r) ∧
      ∀ s u R'', R' = ofPtr s+R'' → (∀ d ∈ D, d ∈ R'') → Rep h2 s u → Rep h3 s u := by
  obtain ⟨m,hc2,hbody⟩ := opened_body hy2 (Finset.mem_insert_self q D) hc1
  have hr2 : Rep h2 n.body.right r := by
    have hO2 := hy2.owned
    rw [add_left_comm] at hO2
    exact hr.root hO2.toCounted (subset_add (open_subset hD q) _)
      (hy2.keeps.mono (Finset.empty_subset _))
  refine ⟨_,setLeft_eq hc2 child,?_⟩
  exact closes (hy1.trans hy2) hfresh hq hD hc2 (by rw [hbody]) hchild hr2

theorem rebuildRight {R' : Multiset ℕ} (hl : Rep h1 n.body.left l)
    (hy2 : Yields links (insert q D) h1 h2 (ofPtr n.body.left+(ofPtr child+q ::ₘ R')))
    (hD : ∀ s ∈ D, s ∈ R') (hchild : Rep h2 child r) :
    ∃ h3, setRight h2 q child = .ok h3 ∧ Yields links D h₀ h3 (q ::ₘ R') ∧
      Rep h3 (some q) (.node l n.body.x n.body.y r) ∧
      ∀ s u R'', R' = ofPtr s+R'' → (∀ d ∈ D, d ∈ R'') → Rep h2 s u → Rep h3 s u := by
  obtain ⟨m,hc2,hbody⟩ := opened_body hy2 (Finset.mem_insert_self q D) hc1
  have hl2 : Rep h2 n.body.left l :=
    hl.root hy2.owned.toCounted (subset_add (open_subset hD q) _)
      (hy2.keeps.mono (Finset.empty_subset _))
  refine ⟨_,setRight_eq hc2 child,?_⟩
  exact closes (hy1.trans hy2) hfresh hq hD hc2 (by rw [hbody]) hl2 hchild

end Rebuild

end Representation

section Operations
variable {K : Type} [LinearOrder K] {xCmp : K → K → ℤ} {D : Finset ℕ} {R : Multiset ℕ}

/-- The comparison of keys is the order. -/
def Compares (xCmp : K → K → ℤ) : Prop := ∀ a b, (xCmp a b < 0 ↔ a < b) ∧ (xCmp a b = 0 ↔ a = b)

theorem yCmp_eq (a b : Priority) : yCmp a b = (a : ℤ)-b := by
  have ha := a.isLt
  have hb := b.isLt
  rw [yCmp,BitVec.toInt_sub,BitVec.toInt_ofNat',BitVec.toInt_ofNat',← Int.sub_bmod]
  exact Int.bmod_eq_of_le (by omega) (by omega)

theorem yCmp_neg (a b : Priority) : yCmp a b < 0 ↔ a < b := by
  rw [yCmp_eq,Fin.lt_def]
  omega

theorem yCmp_pos (a b : Priority) : 0 < yCmp a b ↔ b < a := by
  rw [yCmp_eq,Fin.lt_def]
  omega

theorem treeSplit_spec (hcmp : Compares xCmp) (x : K) (t : Treap K Priority) :
    ∀ {D : Finset ℕ} {fuel : ℕ} {h : Heap (TreeNode K)} {p : Option ℕ} {R : Multiset ℕ},
    t.size+2 ≤ fuel → Rep h p t → Owned links D h (ofPtr p+R) → (∀ q ∈ D, q ∈ R) →
    ∃ h' a b, treeSplit xCmp fuel h p x = .ok (h',a,b) ∧ Rep h' a (t.split x).1 ∧
      Rep h' b (t.split x).2 ∧ Yields links D h h' (ofPtr a+(ofPtr b+R)) := by
  induction t with
  | nil =>
      intro D fuel h p R hfuel hrep hO _
      cases hrep
      cases fuel with
      | zero => omega
      | succ fuel => exact ⟨h,none,none,rfl,.nil,.nil,.refl (by simpa using hO)⟩
  | node l k y r ihl ihr =>
      intro D fuel h p R hfuel hrep hO hD
      cases fuel with
      | zero => omega
      | succ fuel =>
          have hsize : (Treap.node l k y r).size < fuel := by omega
          rw [Treap.size] at hfuel
          have hfl : l.size+2 ≤ fuel := by omega
          have hfr : r.size+2 ≤ fuel := by omega
          obtain ⟨t,h1,q,n,rfl,hrun1,hc1,rfl,rfl,hl,hr,hfresh,hq,hy1⟩ := treeClone_spec hsize hrep hO hD
          have hD1 := open_subset hD q
          rw [treeSplit,hrun1,ok_bind]
          dsimp only
          rw [Heap.read_eq hc1,ok_bind]
          by_cases hx : x < n.body.x
          · rw [if_pos ((hcmp x n.body.x).1.mpr hx),Treap.split,if_pos hx]
            obtain ⟨h2,a,b,hrun2,ha,hb,hy2⟩ := ihl hfl hl hy1.owned (subset_add hD1 _)
            have hroots : ofPtr a+(ofPtr b+(ofPtr n.body.right+q ::ₘ R)) =
                ofPtr b+(ofPtr n.body.right+q ::ₘ (ofPtr a+R)) := by
              rw [← Multiset.add_cons]
              ac_rfl
            rw [hroots] at hy2
            obtain ⟨h3,hset,hy3,hrep3,hother⟩ :=
              rebuildLeft hy1 hc1 hfresh hq hr hy2 (subset_add hD (ofPtr a)) hb
            refine ⟨h3,a,some q,?_,hother a _ R rfl hD ha,hrep3,?_⟩
            · simp only [hrun2,ok_bind,hset]
              rfl
            · rw [ofPtr_some,Multiset.singleton_add,Multiset.add_cons]
              exact hy3
          · rw [if_neg (mt (hcmp x n.body.x).1.mp hx),Treap.split,if_neg hx]
            have hO1 := hy1.owned
            rw [add_left_comm] at hO1
            obtain ⟨h2,a,b,hrun2,ha,hb,hy2⟩ := ihr hfr hr hO1 (subset_add hD1 _)
            have hroots : ofPtr a+(ofPtr b+(ofPtr n.body.left+q ::ₘ R)) =
                ofPtr n.body.left+(ofPtr a+q ::ₘ (ofPtr b+R)) := by
              rw [← Multiset.add_cons]
              ac_rfl
            rw [hroots] at hy2
            obtain ⟨h3,hset,hy3,hrep3,hother⟩ :=
              rebuildRight hy1 hc1 hfresh hq hl hy2 (subset_add hD (ofPtr b)) ha
            refine ⟨h3,some q,b,?_,hrep3,hother b _ R rfl hD hb,?_⟩
            · simp only [hrun2,ok_bind,hset]
              rfl
            · rw [ofPtr_some,Multiset.singleton_add]
              exact hy3

theorem treeInsert_spec (hcmp : Compares xCmp) (x : K) (y : Priority) (t : Treap K Priority) :
    ∀ {D : Finset ℕ} {fuel : ℕ} {h : Heap (TreeNode K)} {p : Option ℕ} {R : Multiset ℕ},
    x ∉ t.keys → t.size+3 ≤ fuel → Rep h p t → Owned links D h (ofPtr p+R) → (∀ q ∈ D, q ∈ R) →
    ∃ h' q, treeInsert xCmp fuel h p x y = .ok (h',q) ∧ Rep h' (some q) (t.insert x y) ∧
      Yields links D h h' (q ::ₘ R) := by
  induction t with
  | nil =>
      intro D fuel h p R _ hfuel hrep hO _
      cases hrep
      cases fuel with
      | zero => omega
      | succ fuel =>
          rw [ofPtr_none,zero_add] at hO
          exact ⟨_,_,rfl,.node (Heap.alloc_self _) .nil .nil,hO.alloc rfl,.alloc _,.alloc _⟩
  | node l k z r ihl ihr =>
      intro D fuel h p R hx hfuel hrep hO hD
      cases fuel with
      | zero => omega
      | succ fuel =>
          have hsize : (Treap.node l k z r).size < fuel := by omega
          have hfs : (Treap.node l k z r).size+2 ≤ fuel := by omega
          rw [Treap.size] at hfuel
          have hfl : l.size+3 ≤ fuel := by omega
          have hfr : r.size+3 ≤ fuel := by omega
          have hxl : x ∉ l.keys := fun h => hx (List.mem_append_left _ h)
          have hxk : x ≠ k := fun h => hx (List.mem_append_right _ (h ▸ List.mem_cons_self))
          have hxr : x ∉ r.keys := fun h => hx (List.mem_append_right _ (List.mem_cons_of_mem _ h))
          obtain ⟨t,h1,q,n,rfl,hrun1,hc1,rfl,rfl,hl,hr,hfresh,hq,hy1⟩ := treeClone_spec hsize hrep hO hD
          have hD1 := open_subset hD q
          rw [treeInsert,hrun1,ok_bind]
          dsimp only
          rw [Heap.read_eq hc1,ok_bind]
          by_cases hy : y < n.body.y
          · rw [if_pos ((yCmp_neg _ _).mpr hy),if_neg (mt (hcmp x n.body.x).2.mp hxk),Treap.insert,
              if_pos hy]
            by_cases hlt : x < n.body.x
            · rw [if_pos ((hcmp x n.body.x).1.mpr hlt),if_pos hlt]
              obtain ⟨h2,s,hrun2,hs,hy2⟩ := ihl hxl hfl hl hy1.owned (subset_add hD1 _)
              obtain ⟨h3,hset,hy3,hrep3,-⟩ := rebuildLeft hy1 hc1 hfresh hq hr hy2 hD hs
              refine ⟨h3,q,?_,hrep3,hy3⟩
              simp only [hrun2,ok_bind,hset]
              rfl
            · rw [if_neg (mt (hcmp x n.body.x).1.mp hlt),if_neg hlt]
              have hO1 := hy1.owned
              rw [add_left_comm] at hO1
              obtain ⟨h2,s,hrun2,hs,hy2⟩ := ihr hxr hfr hr hO1 (subset_add hD1 _)
              rw [← Multiset.singleton_add,← ofPtr_some,add_left_comm] at hy2
              obtain ⟨h3,hset,hy3,hrep3,-⟩ := rebuildRight hy1 hc1 hfresh hq hl hy2 hD hs
              refine ⟨h3,q,?_,hrep3,hy3⟩
              simp only [hrun2,ok_bind,hset]
              rfl
          · rw [if_neg (mt (yCmp_neg _ _).mp hy),Treap.insert,if_neg hy]
            have hO1 : Owned links D h1 (q ::ₘ R) := by
              have hO1 := hy1.owned
              rw [← add_assoc] at hO1
              exact hO1.close hc1 hq hD
            have hrep1 : Rep h1 (some q) (.node l n.body.x n.body.y r) := .node hc1 hl hr
            have hclosed := hO1.size_closed
            -- the new root is open while the old tree is split
            have hO2 := (hO1.alloc (b := ⟨none,none,x,y⟩) rfl).open (Heap.alloc_self _) rfl hclosed
            have hy2 : Yields links (insert h1.size D) h (h1.alloc ⟨none,none,x,y⟩)
                (ofPtr (some q)+h1.size ::ₘ R) := by
              refine ⟨?_,hy1.keeps.trans (.alloc _),hy1.waits.trans (.alloc _)⟩
              rw [ofPtr_some,Multiset.singleton_add,Multiset.cons_swap]
              exact (zero_add (h1.size ::ₘ q ::ₘ R)) ▸ hO2
            have hD2 := open_subset hD h1.size
            have hrep2 := hrep1.root hy2.owned.toCounted hD2 (.alloc _)
            obtain ⟨h3,a,b,hrun3,ha,hb,hy3⟩ := treeSplit_spec hcmp x _ hfs hrep2 hy2.owned hD2
            obtain ⟨m,hc3,hbody⟩ := opened_body hy3 (Finset.mem_insert_self h1.size D) (Heap.alloc_self _)
            have hfresh2 : h.size ≤ h1.size := hy1.keeps.size
            obtain ⟨hy4,hrep4,-⟩ := closes
              (f := (fun m => {m with right := b}) ∘ fun m => {m with left := a}) (hy2.trans hy3) hfresh2
              hclosed hD hc3 (by rw [Function.comp_apply,hbody]) ha hb
            refine ⟨_,h1.size,?_,hrep4,hy4⟩
            simp only [treeAlloc,hrun3,ok_bind,setLeft_eq hc3,setRight_eq (Heap.write_self hc3),
              Heap.write_write]
            rfl

omit [LinearOrder K] in
theorem treeMerge_spec (s t : Treap K Priority) :
    ∀ {D : Finset ℕ} {fuel : ℕ} {h : Heap (TreeNode K)} {a b : Option ℕ} {R : Multiset ℕ},
    s.size+t.size+2 ≤ fuel → Rep h a s → Rep h b t → Owned links D h (ofPtr a+(ofPtr b+R)) →
    (∀ q ∈ D, q ∈ R) → ∃ h' c, treeMerge fuel h a b = .ok (h',c) ∧ Rep h' c (s.merge t) ∧
      Yields links D h h' (ofPtr c+R) := by
  induction s, t using Treap.merge.induct with
  | case1 t =>
      intro D fuel h a b R hfuel ha hb hO _
      cases ha
      cases fuel with
      | zero => omega
      | succ fuel =>
          rw [ofPtr_none,zero_add] at hO
          exact ⟨h,b,rfl,by rwa [Treap.merge],.refl hO⟩
  | case2 l x y r =>
      intro D fuel h a b R hfuel ha hb hO _
      cases hb
      obtain ⟨q,n,rfl,-⟩ := ha.inv
      cases fuel with
      | zero => omega
      | succ fuel =>
          rw [ofPtr_none,zero_add] at hO
          exact ⟨h,some q,rfl,by rwa [Treap.merge],.refl hO⟩
  | case3 l x y r l' x' y' r' hlt ih =>
      intro D fuel h a b R hfuel ha hb hO hD
      cases fuel with
      | zero => omega
      | succ fuel =>
          obtain ⟨s,m,rfl,hcs,-,rfl,-⟩ := ha.inv
          obtain ⟨t,n,rfl,hct,-,rfl,-⟩ := hb.inv
          have hsize : (Treap.node l x m.body.y r).size < fuel := by
            simp only [Treap.size] at hfuel ⊢
            omega
          have hfr : r.size+(Treap.node l' x' n.body.y r').size+2 ≤ fuel := by
            simp only [Treap.size] at hfuel ⊢
            omega
          obtain ⟨_,h1,q,k,hs,hrun1,hc1,rfl,hky,hl,hr,hfresh,hq,hy1⟩ :=
            treeClone_spec hsize ha hO (subset_add hD _)
          cases hs
          have hroots : ofPtr k.body.left+(ofPtr k.body.right+q ::ₘ (ofPtr (some t)+R)) =
              ofPtr k.body.right+(ofPtr (some t)+(ofPtr k.body.left+q ::ₘ R)) := by
            rw [← Multiset.add_cons]
            ac_rfl
          have hO1 := hy1.owned
          rw [hroots] at hO1
          have hD1 := subset_add (open_subset hD q) (ofPtr k.body.left)
          have hb1 : Rep h1 (some t) (.node l' x' n.body.y r') := by
            have hO1' := hO1
            rw [add_left_comm] at hO1'
            exact hb.root hO1'.toCounted (subset_add hD1 _) (hy1.keeps.mono (Finset.empty_subset _))
          obtain ⟨h2,c,hrun2,hc,hy2⟩ := ih hfr hr hb1 hO1 hD1
          rw [add_left_comm] at hy2
          obtain ⟨h3,hset,hy3,hrep3,-⟩ := rebuildRight hy1 hc1 hfresh hq hl hy2 hD hc
          rw [Treap.merge,if_pos hlt]
          refine ⟨h3,some q,?_,hky ▸ hrep3,hy3⟩
          simp only [treeMerge,Heap.read_eq hcs,Heap.read_eq hct,ok_bind,if_pos ((yCmp_pos _ _).mpr hlt),
            hrun1,Heap.read_eq hc1,hrun2,hset]
          rfl
  | case4 l x y r l' x' y' r' hlt ih =>
      intro D fuel h a b R hfuel ha hb hO hD
      cases fuel with
      | zero => omega
      | succ fuel =>
          obtain ⟨s,m,rfl,hcs,-,rfl,-⟩ := ha.inv
          obtain ⟨t,n,rfl,hct,-,rfl,-⟩ := hb.inv
          have hsize : (Treap.node l' x' n.body.y r').size < fuel := by
            simp only [Treap.size] at hfuel ⊢
            omega
          have hfl : (Treap.node l x m.body.y r).size+l'.size+2 ≤ fuel := by
            simp only [Treap.size] at hfuel ⊢
            omega
          rw [add_left_comm] at hO
          obtain ⟨_,h1,q,k,ht,hrun1,hc1,rfl,hky,hl,hr,hfresh,hq,hy1⟩ :=
            treeClone_spec hsize hb hO (subset_add hD _)
          cases ht
          have hroots : ofPtr k.body.left+(ofPtr k.body.right+q ::ₘ (ofPtr (some s)+R)) =
              ofPtr (some s)+(ofPtr k.body.left+(ofPtr k.body.right+q ::ₘ R)) := by
            rw [← Multiset.add_cons]
            ac_rfl
          have hO1 := hy1.owned
          rw [hroots] at hO1
          have hD1 := subset_add (open_subset hD q) (ofPtr k.body.right)
          have ha1 := ha.root hO1.toCounted (subset_add hD1 _) (hy1.keeps.mono (Finset.empty_subset _))
          obtain ⟨h2,c,hrun2,hc,hy2⟩ := ih hfl ha1 hl hO1 hD1
          obtain ⟨h3,hset,hy3,hrep3,-⟩ := rebuildLeft hy1 hc1 hfresh hq hr hy2 hD hc
          rw [Treap.merge,if_neg hlt]
          refine ⟨h3,some q,?_,hky ▸ hrep3,hy3⟩
          simp only [treeMerge,Heap.read_eq hcs,Heap.read_eq hct,ok_bind,
            if_neg (mt (yCmp_pos _ _).mp hlt),hrun1,Heap.read_eq hc1,hrun2,hset]
          rfl

theorem treeDelete_spec (hcmp : Compares xCmp) (x : K) (t : Treap K Priority) :
    ∀ {D : Finset ℕ} {fuel : ℕ} {h : Heap (TreeNode K)} {p : Option ℕ} {R : Multiset ℕ},
    t.Search → x ∈ t.keys → t.size+3 ≤ fuel → Rep h p t → Owned links D h (ofPtr p+R) →
    (∀ q ∈ D, q ∈ R) → ∃ h' c, treeDelete xCmp fuel h p x = .ok (h',c) ∧ Rep h' c (t.delete x) ∧
      Yields links D h h' (ofPtr c+R) := by
  induction t with
  | nil =>
      intro D fuel h p R _ hx
      exact (List.not_mem_nil hx).elim
  | node l k z r ihl ihr =>
      intro D fuel h p R hsearch hx hfuel hrep hO hD
      obtain ⟨hsl,hsr,hlk,hkr⟩ := Treap.search_node.mp hsearch
      cases fuel with
      | zero => omega
      | succ fuel =>
          have hsize : (Treap.node l k z r).size < fuel := by omega
          rw [Treap.size] at hfuel
          have hfl : l.size+3 ≤ fuel := by omega
          have hfr : r.size+3 ≤ fuel := by omega
          have hfm : l.size+r.size+2 ≤ fuel := by omega
          obtain ⟨t,h1,q,n,rfl,hrun1,hc1,rfl,rfl,hl,hr,hfresh,hq,hy1⟩ := treeClone_spec hsize hrep hO hD
          have hD1 := open_subset hD q
          rw [treeDelete,hrun1,ok_bind]
          dsimp only
          rw [Heap.read_eq hc1,ok_bind,Treap.delete]
          have hmem : x ∈ l.keys ∨ x = n.body.x ∨ x ∈ r.keys := by
            rcases List.mem_append.mp hx with hx | hx
            · exact .inl hx
            · exact .inr (List.mem_cons.mp hx)
          by_cases hxk : x = n.body.x
          · rw [if_pos ((hcmp x n.body.x).2.mpr hxk),if_pos hxk]
            obtain ⟨h2,c,hrun2,hc,hy2⟩ := treeMerge_spec l r hfm hl hr hy1.owned hD1
            obtain ⟨m,hc2,hbody⟩ := opened_body hy2 (Finset.mem_insert_self q D) hc1
            have hroots : ofPtr c+q ::ₘ R = ofPtr none+(ofPtr none+q ::ₘ (ofPtr c+R)) := by
              rw [ofPtr_none,zero_add,zero_add,Multiset.add_cons]
            rw [hroots] at hy2
            have hDc := subset_add hD (ofPtr c)
            obtain ⟨hy3,hrep3,hother⟩ := closes
              (f := (fun m => {m with right := none}) ∘ fun m => {m with left := none}) (hy1.trans hy2)
              hfresh hq hDc hc2 (by rw [Function.comp_apply,hbody]) .nil .nil
            have hfree : (Treap.node .nil n.body.x n.body.y .nil).size < fuel := by
              simp only [Treap.size]
              omega
            have hO3 := hy3.owned
            rw [← Multiset.singleton_add,← ofPtr_some] at hO3
            obtain ⟨h4,hrun4,hy4⟩ := treeFree_spec _ hfree hrep3 hO3 hDc
            have hc4 := (hother c _ R rfl hD hc).root hy4.owned.toCounted hD
              (hy4.keeps.mono (Finset.empty_subset _))
            refine ⟨h4,c,?_,hc4,hy3.trans hy4⟩
            simp only [hrun2,ok_bind,setLeft_eq hc2,setRight_eq (Heap.write_self hc2),Heap.write_write,hrun4]
            rfl
          · rw [if_neg (mt (hcmp x n.body.x).2.mp hxk),if_neg hxk]
            by_cases hlt : x < n.body.x
            · rw [if_pos ((hcmp x n.body.x).1.mpr hlt),if_pos hlt]
              have hxl : x ∈ l.keys := by
                rcases hmem with hxl | hxk' | hxr
                · exact hxl
                · exact (hxk hxk').elim
                · exact (lt_asymm hlt (hkr x hxr)).elim
              obtain ⟨h2,s,hrun2,hs,hy2⟩ := ihl hsl hxl hfl hl hy1.owned (subset_add hD1 _)
              obtain ⟨h3,hset,hy3,hrep3,-⟩ := rebuildLeft hy1 hc1 hfresh hq hr hy2 hD hs
              refine ⟨h3,some q,?_,hrep3,hy3⟩
              simp only [hrun2,ok_bind,hset]
              rfl
            · rw [if_neg (mt (hcmp x n.body.x).1.mp hlt),if_neg hlt]
              have hxr : x ∈ r.keys := by
                rcases hmem with hxl | hxk' | hxr
                · exact (hlt (hlk x hxl)).elim
                · exact (hxk hxk').elim
                · exact hxr
              have hO1 := hy1.owned
              rw [add_left_comm] at hO1
              obtain ⟨h2,s,hrun2,hs,hy2⟩ := ihr hsr hxr hfr hr hO1 (subset_add hD1 _)
              rw [add_left_comm] at hy2
              obtain ⟨h3,hset,hy3,hrep3,-⟩ := rebuildRight hy1 hc1 hfresh hq hl hy2 hD hs
              refine ⟨h3,some q,?_,hrep3,hy3⟩
              simp only [hrun2,ok_bind,hset]
              rfl

end Operations

section Runs
variable {K : Type} [LinearOrder K] {xCmp : K → K → ℤ} {fuel : ℕ}

/-- The pointers to roots are numbered; the first one is to the current tree, and a snapshot
is one more. -/
inductive Op (K : Type) where
  | insert (i : ℕ) (x : K) (y : Priority)
  | delete (i : ℕ) (x : K)
  | snapshot (i : ℕ)
  | release (i : ℕ)
  deriving DecidableEq, Repr

structure State (K : Type) where
  heap : Heap (TreeNode K)
  held : List (Option ℕ)

def State.start : State K := ⟨.empty,[none]⟩

/-- `__sync_fetch_and_add (&T->refcnt, 1)`, unless the tree is empty. -/
def incref (h : Heap (TreeNode K)) (p : Option ℕ) : Except Fault (Heap (TreeNode K)) :=
  match p with
  | none => .ok h
  | some t => do
      let _ ← h.read t
      return h.add t 1

def State.root (s : State K) (i : ℕ) : Except Fault (Option ℕ) := (s.held[i]?).elim (.error .null) .ok

def exec (xCmp : K → K → ℤ) (fuel : ℕ) (s : State K) : Op K → Except Fault (State K)
  | .insert i x y => do
      let p ← s.root i
      let (h,q) ← treeInsert xCmp fuel s.heap p x y
      return ⟨h,s.held.set i (some q)⟩
  | .delete i x => do
      let p ← s.root i
      let (h,q) ← treeDelete xCmp fuel s.heap p x
      return ⟨h,s.held.set i q⟩
  | .snapshot i => do
      let p ← s.root i
      let h ← incref s.heap p
      return ⟨h,s.held++[p]⟩
  | .release i => do
      let p ← s.root i
      let h ← treeFree fuel s.heap p
      return ⟨h,s.held.eraseIdx i⟩

def run (xCmp : K → K → ℤ) (fuel : ℕ) : State K → List (Op K) → Except Fault (State K)
  | s, [] => .ok s
  | s, op::ops => do
      let s ← exec xCmp fuel s op
      run xCmp fuel s ops

/-- The same on sets of keys: only absent keys are inserted, and only present ones deleted. -/
def specExec (sets : List (Finset K)) : Op K → Option (List (Finset K))
  | .insert i x _ => do
      let keys ← sets[i]?
      if x ∈ keys then none else some (sets.set i (insert x keys))
  | .delete i x => do
      let keys ← sets[i]?
      if x ∈ keys then some (sets.set i (keys.erase x)) else none
  | .snapshot i => do
      let keys ← sets[i]?
      return sets++[keys]
  | .release i => do
      let _ ← sets[i]?
      return sets.eraseIdx i

def specRun : List (Finset K) → List (Op K) → Option (List (Finset K))
  | sets, [] => some sets
  | sets, op::ops => do
      let sets ← specExec sets op
      specRun sets ops

/-- The pointer is to a search tree that is a heap and holds these keys. -/
def IsTreap (h : Heap (TreeNode K)) (p : Option ℕ) (keys : Finset K) : Prop :=
  ∃ t, Rep h p t ∧ t.Search ∧ t.Heaped ∧ t.keys.toFinset = keys

def roots (held : List (Option ℕ)) : Multiset ℕ := (held.map ofPtr).sum

structure Represents (s : State K) (sets : List (Finset K)) : Prop where
  length : s.held.length = sets.length
  trees : ∀ (i : ℕ) p keys, s.held[i]? = some p → sets[i]? = some keys → IsTreap s.heap p keys
  counts : Consistent links s.heap (roots s.held)

theorem roots_split {held : List (Option ℕ)} {i : ℕ} {p : Option ℕ} (hi : held[i]? = some p) :
    roots held = ofPtr p+roots (held.eraseIdx i) := by
  induction held generalizing i with
  | nil => cases hi
  | cons q held ih =>
      cases i with
      | zero =>
          cases hi
          exact List.sum_cons
      | succ i =>
          rw [List.eraseIdx_cons_succ]
          simp only [roots,List.map_cons,List.sum_cons] at ih ⊢
          rw [ih (by simpa using hi)]
          exact add_left_comm ..

theorem roots_set {held : List (Option ℕ)} {i : ℕ} {p : Option ℕ} (hi : held[i]? = some p) (q : Option ℕ) :
    roots (held.set i q) = ofPtr q+roots (held.eraseIdx i) := by
  have hlt : i < held.length := (List.getElem?_eq_some_iff.mp hi).1
  rw [roots_split (List.getElem?_set_self hlt),List.eraseIdx_set_eq]

theorem mem_roots {held : List (Option ℕ)} {q : ℕ} (hq : some q ∈ held) : q ∈ roots held := by
  obtain ⟨i,hi⟩ := List.mem_iff_getElem?.mp hq
  rw [roots_split hi]
  exact Multiset.mem_add.mpr (.inl (mem_ofPtr.mpr rfl))

/-- What is held goes on being what it was. -/
theorem IsTreap.keeps {h h' : Heap (TreeNode K)} {p : Option ℕ} {keys : Finset K} {R : Multiset ℕ}
    (ht : IsTreap h p keys) (hy : Yields links ∅ h h' R) (hp : ∀ q, p = some q → q ∈ R) :
    IsTreap h' p keys := by
  obtain ⟨t,hrep,hsearch⟩ := ht
  refine ⟨t,?_,hsearch⟩
  exact hrep.keeps hy.owned.toCounted hy.keeps
    fun q hq => ⟨hy.owned.live (hp q hq),Finset.notMem_empty q⟩

theorem Represents.of_set {s : State K} {sets : List (Finset K)} {h' : Heap (TreeNode K)} {i : ℕ}
    {p q : Option ℕ} {keys : Finset K} (hr : Represents s sets) (hi : s.held[i]? = some p)
    (hy : Yields links ∅ s.heap h' (ofPtr q+roots (s.held.eraseIdx i))) (ht : IsTreap h' q keys) :
    Represents ⟨h',s.held.set i q⟩ (sets.set i keys) := by
  have hlt : i < s.held.length := (List.getElem?_eq_some_iff.mp hi).1
  rw [← roots_set hi q] at hy
  refine ⟨by simp [hr.length],?_,?_⟩
  · intro j r keys' hj hkeys
    by_cases hij : i = j
    · subst hij
      rw [List.getElem?_set_self hlt] at hj
      rw [List.getElem?_set_self (hr.length ▸ hlt)] at hkeys
      cases hj
      cases hkeys
      exact ht
    · have hmem := List.mem_of_getElem? hj
      dsimp only at hj
      rw [List.getElem?_set_ne hij] at hj hkeys
      apply (hr.trees j r keys' hj hkeys).keeps hy
      rintro x rfl
      exact mem_roots hmem
  · exact consistent_iff.mpr ⟨hy.owned,(consistent_iff.mp hr.counts).2.of_sameWaiting hy.waits⟩

theorem size_eq_card {t : Treap K Priority} (ht : t.Search) : t.size = t.keys.toFinset.card := by
  rw [← Treap.length_keys,List.toFinset_card_of_nodup (List.Pairwise.imp (fun h => h.ne) ht)]

/-- The pointer with a number, what it is to, and who holds the other references. -/
theorem Represents.root {s : State K} {sets : List (Finset K)} {i : ℕ} {keys : Finset K}
    (hr : Represents s sets) (hkeys : sets[i]? = some keys) :
    ∃ p, s.held[i]? = some p ∧ s.root i = .ok p ∧ IsTreap s.heap p keys ∧
      Owned links ∅ s.heap (ofPtr p+roots (s.held.eraseIdx i)) := by
  have hlt : i < s.held.length := by
    rw [hr.length]
    exact (List.getElem?_eq_some_iff.mp hkeys).1
  have hi := List.getElem?_eq_getElem hlt
  refine ⟨_,hi,by rw [State.root,hi]; rfl,hr.trees i _ keys hi hkeys,?_⟩
  rw [← roots_split hi]
  exact (consistent_iff.mp hr.counts).1

omit [LinearOrder K] in
theorem incref_spec {h : Heap (TreeNode K)} {p : Option ℕ} {R : Multiset ℕ}
    (hO : Owned links ∅ h (ofPtr p+R)) :
    ∃ h', incref h p = .ok h' ∧ Yields links ∅ h h' (ofPtr p+(ofPtr p+R)) := by
  cases p with
  | none => exact ⟨h,rfl,.refl (by simpa using hO)⟩
  | some t =>
      rw [ofPtr_some,Multiset.singleton_add] at hO
      have hlive := hO.live (Multiset.mem_cons_self t R)
      obtain ⟨n,hc,href⟩ := Heap.exists_of_count hlive.ne'
      refine ⟨h.add t 1,by rw [incref,Heap.read_eq hc]; rfl,?_,.add 1,.add hc (by omega) (by omega)⟩
      exact hO.incref hc (by omega) (Finset.notMem_empty t)

theorem exec_spec (hcmp : Compares xCmp) {s : State K} {sets sets' : List (Finset K)} {op : Op K}
    (hr : Represents s sets) (hspec : specExec sets op = some sets')
    (hfuel : ∀ keys ∈ sets, keys.card+3 ≤ fuel) :
    ∃ s', exec xCmp fuel s op = .ok s' ∧ Represents s' sets' := by
  have hsettled := (consistent_iff.mp hr.counts).2
  have hD (R : Multiset ℕ) : ∀ q ∈ (∅ : Finset ℕ), q ∈ R := fun q hq => (Finset.notMem_empty q hq).elim
  cases op with
  | insert i x y =>
      obtain ⟨keys,hkeys,hif⟩ := Option.bind_eq_some_iff.mp hspec
      split at hif
      · cases hif
      · next hx =>
          cases hif
          obtain ⟨p,hi,hroot,⟨t,hrep,hsearch,hheap,hset⟩,hO⟩ := hr.root hkeys
          have hsize : t.size+3 ≤ fuel := by
            rw [size_eq_card hsearch,hset]
            exact hfuel keys (List.mem_of_getElem? hkeys)
          have hx' : x ∉ t.keys := by rwa [← List.mem_toFinset,hset]
          obtain ⟨h',q,hrun,hq,hy⟩ := treeInsert_spec hcmp x y t hx' hsize hrep hO (hD _)
          refine ⟨⟨h',s.held.set i (some q)⟩,by simp only [exec,hroot,ok_bind,hrun]; rfl,?_⟩
          refine hr.of_set hi hy ⟨_,hq,hsearch.insert hx' y,hheap.insert x y,?_⟩
          rw [List.toFinset_eq_of_perm _ _ (t.keys_insert x y),List.toFinset_cons,hset]
  | delete i x =>
      obtain ⟨keys,hkeys,hif⟩ := Option.bind_eq_some_iff.mp hspec
      split at hif
      · next hx =>
          cases hif
          obtain ⟨p,hi,hroot,⟨t,hrep,hsearch,hheap,hset⟩,hO⟩ := hr.root hkeys
          have hsize : t.size+3 ≤ fuel := by
            rw [size_eq_card hsearch,hset]
            exact hfuel keys (List.mem_of_getElem? hkeys)
          have hx' : x ∈ t.keys := by rwa [← List.mem_toFinset,hset]
          obtain ⟨h',q,hrun,hq,hy⟩ := treeDelete_spec hcmp x t hsearch hx' hsize hrep hO (hD _)
          refine ⟨⟨h',s.held.set i q⟩,by simp only [exec,hroot,ok_bind,hrun]; rfl,?_⟩
          refine hr.of_set hi hy ⟨_,hq,hsearch.delete x,hheap.delete x,?_⟩
          rw [Treap.keys_delete hsearch,List.toFinset_filter,hset]
          ext a
          simp [and_comm]
      · cases hif
  | snapshot i =>
      obtain ⟨keys,hkeys,hsets⟩ := Option.bind_eq_some_iff.mp hspec
      cases hsets
      obtain ⟨p,hi,hroot,ht,hO⟩ := hr.root hkeys
      obtain ⟨h',hrun,hy⟩ := incref_spec hO
      have hroots : roots (s.held++[p]) = ofPtr p+(ofPtr p+roots (s.held.eraseIdx i)) := by
        rw [← roots_split hi,roots,List.map_append,List.sum_append,add_comm]
        exact congrArg (·+roots s.held) (add_zero (ofPtr p))
      rw [← hroots] at hy
      refine ⟨⟨h',s.held++[p]⟩,by simp only [exec,hroot,ok_bind,hrun]; rfl,by simp [hr.length],?_,?_⟩
      · intro j r keys' hj hkeys'
        have hmem := List.mem_of_getElem? hj
        have htree : IsTreap s.heap r keys' := by
          by_cases hjs : j < s.held.length
          · dsimp only at hj
            rw [List.getElem?_append_left hjs] at hj
            rw [List.getElem?_append_left (hr.length ▸ hjs)] at hkeys'
            exact hr.trees j r keys' hj hkeys'
          · dsimp only at hj
            rw [List.getElem?_append_right (by omega)] at hj
            rw [List.getElem?_append_right (by rw [← hr.length]; omega),← hr.length] at hkeys'
            cases hsub : j-s.held.length with
            | zero =>
                rw [hsub] at hj hkeys'
                cases hj
                cases hkeys'
                exact ht
            | succ k =>
                rw [hsub] at hj
                cases hj
        apply htree.keeps hy
        rintro x rfl
        exact mem_roots hmem
      · exact consistent_iff.mpr ⟨hy.owned,hsettled.of_sameWaiting hy.waits⟩
  | release i =>
      obtain ⟨keys,hkeys,hsets⟩ := Option.bind_eq_some_iff.mp hspec
      cases hsets
      obtain ⟨p,hi,hroot,⟨t,hrep,hsearch,hheap,hset⟩,hO⟩ := hr.root hkeys
      have hsize : t.size < fuel := by
        have := hfuel keys (List.mem_of_getElem? hkeys)
        rw [size_eq_card hsearch,hset]
        omega
      obtain ⟨h',hrun,hy⟩ := treeFree_spec t hsize hrep hO (hD _)
      refine ⟨⟨h',s.held.eraseIdx i⟩,by simp only [exec,hroot,ok_bind,hrun]; rfl,?_,?_,?_⟩
      · simp only [List.length_eraseIdx,hr.length]
      · intro j r keys' hj hkeys'
        have hmem := List.mem_of_getElem? hj
        dsimp only at hj
        rw [List.getElem?_eraseIdx] at hj hkeys'
        have htree : IsTreap s.heap r keys' := by
          split at hj
          · next hji =>
              rw [if_pos hji] at hkeys'
              exact hr.trees j r keys' hj hkeys'
          · next hji =>
              rw [if_neg hji] at hkeys'
              exact hr.trees (j+1) r keys' hj hkeys'
        apply htree.keeps hy
        rintro x rfl
        exact mem_roots hmem
      · exact consistent_iff.mpr ⟨hy.owned,hsettled.of_sameWaiting hy.waits⟩

theorem card_specExec {sets sets' : List (Finset K)} {op : Op K} (hspec : specExec sets op = some sets')
    {n : ℕ} (hn : ∀ keys ∈ sets, keys.card ≤ n) : ∀ keys ∈ sets', keys.card ≤ n+1 := by
  intro keys' hmem
  cases op with
  | insert i x y =>
      obtain ⟨keys,hkeys,hif⟩ := Option.bind_eq_some_iff.mp hspec
      split at hif
      · cases hif
      · next hx =>
          cases hif
          have hcard := hn keys (List.mem_of_getElem? hkeys)
          rcases List.mem_or_eq_of_mem_set hmem with hold | rfl
          · exact (hn keys' hold).trans (Nat.le_succ n)
          · rw [Finset.card_insert_of_notMem hx]
            omega
  | delete i x =>
      obtain ⟨keys,hkeys,hif⟩ := Option.bind_eq_some_iff.mp hspec
      split at hif
      · cases hif
        have hcard := hn keys (List.mem_of_getElem? hkeys)
        rcases List.mem_or_eq_of_mem_set hmem with hold | rfl
        · exact (hn keys' hold).trans (Nat.le_succ n)
        · exact (Finset.card_erase_le.trans hcard).trans (Nat.le_succ n)
      · cases hif
  | snapshot i =>
      obtain ⟨keys,hkeys,hsets⟩ := Option.bind_eq_some_iff.mp hspec
      cases hsets
      rcases List.mem_append.mp hmem with hold | hnew
      · exact (hn keys' hold).trans (Nat.le_succ n)
      · rw [List.mem_singleton.mp hnew]
        exact (hn keys (List.mem_of_getElem? hkeys)).trans (Nat.le_succ n)
  | release i =>
      obtain ⟨keys,hkeys,hsets⟩ := Option.bind_eq_some_iff.mp hspec
      cases hsets
      exact (hn keys' (List.mem_of_mem_eraseIdx hmem)).trans (Nat.le_succ n)

theorem run_spec (hcmp : Compares xCmp) {s : State K} {sets sets' : List (Finset K)} {ops : List (Op K)}
    {n : ℕ} (hr : Represents s sets) (hspec : specRun sets ops = some sets')
    (hn : ∀ keys ∈ sets, keys.card ≤ n) (hfuel : n+ops.length+3 ≤ fuel) :
    ∃ s', run xCmp fuel s ops = .ok s' ∧ Represents s' sets' := by
  induction ops generalizing s sets n with
  | nil =>
      cases hspec
      exact ⟨s,rfl,hr⟩
  | cons op ops ih =>
      obtain ⟨mid,hmid,hrest⟩ := Option.bind_eq_some_iff.mp hspec
      rw [List.length_cons] at hfuel
      have hop : ∀ keys ∈ sets, keys.card+3 ≤ fuel := by
        intro keys hkeys
        have := hn keys hkeys
        omega
      obtain ⟨s1,hrun1,hr1⟩ := exec_spec hcmp hr hmid hop
      obtain ⟨s2,hrun2,hr2⟩ := ih hr1 hrest (card_specExec hmid hn) (by omega)
      exact ⟨s2,by rw [run,hrun1,ok_bind,hrun2],hr2⟩

theorem start_represents : Represents (State.start : State K) [∅] := by
  refine ⟨rfl,?_,?_,?_,?_⟩
  · intro i p keys hp hkeys
    cases i with
    | zero =>
        cases hp
        cases hkeys
        exact ⟨.nil,.nil,List.Pairwise.nil,trivial,rfl⟩
    | succ i => cases hp
  · intro p c hc
    cases hc
  · intro p hp
    exact (hp rfl).elim
  · intro p hp
    cases hp

/-- Every sequence of insertions, deletions, snapshots and releases is carried out; the tree
and the snapshots hold the keys they should, and the counts are the numbers of references.
When nothing is held any more, no node is left. -/
theorem persistent_set (hcmp : Compares xCmp) (ops : List (Op K)) {sets : List (Finset K)}
    (hspec : specRun [∅] ops = some sets) (hfuel : ops.length+3 ≤ fuel) :
    ∃ s, run xCmp fuel .start ops = .ok s ∧ Represents s sets ∧
      (s.held = [] → ∀ p, s.heap.cell p = none) := by
  have hzero : 0+ops.length+3 ≤ fuel := by omega
  obtain ⟨s,hrun,hr⟩ := run_spec hcmp start_represents hspec (by simp) hzero
  refine ⟨s,hrun,hr,?_⟩
  intro hheld p
  have hcounts := hr.counts
  rw [hheld] at hcounts
  exact hcounts.empty

/-- A snapshot is taken, the tree changes, and everything is released. -/
theorem persistent_set_released :
    ∃ s, run (fun a b : ℤ => a-b) 9 .start [.insert 0 5 7,.snapshot 0,.insert 0 3 9,.delete 0 5,.release 0,
      .release 0] = .ok s ∧ Represents s [] ∧ (s.held = [] → ∀ p, s.heap.cell p = none) := by
  refine persistent_set ?_ _ rfl (by decide)
  intro a b
  constructor
  · exact sub_neg
  · exact sub_eq_zero

end Runs

end Teleproxy.VvTree
