import Mathlib.Data.List.Nodup
import Mathlib.Data.Set.Insert
import Mathlib.Logic.Function.Basic

/-!
# Circular doubly linked lists in a heap

Every cell has a link forward and a link back, which may be null. A ring is a
head and the cells that lead from it, one after the other, back to it; the
links back retrace the links forward. `Rings` describes a whole heap: which
cells are heads, which cells stand in whose ring, and that everything else is
linked to nothing. The operations are the usual ones: a head is opened as an
empty ring and closed again, a cell is put in front of the head, at the end of
its ring, and a cell is taken out by joining its neighbours.
-/
namespace Teleproxy.DoublyLinked
variable {P : Type*}

structure Links (P : Type*) where
  next : P → Option P
  prev : P → Option P

/-- `b` stands behind `a`. -/
def Links.Joined (k : Links P) (a b : P) : Prop := k.next a = some b ∧ k.prev b = some a

/-- `a` is joined to `b` through the cells of the list. -/
def Path (k : Links P) : P → List P → P → Prop
  | a, [], b => k.Joined a b
  | a, x::xs, b => k.Joined a x ∧ Path k x xs b

structure Ring (k : Links P) (h : P) (xs : List P) : Prop where
  path : Path k h xs h
  nodup : (h::xs).Nodup

variable {k k' : Links P} {a b c h x : P} {xs ys : List P}

theorem path_append (xs ys : List P) :
    Path k a (xs++x::ys) b ↔ Path k a xs x ∧ Path k x ys b := by
  induction xs generalizing a with
  | nil => rfl
  | cons y xs ih => simp only [List.cons_append,Path,ih,and_assoc]

/-- A path only depends on the links forward of what it leaves and the links back
of what it enters. -/
theorem Path.congr (hp : Path k a xs b) (hnext : ∀ c ∈ a::xs, k'.next c = k.next c)
    (hprev : ∀ c ∈ b::xs, k'.prev c = k.prev c) : Path k' a xs b := by
  induction xs generalizing a with
  | nil =>
      constructor
      · rw [hnext a (by simp)]
        exact hp.1
      · rw [hprev b (by simp)]
        exact hp.2
  | cons x xs ih =>
      constructor
      · constructor
        · rw [hnext a (by simp)]
          exact hp.1.1
        · rw [hprev x (by simp)]
          exact hp.1.2
      · apply ih hp.2
        · exact fun c hc => hnext c (List.mem_cons_of_mem _ hc)
        · intro c hc
          apply hprev c
          simp only [List.mem_cons] at hc ⊢
          tauto

/-- The same ring where no link of a cell of it has changed. -/
theorem Ring.congr (hr : Ring k h xs) (hnext : ∀ c ∈ h::xs, k'.next c = k.next c)
    (hprev : ∀ c ∈ h::xs, k'.prev c = k.prev c) : Ring k' h xs :=
  ⟨hr.path.congr hnext hprev,hr.nodup⟩

/-- What stands in front of the end of a path. -/
theorem Path.prev_mem (hp : Path k a xs b) : ∃ c ∈ a::xs, k.prev b = some c := by
  induction xs generalizing a with
  | nil => exact ⟨a,by simp,hp.2⟩
  | cons x xs ih =>
      obtain ⟨c,hc,he⟩ := ih hp.2
      exact ⟨c,List.mem_cons_of_mem _ hc,he⟩

theorem Path.next_mem (hp : Path k a xs b) : ∃ c ∈ b::xs, k.next a = some c := by
  cases xs with
  | nil => exact ⟨b,by simp,hp.1⟩
  | cons x xs => exact ⟨x,by simp,hp.1.1⟩

/-- A ring goes round: the head has both its links. -/
theorem Ring.next_head (hr : Ring k h xs) : k.next h = some (xs.headD h) := by
  cases xs with
  | nil => exact hr.path.1
  | cons x xs => exact hr.path.1.1

/-- The ring of a head with at most one cell behind it. -/
theorem Ring.short (hr : Ring k h xs) (hs : xs.length ≤ 1) :
    k.next h = some (xs.headD h) ∧ k.prev h = some (xs.headD h) := by
  refine ⟨hr.next_head,?_⟩
  match xs, hs with
  | [], _ => exact hr.path.2
  | [x], _ => exact hr.path.2.2

/-- A new last cell `x` between `last` and the end of the path. -/
theorem Path.extend {last : P} (hp : Path k a xs b) (hnd : (a::xs).Nodup)
    (hlast : k.prev b = some last) (hin : k'.Joined last x) (hout : k'.Joined x b)
    (hnext : ∀ c ∈ a::xs, c ≠ last → k'.next c = k.next c)
    (hprev : ∀ c ∈ xs, k'.prev c = k.prev c) : Path k' a (xs++[x]) b := by
  induction xs generalizing a with
  | nil =>
      have ha : a = last := Option.some.inj (hp.2.symm.trans hlast)
      rw [ha]
      exact ⟨hin,hout⟩
  | cons y ys ih =>
      obtain ⟨c,hc,he⟩ := hp.2.prev_mem
      have hcl : c = last := Option.some.inj (he.symm.trans hlast)
      have hne : a ≠ last := by
        rintro rfl
        rw [hcl] at hc
        exact (List.nodup_cons.mp hnd).1 hc
      constructor
      · constructor
        · rw [hnext a (by simp) hne]
          exact hp.1.1
        · rw [hprev y (by simp)]
          exact hp.1.2
      · apply ih hp.2 (List.nodup_cons.mp hnd).2
        · exact fun c hc => hnext c (List.mem_cons_of_mem _ hc)
        · exact fun c hc => hprev c (List.mem_cons_of_mem _ hc)

/-- The cell `x` is left out and its neighbours `p` and `n` are joined. -/
theorem Path.skip {n p : P} (hp : Path k a (xs++x::ys) b) (hnd : (a::(xs++x::ys)).Nodup)
    (hb : b ∉ xs++x::ys) (hn : k.next x = some n) (hpr : k.prev x = some p)
    (hjoin : k'.Joined p n)
    (hnext : ∀ c ∈ a::(xs++ys), c ≠ p → k'.next c = k.next c)
    (hprev : ∀ c ∈ b::(xs++ys), c ≠ n → k'.prev c = k.prev c) : Path k' a (xs++ys) b := by
  induction xs generalizing a with
  | nil =>
      obtain ⟨hax,hrest⟩ := hp
      have ha : a = p := Option.some.inj (hax.2.symm.trans hpr)
      subst ha
      cases ys with
      | nil =>
          have hnb : b = n := Option.some.inj (hrest.1.symm.trans hn)
          rw [hnb]
          exact hjoin
      | cons y ys =>
          have hny : y = n := Option.some.inj (hrest.1.1.symm.trans hn)
          subst hny
          refine ⟨hjoin,hrest.2.congr ?_ ?_⟩
          · intro c hc
            apply hnext c (List.mem_cons_of_mem _ hc)
            rintro rfl
            exact (List.nodup_cons.mp hnd).1 (List.mem_cons_of_mem _ hc)
          · intro c hc
            apply hprev c
            · simp only [List.nil_append,List.mem_cons] at hc ⊢
              tauto
            · rintro rfl
              rcases List.mem_cons.mp hc with rfl | hmem
              · exact hb (by simp)
              · simp only [List.nil_append,List.nodup_cons] at hnd
                exact hnd.2.2.1 hmem
  | cons y xs ih =>
      obtain ⟨hay,hrest⟩ := hp
      obtain ⟨hyx,hxb⟩ := (path_append xs ys).mp hrest
      have hap : a ≠ p := by
        rintro rfl
        obtain ⟨c,hc,he⟩ := hyx.prev_mem
        rw [Option.some.inj (he.symm.trans hpr)] at hc
        apply (List.nodup_cons.mp hnd).1
        simp only [List.cons_append,List.mem_cons,List.mem_append] at hc ⊢
        tauto
      have hyn : y ≠ n := by
        rintro rfl
        obtain ⟨c,hc,he⟩ := hxb.next_mem
        rw [Option.some.inj (he.symm.trans hn)] at hc
        rcases List.mem_cons.mp hc with rfl | hmem
        · exact hb (by simp)
        · simp only [List.cons_append,List.nodup_cons] at hnd
          exact hnd.2.1 (by simp [hmem])
      constructor
      · constructor
        · rw [hnext a (by simp) hap]
          exact hay.1
        · rw [hprev y (by simp) hyn]
          exact hay.2
      · apply ih hrest (List.nodup_cons.mp hnd).2
        · exact fun hmem => hb (List.mem_cons_of_mem _ hmem)
        · exact fun c hc => hnext c (List.mem_cons_of_mem _ hc)
        · intro c hc
          apply hprev c
          simp only [List.cons_append,List.mem_cons] at hc ⊢
          tauto

structure Rings (k : Links P) (heads : Set P) (cells : P → List P) : Prop where
  ring : ∀ h ∈ heads, Ring k h (cells h)
  /-- No head is a cell of a ring. -/
  head : ∀ h ∈ heads, ∀ g, h ∉ cells g
  owner : ∀ g h c, c ∈ cells g → c ∈ cells h → g = h
  closed : ∀ h ∉ heads, cells h = []
  null : ∀ c ∉ heads, (∀ h, c ∉ cells h) → k.next c = none ∧ k.prev c = none

namespace Rings
variable {heads : Set P} {cells : P → List P} {g : P}

theorem mem_heads (hr : Rings k heads cells) (hc : c ∈ cells h) : h ∈ heads := by
  by_contra hn
  rw [hr.closed h hn] at hc
  exact List.not_mem_nil hc

/-- A cell of no ring is a head exactly when it has links. -/
theorem mem_heads_iff (hr : Rings k heads cells) (hc : ∀ g, c ∉ cells g) :
    c ∈ heads ↔ k.next c ≠ none := by
  constructor
  · intro hm
    rw [(hr.ring c hm).next_head]
    exact Option.some_ne_none _
  · intro hn
    by_contra hm
    exact hn (hr.null c hm hc).1

/-- What stands in one ring, its head included, does not stand in another. -/
theorem apart (hr : Rings k heads cells) (hh : h ∈ heads) (hg : g ∈ heads) (hne : g ≠ h)
    (hc : c ∈ h::cells h) : c ∉ g::cells g := by
  intro hcg
  rcases List.mem_cons.mp hc with rfl | hch
  · rcases List.mem_cons.mp hcg with rfl | hmem
    · exact hne rfl
    · exact hr.head c hh g hmem
  · rcases List.mem_cons.mp hcg with rfl | hmem
    · exact hr.head c hg h hch
    · exact hne (hr.owner g h c hmem hch)

/-- A cell has both links. -/
theorem linked (hr : Rings k heads cells) (hc : c ∈ cells h) :
    ∃ n ∈ h::cells h, ∃ p ∈ h::cells h, k.next c = some n ∧ k.prev c = some p := by
  obtain ⟨xs,ys,he⟩ := List.append_of_mem hc
  have hpath := (hr.ring h (hr.mem_heads hc)).path
  rw [he] at hpath ⊢
  obtain ⟨hin,hout⟩ := (path_append xs ys).mp hpath
  obtain ⟨n,hn,hne⟩ := hout.next_mem
  obtain ⟨p,hp,hpe⟩ := hin.prev_mem
  refine ⟨n,?_,p,?_,hne,hpe⟩
  · simp only [List.mem_cons,List.mem_append] at hn ⊢
    tauto
  · simp only [List.mem_cons,List.mem_append] at hp ⊢
    tauto

end Rings

variable [DecidableEq P]

def Links.set (k : Links P) (c : P) (n p : Option P) : Links P :=
  ⟨Function.update k.next c n,Function.update k.prev c p⟩

/-- A head that leads to itself. -/
def Links.openHead (k : Links P) (h : P) : Links P := k.set h (some h) (some h)

/-- The cell `x` is put in front of the head, behind the cell that was last. -/
def Links.pushBack (k : Links P) (h x : P) : Option (Links P) :=
  (k.prev h).map fun last =>
    let next := Function.update (Function.update k.next x (some h)) last (some x)
    let prev := Function.update (Function.update k.prev x (some last)) h (some x)
    ⟨next,prev⟩

/-- The links after a cell `x` between `p` and `n` was taken out. -/
def Links.without (k : Links P) (x p n : P) : Links P :=
  Links.set ⟨Function.update k.next p (some n),Function.update k.prev n (some p)⟩ x none none

/-- The neighbours of `x` are joined and its own links cleared; a cell without links
is left alone, and a cell with only one of them is an error. -/
def Links.unlink (k : Links P) (x : P) : Option (Links P) :=
  match k.next x with
  | none => some k
  | some n => (k.prev x).map fun p => k.without x p n

theorem Ring.unlinked {n p : P} (hr : Ring k h xs) (hx : x ∈ xs) (hn : k.next x = some n)
    (hp : k.prev x = some p) : Ring (k.without x p n) h (xs.erase x) := by
  obtain ⟨as,bs,rfl⟩ := List.append_of_mem hx
  have hnodup := hr.nodup
  have hperm : (h::(as++x::bs)).Perm (x::h::(as++bs)) := by
    rw [← List.cons_append,← List.cons_append]
    exact List.perm_middle
  have hxnot : x ∉ h::(as++bs) := (List.nodup_cons.mp (hperm.nodup_iff.mp hnodup)).1
  have hxas : x ∉ as := fun hm => hxnot (by simp [hm])
  obtain ⟨hin,hout⟩ := (path_append as bs).mp hr.path
  have hpx : p ≠ x := by
    rintro rfl
    obtain ⟨c,hc,hce⟩ := hin.prev_mem
    rw [← Option.some.inj (hp.symm.trans hce)] at hc
    apply hxnot
    simp only [List.mem_cons,List.mem_append] at hc ⊢
    tauto
  have hnx : n ≠ x := by
    rintro rfl
    obtain ⟨c,hc,hce⟩ := hout.next_mem
    rw [← Option.some.inj (hn.symm.trans hce)] at hc
    apply hxnot
    simp only [List.mem_cons,List.mem_append] at hc ⊢
    tauto
  have hother : ∀ c ∈ h::(as++bs), c ≠ x := fun c hc he => hxnot (he ▸ hc)
  rw [List.erase_append_right _ hxas,List.erase_cons_head]
  constructor
  · apply hr.path.skip hnodup (List.nodup_cons.mp hnodup).1 hn hp
    · constructor
      · simp [Links.without,Links.set,hpx]
      · simp [Links.without,Links.set,hnx]
    · intro c hc hcp
      simp [Links.without,Links.set,hcp,hother c hc]
    · intro c hc hcn
      simp [Links.without,Links.set,hcn,hother c hc]
  · exact (List.nodup_cons.mp (hperm.nodup_iff.mp hnodup)).2

namespace Rings
variable {heads : Set P} {cells : P → List P} {g : P}

theorem openHead (hr : Rings k heads cells) (hh : h ∉ heads) (hc : ∀ g, h ∉ cells g) :
    Rings (k.openHead h) (insert h heads) cells := by
  have hother : ∀ c, c ≠ h → (k.openHead h).next c = k.next c ∧
      (k.openHead h).prev c = k.prev c := by
    intro c hne
    simp [Links.openHead,Links.set,hne]
  constructor
  · intro g hg
    rcases Set.mem_insert_iff.mp hg with rfl | hmem
    · rw [hr.closed g hh]
      refine ⟨⟨?_,?_⟩,by simp⟩
      · simp [Links.openHead,Links.set]
      · simp [Links.openHead,Links.set]
    · have hapart : ∀ c ∈ g::cells g, c ≠ h := by
        rintro c hcg rfl
        rcases List.mem_cons.mp hcg with rfl | hm
        · exact hh hmem
        · exact hc g hm
      apply (hr.ring g hmem).congr
      · exact fun c hcg => (hother c (hapart c hcg)).1
      · exact fun c hcg => (hother c (hapart c hcg)).2
  · intro g hg
    rcases Set.mem_insert_iff.mp hg with rfl | hmem
    · exact hc
    · exact hr.head g hmem
  · exact hr.owner
  · intro g hg
    exact hr.closed g fun hm => hg (Set.mem_insert_of_mem h hm)
  · intro c hch hcc
    have hne : c ≠ h := fun he => hch (by simp [he])
    rw [(hother c hne).1,(hother c hne).2]
    exact hr.null c (fun hm => hch (Set.mem_insert_of_mem h hm)) hcc

theorem closeHead (hr : Rings k heads cells) (hh : h ∈ heads) (he : cells h = []) :
    Rings (k.set h none none) (heads \ {h}) cells := by
  have hother : ∀ c, c ≠ h → (k.set h none none).next c = k.next c ∧
      (k.set h none none).prev c = k.prev c := by
    intro c hne
    simp [Links.set,hne]
  constructor
  · intro g hg
    have hapart : ∀ c ∈ g::cells g, c ≠ h := by
      rintro c hcg rfl
      rcases List.mem_cons.mp hcg with rfl | hm
      · exact hg.2 rfl
      · exact hr.head c hh g hm
    apply (hr.ring g hg.1).congr
    · exact fun c hcg => (hother c (hapart c hcg)).1
    · exact fun c hcg => (hother c (hapart c hcg)).2
  · exact fun g hg => hr.head g hg.1
  · exact hr.owner
  · intro g hg
    by_cases hgh : g = h
    · rw [hgh,he]
    · exact hr.closed g fun hm => hg ⟨hm,hgh⟩
  · intro c hch hcc
    by_cases hne : c = h
    · simp [Links.set,hne]
    · rw [(hother c hne).1,(hother c hne).2]
      exact hr.null c (fun hm => hch ⟨hm,hne⟩) hcc

/-- A cell of no ring becomes the last one of the ring of `h`. -/
theorem pushBack (hr : Rings k heads cells) (hh : h ∈ heads) (hx : x ∉ heads)
    (hxc : ∀ g, x ∉ cells g) :
    ∃ k', k.pushBack h x = some k' ∧
      Rings k' heads (Function.update cells h (cells h++[x])) := by
  have hring := hr.ring h hh
  obtain ⟨last,hlast,hle⟩ := hring.path.prev_mem
  have hxne : ∀ g ∈ heads, ∀ c ∈ g::cells g, c ≠ x := by
    rintro g hg c hc rfl
    rcases List.mem_cons.mp hc with rfl | hm
    · exact hx hg
    · exact hxc g hm
  have hxh := hxne h hh h (by simp)
  have hxl := hxne h hh last hlast
  refine ⟨_,by rw [Links.pushBack,hle]; rfl,?_⟩
  constructor
  · intro g hg
    by_cases hgh : g = h
    · subst hgh
      rw [Function.update_self]
      constructor
      · apply hring.path.extend hring.nodup hle
        · constructor
          · simp
          · simp [hxh.symm]
        · constructor
          · simp [hxl.symm]
          · simp
        · intro c hc hcl
          simp [hcl,hxne g hh c hc]
        · intro c hc
          have hcg : c ≠ g := fun he => (List.nodup_cons.mp hring.nodup).1 (he ▸ hc)
          simp [hcg,hxne g hh c (List.mem_cons_of_mem _ hc)]
      · rw [← List.cons_append]
        apply List.Nodup.append hring.nodup (by simp)
        intro c hc hcx
        exact hxne g hh c hc (List.mem_singleton.mp hcx)
    · rw [Function.update_of_ne hgh]
      have hapart : ∀ c ∈ g::cells g, c ≠ h ∧ c ≠ last ∧ c ≠ x := by
        intro c hc
        refine ⟨?_,?_,hxne g hg c hc⟩
        · rintro rfl
          exact hr.apart hh hg hgh (by simp) hc
        · rintro rfl
          exact hr.apart hh hg hgh hlast hc
      apply (hr.ring g hg).congr
      · intro c hc
        simp [hapart c hc]
      · intro c hc
        simp [hapart c hc]
  · intro g hg f hmem
    by_cases hfh : f = h
    · rw [hfh,Function.update_self,List.mem_append,List.mem_singleton] at hmem
      rcases hmem with hm | rfl
      · exact hr.head g hg h hm
      · exact hx hg
    · rw [Function.update_of_ne hfh] at hmem
      exact hr.head g hg f hmem
  · intro f g c hf hg
    have hback : ∀ f, c ∈ Function.update cells h (cells h++[x]) f →
        c ∈ cells f ∨ (c = x ∧ f = h) := by
      intro f hf
      by_cases hfh : f = h
      · rw [hfh,Function.update_self,List.mem_append,List.mem_singleton] at hf
        rw [hfh]
        tauto
      · rw [Function.update_of_ne hfh] at hf
        exact Or.inl hf
    rcases hback f hf with hcf | ⟨hcx,hfh⟩
    · rcases hback g hg with hcg | ⟨hcx,-⟩
      · exact hr.owner f g c hcf hcg
      · exact (hxc f (hcx ▸ hcf)).elim
    · rcases hback g hg with hcg | ⟨-,hgh⟩
      · exact (hxc g (hcx ▸ hcg)).elim
      · rw [hfh,hgh]
  · intro g hg
    have hgh : g ≠ h := fun he => hg (he ▸ hh)
    rw [Function.update_of_ne hgh]
    exact hr.closed g hg
  · intro c hch hcc
    have hcx : c ≠ x := by
      rintro rfl
      exact hcc h (by simp)
    have hold : ∀ g, c ∉ cells g := by
      intro g hm
      apply hcc g
      by_cases hgh : g = h
      · rw [hgh,Function.update_self]
        exact List.mem_append_left _ (hgh ▸ hm)
      · rw [Function.update_of_ne hgh]
        exact hm
    have hne : c ≠ h ∧ c ≠ last := by
      constructor
      · exact fun he => hch (he ▸ hh)
      · rintro rfl
        rcases List.mem_cons.mp hlast with rfl | hm
        · exact hch hh
        · exact hold h hm
    simpa [hne,hcx] using hr.null c hch hold

theorem unlink_unlinked (hr : Rings k heads cells) (hx : x ∉ heads) (hxc : ∀ g, x ∉ cells g) :
    k.unlink x = some k := by
  rw [Links.unlink,(hr.null x hx hxc).1]

/-- A cell is taken out of its ring. -/
theorem unlink (hr : Rings k heads cells) (hxc : x ∈ cells h) :
    ∃ k', k.unlink x = some k' ∧
      Rings k' heads (Function.update cells h ((cells h).erase x)) := by
  have hh := hr.mem_heads hxc
  have hring := hr.ring h hh
  have hnd := (List.nodup_cons.mp hring.nodup).2
  have hxheads : x ∉ heads := fun hm => hr.head x hm h hxc
  obtain ⟨n,hn,p,hp,hne,hpe⟩ := hr.linked hxc
  refine ⟨_,by rw [Links.unlink,hne,hpe]; rfl,?_⟩
  have herase : ∀ g c, c ∈ Function.update cells h ((cells h).erase x) g ↔
      c ∈ cells g ∧ c ≠ x := by
    intro g c
    by_cases hgh : g = h
    · rw [hgh,Function.update_self,hnd.mem_erase_iff]
      tauto
    · rw [Function.update_of_ne hgh]
      constructor
      · refine fun hm => ⟨hm,?_⟩
        rintro rfl
        exact hgh (hr.owner g h c hm hxc)
      · exact fun hm => hm.1
  constructor
  · intro g hg
    by_cases hgh : g = h
    · subst hgh
      rw [Function.update_self]
      exact hring.unlinked hxc hne hpe
    · rw [Function.update_of_ne hgh]
      have hapart : ∀ c ∈ g::cells g, c ≠ n ∧ c ≠ p ∧ c ≠ x := by
        intro c hc
        refine ⟨?_,?_,?_⟩
        · rintro rfl
          exact hr.apart hh hg hgh hn hc
        · rintro rfl
          exact hr.apart hh hg hgh hp hc
        · rintro rfl
          exact hr.apart hh hg hgh (List.mem_cons_of_mem _ hxc) hc
      apply (hr.ring g hg).congr
      · intro c hc
        simp [Links.without,Links.set,hapart c hc]
      · intro c hc
        simp [Links.without,Links.set,hapart c hc]
  · exact fun g hg f hmem => hr.head g hg f ((herase f g).mp hmem).1
  · exact fun f g c hf hg => hr.owner f g c ((herase f c).mp hf).1 ((herase g c).mp hg).1
  · intro g hg
    have hgh : g ≠ h := fun he => hg (he ▸ hh)
    rw [Function.update_of_ne hgh]
    exact hr.closed g hg
  · intro c hch hcc
    by_cases hcx : c = x
    · simp [Links.without,Links.set,hcx]
    · have hold : ∀ g, c ∉ cells g := fun g hm => hcc g ((herase g c).mpr ⟨hm,hcx⟩)
      have hne' : ∀ d ∈ h::cells h, c ≠ d := by
        rintro d hd rfl
        rcases List.mem_cons.mp hd with rfl | hm
        · exact hch hh
        · exact hold h hm
      simpa [Links.without,Links.set,hne' n hn,hne' p hp,hcx] using hr.null c hch hold

end Rings

end Teleproxy.DoublyLinked
