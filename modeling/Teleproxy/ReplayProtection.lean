import Mathlib.Data.List.Nodup
import Teleproxy.ClientRandoms

/-!
# Replay protection of the ClientHello gate

The two linked lists of the cache stand for one list of cells, oldest first.
`Represents` says so: the time list runs through the cells in order, and the
chain of a bucket through the cells of that bucket in the opposite order. The
operations of the cache are then a search, an append and a removal from the
front, no assertion fails and every loop ends.

A hello that has passed stays cached for two days. When its cell is gone, all
cells that remain are at least as young, so its timestamp is neither above the
oldest of them nor recent, and a second hello with that timestamp is refused.
-/
namespace Teleproxy.ReplayProtection
open SecretSlots ClientRandoms Linked

structure Cell where
  ptr : ℕ
  random : Key
  time : ℤ

def inBucket (b : ℕ) (x : Cell) : Bool := getClientRandomBucket x.random = b

/-- The cells of a bucket, youngest first. -/
def chain (b : ℕ) (cells : List Cell) : List Cell := (cells.filter (inBucket b)).reverse

def nextByTime (c : Cache) (i : ℕ) : Option (Option ℕ) := (c.heap i).map Entry.nextByTime
def nextByHash (c : Cache) (i : ℕ) : Option (Option ℕ) := (c.heap i).map Entry.nextByHash

/-- The cell is allocated and holds what it stands for. -/
def Holds (c : Cache) (x : Cell) : Prop :=
  ∃ e, c.heap x.ptr = some e ∧ e.random = x.random ∧ e.time = x.time

structure Represents (c : Cache) (cells : List Cell) : Prop where
  nodup : (cells.map Cell.ptr).Nodup
  fresh : ∀ x ∈ cells, x.ptr < c.fresh
  holds : ∀ x ∈ cells, Holds c x
  byTime : Follows (nextByTime c) c.firstClientRandom (cells.map Cell.ptr)
  last : c.lastClientRandom = (cells.map Cell.ptr).getLast?
  byHash : ∀ b, Follows (nextByHash c) (c.clientRandoms b) ((chain b cells).map Cell.ptr)

variable {c c' : Cache} {cells : List Cell} {x y : Cell} {b : ℕ} {now : ℤ} {random : Key}

theorem mem_chain : x ∈ chain b cells ↔ x ∈ cells ∧ getClientRandomBucket x.random = b := by
  simp [chain,inBucket]

theorem chain_concat (b : ℕ) (cells : List Cell) (x : Cell) :
    chain b (cells++[x]) =
      if getClientRandomBucket x.random = b then x::chain b cells else chain b cells := by
  unfold chain
  rw [List.filter_append,List.filter_singleton]
  split_ifs with h <;> simp [inBucket,h]

theorem chain_cons (b : ℕ) (x : Cell) (cells : List Cell) :
    chain b (x::cells) =
      if getClientRandomBucket x.random = b then chain b cells++[x] else chain b cells := by
  unfold chain
  rw [List.filter_cons]
  split_ifs with h₁ h₂ h₂ <;> simp_all [inBucket]

theorem haveFrom_eq {xs : List Cell} {p : Option ℕ} {fuel : ℕ}
    (h : Follows (nextByHash c) p (xs.map Cell.ptr)) (hx : ∀ x ∈ xs, Holds c x)
    (hf : xs.length ≤ fuel) :
    haveFrom c random fuel p = some (xs.any fun x => random = x.random) := by
  induction xs generalizing p fuel with
  | nil =>
      obtain rfl : p = none := h
      cases fuel <;> rfl
  | cons x xs ih =>
      obtain ⟨rfl,q,hq,hr⟩ := h
      obtain ⟨e,he,hrand,-⟩ := hx x (by simp)
      have hnext : e.nextByHash = q := by
        rw [nextByHash,he] at hq
        exact Option.some.inj hq
      cases fuel with
      | zero => simp at hf
      | succ fuel =>
          rw [haveFrom,he]
          dsimp only
          rw [hrand,hnext,ih hr (fun y hy => hx y (by simp [hy])) (by simpa using hf)]
          by_cases hr : random = x.random <;> simp [hr]

theorem Represents.length_le (h : Represents c cells) : cells.length ≤ c.fresh := by
  have hle := length_le_of_lt h.nodup (n := c.fresh) (by
    intro i hi
    obtain ⟨x,hx,rfl⟩ := List.mem_map.mp hi
    exact h.fresh x hx)
  simpa using hle

theorem chain_length_le (h : Represents c cells) (b : ℕ) : (chain b cells).length ≤ c.fresh := by
  have hle : (chain b cells).length ≤ cells.length := by
    rw [chain,List.length_reverse]
    exact List.length_filter_le _ _
  exact hle.trans h.length_le

theorem chain_nodup (h : Represents c cells) (b : ℕ) : ((chain b cells).map Cell.ptr).Nodup := by
  rw [chain,List.map_reverse,List.nodup_reverse]
  exact h.nodup.sublist (List.filter_sublist.map Cell.ptr)

/-- The search of one bucket finds the random bytes wherever they are cached. -/
theorem haveClientRandom_eq (h : Represents c cells) (random : Key) :
    haveClientRandom c random = some (cells.any fun x => random = x.random) := by
  rw [haveClientRandom,haveFrom_eq (h.byHash _)
    (fun x hx => h.holds x (mem_chain.mp hx).1) (chain_length_le h _)]
  congr 1
  rw [Bool.eq_iff_iff,List.any_eq_true,List.any_eq_true]
  constructor
  · rintro ⟨x,hx,hr⟩
    exact ⟨x,(mem_chain.mp hx).1,hr⟩
  · rintro ⟨x,hx,hr⟩
    exact ⟨x,mem_chain.mpr ⟨hx,by rw [of_decide_eq_true hr]⟩,hr⟩

/-- The cache after a new entry was linked into both lists. -/
def added (now : ℤ) (random : Key) (c : Cache) : Cache where
  heap k :=
    if k = c.fresh then
      some {random := random, time := now,
            nextByHash := c.clientRandoms (getClientRandomBucket random)}
    else if c.lastClientRandom = some k then
      (c.heap k).map fun e => {e with nextByTime := some c.fresh}
    else c.heap k
  fresh := c.fresh+1
  clientRandoms :=
    Function.update c.clientRandoms (getClientRandomBucket random) (some c.fresh)
  firstClientRandom := if c.lastClientRandom = none then some c.fresh else c.firstClientRandom
  lastClientRandom := some c.fresh

theorem Represents.first_eq_none (h : Represents c cells) (hl : c.lastClientRandom = none) :
    c.firstClientRandom = none := by
  have hnil : cells.map Cell.ptr = [] := List.getLast?_eq_none_iff.mp (h.last.symm.trans hl)
  have htime := h.byTime
  rw [hnil] at htime
  exact htime

theorem Represents.heap_last {j : ℕ} (h : Represents c cells) (hl : c.lastClientRandom = some j) :
    j < c.fresh ∧ ∃ e, c.heap j = some e := by
  have hmem : j ∈ cells.map Cell.ptr := List.mem_of_getLast? (h.last.symm.trans hl)
  obtain ⟨x,hx,rfl⟩ := List.mem_map.mp hmem
  obtain ⟨e,he,-⟩ := h.holds x hx
  exact ⟨h.fresh x hx,e,he⟩

theorem addClientRandom_eq (h : Represents c cells) (now : ℤ) (random : Key) :
    addClientRandom now random c = some (added now random c) := by
  unfold addClientRandom Cache.linkByTime
  cases hl : c.lastClientRandom with
  | none =>
      simp only [h.first_eq_none hl,if_true]
      simp only [Cache.write,Function.update_self,Option.map_some,Option.bind_eq_bind,
        Option.bind_some,pure,Function.update_idem]
      congr 1
      simp only [added,hl,Cache.mk.injEq,if_true,and_true]
      funext k
      by_cases hk : k = c.fresh <;> simp [hk]
  | some j =>
      obtain ⟨hlt,e,he⟩ := h.heap_last hl
      have hne : j ≠ c.fresh := Nat.ne_of_lt hlt
      simp only [Cache.write,Function.update_of_ne hne,he,Option.map_some,Option.bind_eq_bind,
        Option.bind_some,Function.update_of_ne hne.symm,Function.update_self,pure]
      congr 1
      simp only [added,hl,Cache.mk.injEq,and_true,true_and]
      refine ⟨?_,by simp⟩
      funext k
      by_cases hk : k = c.fresh
      · simp [hk]
      · by_cases hj : k = j
        · subst hj
          simp [hk,he]
        · have hj' : ¬ j = k := fun h => hj h.symm
          simp [hk,hj,hj']

section Added
variable {k : ℕ}

theorem added_heap_new (now : ℤ) (random : Key) (c : Cache) :
    (added now random c).heap c.fresh =
      some ⟨random,none,c.clientRandoms (getClientRandomBucket random),now⟩ := by simp [added]

theorem added_nextByHash (hk : k ≠ c.fresh) :
    nextByHash (added now random c) k = nextByHash c k := by
  unfold nextByHash added
  dsimp only
  rw [if_neg hk]
  split_ifs
  · rw [Option.map_map]
    rfl
  · rfl

theorem added_nextByTime (hk : k ≠ c.fresh) (hl : c.lastClientRandom ≠ some k) :
    nextByTime (added now random c) k = nextByTime c k := by
  unfold nextByTime added
  dsimp only
  rw [if_neg hk,if_neg hl]

theorem added_nextByTime_last (h : Represents c cells) (hl : c.lastClientRandom = some k) :
    nextByTime (added now random c) k = some (some c.fresh) := by
  obtain ⟨hlt,e,he⟩ := h.heap_last hl
  unfold nextByTime added
  dsimp only
  rw [if_neg (Nat.ne_of_lt hlt),if_pos hl,he]
  rfl

theorem Holds.added (hx : Holds c x) (hk : x.ptr ≠ c.fresh) : Holds (added now random c) x := by
  obtain ⟨e,he,hr,ht⟩ := hx
  unfold Holds ReplayProtection.added
  dsimp only
  rw [if_neg hk,he]
  split_ifs
  · exact ⟨_,rfl,hr,ht⟩
  · exact ⟨e,rfl,hr,ht⟩

end Added

theorem Represents.ptr_ne_fresh (h : Represents c cells) {k : ℕ} (hk : k ∈ cells.map Cell.ptr) :
    k ≠ c.fresh := by
  obtain ⟨x,hx,rfl⟩ := List.mem_map.mp hk
  exact Nat.ne_of_lt (h.fresh x hx)

theorem Represents.added_byTime (h : Represents c cells) (now : ℤ) (random : Key) :
    Follows (nextByTime (added now random c)) (added now random c).firstClientRandom
      (cells.map Cell.ptr++[c.fresh]) := by
  have hnew : nextByTime (added now random c) c.fresh = some none := by
    rw [nextByTime,added_heap_new]
    rfl
  rcases List.eq_nil_or_concat cells with rfl | ⟨init,z,rfl⟩
  · have hl : c.lastClientRandom = none := h.last
    exact ⟨by simp [added,hl],none,hnew,rfl⟩
  · have hl : c.lastClientRandom = some z.ptr := by simpa using h.last
    have hd := h.nodup
    rw [List.concat_eq_append,List.map_append,List.map_singleton] at hd ⊢
    have htime := h.byTime
    rw [List.concat_eq_append,List.map_append,List.map_singleton] at htime
    have hfirst : (added now random c).firstClientRandom = c.firstClientRandom := by
      simp [added,hl]
    rw [hfirst]
    refine htime.concat (fun k hk => ?_) (added_nextByTime_last h hl) hnew
    refine added_nextByTime (h.ptr_ne_fresh ?_) ?_
    · rw [List.concat_eq_append,List.map_append]
      exact List.mem_append_left _ hk
    · rw [hl]
      intro heq
      cases heq
      exact (List.nodup_append.mp hd).2.2 z.ptr hk z.ptr (by simp) rfl

theorem represents_added (h : Represents c cells) (now : ℤ) (random : Key) :
    Represents (added now random c) (cells++[⟨c.fresh,random,now⟩]) := by
  have hmap : (cells++[Cell.mk c.fresh random now]).map Cell.ptr = cells.map Cell.ptr++[c.fresh] := by
    simp
  refine ⟨?_,fun x hx => ?_,fun x hx => ?_,?_,?_,fun b => ?_⟩
  · rw [hmap]
    refine List.nodup_append.mpr ⟨h.nodup,by simp,fun k hk k' hk' => ?_⟩
    rw [List.mem_singleton.mp hk']
    exact h.ptr_ne_fresh hk
  · rcases List.mem_append.mp hx with hx | hx
    · exact Nat.lt_succ_of_lt (h.fresh x hx)
    · rw [List.mem_singleton.mp hx]
      exact Nat.lt_succ_self c.fresh
  · rcases List.mem_append.mp hx with hx | hx
    · exact (h.holds x hx).added (Nat.ne_of_lt (h.fresh x hx))
    · rw [List.mem_singleton.mp hx]
      exact ⟨_,added_heap_new now random c,rfl,rfl⟩
  · rw [hmap]
    exact h.added_byTime now random
  · rw [hmap]
    simp [added]
  · have hold : Follows (nextByHash (added now random c)) (c.clientRandoms b)
        ((chain b cells).map Cell.ptr) := by
      refine (h.byHash b).congr fun k hk => added_nextByHash ?_
      obtain ⟨x,hx,rfl⟩ := List.mem_map.mp hk
      exact Nat.ne_of_lt (h.fresh x (mem_chain.mp hx).1)
    rw [chain_concat]
    split_ifs with hb
    · refine ⟨by simp [added,hb],c.clientRandoms b,?_,hold⟩
      rw [nextByHash,added_heap_new]
      simp [← hb]
    · have hne : b ≠ getClientRandomBucket random := fun h => hb h.symm
      simpa [added,hne] using hold

/-- The link that the search for the cell behind `ks` stops at. -/
def linkBehind (cur : Link) : List ℕ → Link
  | [] => cur
  | k::ks => linkBehind (.nextByHash k) ks

theorem linkBehind_concat (cur : Link) (ks : List ℕ) (k : ℕ) :
    linkBehind cur (ks++[k]) = .nextByHash k := by
  induction ks generalizing cur with
  | nil => rfl
  | cons j ks ih => exact ih (.nextByHash j)

theorem findLink_eq {ks : List ℕ} {i : ℕ} {p : Option ℕ} (cur : Link) {fuel : ℕ}
    (h : Follows (nextByHash c) p (ks++[i])) (hp : c.readLink cur = some p) (hi : i ∉ ks)
    (hf : ks.length < fuel) : findLink c i fuel cur = some (linkBehind cur ks) := by
  induction ks generalizing p cur fuel with
  | nil =>
      obtain ⟨rfl,-⟩ := h
      cases fuel with
      | zero => cases hf
      | succ fuel => simp [findLink,hp,linkBehind]
  | cons k ks ih =>
      obtain ⟨rfl,q,hq,hr⟩ := h
      cases fuel with
      | zero => cases hf
      | succ fuel =>
          have hne : ¬ k = i := fun hk => hi (by simp [hk])
          rw [findLink,hp]
          dsimp only
          rw [if_neg hne]
          exact ih _ hr hq (fun hm => hi (by simp [hm])) (by simpa using hf)

/-- What has to be true of the cache once the first cell is gone. -/
theorem Represents.of_removed {rest : List Cell} (h : Represents c (x::y::rest))
    (hfresh : c'.fresh = c.fresh) (hfirst : c'.firstClientRandom = some y.ptr)
    (hlast : c'.lastClientRandom = c.lastClientRandom)
    (hholds : ∀ z ∈ y::rest, Holds c' z)
    (htime : ∀ k ∈ (y::rest).map Cell.ptr, nextByTime c' k = nextByTime c k)
    (hhash : ∀ b, Follows (nextByHash c') (c'.clientRandoms b)
      ((chain b (y::rest)).map Cell.ptr)) : Represents c' (y::rest) := by
  refine ⟨(List.nodup_cons.mp h.nodup).2,fun z hz => ?_,hholds,?_,?_,hhash⟩
  · rw [hfresh]
    exact h.fresh z (List.mem_cons_of_mem x hz)
  · obtain ⟨-,q,-,hr⟩ := h.byTime
    have hq : q = some y.ptr := hr.1
    rw [hfirst,← hq]
    exact Follows.congr hr htime
  · rw [hlast,h.last]
    rfl

/-- Distinct cells of a cache have distinct addresses. -/
theorem Represents.eq_of_ptr {z w : Cell} (h : Represents c cells) (hz : z ∈ cells)
    (hw : w ∈ cells) (hp : z.ptr = w.ptr) : z = w :=
  List.inj_on_of_nodup_map h.nodup hz hw hp

section Removed
variable {rest : List Cell} {e f : Entry} {z : Cell} {k : ℕ}

/-- The first cell was alone in its bucket. -/
theorem Represents.remove_alone (h : Represents c (x::y::rest))
    (ha : chain (getClientRandomBucket x.random) (y::rest) = []) :
    Represents {c with
      firstClientRandom := some y.ptr
      clientRandoms := Function.update c.clientRandoms (getClientRandomBucket x.random) none
      heap := Function.update c.heap x.ptr none} (y::rest) := by
  have hnotin : x.ptr ∉ (y::rest).map Cell.ptr := (List.nodup_cons.mp h.nodup).1
  have hheap : ∀ k ∈ (y::rest).map Cell.ptr,
      Function.update c.heap x.ptr none k = c.heap k := by
    intro k hk
    have hkx : k ≠ x.ptr := fun hx => hnotin (hx ▸ hk)
    exact Function.update_of_ne hkx _ _
  refine h.of_removed rfl rfl rfl (fun w hw => ?_) (fun k hk => ?_) (fun b => ?_)
  · obtain ⟨f,hf,hr,ht⟩ := h.holds w (List.mem_cons_of_mem x hw)
    exact ⟨f,(hheap w.ptr (List.mem_map_of_mem hw)).trans hf,hr,ht⟩
  · simp only [nextByTime,hheap k hk]
  · by_cases hb : b = getClientRandomBucket x.random
    · rw [hb,ha]
      exact Function.update_self ..
    · have hold := h.byHash b
      rw [chain_cons,if_neg (fun he => hb he.symm)] at hold
      dsimp only
      rw [Function.update_of_ne hb]
      refine hold.congr fun k hk => ?_
      have hmem : k ∈ (y::rest).map Cell.ptr := by
        obtain ⟨w,hw,rfl⟩ := List.mem_map.mp hk
        exact List.mem_map_of_mem (mem_chain.mp hw).1
      simp only [nextByHash,hheap k hmem]

/-- The first cell was behind `z` in its bucket. -/
theorem Represents.remove_behind {init : List Cell} (h : Represents c (x::y::rest))
    (hz : chain (getClientRandomBucket x.random) (y::rest) = init++[z])
    (hf : c.heap z.ptr = some f) :
    Represents {c with
      firstClientRandom := some y.ptr
      heap := Function.update (Function.update c.heap z.ptr (some {f with nextByHash := none}))
        x.ptr none} (y::rest) := by
  have hnotin : x.ptr ∉ (y::rest).map Cell.ptr := (List.nodup_cons.mp h.nodup).1
  have hzmem : z ∈ y::rest ∧ getClientRandomBucket z.random = getClientRandomBucket x.random :=
    mem_chain.mp (by rw [hz]; simp)
  have hheap : ∀ k ∈ (y::rest).map Cell.ptr,
      Function.update (Function.update c.heap z.ptr (some {f with nextByHash := none})) x.ptr none k =
        if k = z.ptr then some {f with nextByHash := none} else c.heap k := by
    intro k hk
    have hkx : k ≠ x.ptr := fun hx => hnotin (hx ▸ hk)
    rw [Function.update_of_ne hkx]
    by_cases hkz : k = z.ptr <;> simp [hkz]
  refine h.of_removed rfl rfl rfl (fun w hw => ?_) (fun k hk => ?_) (fun b => ?_)
  · obtain ⟨g,hg,hr,ht⟩ := h.holds w (List.mem_cons_of_mem x hw)
    unfold Holds
    dsimp only
    rw [hheap w.ptr (List.mem_map_of_mem hw)]
    split_ifs with hwz
    · rw [hwz,hf] at hg
      cases hg
      exact ⟨_,rfl,hr,ht⟩
    · exact ⟨g,hg,hr,ht⟩
  · simp only [nextByTime,hheap k hk]
    split_ifs with hkz
    · rw [hkz,hf]
      rfl
    · rfl
  · have hnext : ∀ k ∈ (chain b (y::rest)).map Cell.ptr, k ≠ z.ptr →
        nextByHash {c with
          firstClientRandom := some y.ptr
          heap := Function.update (Function.update c.heap z.ptr (some {f with nextByHash := none}))
            x.ptr none} k = nextByHash c k := by
      intro k hk hkz
      have hmem : k ∈ (y::rest).map Cell.ptr := by
        obtain ⟨w,hw,rfl⟩ := List.mem_map.mp hk
        exact List.mem_map_of_mem (mem_chain.mp hw).1
      simp only [nextByHash,hheap k hmem,hkz,if_false]
    have hold := h.byHash b
    by_cases hb : b = getClientRandomBucket x.random
    · rw [chain_cons,if_pos hb.symm,hb,hz] at hold
      rw [hb,hz] at hnext ⊢
      simp only [List.map_append,List.map_singleton] at hold hnext ⊢
      have hd := chain_nodup h (getClientRandomBucket x.random)
      rw [chain_cons,if_pos rfl,hz] at hd
      simp only [List.map_append,List.map_singleton] at hd
      have hdz := (List.nodup_append.mp (List.nodup_append.mp hd).1).2.2
      refine hold.cut (fun k hk => hnext k (by simp [hk]) ?_) ?_
      · exact hdz k hk z.ptr (by simp)
      · simp only [nextByHash,hheap z.ptr (List.mem_map_of_mem hzmem.1),if_true]
        rfl
    · rw [chain_cons,if_neg (fun he => hb he.symm)] at hold
      refine hold.congr fun k hk => hnext k hk fun hkz => ?_
      obtain ⟨w,hw,rfl⟩ := List.mem_map.mp hk
      have hwz := h.eq_of_ptr (List.mem_cons_of_mem x (mem_chain.mp hw).1)
        (List.mem_cons_of_mem x hzmem.1) hkz
      exact hb ((mem_chain.mp hw).2.symm.trans (hwz ▸ hzmem.2))

/-- The round of the loop that removes the first of two or more cells. -/
theorem deleteEntry_represents (h : Represents c (x::y::rest)) (he : c.heap x.ptr = some e) :
    ∃ c', deleteEntry x.ptr e c = some c' ∧ Represents c' (y::rest) := by
  have hbucket : getClientRandomBucket e.random = getClientRandomBucket x.random := by
    obtain ⟨e',he',hr,-⟩ := h.holds x (by simp)
    rw [he] at he'
    cases he'
    rw [hr]
  have hfollow := h.byHash (getClientRandomBucket x.random)
  have hd := chain_nodup h (getClientRandomBucket x.random)
  have hlen := chain_length_le h (getClientRandomBucket x.random)
  rw [chain_cons,if_pos rfl] at hfollow hd hlen
  rw [List.map_append,List.map_singleton] at hfollow hd
  have hlastlink : e.nextByHash = none := by
    have hn := hfollow.next_last
    rw [nextByHash,he] at hn
    exact Option.some.inj hn
  have hnext : e.nextByTime = some y.ptr := by
    obtain ⟨-,q,hq,hr⟩ := h.byTime
    rw [nextByTime,he] at hq
    exact (Option.some.inj hq).trans hr.1
  have hlink := findLink_eq (c := {c with firstClientRandom := some y.ptr})
    (.bucket (getClientRandomBucket x.random)) hfollow rfl
    (fun hm => (List.nodup_append.mp hd).2.2 x.ptr hm x.ptr (by simp) rfl)
    (by rw [List.length_append] at hlen; rw [List.length_map]; exact hlen)
  unfold deleteEntry
  rw [if_neg (by simp [hlastlink]),hnext,hbucket]
  dsimp only
  rw [hlink]
  rcases List.eq_nil_or_concat (chain (getClientRandomBucket x.random) (y::rest)) with ha | ⟨init,z,hz⟩
  · rw [ha]
    exact ⟨_,rfl,h.remove_alone ha⟩
  · rw [List.concat_eq_append] at hz
    obtain ⟨f,hf,-⟩ := h.holds z (List.mem_cons_of_mem x (mem_chain.mp (by rw [hz]; simp)).1)
    rw [hz,List.map_append,List.map_singleton,linkBehind_concat]
    refine ⟨_,?_,h.remove_behind hz hf⟩
    simp only [Cache.clearLink,Cache.write,hf,Option.map_some,Option.bind_eq_bind,Option.bind_some]
    rfl

end Removed

/-- The loop on the list of cells: the youngest is never removed. -/
def expire (now : ℤ) : List Cell → List Cell
  | x::y::rest =>
      if x.time > now-maxClientRandomCacheTime then x::y::rest else expire now (y::rest)
  | cells => cells

theorem deleteOldFrom_represents (now : ℤ) {fuel : ℕ} (h : Represents c cells)
    (hf : cells.length ≤ fuel) :
    ∃ c', deleteOldFrom now fuel c = some c' ∧ Represents c' (expire now cells) := by
  induction cells generalizing c fuel with
  | nil =>
      have hends : c.firstClientRandom = c.lastClientRandom := h.byTime.trans h.last.symm
      rw [deleteOldFrom.eq_def,if_pos hends]
      exact ⟨c,rfl,h⟩
  | cons x cells ih =>
      cases cells with
      | nil =>
          have hends : c.firstClientRandom = c.lastClientRandom := h.byTime.1.trans h.last.symm
          rw [deleteOldFrom.eq_def,if_pos hends]
          exact ⟨c,rfl,h⟩
      | cons y rest =>
          have hends : c.firstClientRandom ≠ c.lastClientRandom := by
            rw [h.byTime.1,h.last]
            intro heq
            have hmem : x.ptr ∈ (y::rest).map Cell.ptr := List.mem_of_getLast? heq.symm
            exact (List.nodup_cons.mp h.nodup).1 hmem
          obtain ⟨e,he,-,ht⟩ := h.holds x (by simp)
          cases fuel with
          | zero => cases hf
          | succ fuel =>
              rw [deleteOldFrom.eq_def,if_neg hends,h.byTime.1]
              dsimp only
              rw [he,expire,← ht]
              dsimp only
              split_ifs with hyoung
              · exact ⟨c,rfl,h⟩
              · obtain ⟨c',hc',hrep⟩ := deleteEntry_represents h he
                rw [hc',Option.bind_some]
                exact ih hrep (by simpa using hf)

/-- The verdict on a hello once it is cached and the oldest cell is `x`. -/
def allows (a : Arrival) (x : Cell) : Bool :=
  a.timestamp.any fun timestamp =>
    timestamp ≤ a.now+3 && (timestamp > x.time+3 || timestamp > a.now-maxAllowedTimestampError)

theorem isAllowedTimestamp_eq {rest : List Cell} (h : Represents c (x::rest)) (now timestamp : ℤ) :
    isAllowedTimestamp now c timestamp =
      some (decide (timestamp ≤ now+3) &&
        (decide (timestamp > x.time+3) || decide (timestamp > now-maxAllowedTimestampError))) := by
  obtain ⟨e,he,-,ht⟩ := h.holds x (by simp)
  unfold isAllowedTimestamp
  rw [h.byTime.1]
  dsimp only
  rw [he,Option.map_some,ht]
  split_ifs with hfuture hfirst
  · simp [not_le.mpr hfuture]
  · simp [not_lt.mp hfuture,hfirst]
  · simp [not_lt.mp hfuture,hfirst]

theorem gate_known (h : Represents c cells) {a : Arrival}
    (hk : (cells.any fun x => a.random = x.random) = true) : gate a c = some (c,false) := by
  unfold gate
  rw [haveClientRandom_eq h,hk]
  rfl

theorem gate_new (h : Represents c cells) {a : Arrival} {rest : List Cell}
    (hk : (cells.any fun x => a.random = x.random) = false)
    (hx : expire a.now (cells++[⟨c.fresh,a.random,a.now⟩]) = x::rest) :
    ∃ c', gate a c = some (c',allows a x) ∧ Represents c' (x::rest) := by
  have hadd := represents_added h a.now a.random
  obtain ⟨c',hc',hrep⟩ := deleteOldFrom_represents a.now hadd hadd.length_le
  rw [hx] at hrep
  refine ⟨c',?_,hrep⟩
  unfold gate
  rw [haveClientRandom_eq h,hk]
  simp only [Option.bind_eq_bind,Option.bind_some,Bool.false_eq_true,if_false]
  rw [addClientRandom_eq h]
  simp only [Option.bind_some]
  rw [deleteOldClientRandoms,hc']
  simp only [Option.bind_some]
  unfold allows
  cases a.timestamp with
  | none => rfl
  | some timestamp =>
      simp only [Option.any_some]
      rw [isAllowedTimestamp_eq hrep]
      rfl

def Sorted (cells : List Cell) : Prop := cells.Pairwise fun x y => x.time ≤ y.time

/-- What is removed is two days old, and something always remains. -/
theorem expire_spec (now : ℤ) (cells : List Cell) (hne : cells ≠ []) :
    ∃ pre x rest, expire now cells = x::rest ∧ cells = pre++x::rest ∧
      ∀ y ∈ pre, y.time+maxClientRandomCacheTime ≤ now := by
  induction cells with
  | nil => exact (hne rfl).elim
  | cons x cells ih =>
      cases cells with
      | nil => exact ⟨[],x,[],rfl,rfl,by simp⟩
      | cons y rest =>
          rw [expire]
          split_ifs with hyoung
          · exact ⟨[],x,y::rest,rfl,rfl,by simp⟩
          · obtain ⟨pre,z,tail,hz,hcells,hold⟩ := ih (by simp)
            refine ⟨x::pre,z,tail,hz,by rw [hcells]; rfl,fun w hw => ?_⟩
            rcases List.mem_cons.mp hw with rfl | hw
            · omega
            · exact hold w hw

/-- The random bytes of an earlier hello are still cached, or the cache has
forgotten everything as old as that hello. -/
def Remembered (now : ℤ) (cells : List Cell) (p : Arrival) : Prop :=
  (∃ x ∈ cells, x.random = p.random ∧ p.now ≤ x.time) ∨
    p.now+maxClientRandomCacheTime ≤ now ∧ ∀ x ∈ cells, p.now ≤ x.time

theorem Remembered.add {p : Arrival} {now' : ℤ} (h : Remembered now cells p) (hle : now ≤ now')
    (hp : p.now ≤ x.time) : Remembered now' (cells++[x]) p := by
  rcases h with ⟨y,hy,hr,ht⟩ | ⟨hold,hall⟩
  · exact .inl ⟨y,List.mem_append_left _ hy,hr,ht⟩
  · refine .inr ⟨hold.trans hle,fun y hy => ?_⟩
    rcases List.mem_append.mp hy with hy | hy
    · exact hall y hy
    · rw [List.mem_singleton.mp hy]
      exact hp

theorem Remembered.expire {p : Arrival} {pre rest : List Cell} (h : Remembered now (pre++rest) p)
    (hs : Sorted (pre++rest)) (hold : ∀ y ∈ pre, y.time+maxClientRandomCacheTime ≤ now) :
    Remembered now rest p := by
  rcases h with ⟨x,hx,hr,ht⟩ | ⟨hnow,hall⟩
  · rcases List.mem_append.mp hx with hx | hx
    · -- the cell itself was removed, and whatever remains is younger
      refine .inr ⟨by have := hold x hx; omega,fun y hy => ?_⟩
      exact ht.trans ((List.pairwise_append.mp hs).2.2 x hx y hy)
    · exact .inl ⟨x,hx,hr,ht⟩
  · exact .inr ⟨hnow,fun y hy => hall y (List.mem_append_right _ hy)⟩

/-- The state between two arrivals; `passed` are the hellos that have passed. -/
structure Guarded (now : ℤ) (c : Cache) (cells : List Cell) (passed : List Arrival) : Prop where
  represents : Represents c cells
  sorted : Sorted cells
  past : ∀ x ∈ cells, x.time ≤ now
  passedBefore : ∀ p ∈ passed, p.now ≤ now
  notFuture : ∀ p ∈ passed, ∃ timestamp ≤ p.now+3, p.timestamp = some timestamp
  remembered : ∀ p ∈ passed, Remembered now cells p

/-- The same hello: equal random bytes that decode to the same timestamp. -/
def Replays (p a : Arrival) : Prop := p.random = a.random ∧ p.timestamp = a.timestamp

/-- A hello that was forgotten is refused by its timestamp. -/
theorem not_replays_of_allows {a p : Arrival} (hp : p.now+maxClientRandomCacheTime ≤ a.now)
    (hts : ∃ timestamp ≤ p.now+3, p.timestamp = some timestamp) (hx : p.now ≤ x.time)
    (ha : allows a x) : ¬ Replays p a := by
  rintro ⟨-,heq⟩
  obtain ⟨timestamp,hle,hsome⟩ := hts
  rw [allows,← heq,hsome] at ha
  simp only [Option.any_some,Bool.and_eq_true,Bool.or_eq_true,decide_eq_true_eq] at ha
  simp only [maxClientRandomCacheTime,maxAllowedTimestampError] at hp ha
  omega

theorem sorted_add (h : Sorted cells) (hp : ∀ y ∈ cells, y.time ≤ x.time) : Sorted (cells++[x]) :=
  List.pairwise_append.mpr ⟨h,List.pairwise_singleton _ _,fun y hy z hz => by
    rw [List.mem_singleton.mp hz]
    exact hp y hy⟩

theorem guarded_known {passed : List Arrival} {a : Arrival} (h : Guarded now c cells passed)
    (hle : now ≤ a.now) : Guarded a.now c cells passed := by
  refine ⟨h.represents,h.sorted,fun x hx => (h.past x hx).trans hle,
    fun p hp => (h.passedBefore p hp).trans hle,h.notFuture,fun p hp => ?_⟩
  rcases h.remembered p hp with hin | ⟨hold,hall⟩
  · exact .inl hin
  · exact .inr ⟨hold.trans hle,hall⟩

theorem guarded_new {passed : List Arrival} {a : Arrival} {pre rest : List Cell}
    (h : Guarded now c cells passed) (hle : now ≤ a.now)
    (hcells : cells++[⟨c.fresh,a.random,a.now⟩] = pre++x::rest)
    (hold : ∀ y ∈ pre, y.time+maxClientRandomCacheTime ≤ a.now)
    (hrep : Represents c' (x::rest)) :
    Guarded a.now c' (x::rest) (if allows a x then a::passed else passed) := by
  have hpast : ∀ y ∈ cells, y.time ≤ a.now := fun y hy => (h.past y hy).trans hle
  have hsorted : Sorted (pre++x::rest) := hcells ▸ sorted_add h.sorted hpast
  have hbefore : ∀ p ∈ passed, p.now ≤ a.now := fun p hp => (h.passedBefore p hp).trans hle
  have hremembered : ∀ p ∈ passed, Remembered a.now (x::rest) p := by
    intro p hp
    have hadd : Remembered a.now (cells++[⟨c.fresh,a.random,a.now⟩]) p :=
      (h.remembered p hp).add hle (hbefore p hp)
    rw [hcells] at hadd
    exact hadd.expire hsorted hold
  have hself : Remembered a.now (x::rest) a := by
    have hadd : Remembered a.now (cells++[⟨c.fresh,a.random,a.now⟩]) a :=
      .inl ⟨⟨c.fresh,a.random,a.now⟩,List.mem_append_right _ (by simp),rfl,le_refl _⟩
    rw [hcells] at hadd
    exact hadd.expire hsorted hold
  have hallows : allows a x → ∃ timestamp ≤ a.now+3, a.timestamp = some timestamp := by
    intro ha
    unfold allows at ha
    cases hts : a.timestamp with
    | none => rw [hts] at ha; cases ha
    | some timestamp =>
        rw [hts] at ha
        simp only [Option.any_some,Bool.and_eq_true,decide_eq_true_eq] at ha
        exact ⟨timestamp,ha.1,rfl⟩
  refine ⟨hrep,(List.pairwise_append.mp hsorted).2.1,fun y hy => ?_,?_,?_,?_⟩
  · have hmem : y ∈ cells++[⟨c.fresh,a.random,a.now⟩] := hcells ▸ List.mem_append_right pre hy
    rcases List.mem_append.mp hmem with hy | hy
    · exact hpast y hy
    · rw [List.mem_singleton.mp hy]
  all_goals
    intro p hp
    split_ifs at hp with ha
  · rcases List.mem_cons.mp hp with rfl | hp
    · exact le_refl _
    · exact hbefore p hp
  · exact hbefore p hp
  · rcases List.mem_cons.mp hp with rfl | hp
    · exact hallows ha
    · exact h.notFuture p hp
  · exact h.notFuture p hp
  · rcases List.mem_cons.mp hp with rfl | hp
    · exact hself
    · exact hremembered p hp
  · exact hremembered p hp

/-- One arrival: no assertion fails, the lists stay coherent, and a hello that
passes replays none of those that passed before. -/
theorem guarded_step {passed : List Arrival} (h : Guarded now c cells passed) (a : Arrival)
    (hle : now ≤ a.now) :
    ∃ c' v cells', gate a c = some (c',v) ∧
      Guarded a.now c' cells' (if v then a::passed else passed) ∧
      (v → ∀ p ∈ passed, ¬ Replays p a) := by
  cases hk : cells.any fun x => a.random = x.random with
  | true =>
      refine ⟨c,false,cells,gate_known h.represents hk,guarded_known h hle,fun hv => ?_⟩
      cases hv
  | false =>
      obtain ⟨pre,x,rest,hx,hcells,hold⟩ :=
        expire_spec a.now (cells++[⟨c.fresh,a.random,a.now⟩]) (by simp)
      obtain ⟨c',hgate,hrep⟩ := gate_new h.represents hk hx
      refine ⟨c',allows a x,x::rest,hgate,guarded_new h hle hcells hold hrep,fun hv p hp hre => ?_⟩
      rcases h.remembered p hp with ⟨y,hy,hr,-⟩ | ⟨hnow,hall⟩
      · rw [List.any_eq_false] at hk
        exact hk y hy (decide_eq_true (hre.1.symm.trans hr.symm))
      · have hmem : x ∈ cells++[⟨c.fresh,a.random,a.now⟩] := by
          rw [hcells]
          simp
        have hxt : p.now ≤ x.time := by
          rcases List.mem_append.mp hmem with hx | hx
          · exact hall x hx
          · rw [List.mem_singleton.mp hx]
            exact (h.passedBefore p hp).trans hle
        exact not_replays_of_allows (hnow.trans hle) (h.notFuture p hp) hxt hv hre

/-- A pair of verdicts of which the later one lets a replay through. -/
def LetsReplay (x y : Arrival × Bool) : Prop := x.2 = true ∧ y.2 = true ∧ Replays x.1 y.1

theorem guarded_run {passed : List Arrival} {as : List Arrival} (h : Guarded now c cells passed)
    (hclock : as.Pairwise fun a b => a.now ≤ b.now) (hle : ∀ a ∈ as, now ≤ a.now) :
    ∃ c' vs cells', runGate as c = some (c',vs) ∧ vs.length = as.length ∧
      Represents c' cells' ∧ Sorted cells' ∧
      (as.zip vs).Pairwise (fun x y => ¬ LetsReplay x y) ∧
      ∀ y ∈ as.zip vs, y.2 = true → ∀ p ∈ passed, ¬ Replays p y.1 := by
  induction as generalizing now c cells passed with
  | nil =>
      refine ⟨c,[],cells,rfl,rfl,h.represents,h.sorted,List.Pairwise.nil,fun y hy => ?_⟩
      cases hy
  | cons a as ih =>
      rw [List.pairwise_cons] at hclock
      obtain ⟨c₁,v,cells₁,hgate,hguard,hnew⟩ := guarded_step h a (hle a (by simp))
      obtain ⟨c₂,vs,cells₂,hrun,hlen,hrep,hsorted,hpair,hold⟩ := ih hguard hclock.2 hclock.1
      have hpassed : ∀ p ∈ passed, p ∈ if v then a::passed else passed := by
        intro p hp
        split_ifs
        · exact List.mem_cons_of_mem a hp
        · exact hp
      refine ⟨c₂,v::vs,cells₂,?_,by simp [hlen],hrep,hsorted,?_,?_⟩
      · rw [runGate,hgate]
        simp only [Option.bind_eq_bind,Option.bind_some]
        rw [hrun]
        rfl
      · rw [List.zip_cons_cons,List.pairwise_cons]
        refine ⟨fun y hy hlets => ?_,hpair⟩
        obtain ⟨hv,hy₂,hre⟩ := hlets
        exact hold y hy hy₂ a (by rw [if_pos hv]; simp) hre
      · intro y hy hy₂ p hp
        rw [List.zip_cons_cons] at hy
        rcases List.mem_cons.mp hy with rfl | hy
        · exact hnew hy₂ p hp
        · exact hold y hy hy₂ p (hpassed p hp)

theorem guarded_start (now : ℤ) : Guarded now {} [] [] := by
  refine ⟨⟨List.nodup_nil,?_,?_,rfl,rfl,fun b => rfl⟩,List.Pairwise.nil,?_,?_,?_,?_⟩ <;> simp

/-- Any number of ClientHellos at any non-decreasing times: every assertion
holds and every loop ends, the time list is sorted, the chain of each bucket is
the cells of the bucket with the oldest last, and of two hellos with the same
random bytes and the same timestamp at most one passes. -/
theorem replay_refused (as : List Arrival) (hclock : as.Pairwise fun a b => a.now ≤ b.now) :
    ∃ c vs cells, runGate as {} = some (c,vs) ∧ vs.length = as.length ∧
      Represents c cells ∧ Sorted cells ∧
      (as.zip vs).Pairwise fun x y => ¬ LetsReplay x y := by
  cases as with
  | nil => exact ⟨{},[],[],rfl,rfl,(guarded_start 0).represents,List.Pairwise.nil,List.Pairwise.nil⟩
  | cons a as =>
      have hle : ∀ b ∈ a::as, a.now ≤ b.now := by
        intro b hb
        rcases List.mem_cons.mp hb with rfl | hb
        · exact le_refl _
        · exact (List.pairwise_cons.mp hclock).1 b hb
      obtain ⟨c,vs,cells,hrun,hlen,hrep,hsorted,hpair,-⟩ :=
        guarded_run (guarded_start a.now) hclock hle
      exact ⟨c,vs,cells,hrun,hlen,hrep,hsorted,hpair⟩

/-- The same hello again after one second and after three days. -/
def replayed : List Arrival :=
  [⟨1000,zeroKey,some 999⟩,⟨1001,zeroKey,some 999⟩,⟨200000,Vector.replicate 16 1,none⟩,
    ⟨260200,zeroKey,some 999⟩]

theorem replay_refused_three_days :
    (runGate replayed {}).map Prod.snd = some [true,false,false,false] ∧
      ∃ c vs cells, runGate replayed {} = some (c,vs) ∧ vs.length = replayed.length ∧
        Represents c cells ∧ Sorted cells ∧
        (replayed.zip vs).Pairwise fun x y => ¬ LetsReplay x y :=
  ⟨by decide +kernel,replay_refused replayed (by decide)⟩

end Teleproxy.ReplayProtection
