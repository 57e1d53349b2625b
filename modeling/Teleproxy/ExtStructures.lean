import Teleproxy.ExtConnections
import Mathlib.Data.Nat.Bitwise
import Mathlib.Tactic.Push

/-!
# The structures behind external connections

One map, from addresses to records, says which external connections are live.
Each structure is described relative to it: the chains of the hash table, the
places of `OutExtConnections` and the circular lists. Each description comes
with the effect of a record that is added, changed or taken out.
-/
namespace Teleproxy.ExtConnections
open DoublyLinked Linked

variable {t : Tables} {a b h : ℕ} {e : Ext} {info : ℕ → Option Ext}

@[simp] theorem ok_bind {α β : Type} (x : α) (f : α → Except Fault β) :
    (Except.ok x >>= f) = f x := rfl

@[simp] theorem deref_some {α : Type} (x : α) : deref (some x) = .ok x := rfl

theorem check_of {p : Prop} [Decidable p] (hp : p) : check p = .ok () := if_pos hp

theorem bind_eq_ok {α β : Type} {x : Except Fault α} {f : α → Except Fault β} {y : β} :
    (x >>= f) = .ok y ↔ ∃ z, x = .ok z ∧ f z = .ok y := by
  cases x with
  | error err => simp [bind,Except.bind]
  | ok z => simp

theorem check_bind_eq_ok {p : Prop} [Decidable p] {α : Type} {f : Unit → Except Fault α} {y : α} :
    (check p >>= f) = .ok y ↔ p ∧ f () = .ok y := by
  by_cases hp : p
  · rw [check_of hp,ok_bind]
    simp [hp]
  · simp [check,hp,bind,Except.bind]

theorem update_eq_some {c : ℕ} {f : Ext} :
    Function.update info a (some e) c = some f ↔ (c = a ∧ f = e) ∨ (c ≠ a ∧ info c = some f) := by
  by_cases hca : c = a
  · simp [hca,eq_comm]
  · simp [hca]

theorem update_none_eq_some {c : ℕ} {f : Ext} :
    Function.update info a none c = some f ↔ c ≠ a ∧ info c = some f := by
  by_cases hca : c = a
  · simp [hca]
  · simp [hca]

theorem or_mask (x : ℕ) :
    (x ||| (extConnTableSize-1)) = x/extConnTableSize*extConnTableSize+(extConnTableSize-1) := by
  have hlow : x%2^22 ||| (2^22-1) = 2^22-1 := by
    apply Nat.eq_of_testBit_eq
    intro n
    rw [Nat.testBit_lor,Nat.testBit_mod_two_pow,Nat.testBit_two_pow_sub_one]
    by_cases hn : n < 22
    · simp [hn]
    · simp [hn]
  have hsplit : x = 2^22*(x/2^22) ||| x%2^22 := by
    rw [← Nat.two_pow_add_eq_or_of_lt (Nat.mod_lt x (by decide))]
    exact (Nat.div_add_mod x (2^22)).symm
  have hsum := Nat.two_pow_add_eq_or_of_lt (i := 22) (b := 2^22-1) (by decide) (x/2^22)
  rw [extConnTableSize]
  calc x ||| (2^22-1) = (2^22*(x/2^22) ||| x%2^22) ||| (2^22-1) := by rw [← hsplit]
    _ = 2^22*(x/2^22) ||| (2^22-1) := by rw [Nat.lor_assoc,hlow]
    _ = x/2^22*2^22+(2^22-1) := by rw [← hsum,Nat.mul_comm]

/-- The identifier tells the place. -/
theorem nextConnId_mod (old : ℕ) (hh : h < extConnTableSize) :
    Tables.nextConnId old h%extConnTableSize = h := by
  rw [Tables.nextConnId,or_mask]
  simp only [extConnTableSize] at hh ⊢
  omega

/-- The identifier is the place under the next epoch, as long as epochs are small. -/
theorem nextConnId_eq {old : ℕ} (hh : h < extConnTableSize)
    (hold : old/extConnTableSize < 2^40) :
    Tables.nextConnId old h = (old/extConnTableSize+1)*extConnTableSize+h := by
  rw [Tables.nextConnId,or_mask]
  simp only [extConnTableSize] at hh hold ⊢
  omega

/-- The link of a record in its chain; a freed record has none to read. -/
def chainNext (info : ℕ → Option Ext) (hNext : ℕ → Option ℕ) (a : ℕ) : Option (Option ℕ) :=
  (info a).map fun _ => hNext a

/-- The chain behind each place of the hash table holds the records that belong there. -/
structure Chained (info : ℕ → Option Ext) (hNext hash : ℕ → Option ℕ) (bucket : ℕ → List ℕ) :
    Prop where
  follows : ∀ b, Follows (chainNext info hNext) (hash b) (bucket b)
  nodup : ∀ b, (bucket b).Nodup
  mem : ∀ b a, a ∈ bucket b ↔ ∃ e, info a = some e ∧ extConnHash e.inFd e.inConnId = b

section Chains
variable {hNext hash : ℕ → Option ℕ} {bucket : ℕ → List ℕ}

theorem Chained.not_mem (hc : Chained info hNext hash bucket) (ha : info a = none) (b : ℕ) :
    a ∉ bucket b := by
  intro hm
  obtain ⟨e,he,-⟩ := (hc.mem b a).mp hm
  rw [ha] at he
  exact Option.some_ne_none e he.symm

theorem Chained.insert (hc : Chained info hNext hash bucket) (ha : info a = none)
    (hb : extConnHash e.inFd e.inConnId = b) :
    Chained (Function.update info a (some e)) (Function.update hNext a (hash b))
      (Function.update hash b (some a)) (Function.update bucket b (a::bucket b)) := by
  have hold : ∀ c, c ≠ a →
      chainNext (Function.update info a (some e)) (Function.update hNext a (hash b)) c =
        chainNext info hNext c := by
    intro c hca
    simp [chainNext,hca]
  have hne : ∀ d c, c ∈ bucket d → c ≠ a := by
    rintro d c hm rfl
    exact hc.not_mem ha d hm
  constructor
  · intro d
    by_cases hd : d = b
    · subst hd
      simp only [Function.update_self]
      refine ⟨rfl,hash d,by simp [chainNext],?_⟩
      exact (hc.follows d).congr fun c hm => hold c (hne d c hm)
    · simp only [Function.update_of_ne hd]
      exact (hc.follows d).congr fun c hm => hold c (hne d c hm)
  · intro d
    by_cases hd : d = b
    · subst hd
      simp only [Function.update_self,List.nodup_cons]
      exact ⟨hc.not_mem ha d,hc.nodup d⟩
    · simp only [Function.update_of_ne hd]
      exact hc.nodup d
  · intro d c
    by_cases hca : c = a
    · subst hca
      by_cases hd : d = b
      · simp [hd,hb]
      · simp only [Function.update_of_ne hd,Function.update_self,Option.some.injEq,
          exists_eq_left',hb]
        constructor
        · exact fun hm => (hc.not_mem ha d hm).elim
        · exact fun he => (hd he.symm).elim
    · rw [Function.update_of_ne hca]
      by_cases hd : d = b
      · simp only [hd,Function.update_self,List.mem_cons,hca,false_or]
        exact hc.mem b c
      · rw [Function.update_of_ne hd]
        exact hc.mem d c

/-- A record that keeps its key keeps its place. -/
theorem Chained.change {e' : Ext} (hc : Chained info hNext hash bucket) (ha : info a = some e)
    (hfd : e'.inFd = e.inFd) (hid : e'.inConnId = e.inConnId) :
    Chained (Function.update info a (some e')) hNext hash bucket := by
  have hold : ∀ c, chainNext (Function.update info a (some e')) hNext c =
      chainNext info hNext c := by
    intro c
    by_cases hca : c = a
    · simp [chainNext,hca,ha]
    · simp [chainNext,hca]
  constructor
  · exact fun d => (hc.follows d).congr fun c _ => hold c
  · exact hc.nodup
  · intro d c
    rw [hc.mem d c]
    by_cases hca : c = a
    · subst hca
      simp [ha,hfd,hid]
    · rw [Function.update_of_ne hca]

/-- The link that leads to what stands behind the cells walked over. -/
def lastLink : Link → List ℕ → Link
  | l, [] => l
  | _, a::as => lastLink (.cell a) as

theorem lastLink_concat (l : Link) (as : List ℕ) (a : ℕ) : lastLink l (as++[a]) = .cell a := by
  induction as generalizing l with
  | nil => rfl
  | cons c as ih => exact ih (.cell c)

/-- The loop over a chain stops at the first record with the key, or at the end. -/
theorem walk_spec {inFd inConnId n : ℕ} {l : Link} {p : Option ℕ} {as : List ℕ}
    (hf : Follows (chainNext t.info t.hNext) p as) (hn : as.length ≤ n)
    (hpos : ∀ a e, t.info a = some e → e.outConnId ≠ 0) :
    (t.walk inFd inConnId n l p = .ok none ∧
      ∀ a ∈ as, ∀ e, t.info a = some e → ¬ (e.inFd = inFd ∧ e.inConnId = inConnId)) ∨
    ∃ xs a ys e, as = xs++a::ys ∧ t.info a = some e ∧ e.inFd = inFd ∧ e.inConnId = inConnId ∧
      t.walk inFd inConnId n l p = .ok (some (lastLink l xs,a)) := by
  induction as generalizing n l p with
  | nil =>
      left
      rw [show p = none from hf]
      cases n with
      | zero => exact ⟨rfl,by simp⟩
      | succ n => exact ⟨rfl,by simp⟩
  | cons a as ih =>
      obtain ⟨rfl,q,hq,hrest⟩ := hf
      cases n with
      | zero => simp at hn
      | succ n =>
          rcases he : t.info a with _ | e
          · simp [chainNext,he] at hq
          · have hqe : t.hNext a = q := by simpa [chainNext,he] using hq
            by_cases hkey : e.inFd = inFd ∧ e.inConnId = inConnId
            · right
              refine ⟨[],a,as,e,rfl,he,hkey.1,hkey.2,?_⟩
              simp [Tables.walk,he,hkey,check_of (hpos a e he),lastLink]
            · have hstep : t.walk inFd inConnId (n+1) l (some a) =
                  t.walk inFd inConnId n (.cell a) q := by
                simp [Tables.walk,he,hkey,hqe]
              rw [hstep]
              rcases ih hrest (Nat.le_of_succ_le_succ hn) with ⟨hw,hno⟩ | ⟨xs,c,ys,e',rfl,hrest'⟩
              · left
                refine ⟨hw,fun c hc e' he' => ?_⟩
                rcases List.mem_cons.mp hc with rfl | hm
                · rw [he] at he'
                  rw [← Option.some.inj he']
                  exact hkey
                · exact hno c hm e' he'
              · right
                exact ⟨a::xs,c,ys,e',rfl,hrest'⟩

theorem follows_erase {xs ys : List ℕ} (hf : Follows (chainNext t.info t.hNext) (t.hash b)
    (xs++a::ys)) (hnd : (xs++a::ys).Nodup) :
    Follows (chainNext (Function.update t.info a none)
      (Function.update (t.setLink (lastLink (.bucket b) xs) (t.hNext a)).hNext a none))
      ((t.setLink (lastLink (.bucket b) xs) (t.hNext a)).hash b) (xs++ys) := by
  rcases List.eq_nil_or_concat xs with rfl | ⟨zs,z,rfl⟩
  · obtain ⟨-,q,hq,hrest⟩ := hf
    have hqa : t.hNext a = q := by
      rcases he : t.info a with _ | e
      · simp [chainNext,he] at hq
      · simpa [chainNext,he] using hq
    have hhash : (t.setLink (lastLink (.bucket b) []) (t.hNext a)).hash b = q := by
      simp [lastLink,Tables.setLink,hqa]
    rw [hhash]
    apply hrest.congr
    intro c hc
    have hca : c ≠ a := by
      rintro rfl
      exact (List.nodup_cons.mp hnd).1 hc
    simp [chainNext,lastLink,Tables.setLink,hca]
  · rw [List.concat_eq_append] at hf hnd ⊢
    rw [lastLink_concat]
    have hperm : (zs++[z]++a::ys).Perm (a::z::(zs++ys)) := by
      have hfront : (zs++[z]++ys).Perm (z::(zs++ys)) := by
        rw [List.append_assoc]
        exact List.perm_middle
      exact List.perm_middle.trans (hfront.cons a)
    have hnd' := hperm.nodup_iff.mp hnd
    simp only [List.nodup_cons,List.mem_cons,not_or] at hnd'
    have hza : z ≠ a := fun he => hnd'.1.1 he.symm
    obtain ⟨q,hq⟩ := hf.readable (i := a) (by simp)
    obtain ⟨r,hr⟩ := hf.readable (i := z) (by simp)
    rw [List.append_assoc] at hf ⊢
    apply Follows.skip hf
    · intro c hc
      have hcz : c ≠ z := by
        rintro rfl
        exact hnd'.2.1 hc
      have hca : c ≠ a := by
        rintro rfl
        exact hnd'.1.2 hc
      simp [chainNext,Tables.setLink,hcz,hca]
    · simp only [chainNext,Option.map_eq_some_iff] at hq hr
      obtain ⟨ea,hea,-⟩ := hq
      obtain ⟨ez,hez,-⟩ := hr
      simp [chainNext,Tables.setLink,hza,hea,hez]

/-- The record that the link found by the loop leads to is taken out of its chain. -/
theorem Chained.erase {xs ys : List ℕ} (hc : Chained t.info t.hNext t.hash bucket)
    (hb : bucket b = xs++a::ys) :
    Chained (Function.update t.info a none)
      (Function.update (t.setLink (lastLink (.bucket b) xs) (t.hNext a)).hNext a none)
      (t.setLink (lastLink (.bucket b) xs) (t.hNext a)).hash
      (Function.update bucket b (xs++ys)) := by
  have hnd := hc.nodup b
  rw [hb] at hnd
  have hperm : (xs++a::ys).Perm (a::(xs++ys)) := List.perm_middle
  have hnd' := List.nodup_cons.mp (hperm.nodup_iff.mp hnd)
  have hab : a ∈ bucket b := by simp [hb]
  have hapart : ∀ d, d ≠ b → ∀ c ∈ bucket d, c ∉ bucket b := by
    intro d hd c hcd hcb
    obtain ⟨e,he,hed⟩ := (hc.mem d c).mp hcd
    obtain ⟨e',he',heb⟩ := (hc.mem b c).mp hcb
    rw [he] at he'
    rw [← Option.some.inj he'] at heb
    exact hd (hed.symm.trans heb)
  constructor
  · intro d
    by_cases hd : d = b
    · subst hd
      rw [Function.update_self]
      apply follows_erase _ hnd
      rw [← hb]
      exact hc.follows d
    · rw [Function.update_of_ne hd]
      rcases List.eq_nil_or_concat xs with rfl | ⟨zs,z,rfl⟩
      · have hhash : (t.setLink (lastLink (.bucket b) []) (t.hNext a)).hash d = t.hash d := by
          simp [lastLink,Tables.setLink,hd]
        rw [hhash]
        apply (hc.follows d).congr
        intro c hcd
        have hca : c ≠ a := fun he => hapart d hd c hcd (he ▸ hab)
        simp [chainNext,lastLink,Tables.setLink,hca]
      · rw [List.concat_eq_append] at hb ⊢
        rw [lastLink_concat]
        apply (hc.follows d).congr
        intro c hcd
        have hca : c ≠ a := fun he => hapart d hd c hcd (he ▸ hab)
        have hcz : c ≠ z := by
          rintro rfl
          exact hapart d hd c hcd (by simp [hb])
        simp [chainNext,Tables.setLink,hca,hcz]
  · intro d
    by_cases hd : d = b
    · rw [hd,Function.update_self]
      exact hnd'.2
    · rw [Function.update_of_ne hd]
      exact hc.nodup d
  · intro d c
    by_cases hca : c = a
    · subst hca
      simp only [Function.update_self,reduceCtorEq,false_and,exists_false,iff_false]
      by_cases hd : d = b
      · rw [hd,Function.update_self]
        exact hnd'.1
      · rw [Function.update_of_ne hd]
        exact fun hm => hapart d hd c hm hab
    · rw [Function.update_of_ne hca,← hc.mem d c]
      by_cases hd : d = b
      · rw [hd,Function.update_self,hb,hperm.mem_iff,List.mem_cons]
        tauto
      · rw [Function.update_of_ne hd]

end Chains

/-- Every record stands at the place its identifier says, and nothing else is there. -/
structure Placed (info : ℕ → Option Ext) (outRef : ℕ → Option ℕ) (outId : ℕ → ℕ) :
    Prop where
  ref : ∀ a e, info a = some e → outRef (e.outConnId%extConnTableSize) = some a ∧
    outId (e.outConnId%extConnTableSize) = e.outConnId
  live : ∀ h a, outRef h = some a → ∃ e, info a = some e ∧ e.outConnId%extConnTableSize = h
  pos : ∀ a e, info a = some e → e.outConnId ≠ 0

section Places
variable {outRef : ℕ → Option ℕ} {outId : ℕ → ℕ}

theorem Placed.insert (hp : Placed info outRef outId) (ha : info a = none)
    (hfree : outRef h = none) (hmod : e.outConnId%extConnTableSize = h) (hid : e.outConnId ≠ 0) :
    Placed (Function.update info a (some e)) (Function.update outRef h (some a))
      (Function.update outId h e.outConnId) := by
  constructor
  · intro c f hf
    by_cases hca : c = a
    · subst hca
      rw [Function.update_self] at hf
      rw [← Option.some.inj hf,hmod]
      simp
    · rw [Function.update_of_ne hca] at hf
      have hne : f.outConnId%extConnTableSize ≠ h := by
        intro he
        have href := (hp.ref c f hf).1
        rw [he,hfree] at href
        exact Option.some_ne_none c href.symm
      rw [Function.update_of_ne hne,Function.update_of_ne hne]
      exact hp.ref c f hf
  · intro d c hc
    by_cases hd : d = h
    · subst hd
      rw [Function.update_self] at hc
      rw [← Option.some.inj hc,Function.update_self]
      exact ⟨e,rfl,hmod⟩
    · rw [Function.update_of_ne hd] at hc
      obtain ⟨f,hf,hfd⟩ := hp.live d c hc
      have hca : c ≠ a := by
        rintro rfl
        rw [ha] at hf
        exact Option.some_ne_none f hf.symm
      exact ⟨f,by rw [Function.update_of_ne hca,hf],hfd⟩
  · intro c f hf
    by_cases hca : c = a
    · subst hca
      rw [Function.update_self] at hf
      rw [← Option.some.inj hf]
      exact hid
    · rw [Function.update_of_ne hca] at hf
      exact hp.pos c f hf

theorem Placed.change {e' : Ext} (hp : Placed info outRef outId) (ha : info a = some e)
    (hid : e'.outConnId = e.outConnId) :
    Placed (Function.update info a (some e')) outRef outId := by
  constructor
  · intro c f hf
    by_cases hca : c = a
    · subst hca
      rw [Function.update_self] at hf
      rw [← Option.some.inj hf,hid]
      exact hp.ref c e ha
    · rw [Function.update_of_ne hca] at hf
      exact hp.ref c f hf
  · intro d c hc
    obtain ⟨f,hf,hfd⟩ := hp.live d c hc
    by_cases hca : c = a
    · subst hca
      rw [ha] at hf
      rw [← Option.some.inj hf] at hfd
      exact ⟨e',by simp,by rw [hid,hfd]⟩
    · exact ⟨f,by rw [Function.update_of_ne hca,hf],hfd⟩
  · intro c f hf
    by_cases hca : c = a
    · subst hca
      rw [Function.update_self] at hf
      rw [← Option.some.inj hf,hid]
      exact hp.pos c e ha
    · rw [Function.update_of_ne hca] at hf
      exact hp.pos c f hf

theorem Placed.erase (hp : Placed info outRef outId) (ha : info a = some e) :
    Placed (Function.update info a none)
      (Function.update outRef (e.outConnId%extConnTableSize) none) outId := by
  have hback : ∀ c f, Function.update info a none c = some f → c ≠ a ∧ info c = some f := by
    intro c f hf
    by_cases hca : c = a
    · rw [hca,Function.update_self] at hf
      exact (Option.some_ne_none f hf.symm).elim
    · rw [Function.update_of_ne hca] at hf
      exact ⟨hca,hf⟩
  constructor
  · intro c f hf
    obtain ⟨hca,hf⟩ := hback c f hf
    have href := hp.ref c f hf
    have hne : f.outConnId%extConnTableSize ≠ e.outConnId%extConnTableSize := by
      intro he
      rw [he,(hp.ref a e ha).1] at href
      exact hca (Option.some.inj href.1).symm
    rw [Function.update_of_ne hne]
    exact href
  · intro d c hc
    by_cases hd : d = e.outConnId%extConnTableSize
    · rw [hd,Function.update_self] at hc
      exact (Option.some_ne_none c hc.symm).elim
    · rw [Function.update_of_ne hd] at hc
      obtain ⟨f,hf,hfd⟩ := hp.live d c hc
      have hca : c ≠ a := by
        rintro rfl
        rw [ha] at hf
        rw [← Option.some.inj hf] at hfd
        exact hd hfd.symm
      exact ⟨f,by rw [Function.update_of_ne hca,hf],hfd⟩
  · exact fun c f hf => hp.pos c f (hback c f hf).2

/-- A lookup by identifier finds exactly the live record that has it. -/
theorem findByOutConnId_spec (hp : Placed t.info t.outRef t.outId) (x : ℕ) :
    ∃ r, t.findByOutConnId x = .ok r ∧
      ∀ a, r = some a ↔ ∃ e, t.info a = some e ∧ e.outConnId = x := by
  rcases href : t.outRef (x%extConnTableSize) with _ | c
  · refine ⟨none,by simp [Tables.findByOutConnId,href],?_⟩
    intro a
    simp only [reduceCtorEq,false_iff]
    rintro ⟨e,he,rfl⟩
    rw [(hp.ref a e he).1] at href
    exact Option.some_ne_none a href
  · obtain ⟨e,he,hmod⟩ := hp.live _ c href
    have hid := (hp.ref c e he).2
    rw [hmod] at hid
    by_cases hx : e.outConnId = x
    · refine ⟨some c,?_,?_⟩
      · simp [Tables.findByOutConnId,href,hid,he,hx,check_of]
      · intro a
        rw [Option.some.injEq]
        constructor
        · rintro rfl
          exact ⟨e,he,hx⟩
        · rintro ⟨f,hf,rfl⟩
          rw [(hp.ref a f hf).1] at href
          exact (Option.some.inj href).symm
    · refine ⟨none,by simp [Tables.findByOutConnId,href,hid,hx],?_⟩
      intro a
      simp only [reduceCtorEq,false_iff]
      rintro ⟨f,hf,hfx⟩
      rw [← hfx,(hp.ref a f hf).1,Option.some.injEq] at href
      rw [href,he,Option.some.injEq] at hf
      rw [← hf] at hfx
      exact hx hfx

end Places

/-- The links form rings whose cells are records: `member a p` says that the record at
`a` is in the list with the head `p`. -/
structure Listing (k : Links Ptr) (member : ℕ → Ptr → Prop) (heads : Set Ptr)
    (cells : Ptr → List Ptr) : Prop where
  rings : Rings k heads cells
  heads : ∀ p ∈ heads, ∀ a, p ≠ .entry a
  cells : ∀ p c, c ∈ cells p ↔ ∃ a, c = .entry a ∧ member a p

def Listed (k : Links Ptr) (member : ℕ → Ptr → Prop) : Prop :=
  ∃ heads cells, Listing k member heads cells

section Lists
variable {k k' : Links Ptr} {member member' : ℕ → Ptr → Prop} {heads : Set Ptr}
  {cells : Ptr → List Ptr} {p : Ptr}

theorem set_null (hn : k.next p = none ∧ k.prev p = none) : k.set p none none = k := by
  have hnext : Function.update k.next p none = k.next := by
    rw [← hn.1]
    exact Function.update_eq_self p k.next
  have hprev : Function.update k.prev p none = k.prev := by
    rw [← hn.2]
    exact Function.update_eq_self p k.prev
  rw [Links.set,hnext,hprev]

theorem Listed.congr (hl : Listed k member) (hm : ∀ a p, member a p ↔ member' a p) :
    Listed k member' := by
  have he : member = member' := by
    funext a p
    exact propext (hm a p)
  rwa [he] at hl

theorem Listing.entry_not_head (hl : Listing k member heads cells) (a : ℕ) :
    .entry a ∉ heads := fun hm => hl.heads _ hm a rfl

theorem Listing.mem_heads_iff (hl : Listing k member heads cells) (hp : ∀ a, p ≠ .entry a) :
    p ∈ heads ↔ k.next p ≠ none := by
  apply hl.rings.mem_heads_iff
  intro g hc
  obtain ⟨a,ha,-⟩ := (hl.cells g p).mp hc
  exact hp a ha

theorem Listing.entry_mem (hl : Listing k member heads cells) :
    .entry a ∈ cells p ↔ member a p := by
  rw [hl.cells]
  constructor
  · rintro ⟨c,hc,hm⟩
    rw [Ptr.entry.injEq] at hc
    rwa [hc]
  · exact fun hm => ⟨a,rfl,hm⟩

/-- A record in no list has no links. -/
theorem Listed.null (hl : Listed k member) (ha : ∀ p, ¬ member a p) :
    k.next (.entry a) = none ∧ k.prev (.entry a) = none := by
  obtain ⟨heads,cells,hl⟩ := hl
  apply hl.rings.null _ (hl.entry_not_head a)
  exact fun g hc => ha g (hl.entry_mem.mp hc)

theorem Listed.linked (hl : Listed k member) (hm : member a p) :
    k.next (.entry a) ≠ none ∧ k.next p ≠ none := by
  obtain ⟨heads,cells,hl⟩ := hl
  have hc := hl.entry_mem.mpr hm
  obtain ⟨n,-,q,-,hn,-⟩ := hl.rings.linked hc
  constructor
  · rw [hn]
    exact Option.some_ne_none n
  · have hh := hl.rings.mem_heads hc
    exact (hl.mem_heads_iff (hl.heads p hh)).mp hh

theorem Listed.closed (hl : Listed k member) (hp : ∀ a, p ≠ .entry a) (hn : k.next p = none) :
    k.prev p = none := by
  obtain ⟨heads,cells,hl⟩ := hl
  refine (hl.rings.null p (fun hm => (hl.mem_heads_iff hp).mp hm hn) fun g hc => ?_).2
  obtain ⟨a,ha,-⟩ := (hl.cells g p).mp hc
  exact hp a ha

theorem Listed.opened (hl : Listed k member) (hp : ∀ a, p ≠ .entry a) (hn : k.prev p = none) :
    k.next p = none := by
  by_contra hne
  obtain ⟨heads,cells,hl⟩ := hl
  obtain ⟨c,-,hc⟩ := (hl.rings.ring p ((hl.mem_heads_iff hp).mpr hne)).path.prev_mem
  rw [hn] at hc
  exact Option.some_ne_none c hc.symm

/-- What the head of a list points to: itself, or the first record of the list. -/
theorem Listed.next_head {q : Ptr} (hl : Listed k member) (hp : ∀ a, p ≠ .entry a)
    (hq : k.next p = some q) :
    (q = p ∧ k.prev p = some p ∧ ∀ a, ¬ member a p) ∨ ∃ a, q = .entry a ∧ member a p := by
  obtain ⟨heads,cells,hl⟩ := hl
  have hh : p ∈ heads := by
    rw [hl.mem_heads_iff hp,hq]
    exact Option.some_ne_none q
  have hr := hl.rings.ring p hh
  have hnext := hr.next_head
  rw [hq,Option.some.injEq] at hnext
  rcases hc : cells p with _ | ⟨c,cs⟩
  · left
    have hshort := hr.short (by simp [hc])
    rw [hc] at hshort hnext
    refine ⟨hnext,hshort.2,fun a hm => ?_⟩
    have hmem := hl.entry_mem.mpr hm
    rw [hc] at hmem
    exact List.not_mem_nil hmem
  · right
    rw [hc,List.headD_cons] at hnext
    obtain ⟨a,ha,hm⟩ := (hl.cells p c).mp (by simp [hc])
    exact ⟨a,hnext.trans ha,hm⟩

/-- A list of one record. -/
theorem Listed.single (hl : Listed k member) (hm : member a p)
    (hone : ∀ c, member c p → c = a) :
    k.next p = some (.entry a) ∧ k.prev p = some (.entry a) := by
  obtain ⟨heads,cells,hl⟩ := hl
  have hc := hl.entry_mem.mpr hm
  have hr := hl.rings.ring p (hl.rings.mem_heads hc)
  have hcells : cells p = [.entry a] := by
    have hall : ∀ c ∈ cells p, c = .entry a := by
      intro c hcp
      obtain ⟨d,rfl,hd⟩ := (hl.cells p c).mp hcp
      rw [hone d hd]
    have hnd := (List.nodup_cons.mp hr.nodup).2
    rcases hp : cells p with _ | ⟨c,_ | ⟨d,ds⟩⟩
    · rw [hp] at hc
      exact (List.not_mem_nil hc).elim
    · rw [hall c (by simp [hp])]
    · rw [hp,hall c (by simp [hp]),hall d (by simp [hp])] at hnd
      simp at hnd
  have hshort := hr.short (by simp [hcells])
  rwa [hcells] at hshort

theorem Listed.openHead (hl : Listed k member) (hp : ∀ a, p ≠ .entry a)
    (hn : k.next p = none) : Listed (k.openHead p) member := by
  obtain ⟨heads,cells,hl⟩ := hl
  refine ⟨insert p heads,cells,?_,?_,hl.cells⟩
  · apply hl.rings.openHead
    · exact fun hm => (hl.mem_heads_iff hp).mp hm hn
    · intro g hc
      obtain ⟨a,ha,-⟩ := (hl.cells g p).mp hc
      exact hp a ha
  · intro q hq
    rcases Set.mem_insert_iff.mp hq with rfl | hq
    · exact hp
    · exact hl.heads q hq

theorem Listed.closeHead (hl : Listed k member) (hp : ∀ a, p ≠ .entry a)
    (hn : k.next p ≠ none) (hm : ∀ a, ¬ member a p) : Listed (k.set p none none) member := by
  obtain ⟨heads,cells,hl⟩ := hl
  refine ⟨heads \ {p},cells,?_,fun q hq => hl.heads q hq.1,hl.cells⟩
  apply hl.rings.closeHead ((hl.mem_heads_iff hp).mpr hn)
  apply List.eq_nil_iff_forall_not_mem.mpr
  intro c hc
  obtain ⟨a,-,ha⟩ := (hl.cells p c).mp hc
  exact hm a ha

/-- A record of no list is put at the end of one. -/
theorem Listed.pushBack (hl : Listed k member) (hp : ∀ a, p ≠ .entry a) (hn : k.next p ≠ none)
    (ha : ∀ q, ¬ member a q) :
    ∃ k', k.pushBack p (.entry a) = some k' ∧
      Listed k' (fun c q => member c q ∨ (c = a ∧ q = p)) ∧
      ∀ q, (∀ c, q ≠ .entry c) → (k'.next q = none ↔ k.next q = none) := by
  obtain ⟨heads,cells,hl⟩ := hl
  obtain ⟨k',hk,hr⟩ := hl.rings.pushBack ((hl.mem_heads_iff hp).mpr hn) (hl.entry_not_head a)
    fun q hc => ha q (hl.entry_mem.mp hc)
  have hl' : Listing k' (fun c q => member c q ∨ (c = a ∧ q = p)) heads
      (Function.update cells p (cells p++[.entry a])) := by
    refine ⟨hr,hl.heads,fun q c => ?_⟩
    by_cases hq : q = p
    · subst hq
      rw [Function.update_self,List.mem_append,List.mem_singleton,hl.cells]
      constructor
      · rintro (⟨d,rfl,hd⟩ | rfl)
        · exact ⟨d,rfl,Or.inl hd⟩
        · exact ⟨a,rfl,Or.inr ⟨rfl,rfl⟩⟩
      · rintro ⟨d,rfl,hd | ⟨rfl,-⟩⟩
        · exact Or.inl ⟨d,rfl,hd⟩
        · exact Or.inr rfl
    · rw [Function.update_of_ne hq,hl.cells]
      simp [hq]
  refine ⟨k',hk,⟨heads,_,hl'⟩,fun q hq => ?_⟩
  rw [← not_iff_not,← ne_eq,← ne_eq,← hl'.mem_heads_iff hq,← hl.mem_heads_iff hq]

/-- A record is taken out of its list, if it is in one. -/
theorem Listed.unlink (hl : Listed k member) (a : ℕ) :
    ∃ k', k.unlink (.entry a) = some k' ∧ Listed k' (fun c q => member c q ∧ c ≠ a) ∧
      ∀ q, (∀ c, q ≠ .entry c) → (k'.next q = none ↔ k.next q = none) := by
  obtain ⟨heads,cells,hl⟩ := hl
  by_cases hin : ∃ p, member a p
  · obtain ⟨p,hp⟩ := hin
    obtain ⟨k',hk,hr⟩ := hl.rings.unlink (hl.entry_mem.mpr hp)
    have hnd := (List.nodup_cons.mp
      (hl.rings.ring p (hl.rings.mem_heads (hl.entry_mem.mpr hp))).nodup).2
    have hl' : Listing k' (fun c q => member c q ∧ c ≠ a) heads
        (Function.update cells p ((cells p).erase (.entry a))) := by
      refine ⟨hr,hl.heads,fun q c => ?_⟩
      by_cases hq : q = p
      · subst hq
        rw [Function.update_self,hnd.mem_erase_iff,hl.cells]
        constructor
        · rintro ⟨hca,d,rfl,hd⟩
          exact ⟨d,rfl,hd,fun he => hca (by rw [he])⟩
        · rintro ⟨d,rfl,hd,hda⟩
          exact ⟨by simpa using hda,d,rfl,hd⟩
      · rw [Function.update_of_ne hq,hl.cells]
        constructor
        · rintro ⟨d,rfl,hd⟩
          refine ⟨d,rfl,hd,?_⟩
          rintro rfl
          exact hq (hl.rings.owner q p _ (hl.entry_mem.mpr hd) (hl.entry_mem.mpr hp))
        · rintro ⟨d,rfl,hd,-⟩
          exact ⟨d,rfl,hd⟩
    refine ⟨k',hk,⟨heads,_,hl'⟩,fun q hq => ?_⟩
    rw [← not_iff_not,← ne_eq,← ne_eq,← hl'.mem_heads_iff hq,← hl.mem_heads_iff hq]
  · push Not at hin
    refine ⟨k,?_,?_,fun q _ => Iff.rfl⟩
    · apply hl.rings.unlink_unlinked (hl.entry_not_head a)
      exact fun g hc => hin g (hl.entry_mem.mp hc)
    · apply Listed.congr ⟨heads,cells,hl⟩
      intro c q
      constructor
      · refine fun hm => ⟨hm,?_⟩
        rintro rfl
        exact hin q hm
      · exact fun hm => hm.1

/-- When the first record of a list is taken out, the head points to the one behind it. -/
theorem Listed.unlink_first (hl : Listed k member) (hp : ∀ a, p ≠ .entry a)
    (hn : k.next p = some (.entry a)) (hk : k.unlink (.entry a) = some k') :
    k'.next p = k.next (.entry a) := by
  obtain ⟨heads,cells,hl⟩ := hl
  have hh : p ∈ heads := by
    rw [hl.mem_heads_iff hp,hn]
    exact Option.some_ne_none _
  have hr := hl.rings.ring p hh
  have hnext := hr.next_head
  rcases hc : cells p with _ | ⟨c,cs⟩
  · rw [hc,List.headD_nil,hn,Option.some.injEq] at hnext
    exact (hp a hnext.symm).elim
  · rw [hc,List.headD_cons,hn,Option.some.injEq] at hnext
    have hpath := hr.path
    rw [hc,← hnext] at hpath
    have hprev : k.prev (.entry a) = some p := hpath.1.2
    obtain ⟨n,-,q,-,hx,-⟩ := hl.rings.linked (c := .entry a) (h := p) (by simp [hc,hnext])
    simp only [Links.unlink,hx,hprev,Option.map_some,Option.some.injEq] at hk
    rw [← hk,hx]
    simp [Links.without,Links.set,hp a]

end Lists

end Teleproxy.ExtConnections
