import Mathlib.Data.Int.Basic
import Teleproxy.Lib.Loop

/-!
# Parsers over a buffer

A parser of untrusted bytes computes positions with `int` arithmetic, reads at them, tests
what it has read and gives up with a message. A read outside the buffer stops it, which is
what a correct parser must never run into. `Decides run S` says that it does not and that
the results of `run` are those in `S`; there is one rule for each kind of step, and one for
loops with a measure.
-/
namespace Teleproxy.Buffer
open Loop (Pass)
variable {α β S R ε : Type}

/-- A sum of `int`s as it is stored, with wrapping arithmetic. -/
def wrap (n : ℤ) : ℤ := n.bmod 4294967296

theorem wrap_of_lt {n : ℤ} (hlow : -2147483648 ≤ n) (hhigh : n < 2147483648) : wrap n = n := by
  unfold wrap
  rw [Int.bmod_def]
  split <;> omega

/-- A sum that has just become too large is negative. -/
theorem wrap_of_ge {n : ℤ} (hlow : 2147483648 ≤ n) (hhigh : n < 4294967296) :
    wrap n = n-4294967296 := by
  unfold wrap
  rw [Int.bmod_def]
  split <;> omega

inductive Stop (ε : Type) where
  | outOfBounds
  | outOfFuel
  | fail (error : ε)
  deriving DecidableEq, Repr

/-- The `n` elements at `pos`. -/
def read (buf : List α) (pos : ℤ) (n : ℕ) : Except (Stop ε) (List α) :=
  if 0 ≤ pos ∧ pos+n ≤ buf.length then .ok ((buf.drop pos.toNat).take n) else .error .outOfBounds

def expect (p : Prop) [Decidable p] (error : ε) : Except (Stop ε) Unit :=
  if p then .ok () else .error (.fail error)

/-- The loop, for at most so many passes. -/
def run (body : S → Except (Stop ε) (Pass S R)) : ℕ → S → Except (Stop ε) R
  | 0, _ => .error .outOfFuel
  | fuel+1, s =>
      match body s with
      | .error e => .error e
      | .ok (.leave r) => .ok r
      | .ok (.again s') => run body fuel s'

/-- A result or a message. -/
def Sound (x : Except (Stop ε) α) : Prop := (∃ a, x = .ok a) ∨ ∃ e, x = .error (.fail e)

/-- The run is sound and `S` has its results. -/
def Decides (x : Except (Stop ε) α) (S : α → Prop) : Prop := Sound x ∧ ∀ a, x = .ok a ↔ S a

section Rules
variable {x : Except (Stop ε) α} {f : α → Except (Stop ε) β} {P : α → Prop} {Q : α → β → Prop}
  {T : β → Prop}

theorem ok_bind (a : α) (f : α → Except (Stop ε) β) : (Except.ok a >>= f) = f a := rfl

theorem error_bind (e : Stop ε) (f : α → Except (Stop ε) β) :
    ((Except.error e : Except (Stop ε) α) >>= f) = .error e := rfl

theorem read_eq {buf : List α} {p n : ℕ} (h : p+n ≤ buf.length) :
    read buf (p : ℤ) n = (.ok ((buf.drop p).take n) : Except (Stop ε) _) := by
  rw [read,if_pos ⟨by omega,by omega⟩,Int.toNat_natCast]

theorem read_outside {buf : List α} {p : ℤ} {n : ℕ} (h : p < 0 ∨ buf.length < p+n) :
    read buf p n = (.error .outOfBounds : Except (Stop ε) _) := by
  rw [read,if_neg (by omega)]

theorem not_sound_outOfBounds : ¬ Sound (.error .outOfBounds : Except (Stop ε) α) := by
  intro h
  rcases h with ⟨_,ha⟩ | ⟨_,he⟩
  · cases ha
  · cases he

theorem sound_ok (a : α) : Sound (.ok a : Except (Stop ε) α) := .inl ⟨a,rfl⟩

theorem sound_fail (e : ε) : Sound (.error (.fail e) : Except (Stop ε) α) := .inr ⟨e,rfl⟩

theorem decides_ok (a : α) : Decides (.ok a : Except (Stop ε) α) (· = a) :=
  ⟨sound_ok a,fun _ => ⟨fun h => (Except.ok.inj h).symm,fun h => h ▸ rfl⟩⟩

theorem decides_fail (e : ε) : Decides (.error (.fail e) : Except (Stop ε) α) (fun _ => False) :=
  ⟨sound_fail e,fun _ => ⟨fun h => (by cases h),fun h => h.elim⟩⟩

theorem Decides.congr (h : Decides x P) {P' : α → Prop} (hP : ∀ a, P a ↔ P' a) : Decides x P' :=
  ⟨h.1,fun a => (h.2 a).trans (hP a)⟩

theorem Decides.bind (hx : Decides x P) (hf : ∀ a, P a → Decides (f a) (Q a)) :
    Decides (x >>= f) (fun b => ∃ a, P a ∧ Q a b) := by
  cases x with
  | error e =>
      rw [error_bind]
      obtain ⟨_,ha⟩ | ⟨e',he⟩ := hx.1
      · cases ha
      · cases he
        refine ⟨sound_fail e',fun b => ⟨fun h => (by cases h),?_⟩⟩
        intro ⟨a,ha,_⟩
        cases (hx.2 a).mpr ha
  | ok a =>
      have ha := (hx.2 a).mp rfl
      rw [ok_bind]
      refine (hf a ha).congr fun b => ⟨fun hb => ⟨a,ha,hb⟩,?_⟩
      intro ⟨a',ha',hb⟩
      cases (hx.2 a').mpr ha'
      exact hb

theorem decides_expect {p : Prop} [Decidable p] {error : ε} {f : Unit → Except (Stop ε) β}
    (h : p → Decides (f ()) T) : Decides (expect p error >>= f) (fun b => p ∧ T b) := by
  by_cases hp : p
  · rw [expect,if_pos hp,ok_bind]
    exact (h hp).congr fun b => ⟨fun hb => ⟨hp,hb⟩,fun hb => hb.2⟩
  · rw [expect,if_neg hp,error_bind]
    exact (decides_fail error).congr fun b => ⟨fun hb => hb.elim,fun hb => hp hb.1⟩

theorem Decides.sound_bind (hx : Decides x P) (hf : ∀ a, P a → Sound (f a)) : Sound (x >>= f) := by
  obtain ⟨a,ha⟩ | ⟨e,he⟩ := hx.1
  · rw [ha,ok_bind]
    exact hf a ((hx.2 a).mp ha)
  · rw [he,error_bind]
    exact sound_fail e

/-- Nothing comes of a run that is never good from here on. -/
theorem Decides.never (hx : Decides x P) (hf : ∀ a, P a → Decides (f a) fun _ => False) :
    Decides (x >>= f) fun _ => False :=
  (hx.bind hf).congr fun _ => ⟨fun h => h.elim fun _ h => h.2,fun h => h.elim⟩

theorem expect_never {p : Prop} [Decidable p] {error : ε} {f : Unit → Except (Stop ε) β}
    (h : p → Decides (f ()) fun _ => False) : Decides (expect p error >>= f) fun _ => False :=
  (decides_expect h).congr fun _ => ⟨fun h => h.2,fun h => h.elim⟩

theorem expect_bind {p : Prop} [Decidable p] (h : p) (error : ε) (f : Unit → Except (Stop ε) β) :
    (expect p error >>= f) = f () := by
  rw [expect,if_pos h,ok_bind]

theorem decides_read {buf : List α} {p n : ℕ} {f : List α → Except (Stop ε) β} (h : p+n ≤ buf.length)
    (hf : Decides (f ((buf.drop p).take n)) T) : Decides (read buf (p : ℤ) n >>= f) T := by
  rw [read_eq h,ok_bind]
  exact hf

end Rules

/-- A position behind the buffer, or one that is stored as a negative number. -/
theorem read_wrap_outside {buf : List α} {p k n : ℕ} (hlt : buf.length < 2147483648)
    (hp : p ≤ buf.length) (hk : k < 2147483648) (h : buf.length < p+k+n) :
    read buf (wrap ((p : ℤ)+k)) n = (.error .outOfBounds : Except (Stop ε) _) := by
  by_cases hwrap : p+k < 2147483648
  · rw [wrap_of_lt (by omega) (by omega)]
    exact read_outside (.inr (by omega))
  · rw [wrap_of_ge (by omega) (by omega)]
    exact read_outside (.inl (by omega))

/-- `bs` is written at `pos`, if it fits. -/
def write (buf : List α) (pos : ℕ) (bs : List α) : Option (List α) :=
  if pos+bs.length ≤ buf.length then some (buf.take pos++bs++buf.drop (pos+bs.length)) else none

section Write
variable {buf buf' pre bs rest old : List α} {p m : ℕ} {a : α}

theorem length_write (h : write buf p bs = some buf') : buf'.length = buf.length := by
  unfold write at h
  split_ifs at h with hfits
  cases h
  simp only [List.length_append,List.length_take,List.length_drop]
  omega

theorem fits_of_write (h : write buf p bs = some buf') : p+bs.length ≤ buf.length := by
  unfold write at h
  split_ifs at h with hfits
  exact hfits

/-- Bytes are written over others of the same number. -/
theorem write_over (hp : pre.length = p) (hlen : bs.length = old.length) :
    write (pre++old++rest) p bs = some (pre++bs++rest) := by
  have htotal : (pre++old++rest).length = pre.length+old.length+rest.length := by
    rw [List.length_append,List.length_append]
  rw [write,if_pos (by omega)]
  congr 2
  · rw [List.append_assoc,List.take_append_of_le_length (by omega),List.take_of_length_le (by omega)]
  · rw [List.drop_append,List.drop_eq_nil_of_le (by rw [List.length_append]; omega),List.nil_append,
      List.length_append,show p+bs.length-(pre.length+old.length) = 0 by omega,List.drop_zero]

/-- A buffer that is filled from its beginning. -/
theorem write_next {k : ℕ} (hp : pre.length = p) (hm : bs.length+k = m) :
    write (pre++List.replicate m a) p bs = some (pre++bs++List.replicate k a) := by
  subst hm
  rw [← List.replicate_append_replicate,← List.append_assoc]
  exact write_over hp List.length_replicate.symm

end Write

/-- The units of `as`, one behind the other. -/
def concat (encode : β → List α) (as : List β) : List α := (as.map encode).flatten

theorem concat_cons (encode : β → List α) (a : β) (as : List β) :
    concat encode (a::as) = encode a++concat encode as := List.flatten_cons

/-- A list begins with units, until no other one follows. -/
theorem exists_units {encode : β → List α} {P : β → Prop} (hne : ∀ a, P a → encode a ≠ [])
    (bytes : List α) : ∃ as tail, bytes = concat encode as++tail ∧ (∀ a ∈ as, P a) ∧
      ¬ ∃ a rest, P a ∧ tail = encode a++rest := by
  induction hlen : bytes.length using Nat.strong_induction_on generalizing bytes with
  | h n ih =>
      by_cases hend : ∃ a rest, P a ∧ bytes = encode a++rest
      · obtain ⟨a,rest,ha,rfl⟩ := hend
        have hpos := List.length_pos_iff.mpr (hne a ha)
        rw [List.length_append] at hlen
        obtain ⟨as,tail,rfl,hall,htail⟩ := ih rest.length (by omega) rest rfl
        refine ⟨a::as,tail,?_,?_,htail⟩
        · simp [concat]
        · simpa using ⟨ha,hall⟩
      · exact ⟨[],bytes,rfl,by simp,hend⟩

theorem length_le_concat {encode : β → List α} (hne : ∀ a, encode a ≠ []) (as : List β) :
    as.length ≤ (concat encode as).length := by
  induction as with
  | nil => exact Nat.zero_le _
  | cons a as ih =>
      have hpos := List.length_pos_iff.mpr (hne a)
      rw [concat_cons,List.length_append,List.length_cons]
      omega

/-- The loop leaves with `r`. -/
inductive Runs (body : S → Except (Stop ε) (Pass S R)) : S → R → Prop
  | leave {s : S} {r : R} : body s = .ok (.leave r) → Runs body s r
  | again {s s' : S} {r : R} : body s = .ok (.again s') → Runs body s' r → Runs body s r

section Loops
variable {body : S → Except (Stop ε) (Pass S R)} {s s' : S} {r : R}

theorem run_leave (h : body s = .ok (.leave r)) (fuel : ℕ) : run body (fuel+1) s = .ok r := by
  rw [run,h]

theorem run_again (h : body s = .ok (.again s')) (fuel : ℕ) :
    run body (fuel+1) s = run body fuel s' := by
  rw [run,h]

theorem run_error {e : Stop ε} (h : body s = .error e) (fuel : ℕ) : run body (fuel+1) s = .error e := by
  rw [run,h]

theorem Runs.cases_of_again (h : Runs body s r) (hs : body s = .ok (.again s')) : Runs body s' r := by
  cases h with
  | leave hr => cases hr.symm.trans hs
  | again hr hrest =>
      cases hr.symm.trans hs
      exact hrest

/-- A loop whose passes are sound and make a measure smaller decides what it leaves with. -/
theorem decides_run (Inv : S → Prop) (measure : S → ℕ) (hsound : ∀ s, Inv s → Sound (body s))
    (hnext : ∀ s s', Inv s → body s = .ok (.again s') → Inv s' ∧ measure s' < measure s) (fuel : ℕ)
    (hs : Inv s) (hfuel : measure s < fuel) : Decides (run body fuel s) (Runs body s) := by
  induction fuel generalizing s with
  | zero => omega
  | succ fuel ih =>
      cases hbody : body s with
      | error e =>
          obtain ⟨_,ha⟩ | ⟨e',he⟩ := hsound s hs
          · rw [hbody] at ha
            cases ha
          · rw [hbody] at he
            cases he
            rw [run_error hbody]
            refine (decides_fail e').congr fun r => ⟨fun h => h.elim,fun h => ?_⟩
            cases h with
            | leave hr => cases hr.symm.trans hbody
            | again hr _ => cases hr.symm.trans hbody
      | ok pass =>
          cases pass with
          | leave r =>
              rw [run_leave hbody]
              refine (decides_ok r).congr fun r' => ⟨fun h => h ▸ .leave hbody,fun h => ?_⟩
              cases h with
              | leave hr =>
                  cases hr.symm.trans hbody
                  rfl
              | again hr _ => cases hr.symm.trans hbody
          | again s' =>
              obtain ⟨hinv,hless⟩ := hnext s s' hs hbody
              rw [run_again hbody]
              exact (ih hinv (by omega)).congr fun r =>
                ⟨fun h => .again hbody h,fun h => h.cases_of_again hbody⟩

end Loops

end Teleproxy.Buffer
