import Mathlib.Data.BitVec
import Mathlib.Tactic.Ring
import Teleproxy.Lib.Loop

/-!
# Inverses by repeated squaring

In a commutative ring `1-x` is inverted by the product of the factors `1+x^(2^j)`
where `x` is nilpotent: the factors up to `n` multiply to a quotient of
`1-x^(2^(n+1))` by `1-x`. The loop squares `x` until that is zero. Words are such a
ring, and in it the difference of an odd word from one is nilpotent.
-/
namespace Teleproxy.SquaringInverse
open Loop

section Ring
variable {R : Type*} [CommRing R] [DecidableEq R]

/-- One pass through the loop: the power and the product of the factors. -/
def squaringPass (s : R × R) : Pass (R × R) R :=
  if s.1 = 0 then .leave s.2 else .again (s.1*s.1,s.2*(1+s.1))

/-- The loop ends, with an inverse of `1-x` as a new factor. -/
theorem squaring_spec {n : ℕ} {x : R} (h : x^2^n = 0) (y : R) :
    ∃ w, loop squaringPass (n+1) (x,y) = some (y*w) ∧ w*(1-x) = 1 := by
  induction n generalizing x y with
  | zero =>
      have hx : x = 0 := by rwa [pow_zero,pow_one] at h
      have hpass : squaringPass (x,y) = .leave y := if_pos hx
      refine ⟨1,?_,by rw [hx]; ring⟩
      rw [loop,hpass,mul_one]
  | succ n ih =>
      by_cases hx : x = 0
      · have hpass : squaringPass (x,y) = .leave y := if_pos hx
        refine ⟨1,?_,by rw [hx]; ring⟩
        rw [loop,hpass,mul_one]
      · have hpass : squaringPass (x,y) = .again (x*x,y*(1+x)) := if_neg hx
        have hsquare : (x*x)^2^n = 0 := by
          rw [← pow_two,← pow_mul,← pow_succ']
          exact h
        obtain ⟨w,hloop,hw⟩ := ih hsquare (y*(1+x))
        refine ⟨(1+x)*w,?_,?_⟩
        · rw [loop,hpass,← mul_assoc]
          exact hloop
        · calc (1+x)*w*(1-x) = w*(1-x*x) := by ring
            _ = 1 := hw

end Ring

section Words
variable {w : ℕ}

theorem two_pow_width : (2 : BitVec w)^w = 0 := by
  have htwo : (2 : BitVec w) = ((2 : ℕ) : BitVec w) := (Nat.cast_ofNat).symm
  rw [htwo,← Nat.cast_pow]
  apply BitVec.eq_of_toNat_eq
  show (BitVec.ofNat w (2^w)).toNat = 0
  rw [BitVec.toNat_ofNat,Nat.mod_self]

/-- The difference of an odd word from one. -/
theorem one_sub_odd_pow {m n : ℕ} (hm : m%2 = 1) (hn : w ≤ 2^n) :
    (1-(m : BitVec w))^2^n = 0 := by
  have heven : 1-(m : BitVec w) = 2*(-(m/2 : ℕ)) := by
    have hsplit : (m : BitVec w) = ((2*(m/2)+1 : ℕ) : BitVec w) := congrArg _ (by omega)
    rw [hsplit]
    push_cast
    ring
  rw [heven,mul_pow,← Nat.add_sub_of_le hn,pow_add,two_pow_width,zero_mul,zero_mul]

theorem odd_inverse {m n : ℕ} (hm : m%2 = 1) (hn : w ≤ 2^n) :
    ∃ y, loop squaringPass (n+1) (1-(m : BitVec w),1) = some y ∧ y*(m : BitVec w) = 1 := by
  have ⟨y,hloop,hy⟩ := squaring_spec (one_sub_odd_pow hm hn) 1
  rw [one_mul] at hloop
  rw [sub_sub_cancel] at hy
  exact ⟨y,hloop,hy⟩

/-- A word is an odd number times the power of two that its trailing zeros count. -/
theorem odd_part {x : BitVec w} (hx : x ≠ 0) :
    ∃ m, x.toNat = 2^x.ctz.toNat*m ∧ m%2 = 1 := by
  have hset : x.toNat.testBit x.ctz.toNat = true := BitVec.getLsbD_true_ctz_of_ne_zero hx
  have hlow : x.toNat%2^x.ctz.toNat = 0 := by
    apply Nat.eq_of_testBit_eq
    intro i
    rw [Nat.testBit_mod_two_pow,Nat.zero_testBit]
    by_cases hi : i < x.ctz.toNat
    · have hbit : x.toNat.testBit i = false := BitVec.getLsbD_false_of_lt_ctz hi
      rw [hbit,Bool.and_false]
    · rw [decide_eq_false hi,Bool.false_and]
  refine ⟨x.toNat/2^x.ctz.toNat,(Nat.mul_div_cancel' (Nat.dvd_of_mod_eq_zero hlow)).symm,?_⟩
  rw [Nat.testBit_eq_decide_div_mod_eq] at hset
  exact of_decide_eq_true hset

end Words

end Teleproxy.SquaringInverse
