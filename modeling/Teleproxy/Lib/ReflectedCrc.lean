import Mathlib.Data.List.Basic
import Mathlib.Data.Nat.Bitwise

/-!
# Cyclic redundancy checks with reflected registers

A register is shifted to the right, and the polynomial is added whenever a one falls
out. This is linear, and bits that only move down come out as they are; hence several
bytes can be added to the register at once, and the register can be taken apart into
bytes whose contributions are looked up in tables.
-/
namespace Teleproxy.ReflectedCrc
variable {w : ℕ}

section
variable (poly : BitVec w)

def step (c : BitVec w) : BitVec w := if c.getLsbD 0 then c>>>1^^^poly else c>>>1

/-- So many shifts. -/
def steps : ℕ → BitVec w → BitVec w
  | 0, c => c
  | n+1, c => steps n (step poly c)

/-- One byte, bit by bit from the lowest. -/
def crcByte (c : BitVec w) (b : UInt8) : BitVec w := steps poly 8 (c^^^BitVec.ofNat w b.toNat)

def crc (data : List UInt8) (c : BitVec w) : BitVec w := data.foldl (crcByte poly) c

/-- The bytes as a number, the first one lowest. -/
def littleEndian (w : ℕ) : List UInt8 → BitVec w
  | [] => 0
  | b::bs => BitVec.ofNat w b.toNat^^^littleEndian w bs<<<8

end

variable {poly : BitVec w}

theorem step_xor (a b : BitVec w) : step poly (a^^^b) = step poly a^^^step poly b := by
  unfold step
  rw [BitVec.getLsbD_xor,BitVec.ushiftRight_xor_distrib]
  cases a.getLsbD 0 with
  | false =>
      cases b.getLsbD 0 with
      | false => rfl
      | true =>
          simp only [Bool.false_xor,↓reduceIte,Bool.false_eq_true]
          rw [BitVec.xor_assoc]
  | true =>
      cases b.getLsbD 0 with
      | false =>
          simp only [Bool.true_xor,Bool.not_false,↓reduceIte,Bool.false_eq_true]
          rw [BitVec.xor_assoc,BitVec.xor_comm (b>>>1),← BitVec.xor_assoc]
      | true =>
          simp only [Bool.true_xor,Bool.not_true,↓reduceIte,Bool.false_eq_true]
          rw [BitVec.xor_comm (b>>>1),BitVec.xor_assoc,← BitVec.xor_assoc poly,BitVec.xor_self,
            BitVec.zero_xor]

theorem steps_xor (n : ℕ) (a b : BitVec w) :
    steps poly n (a^^^b) = steps poly n a^^^steps poly n b := by
  induction n generalizing a b with
  | zero => rfl
  | succ n ih => rw [steps,step_xor,ih]; rfl

theorem steps_add (m n : ℕ) (c : BitVec w) : steps poly (m+n) c = steps poly n (steps poly m c) := by
  induction m generalizing c with
  | zero => rw [Nat.zero_add]; rfl
  | succ m ih => rw [Nat.succ_add,steps,ih]; rfl

theorem step_shiftLeft (c : BitVec w) (n : ℕ) :
    step poly (c<<<(n+1)) = c<<<(n+1)>>>1 := by
  have hlow : (c<<<(n+1)).getLsbD 0 = false := by simp
  unfold step
  rw [hlow,if_neg (by simp)]

/-- Shifts that undo a shift to the left. -/
theorem steps_shiftLeft {c : BitVec w} {n : ℕ} (h : c.toNat*2^n < 2^w) :
    steps poly n (c<<<n) = c := by
  induction n generalizing c with
  | zero => rw [BitVec.shiftLeft_zero]; rfl
  | succ n ih =>
      have hless : c.toNat*2^n < 2^w := by
        rw [pow_succ,← mul_assoc] at h
        omega
      have hshift : c<<<(n+1)>>>1 = c<<<n := by
        apply BitVec.eq_of_toNat_eq
        rw [BitVec.toNat_ushiftRight,BitVec.toNat_shiftLeft,BitVec.toNat_shiftLeft,
          Nat.shiftLeft_eq,Nat.shiftLeft_eq,Nat.mod_eq_of_lt h,Nat.mod_eq_of_lt hless,
          Nat.shiftRight_eq_div_pow,pow_succ,← mul_assoc]
        omega
      rw [steps,step_shiftLeft,hshift,ih hless]

theorem crc_append (a b : List UInt8) (c : BitVec w) : crc poly (a++b) c = crc poly b (crc poly a c) :=
  List.foldl_append

theorem littleEndian_lt {bs : List UInt8} (h : 8*bs.length ≤ w) :
    (littleEndian w bs).toNat < 2^(8*bs.length) := by
  induction bs with
  | nil => simp [littleEndian]
  | cons b bs ih =>
      rw [List.length_cons] at h ⊢
      have hrest := ih (by omega)
      have hpow : 2^(8*(bs.length+1)) = 2^(8*bs.length)*256 := by rw [mul_add,pow_add]; rfl
      have hbyte : b.toNat < 2^(8*(bs.length+1)) := by
        have := b.toNat_lt
        have := Nat.two_pow_pos (8*bs.length)
        omega
      have hshift : (littleEndian w bs<<<8).toNat < 2^(8*(bs.length+1)) := by
        rw [BitVec.toNat_shiftLeft,Nat.shiftLeft_eq]
        have := Nat.mod_le ((littleEndian w bs).toNat*2^8) (2^w)
        omega
      rw [littleEndian,BitVec.toNat_xor,BitVec.toNat_ofNat]
      exact Nat.xor_lt_two_pow ((Nat.mod_le ..).trans_lt hbyte) hshift

/-- Bytes that fit into the register are added at once. -/
theorem crc_eq_steps {bs : List UInt8} (h : 8*bs.length ≤ w) (c : BitVec w) :
    crc poly bs c = steps poly (8*bs.length) (c^^^littleEndian w bs) := by
  induction bs generalizing c with
  | nil =>
      show c = c^^^0
      exact (BitVec.xor_zero ..).symm
  | cons b bs ih =>
      rw [List.length_cons] at h ⊢
      have hlt := littleEndian_lt (show 8*bs.length ≤ w by omega)
      have hfits : (littleEndian w bs).toNat*2^8 < 2^w := by
        have hpow : 2^(8*bs.length)*2^8 ≤ 2^w := by
          rw [← pow_add]
          exact Nat.pow_le_pow_right (by decide) (by omega)
        omega
      have hrest : crc poly (b::bs) c = crc poly bs (crcByte poly c b) := rfl
      rw [hrest,ih (by omega),crcByte,mul_add,Nat.add_comm,steps_add,littleEndian,
        ← BitVec.xor_assoc,steps_xor 8 _ (littleEndian w bs<<<8),steps_shiftLeft hfits]

/-- The lowest byte of the register contributes on its own. -/
theorem steps_split (n : ℕ) (c : BitVec w) :
    steps poly (8+n) c = steps poly (8+n) (c&&&255#w)^^^steps poly n (c>>>8) := by
  have hparts : c = (c&&&255#w)^^^c>>>8<<<8 := by
    apply BitVec.eq_of_getLsbD_eq
    intro i hi
    have hmask : Nat.testBit 255 i = decide (i < 8) := Nat.testBit_two_pow_sub_one 8 i
    rw [BitVec.getLsbD_xor,BitVec.getLsbD_and,BitVec.getLsbD_ofNat,BitVec.getLsbD_shiftLeft,
      BitVec.getLsbD_ushiftRight,hmask]
    by_cases h8 : i < 8
    · simp [h8,hi]
    · have hback : 8+(i-8) = i := by omega
      simp [h8,hi,hback]
  have hfits : (c>>>8).toNat*2^8 < 2^w := by
    rw [BitVec.toNat_ushiftRight,Nat.shiftRight_eq_div_pow]
    exact (Nat.div_mul_le_self ..).trans_lt c.isLt
  conv_lhs => rw [hparts]
  rw [steps_xor,steps_add 8 n (c>>>8<<<8),steps_shiftLeft hfits]

end Teleproxy.ReflectedCrc
