import Teleproxy.Lib.SquaringInverse

/-!
# The number of a buffer in its chunk

The buffers of a chunk stand one behind the other, and the number of one is its
distance from the first divided by their size with its header. The quotient is exact
and is computed without a division: the trailing zeros of the size are shifted out,
and the rest is multiplied by the inverse of the odd part modulo 2^32, which is
prepared with the chunk.
-/
namespace Teleproxy.BufferIndex
open Loop SquaringInverse

/-- The fields of `struct msg_buffers_chunk` for the number of a buffer. -/
structure Chunk where
  bufferSize : BitVec 32
  bsInverse : BitVec 32
  bsShift : BitVec 32
  totBuffers : BitVec 32
  firstBuffer : BitVec 64

/-- The loop multiplies `y` by `1+x` and squares `x` while that is not zero; an `int`
is shifted with its sign. -/
def prepareBsInv (fuel : ℕ) (C : Chunk) : Option Chunk :=
  let x := C.bufferSize+16
  let i := x.ctz
  let x := x.sshiftRight i.toNat
  let x := 1-x
  (loop squaringPass fuel (x,1)).map fun y => {C with bsInverse := y, bsShift := i}

/-- None where the assertion fails. -/
def getBufferNo (C : Chunk) (X : BitVec 64) : Option (BitVec 32) :=
  let x := (X-C.firstBuffer).setWidth 32
  let x := x>>>C.bsShift.toNat
  let x := x*C.bsInverse
  if x ≤ C.totBuffers ∧ X = C.firstBuffer+((C.bufferSize+16)*x).setWidth 64 then some x else none

/-- The address of the buffer `k`. -/
def bufferAddress (C : Chunk) (k : ℕ) : BitVec 64 :=
  C.firstBuffer+BitVec.ofNat 64 (k*(C.bufferSize.toNat+16))

section
variable {C C' : Chunk}

theorem size_toNat (hsize : C.bufferSize.toNat+16 < 2^31) :
    (C.bufferSize+16).toNat = C.bufferSize.toNat+16 := by
  rw [BitVec.toNat_add]
  exact Nat.mod_eq_of_lt (by show C.bufferSize.toNat+16 < 2^32; omega)

/-- The prepared chunk, with the odd part `m` of the size. -/
theorem prepareBsInv_spec (hsize : C.bufferSize.toNat+16 < 2^31) :
    ∃ m y, prepareBsInv 6 C = some {C with bsInverse := y, bsShift := (C.bufferSize+16).ctz} ∧
      C.bufferSize.toNat+16 = 2^(C.bufferSize+16).ctz.toNat*m ∧ m%2 = 1 ∧
      y*(m : BitVec 32) = 1 := by
  have hnat := size_toNat hsize
  have hne : C.bufferSize+16 ≠ 0 := by
    intro hzero
    rw [hzero] at hnat
    exact absurd hnat (by simp)
  have ⟨m,hm,hodd⟩ := odd_part hne
  have ⟨y,hloop,hy⟩ := @odd_inverse 32 m 5 hodd le_rfl
  have hmsb : (C.bufferSize+16).msb = false := by
    rw [BitVec.msb_eq_false_iff_two_mul_lt,hnat]
    omega
  have hshift : (C.bufferSize+16).sshiftRight (C.bufferSize+16).ctz.toNat = (m : BitVec 32) := by
    rw [BitVec.sshiftRight_eq_of_msb_false hmsb]
    apply BitVec.eq_of_toNat_eq
    have hlt := (C.bufferSize+16).isLt
    rw [BitVec.toNat_ushiftRight,Nat.shiftRight_eq_div_pow,hm,
      Nat.mul_div_cancel_left _ (Nat.two_pow_pos _)]
    show m = m%2^32
    rw [Nat.mod_eq_of_lt]
    exact (Nat.le_mul_of_pos_left m (Nat.two_pow_pos _)).trans_lt (hm ▸ hlt)
  refine ⟨m,y,?_,hnat ▸ hm,hodd,hy⟩
  unfold prepareBsInv
  dsimp only
  rw [hshift,hloop]
  rfl

/-- The number that is computed, in front of the assertion. -/
theorem index_eq {k m : ℕ} {i y : BitVec 32} (hm : C.bufferSize.toNat+16 = 2^i.toNat*m)
    (hy : y*(m : BitVec 32) = 1) (hk : k*(C.bufferSize.toNat+16) < 2^32) :
    ((bufferAddress C k-C.firstBuffer).setWidth 32>>>i.toNat)*y = (k : BitVec 32) := by
  have hdistance : bufferAddress C k-C.firstBuffer =
      BitVec.ofNat 64 (k*(C.bufferSize.toNat+16)) := by
    unfold bufferAddress
    rw [add_sub_cancel_left]
  have hshift : (BitVec.ofNat 64 (k*(C.bufferSize.toNat+16))).setWidth 32>>>i.toNat =
      ((k*m : ℕ) : BitVec 32) := by
    apply BitVec.eq_of_toNat_eq
    have hle : k*m ≤ k*(C.bufferSize.toNat+16) :=
      Nat.mul_le_mul_left k (hm ▸ Nat.le_mul_of_pos_left m (Nat.two_pow_pos _))
    rw [BitVec.toNat_ushiftRight,BitVec.toNat_setWidth,BitVec.toNat_ofNat,
      Nat.mod_eq_of_lt (hk.trans (by decide)),Nat.mod_eq_of_lt hk,Nat.shiftRight_eq_div_pow,hm,
      Nat.mul_left_comm,Nat.mul_div_cancel_left _ (Nat.two_pow_pos _)]
    exact (Nat.mod_eq_of_lt (hle.trans_lt hk)).symm
  rw [hdistance,hshift,Nat.cast_mul,mul_assoc,mul_comm (m : BitVec 32),hy,mul_one]

theorem bufferAddress_eq {k : ℕ} (hsize : C.bufferSize.toNat+16 < 2^31)
    (hk : k*(C.bufferSize.toNat+16) < 2^32) :
    bufferAddress C k = C.firstBuffer+((C.bufferSize+16)*(k : BitVec 32)).setWidth 64 := by
  unfold bufferAddress
  congr 1
  apply BitVec.eq_of_toNat_eq
  have hnat : (k : BitVec 32).toNat = k%2^32 := rfl
  have hlt : k < 2^32 := by
    have := Nat.le_mul_of_pos_right k (show 0 < C.bufferSize.toNat+16 by omega)
    omega
  rw [BitVec.toNat_ofNat,BitVec.toNat_setWidth,BitVec.toNat_mul,size_toNat hsize,hnat,
    Nat.mod_eq_of_lt hlt,mul_comm (C.bufferSize.toNat+16) k,Nat.mod_eq_of_lt hk]

/-- The number of a buffer, or the assertion behind the last one. -/
theorem getBufferNo_eq {k m : ℕ} {i y : BitVec 32} (hsize : C.bufferSize.toNat+16 < 2^31)
    (hm : C.bufferSize.toNat+16 = 2^i.toNat*m) (hy : y*(m : BitVec 32) = 1)
    (hk : k*(C.bufferSize.toNat+16) < 2^32) :
    getBufferNo {C with bsInverse := y, bsShift := i} (bufferAddress C k) =
      if k ≤ C.totBuffers.toNat then some (BitVec.ofNat 32 k) else none := by
  have hindex := index_eq hm hy hk
  have hlt : k < 2^32 := by
    have := Nat.le_mul_of_pos_right k (show 0 < C.bufferSize.toNat+16 by omega)
    omega
  have hle : (k : BitVec 32) ≤ C.totBuffers ↔ k ≤ C.totBuffers.toNat := by
    rw [BitVec.le_def]
    show k%2^32 ≤ _ ↔ _
    rw [Nat.mod_eq_of_lt hlt]
  unfold getBufferNo
  dsimp only
  rw [hindex]
  split
  · next hfound =>
      rw [if_pos (hle.mp hfound.1)]
      rfl
  · next hfound => rw [if_neg fun hk' => hfound ⟨hle.mpr hk',bufferAddress_eq hsize hk⟩]

end

/-- A chunk is prepared in at most six passes of the loop. The inverse is one of the odd
part of the size, and the number of a buffer is found from its address up to the number
of buffers of the chunk, behind which an assertion fails. -/
theorem buffer_no_of_address (C : Chunk) (hsize : C.bufferSize.toNat+16 < 2^31) :
    ∃ C' j m, prepareBsInv 6 C = some C' ∧ C.bufferSize.toNat+16 = 2^j*m ∧ m%2 = 1 ∧
      C'.bsInverse*(m : BitVec 32) = 1 ∧
      ∀ k, k*(C.bufferSize.toNat+16) < 2^32 →
        getBufferNo C' (bufferAddress C k) =
          if k ≤ C.totBuffers.toNat then some (BitVec.ofNat 32 k) else none := by
  have ⟨m,y,hrun,hm,hodd,hy⟩ := prepareBsInv_spec hsize
  exact ⟨_,_,m,hrun,hm,hodd,hy,fun k hk => getBufferNo_eq hsize hm hy hk⟩

/-- Buffers of 48 bytes. -/
def sampleChunk : Chunk := ⟨48,0,0,30000,0x7f0000001000⟩

theorem sample_buffer_no :
    ∃ C' j m, prepareBsInv 6 sampleChunk = some C' ∧
      sampleChunk.bufferSize.toNat+16 = 2^j*m ∧ m%2 = 1 ∧ C'.bsInverse*(m : BitVec 32) = 1 ∧
      ∀ k, k*(sampleChunk.bufferSize.toNat+16) < 2^32 →
        getBufferNo C' (bufferAddress sampleChunk k) =
          if k ≤ sampleChunk.totBuffers.toNat then some (BitVec.ofNat 32 k) else none :=
  buffer_no_of_address sampleChunk (by decide)

/-- Behind the last buffer the assertion fails. -/
theorem no_number_behind_last :
    ¬∃ C', prepareBsInv 6 sampleChunk = some C' ∧
      ∀ k, k*(sampleChunk.bufferSize.toNat+16) < 2^32 →
        getBufferNo C' (bufferAddress sampleChunk k) = some (BitVec.ofNat 32 k) := by
  intro ⟨C',hrun,hall⟩
  have hsize : sampleChunk.bufferSize.toNat+16 < 2^31 := by decide
  have hk : 30001*(sampleChunk.bufferSize.toNat+16) < 2^32 := by decide
  have ⟨m,y,hrun',hm,_,hy⟩ := prepareBsInv_spec hsize
  have hnone := getBufferNo_eq hsize hm hy hk
  have hsame := Option.some.inj (hrun'.symm.trans hrun)
  rw [if_neg (by decide),hsame,hall 30001 hk] at hnone
  cases hnone

end Teleproxy.BufferIndex
