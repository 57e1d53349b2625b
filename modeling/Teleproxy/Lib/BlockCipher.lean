import Mathlib.Data.List.Basic
import Mathlib.Tactic.Ring

/-!
# Block ciphers with a state

A block cipher encrypts blocks of a fixed size one after the other and carries a state
from each to the next, as a chaining mode does. The receiver starts in the same state.
`blocks f n s bs` is `f` on the first `n` blocks of `bs`.
-/
namespace Teleproxy.BlockCipher
variable {β σ : Type*}

/-- The state behind a block is the same on both sides. -/
structure Cipher (β σ : Type*) where
  size : ℕ
  size_pos : 0 < size
  enc : σ → List β → List β × σ
  dec : σ → List β → List β × σ
  length_enc : ∀ s b, b.length = size → (enc s b).1.length = size
  dec_enc : ∀ s b, b.length = size → dec s (enc s b).1 = (b,(enc s b).2)

def blocks (size : ℕ) (f : σ → List β → List β × σ) : ℕ → σ → List β → List β × σ
  | 0, s, _ => ([],s)
  | n+1, s, bs =>
      let (b,s) := f s (bs.take size)
      let (rest,s) := blocks size f n s (bs.drop size)
      (b++rest,s)

variable (k : Cipher β σ)

def Cipher.encrypt (n : ℕ) (s : σ) (bs : List β) : List β × σ := blocks k.size k.enc n s bs

def Cipher.decrypt (n : ℕ) (s : σ) (bs : List β) : List β × σ := blocks k.size k.dec n s bs

theorem encrypt_succ (n : ℕ) (s : σ) (bs : List β) : k.encrypt (n+1) s bs =
    ((k.enc s (bs.take k.size)).1++(k.encrypt n (k.enc s (bs.take k.size)).2 (bs.drop k.size)).1,
      (k.encrypt n (k.enc s (bs.take k.size)).2 (bs.drop k.size)).2) := rfl

theorem decrypt_succ (n : ℕ) (s : σ) (bs : List β) : k.decrypt (n+1) s bs =
    ((k.dec s (bs.take k.size)).1++(k.decrypt n (k.dec s (bs.take k.size)).2 (bs.drop k.size)).1,
      (k.decrypt n (k.dec s (bs.take k.size)).2 (bs.drop k.size)).2) := rfl

theorem length_encrypt {n : ℕ} {bs : List β} (s : σ) (h : n*k.size ≤ bs.length) :
    (k.encrypt n s bs).1.length = n*k.size := by
  induction n generalizing s bs with
  | zero => simp [Cipher.encrypt,blocks]
  | succ n ih =>
      have hlen : k.size ≤ bs.length := by
        rw [Nat.add_mul] at h
        omega
      rw [encrypt_succ,List.length_append,k.length_enc _ _ (List.length_take_of_le hlen),ih]
      · ring
      · rw [List.length_drop]
        rw [Nat.add_mul] at h
        omega

/-- Blocks are encrypted one after the other. -/
theorem encrypt_append {m n : ℕ} {as bs : List β} (s : σ) (h : as.length = m*k.size) :
    k.encrypt (m+n) s (as++bs) =
      ((k.encrypt m s as).1++(k.encrypt n (k.encrypt m s as).2 bs).1,
        (k.encrypt n (k.encrypt m s as).2 bs).2) := by
  induction m generalizing s as with
  | zero =>
      obtain rfl : as = [] := List.length_eq_zero_iff.mp (by simpa using h)
      simp [Cipher.encrypt,blocks]
  | succ m ih =>
      have hlen : k.size ≤ as.length := by
        rw [h,Nat.add_mul]
        omega
      have hdrop : (as.drop k.size).length = m*k.size := by
        rw [List.length_drop,h,Nat.add_mul]
        omega
      rw [Nat.add_right_comm,encrypt_succ,encrypt_succ,List.take_append_of_le_length hlen,
        List.drop_append_of_le_length hlen,ih _ hdrop,List.append_assoc]

/-- What was encrypted is decrypted block by block, also when more comes behind it. -/
theorem decrypt_encrypt {n : ℕ} {bs : List β} (s : σ) (more : List β) (h : n*k.size ≤ bs.length) :
    k.decrypt n s ((k.encrypt n s bs).1++more) = (bs.take (n*k.size),(k.encrypt n s bs).2) := by
  induction n generalizing s bs with
  | zero => simp [Cipher.encrypt,Cipher.decrypt,blocks]
  | succ n ih =>
      have hlen : k.size ≤ bs.length := by
        rw [Nat.add_mul] at h
        omega
      have hblock := k.length_enc s _ (List.length_take_of_le hlen)
      have hrest : n*k.size ≤ (bs.drop k.size).length := by
        rw [Nat.add_mul] at h
        rw [List.length_drop]
        omega
      rw [encrypt_succ,decrypt_succ,List.append_assoc,List.take_left' hblock,List.drop_left' hblock,
        k.dec_enc s _ (List.length_take_of_le hlen),ih _ hrest]
      dsimp only
      rw [Nat.add_mul,Nat.one_mul,Nat.add_comm (n*k.size),List.take_add]

/-- A part of the ciphertext has come: its whole blocks are decrypted, and the rest with what
comes behind it is the ciphertext of the rest, with the same state behind it. -/
theorem decrypt_part {n : ℕ} {bs xs ys : List β} {s : σ} (hlen : bs.length = n*k.size)
    (h : (k.encrypt n s bs).1 = xs++ys) :
    ∃ m s', m = xs.length/k.size ∧ m ≤ n ∧ k.decrypt m s xs = (bs.take (m*k.size),s') ∧
      k.encrypt (n-m) s' (bs.drop (m*k.size)) =
        (xs.drop (m*k.size)++ys,(k.encrypt n s bs).2) := by
  obtain ⟨m,hm⟩ : ∃ m, m = xs.length/k.size := ⟨_,rfl⟩
  have hall := congrArg List.length h
  rw [length_encrypt k s hlen.ge,List.length_append] at hall
  have hle : m*k.size ≤ xs.length := hm ▸ Nat.div_mul_le_self _ _
  have hmn : m ≤ n := by
    apply Nat.le_of_mul_le_mul_right _ k.size_pos
    omega
  have htake : (bs.take (m*k.size)).length = m*k.size := by
    rw [List.length_take]
    exact Nat.min_eq_left (by omega)
  have hsplit : k.encrypt (m+(n-m)) s (bs.take (m*k.size)++bs.drop (m*k.size)) = _ :=
    encrypt_append k s htake
  rw [Nat.add_sub_cancel' hmn,List.take_append_drop,Prod.ext_iff] at hsplit
  have hfirst := length_encrypt k s htake.ge
  have hxs : (k.encrypt m s (bs.take (m*k.size))).1++xs.drop (m*k.size) = xs := by
    have htakes := congrArg (List.take (m*k.size)) (hsplit.1.symm.trans h)
    rw [List.take_left' hfirst,List.take_append_of_le_length hle] at htakes
    rw [htakes,List.take_append_drop]
  refine ⟨m,(k.encrypt m s (bs.take (m*k.size))).2,hm,hmn,?_,?_⟩
  · rw [← hxs,decrypt_encrypt k s _ htake.ge,List.take_of_length_le htake.le]
  · have hdrops := congrArg (List.drop (m*k.size)) (hsplit.1.symm.trans h)
    rw [List.drop_left' hfirst,List.drop_append_of_le_length hle] at hdrops
    exact Prod.ext hdrops hsplit.2.symm

/-- Between a writer in the state `w` and a reader in the state `r` the bytes `coming` carry
`plain`; without a state nothing is encrypted. -/
def Carries (w r : Option σ) (coming plain : List β) : Prop :=
  match r with
  | none => w = none ∧ coming = plain
  | some s => ∃ n t, w = some t ∧ plain.length = n*k.size ∧ k.encrypt n s plain = (coming,t)

section
variable {k} {w r : Option σ} {s : σ} {coming plain xs ys bs : List β}

theorem carries_nil (w : Option σ) : Carries k w w [] [] := by
  cases w with
  | none => exact ⟨rfl,rfl⟩
  | some s => exact ⟨0,s,rfl,(Nat.zero_mul _).symm,rfl⟩

/-- Without a state the writer adds bytes as they are. -/
theorem Carries.write_plain (h : Carries k none r coming plain) (bs : List β) :
    Carries k none r (coming++bs) (plain++bs) := by
  cases r with
  | none => exact ⟨rfl,by rw [h.2]⟩
  | some s =>
      obtain ⟨n,t,ht,-⟩ := h
      cases ht

/-- With a state the writer adds whole blocks. -/
theorem Carries.write {n : ℕ} (h : Carries k (some s) r coming plain)
    (hbs : bs.length = n*k.size) :
    Carries k (some (k.encrypt n s bs).2) r (coming++(k.encrypt n s bs).1) (plain++bs) := by
  cases r with
  | none => cases h.1
  | some s₀ =>
      obtain ⟨m,t,ht,hlen,henc⟩ := h
      cases ht
      refine ⟨m+n,_,rfl,?_,?_⟩
      · rw [List.length_append,hlen,hbs,Nat.add_mul]
      · rw [encrypt_append k s₀ hlen,henc]

/-- Without a state the reader has the bytes at once. -/
theorem Carries.read_plain (h : Carries k w none (xs++ys) plain) :
    ∃ rest, plain = xs++rest ∧ Carries k w none ys rest :=
  ⟨ys,h.2.symm,h.1,rfl⟩

/-- With a state the reader has the whole blocks of what has come. -/
theorem Carries.read (h : Carries k w (some s) (xs++ys) plain) :
    ∃ bs s' rest, k.decrypt (xs.length/k.size) s xs = (bs,s') ∧ plain = bs++rest ∧
      Carries k w (some s') (xs.drop (xs.length/k.size*k.size)++ys) rest := by
  obtain ⟨n,t,rfl,hlen,henc⟩ := h
  obtain ⟨m,s',rfl,hmn,hdec,hrest⟩ := decrypt_part k hlen (congrArg Prod.fst henc)
  rw [henc] at hrest
  refine ⟨_,s',_,hdec,(List.take_append_drop _ _).symm,n-xs.length/k.size,t,rfl,?_,hrest⟩
  rw [List.length_drop,hlen,Nat.sub_mul]

end

end Teleproxy.BlockCipher
