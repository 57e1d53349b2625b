import Mathlib.Data.List.TakeWhile

/-!
# Numerals at the start of a text

A numeral is a possibly empty run of blanks, at most one sign and at least one
digit. `Alphabet` says which characters are which and that no character has two
roles; `lex` cuts a text after the digits. By `lex_of_starts` and `starts_of_lex` it
finds the numeral of every text that starts with one and of no other.
-/
namespace Teleproxy.Numeral

structure Alphabet (α : Type*) where
  blank : α → Bool
  digit : α → Bool
  plus : α
  minus : α
  blank_plus : blank plus = false
  blank_minus : blank minus = false
  blank_digit : ∀ c, digit c → blank c = false
  digit_plus : digit plus = false
  digit_minus : digit minus = false

variable {α : Type*} [DecidableEq α] (A : Alphabet α)

/-- The sign, the digits and what follows them. -/
def Alphabet.lex (text : List α) : Option α × List α × List α :=
  match text.dropWhile A.blank with
  | [] => (none,[],[])
  | c::s =>
      if c = A.plus ∨ c = A.minus then (some c,s.takeWhile A.digit,s.dropWhile A.digit)
      else (none,(c::s).takeWhile A.digit,(c::s).dropWhile A.digit)

/-- The text starts with a numeral of this sign and these digits. -/
structure Alphabet.Starts (text : List α) (sign : Option α) (digits rest : List α) : Prop where
  split : ∃ blanks, (∀ c ∈ blanks, A.blank c) ∧ text = blanks++(sign.toList++(digits++rest))
  sign : ∀ c ∈ sign, c = A.plus ∨ c = A.minus
  nonempty : digits ≠ []
  digits : ∀ c ∈ digits, A.digit c
  maximal : ∀ c ∈ rest.head?, A.digit c = false

variable {A}
variable {text digits rest : List α} {sign : Option α}

omit [DecidableEq α] in
theorem dropWhile_head? (p : α → Bool) (s : List α) :
    ∀ c ∈ (s.dropWhile p).head?, p c = false := by
  induction s with
  | nil => simp
  | cons a s ih =>
      cases ha : p a with
      | true => simpa [ha] using ih
      | false => simp [ha]

omit [DecidableEq α] in
theorem takeWhile_append_of_head? {p : α → Bool} {s t : List α} (hs : ∀ c ∈ s, p c)
    (ht : ∀ c ∈ t.head?, p c = false) : (s++t).takeWhile p = s ∧ (s++t).dropWhile p = t := by
  rw [List.takeWhile_append_of_pos hs,List.dropWhile_append_of_pos hs]
  cases t with
  | nil => simp
  | cons c t => simp [ht c (by simp)]

theorem lex_of_starts (h : A.Starts text sign digits rest) : A.lex text = (sign,digits,rest) := by
  obtain ⟨blanks,hblank,rfl⟩ := h.split
  have hcut := takeWhile_append_of_head? h.digits h.maximal
  obtain ⟨d,ds,hds⟩ := List.exists_cons_of_ne_nil h.nonempty
  have hd : A.digit d := h.digits d (by simp [hds])
  have hplus : d ≠ A.plus := by
    rintro rfl
    simp [A.digit_plus] at hd
  have hminus : d ≠ A.minus := by
    rintro rfl
    simp [A.digit_minus] at hd
  unfold Alphabet.lex
  rw [List.dropWhile_append_of_pos hblank]
  cases sign with
  | none =>
      rw [hds] at hcut ⊢
      simp only [Option.toList_none,List.nil_append,List.cons_append] at hcut ⊢
      rw [List.dropWhile_cons_of_neg (by simp [A.blank_digit d hd])]
      simp [hplus,hminus,hcut.1,hcut.2]
  | some c =>
      have hc := h.sign c rfl
      have hblank : A.blank c = false := by
        rcases hc with rfl | rfl
        · exact A.blank_plus
        · exact A.blank_minus
      rw [Option.toList_some,List.singleton_append,List.dropWhile_cons_of_neg (by simp [hblank])]
      simp [hc,hcut.1,hcut.2]

theorem starts_of_lex (h : A.lex text = (sign,digits,rest)) (hne : digits ≠ []) :
    A.Starts text sign digits rest := by
  have hsplit : text.takeWhile A.blank++text.dropWhile A.blank = text :=
    List.takeWhile_append_dropWhile
  have hblank : ∀ c ∈ text.takeWhile A.blank, A.blank c := fun c hc => List.mem_takeWhile_imp hc
  unfold Alphabet.lex at h
  cases hs : text.dropWhile A.blank with
  | nil =>
      rw [hs] at h
      simp only [Prod.mk.injEq] at h
      exact absurd h.2.1.symm hne
  | cons c s =>
      rw [hs] at h hsplit
      dsimp only at h
      split at h
      · next hc =>
          obtain ⟨rfl,rfl,rfl⟩ := Prod.mk.injEq .. ▸ Prod.mk.injEq .. ▸ h
          refine ⟨⟨_,hblank,?_⟩,by simpa using hc,hne,fun c hc => List.mem_takeWhile_imp hc,
            dropWhile_head? A.digit s⟩
          rw [List.takeWhile_append_dropWhile]
          exact hsplit.symm
      · obtain ⟨rfl,rfl,rfl⟩ := Prod.mk.injEq .. ▸ Prod.mk.injEq .. ▸ h
        refine ⟨⟨_,hblank,?_⟩,by simp,hne,fun c hc => List.mem_takeWhile_imp hc,
          dropWhile_head? A.digit (c::s)⟩
        rw [List.takeWhile_append_dropWhile]
        exact hsplit.symm

section
variable {c : α}

omit [DecidableEq α] in
/-- A text is cut where it was cut before when something is put behind it that the
cut does not go into. -/
theorem while_append_cons {p : α → Bool} (hc : p c = false) :
    (text++c::rest).takeWhile p = text.takeWhile p ∧
      (text++c::rest).dropWhile p = text.dropWhile p++c::rest := by
  induction text with
  | nil => simp [hc]
  | cons x text ih => cases hx : p x <;> simp [hx,ih]

theorem lex_blanks {blanks : List α} (h : ∀ c ∈ blanks, A.blank c) :
    A.lex (blanks++text) = A.lex text := by
  unfold Alphabet.lex
  rw [List.dropWhile_append_of_pos h]

/-- The cut stops at the latest at a character that no numeral contains. -/
theorem lex_rest_ne_nil (h : c ∈ text) (hblank : A.blank c = false) (hdigit : A.digit c = false)
    (hplus : c ≠ A.plus) (hminus : c ≠ A.minus) : (A.lex text).2.2 ≠ [] := by
  have hleft : ∀ {p : α → Bool} {s : List α}, p c = false → c ∈ s → c ∈ s.dropWhile p := by
    intro p s hp hs
    rw [← List.takeWhile_append_dropWhile (p := p) (l := s),List.mem_append] at hs
    exact hs.resolve_left fun hmem => by simpa [hp] using List.mem_takeWhile_imp hmem
  have hmem := hleft hblank h
  unfold Alphabet.lex
  cases hx : text.dropWhile A.blank with
  | nil => simp [hx] at hmem
  | cons x s =>
      rw [hx] at hmem
      dsimp only
      split
      · next hsign =>
          have hne : c ≠ x := by
            rintro rfl
            exact hsign.elim hplus hminus
          exact List.ne_nil_of_mem (hleft hdigit (List.mem_of_ne_of_mem hne hmem))
      · exact List.ne_nil_of_mem (hleft hdigit hmem)

theorem lex_rest_length (h : (A.lex text).2.1 ≠ []) : (A.lex text).2.2.length < text.length := by
  have hs : A.Starts text (A.lex text).1 (A.lex text).2.1 (A.lex text).2.2 :=
    starts_of_lex rfl h
  have ⟨blanks,_,htext⟩ := hs.split
  have hlen := congrArg List.length htext
  have hpos := List.length_pos_iff.mpr h
  simp only [List.length_append] at hlen
  omega

end

end Teleproxy.Numeral
