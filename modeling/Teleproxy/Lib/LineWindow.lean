import Mathlib.Data.List.Basic

/-!
# Lines read through a window

`fragments n eol s` are the pieces that a text is read in when at most `n`
elements are taken at a time and a piece also ends behind each end of line.
Lines that fit into the window are read as lines: a function that yields
nothing for an empty line and does not look at the end of a line yields the same
for the pieces as for the lines. A longer line falls into several pieces.
-/
namespace Teleproxy.LineWindow
variable {α β : Type*} [DecidableEq α]

/-- The pieces of a text behind the elements that were already taken. -/
def fragmentsFrom (n : ℕ) (eol : α) : List α → List α → List (List α)
  | taken, [] => if taken = [] then [] else [taken]
  | taken, c::s =>
      if c = eol ∨ taken.length+1 = n then (taken++[c])::fragmentsFrom n eol [] s
      else fragmentsFrom n eol (taken++[c]) s

def fragments (n : ℕ) (eol : α) (s : List α) : List (List α) := fragmentsFrom n eol [] s

def lines (eol : α) (s : List α) : List (List α) := s.splitOn eol

variable {n : ℕ} {eol : α}

theorem lines_append (p s : List α) (hp : eol ∉ p) :
    lines eol (p++s) = (lines eol s).modifyHead (p++·) := by
  induction p with
  | nil => cases h : lines eol s <;> simp [h]
  | cons c p ih =>
      rw [List.mem_cons,not_or] at hp
      have hc : (c == eol) = false := by simpa using Ne.symm hp.1
      rw [lines,List.cons_append,List.splitOn_cons_eq_if_modifyHead,hc]
      show (lines eol (p++s)).modifyHead (List.cons c) = _
      rw [ih hp.2]
      cases h : lines eol s <;> simp

theorem lines_line (p s : List α) (hp : eol ∉ p) :
    lines eol (p++eol::s) = p::lines eol s := by
  rw [lines_append p _ hp,lines,List.splitOn_cons_eq_if_modifyHead]
  simp [lines]

theorem lines_single (p : List α) (hp : eol ∉ p) : lines eol p = [p] :=
  List.splitOn_eq_singleton hp

/-- A line that fills the window is followed by the end of a line or of the text. -/
theorem next_of_full {p s : List α} (hp : eol ∉ p) (hlen : p.length = n)
    (h : ∀ l ∈ lines eol (p++s), l.length ≤ n) : s = [] ∨ ∃ s', s = eol::s' := by
  cases s with
  | nil => exact .inl rfl
  | cons d s =>
      by_cases hd : d = eol
      · exact .inr ⟨s,by rw [hd]⟩
      · have hpd : eol ∉ p++[d] := by
          rw [List.mem_append,List.mem_singleton]
          exact fun hc => hc.elim hp fun he => hd he.symm
        rw [List.append_cons,lines_append _ s hpd] at h
        cases hs : lines eol s with
        | nil => exact absurd hs (List.splitOn_ne_nil eol s)
        | cons l ls =>
            have hle := h (p++[d]++l) (by simp [hs])
            simp only [List.length_append,List.length_singleton] at hle
            omega

theorem filterMap_fragmentsFrom (f : List α → Option β) (hnil : f [] = none)
    (heol : ∀ l, eol ∉ l → f (l++[eol]) = f l) {taken s : List α} (htaken : eol ∉ taken)
    (hroom : taken.length < n) (h : ∀ l ∈ lines eol (taken++s), l.length ≤ n) :
    (fragmentsFrom n eol taken s).filterMap f = (lines eol (taken++s)).filterMap f := by
  have hpos : ([] : List α).length < n := by
    simp only [List.length_nil]
    omega
  induction s generalizing taken with
  | nil =>
      rw [List.append_nil,lines_single taken htaken,fragmentsFrom]
      split
      · next he => simp [he,hnil]
      · rfl
  | cons c s ih =>
      rw [fragmentsFrom]
      by_cases hc : c = eol
      · subst hc
        rw [if_pos (.inl rfl),lines_line taken s htaken]
        rw [lines_line taken s htaken] at h
        have hs := @ih [] (by simp) hpos fun l hl => h l (List.mem_cons_of_mem _ hl)
        rw [List.nil_append] at hs
        simp only [List.filterMap_cons,heol taken htaken,hs]
      · have hnext : eol ∉ taken++[c] := by
          rw [List.mem_append,List.mem_singleton]
          exact fun hm => hm.elim htaken fun he => hc he.symm
        have hsplit : taken++c::s = taken++[c]++s := List.append_cons taken c s
        rw [hsplit] at h ⊢
        by_cases hfull : taken.length+1 = n
        · rw [if_pos (.inr hfull)]
          rcases next_of_full hnext (by simpa using hfull) h with rfl | ⟨s',rfl⟩
          · simp [fragmentsFrom,lines_single _ hnext]
          · rw [lines_line _ s' hnext] at h ⊢
            have hs := @ih [] (by simp) hpos (by
              intro l hl
              rw [lines_line [] s' (by simp)] at hl
              rcases List.mem_cons.mp hl with rfl | hl
              · simp
              · exact h l (List.mem_cons_of_mem _ hl))
            rw [lines_line [] s' (by simp)] at hs
            simp only [List.filterMap_cons,hs,hnil]
        · rw [if_neg (by simp [hc,hfull])]
          exact ih hnext (by simp; omega) h

/-- Lines that fit into the window are read as lines. -/
theorem filterMap_fragments (f : List α → Option β) (hnil : f [] = none)
    (heol : ∀ l, eol ∉ l → f (l++[eol]) = f l) (hn : 0 < n) {s : List α}
    (h : ∀ l ∈ lines eol s, l.length ≤ n) :
    (fragments n eol s).filterMap f = (lines eol s).filterMap f :=
  filterMap_fragmentsFrom f hnil heol (by simp) hn h

end Teleproxy.LineWindow
