import Mathlib.Data.List.Infix

/-!
# A stream that arrives in segments

A reader with a state of type `S` is fed a list of `α` in segments. A `Feed` is
the reader together with what it has been given and what is still to come; an
event is the length of the next segment. Where the segments are cut is not part
of the stream, so a property of the reader that speaks only of what was
received holds of every way to cut it.
-/
namespace Teleproxy.Segments
variable {S α : Type*} {read : List α → S → S}

structure Feed (S α : Type*) where
  state : S
  received : List α := []
  coming : List α

/-- The next `n` elements arrive in one segment. -/
def next (read : List α → S → S) (x : Feed S α) (n : ℕ) : Feed S α :=
  ⟨read (x.coming.take n) x.state,x.received++x.coming.take n,x.coming.drop n⟩

/-- The last `n` elements that arrived. -/
def Feed.held (x : Feed S α) (n : ℕ) : List α := x.received.drop (x.received.length-n)

theorem stream_next (x : Feed S α) (n : ℕ) :
    (next read x n).received++(next read x n).coming = x.received++x.coming := by
  unfold next
  dsimp only
  rw [List.append_assoc,List.take_append_drop]

theorem Feed.held_eq {x : Feed S α} {as bs : List α} (hx : x.received = as++bs) :
    x.held bs.length = bs := by
  unfold Feed.held
  rw [hx,List.length_append,Nat.add_sub_cancel,List.drop_left]

/-- A cut of two lists in a row lies before the end of the first or behind it. -/
theorem prefix_append_cases {q as bs : List α} (hq : q <+: as++bs) :
    q <+: as ∧ q.length < as.length ∨ ∃ r, q = as++r ∧ r <+: bs := by
  rcases Nat.lt_or_ge q.length as.length with hlt | hge
  · exact .inl ⟨List.prefix_of_prefix_length_le hq (List.prefix_append _ _) hlt.le,hlt⟩
  · obtain ⟨r,rfl⟩ := List.prefix_of_prefix_length_le (List.prefix_append as bs) hq hge
    exact .inr ⟨r,rfl,(List.prefix_append_right_inj as).mp hq⟩

end Teleproxy.Segments
