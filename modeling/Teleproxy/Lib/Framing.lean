import Mathlib.Data.List.Basic

/-!
# Messages in frames

A writer puts each message into a frame and a reader takes one message at a time from
what is left of the stream. Both carry a state along, such as the position in a
keystream; `arrived bytes s` is a reader in front of `bytes` with the state `s`. The
messages that fit are those that the reader gets back. If it gets every other one wrong,
then the messages of a whole stream come back exactly when all of them fit.
-/
namespace Teleproxy.Framing
variable {M β σ ρ : Type*}

def writeAll (write : σ → M → Option (List β × σ)) : σ → List M → Option (List β)
  | _, [] => some []
  | s, m::ms => (write s m).bind fun f => (writeAll write f.2 ms).map (f.1++·)

/-- Reads until there is no further message. -/
def readAll (read : ρ → Option (M × ρ)) : ℕ → ρ → List M
  | 0, _ => []
  | fuel+1, r =>
      match read r with
      | none => []
      | some (m,r) => m::readAll read fuel r

/-- What a reader makes of one frame, for messages that fit and for the others. -/
structure Exact (write : σ → M → Option (List β × σ)) (read : ρ → Option (M × ρ))
    (arrived : List β → σ → ρ) (Fits : M → Prop) : Prop where
  stops : ∀ s, read (arrived [] s) = none
  nonempty : ∀ {s m f}, write s m = some f → f.1 ≠ []
  fits : ∀ {s m f}, write s m = some f → Fits m → ∀ rest,
    read (arrived (f.1++rest) s) = some (m,arrived rest f.2)
  misfits : ∀ {s m f}, write s m = some f → ¬Fits m → ∀ rest r,
    read (arrived (f.1++rest) s) ≠ some (m,r)

variable {write : σ → M → Option (List β × σ)} {read : ρ → Option (M × ρ)}
  {arrived : List β → σ → ρ} {Fits : M → Prop}

theorem writeAll_cons {s : σ} {m : M} {ms : List M} {stream : List β}
    (h : writeAll write s (m::ms) = some stream) :
    ∃ f rest, write s m = some f ∧ writeAll write f.2 ms = some rest ∧ stream = f.1++rest := by
  rw [writeAll,Option.bind_eq_some_iff] at h
  obtain ⟨f,hf,h⟩ := h
  obtain ⟨rest,hrest,rfl⟩ := Option.map_eq_some_iff.mp h
  exact ⟨f,rest,hf,hrest,rfl⟩

theorem length_le_writeAll (hexact : Exact write read arrived Fits) {s : σ} {ms : List M}
    {stream : List β} (h : writeAll write s ms = some stream) : ms.length ≤ stream.length := by
  induction ms generalizing s stream with
  | nil => simp
  | cons m ms ih =>
      obtain ⟨f,rest,hf,hrest,rfl⟩ := writeAll_cons h
      have hpos := List.length_pos_of_ne_nil (hexact.nonempty hf)
      have := ih hrest
      rw [List.length_append,List.length_cons]
      omega

/-- The messages come back if and only if all of them fit. -/
theorem readAll_eq_iff (hexact : Exact write read arrived Fits) {s : σ} {ms : List M}
    {stream : List β} (h : writeAll write s ms = some stream) {fuel : ℕ} (hfuel : ms.length < fuel) :
    readAll read fuel (arrived stream s) = ms ↔ ∀ m ∈ ms, Fits m := by
  induction ms generalizing s stream fuel with
  | nil =>
      obtain rfl : stream = [] := by simpa [writeAll] using h.symm
      cases fuel with
      | zero => simp [readAll]
      | succ fuel => simp [readAll,hexact.stops s]
  | cons m ms ih =>
      obtain ⟨f,rest,hf,hrest,rfl⟩ := writeAll_cons h
      cases fuel with
      | zero => simp at hfuel
      | succ fuel =>
          have hfuel : ms.length < fuel := by simpa using hfuel
          rw [List.forall_mem_cons,readAll]
          by_cases hm : Fits m
          · rw [hexact.fits hf hm]
            simp [ih hrest hfuel,hm]
          · have hread := hexact.misfits hf hm rest
            cases hres : read (arrived (f.1++rest) s) with
            | none => simp [hm]
            | some p =>
                obtain ⟨m',r⟩ := p
                have hne : m' ≠ m := by
                  rintro rfl
                  exact hread r hres
                simp [hm,hne]

/-- Two readers that go along with each other return the same messages. -/
theorem readAll_simulates {ρ' : Type*} {read' : ρ' → Option (M × ρ')} {R : ρ → ρ' → Prop}
    (hrel : ∀ {r r'}, R r r' → Option.Rel (fun a b => a.1 = b.1 ∧ R a.2 b.2) (read r) (read' r'))
    (fuel : ℕ) {r : ρ} {r' : ρ'} (h : R r r') : readAll read fuel r = readAll read' fuel r' := by
  induction fuel generalizing r r' with
  | zero => rfl
  | succ fuel ih =>
      have hstep := hrel h
      rw [readAll,readAll]
      cases hread : read r with
      | none =>
          rw [hread] at hstep
          cases hread' : read' r' with
          | none => rfl
          | some b => rw [hread'] at hstep; cases hstep
      | some a =>
          rw [hread] at hstep
          cases hread' : read' r' with
          | none => rw [hread'] at hstep; cases hstep
          | some b =>
              rw [hread'] at hstep
              cases hstep with
              | some hab =>
                  dsimp only
                  rw [hab.1,ih hab.2]

end Teleproxy.Framing
