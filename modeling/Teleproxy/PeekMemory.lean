import Teleproxy.HandshakeAnswer
import Teleproxy.ProtocolProbe

/-!
# Behind the peek buffer

The handshake probe copies the first bytes of the input to a buffer on the stack that has
room for just these, and searches it with `strstr`, which stops at a zero byte. Where it
stops when the bytes have none depends on what lies behind the buffer. Running out of
memory to read counts as a zero byte here.
-/
namespace Teleproxy.PeekMemory
open WorkerProcess (WsState)
open ClientInput HttpHandshake HandshakeAnswer ProtocolProbe

/-- What the probe does: the new state, the bytes skipped, the answer, whether the
connection fails, and what is returned unless parsing goes on. -/
structure Taken where
  wsState : WsState
  skipped : ℕ := 0
  answer : Bytes := []
  failed : Bool := false
  result : Option Res
  deriving DecidableEq

section Model
variable (acceptKey : Bytes → Option Bytes)

/-- Skipping more than there is fails an assertion. -/
def skip (buf : Bytes) (consume : ℕ) (state : WsState) (answer : Bytes) : Option Taken :=
  if buf.length < consume then none
  else some {wsState := state, skipped := consume, answer := answer,
             result := if buf.length = consume then some .needMore else none}

/-- `strstr (peek_buf, "\r\n\r\n")`, with the memory behind the buffer. -/
def findEnd (buf memory : Bytes) : Option ℕ := strstr headerEnd (buf.take 4096++memory)

def postProbe (buf memory : Bytes) : Option Taken :=
  if buf.length < 16 then some {wsState := .handshake, result := some .needMore}
  else
    match findEnd buf memory with
    | none =>
        if buf.length > 4096 then some {wsState := .handshake, failed := true, result := some .done}
        else some {wsState := .handshake, result := some .needMore}
    | some i => skip buf (i+4) .httpStream http200

def upgradeProbe (buf memory : Bytes) : Option Taken :=
  match wsParseUpgradeRequest buf with
  | .more => some {wsState := .handshake, result := some .needMore}
  | .notUpgrade => some {wsState := .none, result := none}
  | .upgrade =>
      match acceptKey (wsKey buf) with
      | none => some {wsState := .handshake, failed := true, result := some .done}
      | some key =>
          let consume := (findEnd buf memory).elim (min buf.length 4096) (·+4)
          skip buf consume .active (wsBuildUpgradeResponse key)

/-- The input starts with `POST`. -/
def isPost (buf : Bytes) : Prop := 4 ≤ buf.length ∧ buf.take 4 = bytesOf "POST"

instance (buf : Bytes) : Decidable (isPost buf) := inferInstanceAs (Decidable (_ ∧ _))

/-- The probe in a connection that has received `buf`; `none` is a failed assertion. -/
def probe (buf memory : Bytes) : Option Taken :=
  if isPost buf then postProbe buf memory else upgradeProbe acceptKey buf memory

end Model

/-- A POST request of which the first bytes neither end the header nor hold a zero byte. -/
def Exposed (buf : Bytes) : Prop :=
  isPost buf ∧ 16 ≤ buf.length ∧ strstr headerEnd (buf.take 4096) = none ∧ (0 : UInt8) ∉ buf.take 4096

section Proofs
variable {buf memory : Bytes} {acceptKey : Bytes → Option Bytes}

theorem findEnd_some {i : ℕ} (h : strstr headerEnd (buf.take 4096) = some i) :
    findEnd buf memory = some i := strstr_append h memory

theorem findEnd_zero (hnone : strstr headerEnd (buf.take 4096) = none)
    (hzero : (0 : UInt8) ∈ buf.take 4096) : findEnd buf memory = none := by
  by_contra hfound
  exact no_zero_of_end hnone hfound hzero

theorem findEnd_nil : findEnd buf [] = strstr headerEnd (buf.take 4096) := by
  rw [findEnd,List.append_nil]

/-- An empty line behind the buffer is taken for the end of the header. -/
theorem findEnd_exposed (hzero : (0 : UInt8) ∉ buf.take 4096) : ∃ i, findEnd buf headerEnd = some i := by
  obtain ⟨i,-,hi⟩ := strstr_of_at (p := headerEnd) (s := buf.take 4096++headerEnd)
    (i := (buf.take 4096).length) (by rw [Occurrences.At,List.drop_left]) (by
      intro k hk
      rw [List.getElem?_append_left hk]
      exact ne_zero_of_not_mem hzero k)
  exact ⟨i,hi⟩

/-- An upgrade request holds the end of its header. -/
theorem end_of_upgrade (h : wsParseUpgradeRequest buf = .upgrade) :
    ∃ i, strstr headerEnd (buf.take 4096) = some i := by
  rw [← Option.ne_none_iff_exists']
  intro hnone
  simp only [wsParseUpgradeRequest,hnone,if_true] at h
  split_ifs at h

theorem upgradeProbe_eq (memory' : Bytes) :
    upgradeProbe acceptKey buf memory = upgradeProbe acceptKey buf memory' := by
  unfold upgradeProbe
  cases hparse : wsParseUpgradeRequest buf with
  | more => rfl
  | notUpgrade => rfl
  | upgrade =>
      obtain ⟨i,hi⟩ := end_of_upgrade hparse
      simp only [findEnd_some hi]

theorem wsState_skip {consume : ℕ} {state : WsState} {answer : Bytes} {t : Taken}
    (h : skip buf consume state answer = some t) : t.wsState = state := by
  unfold skip at h
  split at h
  · cases h
  · cases h
    rfl

theorem skip_cases {consume : ℕ} {state : WsState} {answer : Bytes} {t : Taken}
    (hstate : state = .active ∨ state = .httpStream) (h : skip buf consume state answer = some t) :
    t.wsState = .active ∨ t.wsState = .httpStream := by
  rw [wsState_skip h]
  exact hstate

/-- A probe that neither fails nor answers takes nothing. -/
theorem probe_cases {acceptKey : Bytes → Option Bytes} {t : Taken}
    (h : probe acceptKey buf memory = some t) :
    t.failed = true ∨ (t.wsState = .active ∨ t.wsState = .httpStream) ∨
      (t.wsState = .handshake ∨ t.wsState = .none) ∧ t.skipped = 0 ∧ t.failed = false := by
  unfold probe at h
  split at h
  · unfold postProbe at h
    split at h
    · cases h
      exact Or.inr (Or.inr ⟨Or.inl rfl,rfl,rfl⟩)
    · split at h
      · split at h
        · cases h
          exact Or.inl rfl
        · cases h
          exact Or.inr (Or.inr ⟨Or.inl rfl,rfl,rfl⟩)
      · exact Or.inr (Or.inl (skip_cases (Or.inr rfl) h))
  · unfold upgradeProbe at h
    split at h
    · cases h
      exact Or.inr (Or.inr ⟨Or.inl rfl,rfl,rfl⟩)
    · cases h
      exact Or.inr (Or.inr ⟨Or.inr rfl,rfl,rfl⟩)
    · split at h
      · cases h
        exact Or.inl rfl
      · exact Or.inr (Or.inl (skip_cases (Or.inl rfl) h))

/-- The decision is the same for all contents of the memory exactly when a POST request has
ended, holds a zero byte, or is too short to be looked at. -/
theorem probe_memory_iff (acceptKey : Bytes → Option Bytes) (buf : Bytes) :
    (∀ memory memory', probe acceptKey buf memory = probe acceptKey buf memory') ↔ ¬ Exposed buf := by
  constructor
  · intro hall hexposed
    obtain ⟨hpost,hlen,hnone,hzero⟩ := hexposed
    have heq := hall [] headerEnd
    obtain ⟨i,hi⟩ := findEnd_exposed hzero
    have hshort : ¬ buf.length < 16 := by omega
    simp only [probe,if_pos hpost,postProbe,if_neg hshort,findEnd_nil,hnone,hi] at heq
    split_ifs at heq
    · cases wsState_skip heq.symm
    · cases wsState_skip heq.symm
  · intro hexposed memory memory'
    unfold probe
    by_cases hpost : isPost buf
    · rw [if_pos hpost,if_pos hpost]
      unfold postProbe
      by_cases hshort : buf.length < 16
      · rw [if_pos hshort,if_pos hshort]
      · rw [if_neg hshort,if_neg hshort]
        have hsame : findEnd buf memory = findEnd buf memory' := by
          cases hend : strstr headerEnd (buf.take 4096) with
          | some i => rw [findEnd_some hend,findEnd_some hend]
          | none =>
              have hzero : (0 : UInt8) ∈ buf.take 4096 := by
                by_contra hzero
                exact hexposed ⟨hpost,by omega,hend,hzero⟩
              rw [findEnd_zero hend hzero,findEnd_zero hend hzero]
        rw [hsame]
    · rw [if_neg hpost,if_neg hpost]
      exact upgradeProbe_eq memory'

/-- With nothing behind the buffer this is the probe of the other modules. -/
theorem probe_nil {c : Conn} {key : Bytes → Bytes} (hs : c.wsState = .handshake) (he : c.error = false) :
    ∃ t, probe (fun k => some (key k)) c.inBuf [] = some t ∧
      ClientInput.probe c = ({c with wsState := t.wsState, inBuf := c.inBuf.drop t.skipped,
                                     error := t.failed},t.result) := by
  have hstay : {c with wsState := .handshake, inBuf := c.inBuf.drop 0, error := false} = c := by
    rw [List.drop_zero,← hs,← he]
  have hrest {i : ℕ} (hi : strstr headerEnd (c.inBuf.take 4096) = some i) :
      ¬ c.inBuf.length < i+4 ∧ (c.inBuf.drop (i+4) = [] ↔ c.inBuf.length = i+4) := by
    have hle := strstr_le hi
    have hlen : headerEnd.length = 4 := rfl
    rw [hlen,List.length_take] at hle
    rw [List.drop_eq_nil_iff]
    omega
  rw [probe,ClientInput.probe,if_neg (not_not.mpr hs)]
  by_cases hpost : isPost c.inBuf
  · rw [if_pos hpost,if_pos (show c.inBuf.length ≥ 4 ∧ _ from hpost),postProbe,probePost,findEnd_nil]
    by_cases hshort : c.inBuf.length < 16
    · rw [if_pos hshort,if_pos hshort]
      exact ⟨_,rfl,by rw [hstay]⟩
    · rw [if_neg hshort,if_neg hshort]
      cases hend : strstr headerEnd (c.inBuf.take 4096) with
      | none =>
          rw [if_pos rfl]
          by_cases hlong : c.inBuf.length > 4096
          · simp only [if_pos hlong]
            exact ⟨_,rfl,by rw [List.drop_zero,← hs]⟩
          · simp only [if_neg hlong]
            exact ⟨_,rfl,by rw [hstay]⟩
      | some i =>
          obtain ⟨hlong,hempty⟩ := hrest hend
          simp only [skip,if_neg hlong,headerLength,hend,hempty,if_neg (Option.some_ne_none i)]
          exact ⟨_,rfl,by rw [he]⟩
  · rw [if_neg hpost,if_neg (show ¬ (c.inBuf.length ≥ 4 ∧ _) from hpost),upgradeProbe,probeUpgrade]
    cases hparse : wsParseUpgradeRequest c.inBuf with
    | more => exact ⟨_,rfl,by rw [hstay]⟩
    | notUpgrade => exact ⟨_,rfl,by rw [List.drop_zero,← he]⟩
    | upgrade =>
        obtain ⟨i,hend⟩ := end_of_upgrade hparse
        obtain ⟨hlong,hempty⟩ := hrest hend
        simp only [findEnd_nil,hend,Option.elim_some,skip,if_neg hlong,headerLength,hempty]
        exact ⟨_,rfl,by rw [he]⟩

/-- The last byte of the header has not arrived, but lies on the stack. -/
theorem probe_reads_stack :
    probe some (bytesOf "POST / HTTP/1.1\r\n\r") [0] ≠ probe some (bytesOf "POST / HTTP/1.1\r\n\r") [10] := by
  decide

end Proofs

end Teleproxy.PeekMemory
