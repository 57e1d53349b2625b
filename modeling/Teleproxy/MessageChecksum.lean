import Teleproxy.Crc32
import Teleproxy.MessageParts

/-!
# Checksums of messages

`rwm_crc32` runs a checksum over the parts of a message. The CRC-32 takes up a string
in pieces, so the result depends on the bytes alone and not on how they are spread over
the parts.
-/
namespace Teleproxy.MessageChecksum
open ClientInput (Bytes)
open Crc32 MessageParts

/-- The type `crc32_partial_func_t`. -/
abbrev CrcPartial := Bytes → BitVec 32 → BitVec 32

def crc32Process (crc32Partial : CrcPartial) (extra : BitVec 32) (data : Bytes) : ℤ × BitVec 32 :=
  (0,crc32Partial data extra)

/-- The function that `crc32_partial` points at is chosen when the program starts. -/
def rwmCrc32 (crc32Partial : CrcPartial) (fuel : ℕ) (h : Heap) (raw : RawMessage) (bytes : ℤ) :
    Option (BitVec 32) := do
  let (res,crc) ← rwmProcess h raw (crc32Process crc32Partial) fuel bytes (~~~0)
  if res = bytes then some (~~~crc) else none

/-- The function in `custom_crc32_data` is the same for all blocks. -/
def customCrc32Process (customCrc32Partial : CrcPartial) (crc : BitVec 32) (data : Bytes) :
    ℤ × BitVec 32 :=
  (0,customCrc32Partial data crc)

def rwmCustomCrc32 (fuel : ℕ) (h : Heap) (raw : RawMessage) (bytes : ℤ)
    (customCrc32Partial : CrcPartial) : Option (BitVec 32) :=
  if raw.totalBytes < bytes then none
  else do
    let (res,crc) ← rwmProcess h raw (customCrc32Process customCrc32Partial) fuel bytes (-1)
    if res = bytes then some (~~~crc) else none

/-- The checksum of a string. -/
def checksum (crc32Partial : CrcPartial) (data : Bytes) : BitVec 32 :=
  ~~~(if data = [] then ~~~0 else crc32Partial data (~~~0))

section
variable {crc32Partial : CrcPartial} {h : Heap} {raw : RawMessage} {windows : List Bytes}
  {bytes : ℤ} {fuel : ℕ}

theorem rwmCrc32_spec (hstream : Streams fun c data => crc32Partial data c)
    (hwell : WellFormed h raw windows) (hfuel : windows.length < fuel) :
    rwmCrc32 crc32Partial fuel h raw bytes =
      if 0 ≤ bytes ∧ bytes ≤ windows.flatten.length then
        some (checksum crc32Partial (windows.flatten.take bytes.toNat))
      else none := by
  unfold rwmCrc32
  by_cases hbytes : 0 ≤ bytes
  · have hprocess : ∀ e bs, crc32Process crc32Partial e bs = (0,crc32Partial bs e) :=
      fun _ _ => rfl
    rw [rwmProcess_spec hstream hprocess hwell hbytes hfuel,Option.bind_eq_bind,Option.bind_some]
    dsimp only
    by_cases hle : bytes ≤ windows.flatten.length
    · have hboth : 0 ≤ bytes ∧ bytes ≤ windows.flatten.length := ⟨hbytes,hle⟩
      rw [if_pos (min_eq_left hle),if_pos hboth]
      rfl
    · have hless : min bytes (windows.flatten.length : ℤ) ≠ bytes := by omega
      have hnot : ¬(0 ≤ bytes ∧ bytes ≤ windows.flatten.length) := fun h => hle h.2
      rw [if_neg hless,if_neg hnot]
  · unfold rwmProcess rwmProcessEx
    rw [if_pos (.inl (not_le.mp hbytes)),if_neg fun h => hbytes h.1]
    rfl

theorem rwmCustomCrc32_eq (hwell : WellFormed h raw windows)
    (hstream : Streams fun c data => crc32Partial data c) (hfuel : windows.length < fuel) :
    rwmCustomCrc32 fuel h raw bytes crc32Partial = rwmCrc32 crc32Partial fuel h raw bytes := by
  unfold rwmCustomCrc32
  split
  · next hmore =>
      rw [hwell.1] at hmore
      rw [rwmCrc32_spec hstream hwell hfuel,if_neg fun h => not_lt.mpr h.2 hmore]
  · rfl

end

theorem crc32PartialGeneric_append (a b : Bytes) (c : BitVec 32) :
    crc32PartialGeneric (a++b) c = crc32PartialGeneric b (crc32PartialGeneric a c) := by
  rw [crc32PartialGeneric_eq,crc32PartialGeneric_eq,crc32PartialGeneric_eq,crc32_append]

theorem crc32PartialGeneric_streams : Streams fun c data => crc32PartialGeneric data c :=
  fun c a b => crc32PartialGeneric_append a b c

/-- The CRC-32 by words is the one by bits, and so it can be taken in pieces; the
checksums of a message are those of its bytes, and are the same for every chain of parts
with the same bytes. -/
theorem crc32_of_contents :
    (∀ data c, crc32PartialGeneric data c = crc32 data c) ∧
    (∀ a b c, crc32PartialGeneric (a++b) c = crc32PartialGeneric b (crc32PartialGeneric a c)) ∧
    (∀ h raw windows fuel (bytes : ℕ), WellFormed h raw windows → windows.length < fuel →
      bytes ≤ windows.flatten.length →
      rwmCrc32 crc32PartialGeneric fuel h raw bytes =
          some (~~~crc32 (windows.flatten.take bytes) (~~~0)) ∧
        rwmCustomCrc32 fuel h raw bytes crc32PartialGeneric =
          some (~~~crc32 (windows.flatten.take bytes) (~~~0))) ∧
    ∀ crc32Partial : CrcPartial, (Streams fun c data => crc32Partial data c) →
      ∀ h h' raw raw' windows windows', WellFormed h raw windows → WellFormed h' raw' windows' →
        windows.flatten = windows'.flatten → ∀ (bytes : ℤ) fuel, windows.length < fuel →
        windows'.length < fuel →
        rwmCrc32 crc32Partial fuel h raw bytes = rwmCrc32 crc32Partial fuel h' raw' bytes ∧
          rwmCustomCrc32 fuel h raw bytes crc32Partial =
            rwmCustomCrc32 fuel h' raw' bytes crc32Partial := by
  refine ⟨crc32PartialGeneric_eq,crc32PartialGeneric_append,?_,?_⟩
  · intro h raw windows fuel bytes hwell hfuel hle
    have hvalue : rwmCrc32 crc32PartialGeneric fuel h raw bytes =
        some (~~~crc32 (windows.flatten.take bytes) (~~~0)) := by
      rw [rwmCrc32_spec crc32PartialGeneric_streams hwell hfuel,if_pos (by omega),Int.toNat_natCast]
      unfold checksum
      split
      · next hnil =>
          rw [hnil]
          rfl
      · rw [crc32PartialGeneric_eq]
    exact ⟨hvalue,(rwmCustomCrc32_eq hwell crc32PartialGeneric_streams hfuel).trans hvalue⟩
  · intro crc32Partial hstream h h' raw raw' windows windows' hwell hwell' hsame bytes fuel hfuel
      hfuel'
    have hcrc : rwmCrc32 crc32Partial fuel h raw bytes =
        rwmCrc32 crc32Partial fuel h' raw' bytes := by
      rw [rwmCrc32_spec hstream hwell hfuel,rwmCrc32_spec hstream hwell' hfuel',hsame]
    refine ⟨hcrc,?_⟩
    rw [rwmCustomCrc32_eq hwell hstream hfuel,rwmCustomCrc32_eq hwell' hstream hfuel',hcrc]

/-- Three parts: a message of two, and one with the same bytes. -/
def sampleHeap : Heap where
  parts mp := [⟨some 1,0,1,3⟩,⟨none,1,0,2⟩,⟨none,2,0,4⟩][mp]?
  buffers part := [[0,1,2],[3,4],[1,2,3,4]][part]?

theorem sample_same_checksum :
    rwmCrc32 crc32PartialGeneric 3 sampleHeap ⟨some 0,some 1,4,1,2⟩ 4 =
      rwmCrc32 crc32PartialGeneric 3 sampleHeap ⟨some 2,some 2,4,0,4⟩ 4 :=
  (crc32_of_contents.2.2.2 _ crc32PartialGeneric_streams sampleHeap sampleHeap
    ⟨some 0,some 1,4,1,2⟩ ⟨some 2,some 2,4,0,4⟩ [[1,2],[3,4]] [[1,2,3,4]]
    ⟨rfl,.next (by decide) rfl rfl rfl (.last rfl rfl rfl)⟩ ⟨rfl,.last rfl rfl rfl⟩
    rfl 4 3 (by decide) (by decide)).1

end Teleproxy.MessageChecksum
