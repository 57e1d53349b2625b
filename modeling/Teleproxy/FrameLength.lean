import Teleproxy.PacketParser

/-!
# Two decoders of a packet length

`obfs2_parse_frame_length` was taken out of the packet loop for fuzzing. The loop of
`tcp_rpcs_compact_parse_execute` still has its own decoder, which works on `D->flags`
and keeps the quick-ack bit there. Here each is written as its source has it, with
the flags as one word, and the two are compared on every word, all flags and every limit.

The copy returns `-1` at each rejection. Which test it was is kept here, so that the
comparison is one of reasons too.
-/
namespace Teleproxy.FrameLength
open PacketParser (FrameResult Config Tag)

def rpcFPad : BitVec 32 := 0x8000000#32
def rpcFMedium : BitVec 32 := 0x20000000#32
def rpcFCompact : BitVec 32 := 0x40000000#32
def rpcFQuickack : BitVec 32 := 0x80000000#32
def rpcFExtmode2 : BitVec 32 := 0x20000#32

inductive Reject where
  | transportError | overlong | badLength | tooLong
  deriving DecidableEq, Repr

/-- `obfs2_parse_frame_length` up to the tests of the length: the length, the number of
its bytes and the quick-ack flag. -/
def frameMode (raw4 flags : BitVec 32) : Except Reject (BitVec 32 × ℕ × Bool) :=
  if flags &&& rpcFMedium ≠ 0#32 then
    if raw4.toInt < 0 ∧ -1000 < raw4.toInt then .error .transportError
    else .ok (raw4 &&& ~~~rpcFQuickack,4,raw4 &&& rpcFQuickack != 0#32)
  else
    let (quickack,packetLen) :=
      if raw4 &&& 0x80#32 ≠ 0#32 then (true,raw4 &&& ~~~0x80#32) else (false,raw4)
    if packetLen &&& 0xff#32 = 0x7f#32 then
      let packetLen := packetLen >>> 8
      if packetLen.toInt < 0x7f then .error .overlong else .ok (packetLen <<< 2,4,quickack)
    else .ok ((packetLen &&& 0x7f#32) <<< 2,1,quickack)

/-- `obfs2_parse_frame_length`. An error is its `return -1`. -/
def obfs2ParseFrameLength (raw4 flags : BitVec 32) (maxPacketLen : ℤ) :
    Except Reject FrameResult := do
  let (packetLen,packetLenBytes,quickack) ← frameMode raw4 flags
  if packetLen.toInt ≤ 0 ∨ packetLen &&& 0xc0000000#32 ≠ 0#32 then .error .badLength
  else if flags &&& rpcFPad = 0#32 ∧ packetLen &&& 3#32 ≠ 0#32 then .error .badLength
  else if 0 < maxPacketLen ∧ maxPacketLen < packetLen.toInt then .error .tooLong
  else .ok ⟨packetLen,packetLenBytes,quickack⟩

/-- What the decoder in the loop writes: `D->flags` and two counters of the proxy. -/
structure LoopData where
  flags : BitVec 32
  transportErrorsReceived : ℕ := 0
  quickackPacketsReceived : ℕ := 0
  deriving DecidableEq, Repr

/-- The loop's decoder in medium mode. -/
def loopMedium (packetLen : BitVec 32) (d : LoopData) : LoopData × Except Reject (BitVec 32 × ℕ) :=
  if packetLen.toInt < 0 ∧ -1000 < packetLen.toInt then
    ({d with transportErrorsReceived := d.transportErrorsReceived+1},.error .transportError)
  else
    let d := {d with flags := (d.flags &&& ~~~rpcFQuickack) ||| (packetLen &&& rpcFQuickack)}
    let packetLen := packetLen &&& ~~~rpcFQuickack
    let d := if d.flags &&& rpcFQuickack ≠ 0#32 then
      {d with quickackPacketsReceived := d.quickackPacketsReceived+1} else d
    (d,.ok (packetLen,4))

/-- The loop's decoder in compact mode. -/
def loopCompact (packetLen : BitVec 32) (d : LoopData) :
    LoopData × Except Reject (BitVec 32 × ℕ) :=
  let (d,packetLen) :=
    if packetLen &&& 0x80#32 ≠ 0#32 then
      ({d with flags := d.flags ||| rpcFQuickack,
               quickackPacketsReceived := d.quickackPacketsReceived+1},packetLen &&& ~~~0x80#32)
    else ({d with flags := d.flags &&& ~~~rpcFQuickack},packetLen)
  if packetLen &&& 0xff#32 = 0x7f#32 then
    let packetLen := packetLen >>> 8
    if packetLen.toInt < 0x7f then (d,.error .overlong) else (d,.ok (packetLen <<< 2,4))
  else (d,.ok ((packetLen &&& 0x7f#32) <<< 2,1))

/-- The tests behind both modes; they read `D->flags` as the mode left it. -/
def loopCheck (flags : BitVec 32) (maxPacketLen : ℤ) (packetLen : BitVec 32) : Except Reject Unit :=
  if packetLen.toInt ≤ 0 ∨ packetLen &&& 0xc0000000#32 ≠ 0#32 ∨
      (flags &&& rpcFPad = 0#32 ∧ packetLen &&& 3#32 ≠ 0#32) then .error .badLength
  else if maxPacketLen < packetLen.toInt ∧ 0 < maxPacketLen then .error .tooLong
  else .ok ()

def loopMode (d : LoopData) (packetLen : BitVec 32) : LoopData × Except Reject (BitVec 32 × ℕ) :=
  if d.flags &&& rpcFMedium ≠ 0#32 then loopMedium packetLen d else loopCompact packetLen d

/-- The length decoder inside of `tcp_rpcs_compact_parse_execute`: the new data of the
connection, and the length with the number of its bytes or the reason to fail. -/
def loopLength (d : LoopData) (maxPacketLen : ℤ) (packetLen : BitVec 32) :
    LoopData × Except Reject (BitVec 32 × ℕ) :=
  let (d,res) := loopMode d packetLen
  (d,do
    let (packetLen,packetLenBytes) ← res
    loopCheck d.flags maxPacketLen packetLen
    .ok (packetLen,packetLenBytes))

/-- The pad bit stays when only the quick-ack bit is written. -/
theorem and_pad_of_and_not {x y : BitVec 32} (h : x &&& ~~~rpcFQuickack = y &&& ~~~rpcFQuickack) :
    x &&& rpcFPad = y &&& rpcFPad := by
  have hpad : ~~~rpcFQuickack &&& rpcFPad = rpcFPad := by decide
  rw [← hpad,← BitVec.and_assoc,h,BitVec.and_assoc]

theorem copy_quickack (x y : BitVec 32) :
    ((x &&& ~~~rpcFQuickack) ||| (y &&& rpcFQuickack)) &&& rpcFQuickack = y &&& rpcFQuickack := by
  ext i hi
  simp only [BitVec.getElem_and,BitVec.getElem_or,BitVec.getElem_not]
  cases x[i] <;> cases y[i] <;> cases rpcFQuickack[i] <;> rfl

theorem copy_quickack_rest (x y : BitVec 32) :
    ((x &&& ~~~rpcFQuickack) ||| (y &&& rpcFQuickack)) &&& ~~~rpcFQuickack =
      x &&& ~~~rpcFQuickack := by
  ext i hi
  simp only [BitVec.getElem_and,BitVec.getElem_or,BitVec.getElem_not]
  cases x[i] <;> cases y[i] <;> cases rpcFQuickack[i] <;> rfl

theorem set_quickack (x : BitVec 32) : (x ||| rpcFQuickack) &&& rpcFQuickack = rpcFQuickack := by
  ext i hi
  simp only [BitVec.getElem_and,BitVec.getElem_or]
  cases x[i] <;> cases rpcFQuickack[i] <;> rfl

theorem set_quickack_rest (x : BitVec 32) :
    (x ||| rpcFQuickack) &&& ~~~rpcFQuickack = x &&& ~~~rpcFQuickack := by
  ext i hi
  simp only [BitVec.getElem_and,BitVec.getElem_or,BitVec.getElem_not]
  cases x[i] <;> cases rpcFQuickack[i] <;> rfl

theorem clear_quickack (x : BitVec 32) : x &&& ~~~rpcFQuickack &&& rpcFQuickack = 0#32 := by
  rw [BitVec.and_assoc,show ~~~rpcFQuickack &&& rpcFQuickack = 0#32 by decide,BitVec.and_zero]

theorem clear_quickack_rest (x : BitVec 32) :
    x &&& ~~~rpcFQuickack &&& ~~~rpcFQuickack = x &&& ~~~rpcFQuickack := by
  rw [BitVec.and_assoc,BitVec.and_self]

variable (d : LoopData) (maxPacketLen : ℤ) (raw4 : BitVec 32)

/-- Only the quick-ack bit of the flags is written. -/
theorem loopMedium_rest :
    (loopMedium raw4 d).1.flags &&& ~~~rpcFQuickack = d.flags &&& ~~~rpcFQuickack := by
  rw [loopMedium]
  split_ifs with htransport
  · rfl
  · dsimp only
    split_ifs <;> exact copy_quickack_rest d.flags raw4

theorem loopCompact_rest :
    (loopCompact raw4 d).1.flags &&& ~~~rpcFQuickack = d.flags &&& ~~~rpcFQuickack := by
  rw [loopCompact]
  by_cases hquick : raw4 &&& 0x80#32 ≠ 0#32
  · simp only [if_pos hquick]
    split_ifs <;> exact set_quickack_rest d.flags
  · simp only [if_neg hquick]
    split_ifs <;> exact clear_quickack_rest d.flags

theorem loopMode_rest :
    (loopMode d raw4).1.flags &&& ~~~rpcFQuickack = d.flags &&& ~~~rpcFQuickack := by
  rw [loopMode]
  split_ifs
  · exact loopMedium_rest d raw4
  · exact loopCompact_rest d raw4

/-- The quick-ack flag of the copy is the bit that the loop leaves in the flags. -/
theorem frameMode_eq : frameMode raw4 d.flags = (loopMode d raw4).2.map fun f =>
    (f.1,f.2,(loopMode d raw4).1.flags &&& rpcFQuickack != 0#32) := by
  rw [frameMode,loopMode]
  by_cases hmedium : d.flags &&& rpcFMedium ≠ 0#32
  · rw [if_pos hmedium,if_pos hmedium,loopMedium]
    by_cases htransport : raw4.toInt < 0 ∧ -1000 < raw4.toInt
    · rw [if_pos htransport,if_pos htransport]
      rfl
    · have hquick := copy_quickack d.flags raw4
      rw [if_neg htransport,if_neg htransport]
      dsimp only
      split_ifs <;> simp [Except.map,hquick]
  · rw [if_neg hmedium,if_neg hmedium,loopCompact]
    by_cases hquick : raw4 &&& 0x80#32 ≠ 0#32
    · have hbit : ((d.flags ||| rpcFQuickack) &&& rpcFQuickack != 0#32) = true := by
        rw [set_quickack]
        rfl
      simp only [if_pos hquick]
      split_ifs <;> simp [Except.map,hbit]
    · have hbit : (d.flags &&& ~~~rpcFQuickack &&& rpcFQuickack != 0#32) = false := by
        rw [clear_quickack]
        rfl
      simp only [if_neg hquick]
      split_ifs <;> simp [Except.map,hbit]

/-- The loop makes two of the tests of the copy in one. -/
theorem loopCheck_eq (flags packetLen : BitVec 32) : loopCheck flags maxPacketLen packetLen =
    if packetLen.toInt ≤ 0 ∨ packetLen &&& 0xc0000000#32 ≠ 0#32 then .error .badLength
    else if flags &&& rpcFPad = 0#32 ∧ packetLen &&& 3#32 ≠ 0#32 then .error .badLength
    else if 0 < maxPacketLen ∧ maxPacketLen < packetLen.toInt then .error .tooLong
    else .ok () := by
  rw [loopCheck]
  by_cases hlow : packetLen.toInt ≤ 0 ∨ packetLen &&& 0xc0000000#32 ≠ 0#32
  · rw [if_pos hlow,if_pos (or_assoc.mp (Or.inl hlow))]
  · rw [if_neg hlow]
    by_cases hrem : flags &&& rpcFPad = 0#32 ∧ packetLen &&& 3#32 ≠ 0#32
    · rw [if_pos hrem,if_pos (or_assoc.mp (Or.inr hrem))]
    · rw [if_neg hrem,if_neg (fun h => (or_assoc.mpr h).elim hlow hrem)]
      simp only [and_comm]

/-- On every word, with all flags and every limit, the two decoders reject for the same
reason or give the same length, the same number of bytes and the same quick-ack flag; the
other flags stay. -/
theorem decoders_agree : obfs2ParseFrameLength raw4 d.flags maxPacketLen =
      ((loopLength d maxPacketLen raw4).2.map fun f =>
        ⟨f.1,f.2,(loopLength d maxPacketLen raw4).1.flags &&& rpcFQuickack != 0#32⟩) ∧
    (loopLength d maxPacketLen raw4).1.flags &&& ~~~rpcFQuickack = d.flags &&& ~~~rpcFQuickack := by
  have hrest := loopMode_rest d raw4
  have hpad := and_pad_of_and_not hrest
  refine ⟨?_,hrest⟩
  rw [obfs2ParseFrameLength,frameMode_eq,loopLength]
  dsimp only
  cases hmode : (loopMode d raw4).2 with
  | error e => rfl
  | ok f =>
      simp only [Except.map,loopCheck_eq,hpad,bind,Except.bind]
      split_ifs <;> rfl

/-- The flags of a connection, by the tag in its header. -/
def tagFlags : Tag → BitVec 32
  | .compact => rpcFCompact ||| rpcFExtmode2
  | .medium => rpcFMedium ||| rpcFExtmode2
  | .pad => rpcFMedium ||| rpcFExtmode2 ||| rpcFPad

theorem and_not_eq_self (h : raw4 &&& 0x80#32 = 0#32) : raw4 &&& 0xffffff7f#32 = raw4 := by
  have hsplit := BitVec.and_or_distrib_left (x := raw4) (y := 0x80#32) (z := 0xffffff7f#32)
  rw [h,BitVec.zero_or] at hsplit
  rw [← hsplit]
  exact BitVec.and_allOnes

theorem frameMode_medium {flags : BitVec 32} (h : flags &&& rpcFMedium ≠ 0#32) :
    (frameMode raw4 flags).toOption =
      (PacketParser.mediumLength raw4).map fun f => (f.packetLen,f.headerBytes,f.quickack) := by
  rw [frameMode,if_pos h,PacketParser.mediumLength]
  split_ifs <;> rfl

theorem frameMode_compact {flags : BitVec 32} (h : flags &&& rpcFMedium = 0#32) :
    (frameMode raw4 flags).toOption =
      (PacketParser.compactLength raw4).map fun f => (f.packetLen,f.headerBytes,f.quickack) := by
  rw [frameMode,if_neg (not_not_intro h),PacketParser.compactLength]
  by_cases hquick : raw4 &&& 0x80#32 = 0#32
  · have hbit : (raw4 &&& 0x80#32 != 0#32) = false := by simp [hquick]
    simp only [if_neg (not_not_intro hquick),and_not_eq_self raw4 hquick,hbit]
    split_ifs <;> rfl
  · have hbit : (raw4 &&& 0x80#32 != 0#32) = true := by simp [hquick]
    have hmask : ~~~0x80#32 = 0xffffff7f#32 := by decide
    simp only [if_pos hquick,hbit,hmask]
    split_ifs <;> rfl

/-- The packet loop of the other modules decodes its lengths as the one here does. -/
theorem packetParser_length (cfg : Config) : PacketParser.obfs2ParseFrameLength cfg raw4 =
    (obfs2ParseFrameLength raw4 (tagFlags cfg.tag) cfg.maxPacketLen).toOption := by
  have hmode : (frameMode raw4 (tagFlags cfg.tag)).toOption =
      (if cfg.tag.isMedium then PacketParser.mediumLength raw4
        else PacketParser.compactLength raw4).map
        fun f => (f.packetLen,f.headerBytes,f.quickack) := by
    cases cfg.tag with
    | compact => exact frameMode_compact raw4 (by decide)
    | medium => exact frameMode_medium raw4 (by decide)
    | pad => exact frameMode_medium raw4 (by decide)
  have hpad : tagFlags cfg.tag &&& rpcFPad = 0#32 ↔ cfg.tag ≠ .pad := by
    cases cfg.tag <;> decide
  rw [PacketParser.obfs2ParseFrameLength,obfs2ParseFrameLength]
  generalize (if cfg.tag.isMedium then PacketParser.mediumLength raw4
        else PacketParser.compactLength raw4) = f at hmode
  cases hframe : frameMode raw4 (tagFlags cfg.tag) with
  | error e =>
      cases f with
      | none => rfl
      | some f => rw [hframe] at hmode; cases hmode
  | ok r =>
      cases f with
      | none => rw [hframe] at hmode; cases hmode
      | some f =>
          rw [hframe] at hmode
          obtain rfl : r = (f.packetLen,f.headerBytes,f.quickack) := Option.some.inj hmode
          have hcheck : PacketParser.checkLength cfg f.packetLen = true ↔
              ¬(f.packetLen.toInt ≤ 0 ∨ f.packetLen &&& 0xc0000000#32 ≠ 0#32) ∧
              ¬(tagFlags cfg.tag &&& rpcFPad = 0#32 ∧ f.packetLen &&& 3#32 ≠ 0#32) ∧
              ¬(0 < cfg.maxPacketLen ∧ cfg.maxPacketLen < f.packetLen.toInt) := by
            rw [hpad]
            simp only [PacketParser.checkLength,Bool.and_eq_true,Bool.not_eq_true',Bool.or_eq_false_iff,
              Bool.and_eq_false_iff,bne_eq_false_iff_eq,decide_eq_false_iff_not,not_or,not_and_or,
              not_not,and_assoc]
          simp only [bind,Except.bind,Option.filter_some,hcheck]
          split_ifs <;> simp_all [Except.toOption]

end Teleproxy.FrameLength
