import Teleproxy.ClientInput

/-!
# The header of a WebSocket frame, byte by byte

`ws_parse_frame_header` looks at no more than 14 bytes of a message and computes with
32-bit integers. A header is two bytes, two or eight more for a long payload and four for
a mask. Of a data frame only the header is consumed; a ping or a pong is skipped with its
payload, and the length to skip is a sum that nothing bounds.

The function is modelled here as it computes; `ClientInput` has it on unbounded numbers.
A failed assertion is `none`.
-/
namespace Teleproxy.WebSocketHeader
open ClientInput (Bytes Ws)

/-- A message; `total_bytes` is an `int`. -/
structure Message where
  bytes : Bytes
  lt : bytes.length < 2^31

def opcodeClose : BitVec 32 := 8#32
def opcodePing : BitVec 32 := 9#32
def opcodePong : BitVec 32 := 10#32

/-- `header[i]`, as it is used in an expression. -/
def byteAt (header : Bytes) (i : ℕ) : BitVec 32 := .ofNat 32 (header.getD i 0).toNat

inductive Length where
  | ret (code : ℤ)
  | is (payloadLen : BitVec 32) (pos : ℕ)
  deriving DecidableEq, Repr

/-- The payload length, and where the header goes on. -/
def readLength (header : Bytes) : Length :=
  let payloadLen := byteAt header 1 &&& 0x7f#32
  if payloadLen = 126#32 then
    if header.length < 2+2 then .ret 0
    else .is ((byteAt header 2 <<< 8) ||| byteAt header 3) 4
  else if payloadLen = 127#32 then
    if header.length < 2+8 then .ret 0
    else if byteAt header 2 ||| byteAt header 3 ||| byteAt header 4 ||| byteAt header 5 ≠ 0#32 then
      .ret (-1)
    else
      let payloadLen := (byteAt header 6 <<< 24) ||| (byteAt header 7 <<< 16) |||
        (byteAt header 8 <<< 8) ||| byteAt header 9
      if payloadLen.toInt < 0 then .ret (-1) else .is payloadLen 10
  else .is payloadLen 2

/-- `rwm_skip_data`, with the assertion of `rwm_process_ex`. -/
def rwmSkipData (bytes : Bytes) (count : BitVec 32) : Option Bytes :=
  if count.toInt < 0 then none else some (bytes.drop count.toNat)

structure Result where
  code : ℤ
  ws : Ws
  rest : Bytes
  deriving DecidableEq, Repr

/-- The part behind the mask. -/
def handleFrame (w : Ws) (bytes : Bytes) (opcode payloadLen : BitVec 32) (headerLen : ℕ) :
    Option Result :=
  if opcode = opcodeClose then some ⟨-1,w,bytes⟩
  else if opcode = opcodePing ∨ opcode = opcodePong then
    let count := BitVec.ofNat 32 headerLen+payloadLen
    if (bytes.length : ℤ) < count.toInt then some ⟨0,w,bytes⟩
    else (rwmSkipData bytes count).map fun rest => ⟨0,w,rest⟩
  else if bytes.length < headerLen then some ⟨0,w,bytes⟩
  else (rwmSkipData bytes (.ofNat 32 headerLen)).map fun rest =>
    ⟨payloadLen.toInt,{w with remaining := payloadLen.toNat},rest⟩

def wsParseFrameHeader (w : Ws) (m : Message) : Option Result :=
  if m.bytes.length < 2 then some ⟨0,w,m.bytes⟩
  else
    let header := m.bytes.take 14
    let opcode := byteAt header 0 &&& 0x0f#32
    match readLength header with
    | .ret code => some ⟨code,w,m.bytes⟩
    | .is payloadLen pos =>
        if (byteAt header 1 >>> 7) &&& 1#32 ≠ 0#32 then
          if header.length < pos+4 then some ⟨0,w,m.bytes⟩
          else
            let mask := ⟨header.getD pos 0,header.getD (pos+1) 0,header.getD (pos+2) 0,
              header.getD (pos+3) 0⟩
            handleFrame {w with mask, maskOffset := 0} m.bytes opcode payloadLen (pos+4)
        else handleFrame w m.bytes opcode payloadLen pos

/-- A frame header: its opcode, its size and the payload length that it encodes. -/
structure FrameHead where
  opcode : ℕ
  size : ℕ
  payload : ℕ
  deriving DecidableEq, Repr

def bigEndian (bs : Bytes) : ℕ := bs.foldl (fun n b => n*256+b.toNat) 0

/-- The number of bytes of a long payload length. -/
def lengthBytes (len7 : ℕ) : ℕ := if len7 = 126 then 2 else if len7 = 127 then 8 else 0

/-- The header at the start of a message, when all of it has come. -/
def frameHead (buf : Bytes) : Option FrameHead :=
  let first := (buf.getD 0 0).toNat
  let second := (buf.getD 1 0).toNat
  let long := lengthBytes (second % 128)
  let size := 2+long+(if 128 ≤ second then 4 else 0)
  if buf.length < size then none
  else some ⟨first % 16,size,if long = 0 then second % 128 else bigEndian ((buf.drop 2).take long)⟩

def FrameHead.control (h : FrameHead) : Prop := h.opcode = 9 ∨ h.opcode = 10

/-- A call consumes nothing, or the header of a data frame, or all of a ping or a pong. -/
def Exact (m : Message) : Option Result → Prop
  | none => False
  | some r =>
      (r.rest = m.bytes ∧ (r.code = 0 ∨ r.code = -1)) ∨
      ∃ h, frameHead m.bytes = some h ∧
        ((h.control ∧ h.size+h.payload ≤ m.bytes.length ∧
            r.rest = m.bytes.drop (h.size+h.payload) ∧ r.code = 0) ∨
          (¬h.control ∧ h.opcode ≠ 8 ∧ r.rest = m.bytes.drop h.size ∧
            r.ws.remaining = h.payload ∧ r.code = h.payload))

/-- A ping or a pong with a payload at the top of the lengths that are let through. -/
def AtTop (buf : Bytes) : Prop :=
  ∃ h, frameHead buf = some h ∧ h.control ∧ h.payload < 2^31 ∧ 2^31 ≤ h.size+h.payload

section
variable {header buf : Bytes} {i : ℕ}

theorem toNat_byteAt (header : Bytes) (i : ℕ) :
    (byteAt header i).toNat = (header.getD i 0).toNat := by
  have hlt := UInt8.toNat_lt (header.getD i 0)
  rw [byteAt,BitVec.toNat_ofNat]
  omega

theorem byteAt_take (h : i < 14) : byteAt (buf.take 14) i = byteAt buf i := by
  rw [byteAt,byteAt,List.getD_eq_getElem?_getD,List.getD_eq_getElem?_getD,List.getElem?_take_of_lt h]

theorem toNat_low7 (header : Bytes) (i : ℕ) :
    (byteAt header i &&& 0x7f#32).toNat = (header.getD i 0).toNat % 128 := by
  rw [BitVec.toNat_and,toNat_byteAt]
  exact Nat.and_two_pow_sub_one_eq_mod _ 7

theorem toNat_low4 (header : Bytes) (i : ℕ) :
    (byteAt header i &&& 0x0f#32).toNat = (header.getD i 0).toNat % 16 := by
  rw [BitVec.toNat_and,toNat_byteAt]
  exact Nat.and_two_pow_sub_one_eq_mod _ 4

theorem top_bit (header : Bytes) (i : ℕ) :
    (byteAt header i >>> 7) &&& 1#32 ≠ 0#32 ↔ 128 ≤ (header.getD i 0).toNat := by
  have hlt := UInt8.toNat_lt (header.getD i 0)
  have hand : ((byteAt header i >>> 7) &&& 1#32).toNat = (header.getD i 0).toNat/128 % 2 := by
    rw [BitVec.toNat_and,BitVec.toNat_ushiftRight,toNat_byteAt,Nat.shiftRight_eq_div_pow]
    exact Nat.and_two_pow_sub_one_eq_mod _ 1
  rw [ne_eq,← BitVec.toNat_inj,hand]
  change ¬_ = 0 ↔ _
  omega

/-- Bits above and bits below. -/
theorem or_eq_add {x y k : ℕ} (hx : 2^k ∣ x) (hy : y < 2^k) : x ||| y = x+y := by
  obtain ⟨a,rfl⟩ := hx
  exact (Nat.two_pow_add_eq_or_of_lt hy a).symm

theorem toNat_word2 (header : Bytes) (i j : ℕ) :
    ((byteAt header i <<< 8) ||| byteAt header j).toNat =
      (header.getD i 0).toNat*256+(header.getD j 0).toNat := by
  have hi := UInt8.toNat_lt (header.getD i 0)
  have hj := UInt8.toNat_lt (header.getD j 0)
  rw [BitVec.toNat_or,BitVec.toNat_shiftLeft,toNat_byteAt,toNat_byteAt,Nat.shiftLeft_eq,
    Nat.mod_eq_of_lt (by omega)]
  exact or_eq_add (Nat.dvd_mul_left _ _) hj

theorem toNat_word4 (header : Bytes) (i j k l : ℕ) :
    ((byteAt header i <<< 24) ||| (byteAt header j <<< 16) ||| (byteAt header k <<< 8) |||
        byteAt header l).toNat =
      (((header.getD i 0).toNat*256+(header.getD j 0).toNat)*256+(header.getD k 0).toNat)*256+
        (header.getD l 0).toNat := by
  have hi := UInt8.toNat_lt (header.getD i 0)
  have hj := UInt8.toNat_lt (header.getD j 0)
  have hk := UInt8.toNat_lt (header.getD k 0)
  have hl := UInt8.toNat_lt (header.getD l 0)
  have h24 := or_eq_add (k := 24) (x := (header.getD i 0).toNat*2^24)
    (y := (header.getD j 0).toNat*2^16) (by omega) (by omega)
  have h16 := or_eq_add (k := 16)
    (x := (header.getD i 0).toNat*2^24+(header.getD j 0).toNat*2^16)
    (y := (header.getD k 0).toNat*2^8) (by omega) (by omega)
  have h8 := or_eq_add (k := 8)
    (x := (header.getD i 0).toNat*2^24+(header.getD j 0).toNat*2^16+(header.getD k 0).toNat*2^8)
    (y := (header.getD l 0).toNat) (by omega) (by omega)
  simp only [BitVec.toNat_or,BitVec.toNat_shiftLeft,toNat_byteAt,Nat.shiftLeft_eq]
  rw [Nat.mod_eq_of_lt (by omega),Nat.mod_eq_of_lt (by omega),Nat.mod_eq_of_lt (by omega),h24,h16,h8]
  omega

theorem or4_eq_zero (header : Bytes) (i j k l : ℕ) :
    byteAt header i ||| byteAt header j ||| byteAt header k ||| byteAt header l = 0#32 ↔
      (header.getD i 0).toNat = 0 ∧ (header.getD j 0).toNat = 0 ∧ (header.getD k 0).toNat = 0 ∧
        (header.getD l 0).toNat = 0 := by
  have hzero : ∀ m, byteAt header m = 0#32 ↔ (header.getD m 0).toNat = 0 := by
    intro m
    rw [← BitVec.toNat_inj,toNat_byteAt]
    rfl
  rw [BitVec.or_eq_zero_iff,BitVec.or_eq_zero_iff,BitVec.or_eq_zero_iff,hzero,hzero,hzero,hzero,
    and_assoc,and_assoc]

theorem bigEndian_two (h : 4 ≤ buf.length) : bigEndian ((buf.drop 2).take 2) =
    (buf.getD 2 0).toNat*256+(buf.getD 3 0).toNat := by
  match buf, h with
  | _::_::a::b::_, _ => simp [bigEndian]

theorem bigEndian_eight (h : 10 ≤ buf.length) : bigEndian ((buf.drop 2).take 8) =
    ((((((((buf.getD 2 0).toNat*256+(buf.getD 3 0).toNat)*256+(buf.getD 4 0).toNat)*256+
      (buf.getD 5 0).toNat)*256+(buf.getD 6 0).toNat)*256+(buf.getD 7 0).toNat)*256+
      (buf.getD 8 0).toNat)*256+(buf.getD 9 0).toNat) := by
  match buf, h with
  | _::_::a::b::c::d::e::f::g::h::_, _ => simp [bigEndian]

end

/-- The payload length at the start of a message. -/
def payloadOf (buf : Bytes) : ℕ :=
  let len7 := (buf.getD 1 0).toNat % 128
  if lengthBytes len7 = 0 then len7 else bigEndian ((buf.drop 2).take (lengthBytes len7))

theorem length_take14 (buf : Bytes) {m : ℕ} (h : m ≤ 14) :
    (buf.take 14).length < m ↔ buf.length < m := by
  rw [List.length_take]
  omega

theorem ofNat_eq {x : BitVec 32} {m : ℕ} (h : x.toNat = m) : x = .ofNat 32 m := by
  rw [← h,BitVec.ofNat_toNat,BitVec.setWidth_eq]

/-- What the bytes of the length are read as. -/
theorem readLength_eq {buf : Bytes} (h : 2 ≤ buf.length) :
    readLength (buf.take 14) =
      if buf.length < 2+lengthBytes ((buf.getD 1 0).toNat % 128) then .ret 0
      else if 2^31 ≤ payloadOf buf then .ret (-1)
      else .is (.ofNat 32 (payloadOf buf)) (2+lengthBytes ((buf.getD 1 0).toNat % 128)) := by
  have hlow := toNat_low7 buf 1
  have hcode : ∀ m < 128, byteAt buf 1 &&& 0x7f#32 = .ofNat 32 m ↔ (buf.getD 1 0).toNat % 128 = m := by
    intro m hm
    rw [← BitVec.toNat_inj,hlow,BitVec.toNat_ofNat]
    omega
  unfold readLength payloadOf lengthBytes
  simp only [@byteAt_take buf 1 (by decide),hcode 126 (by decide),
    hcode 127 (by decide),length_take14 buf (m := 2+2) (by decide),
    length_take14 buf (m := 2+8) (by decide)]
  by_cases h126 : (buf.getD 1 0).toNat % 128 = 126
  · simp only [if_pos h126,if_neg (by decide : (2 : ℕ) ≠ 0)]
    by_cases hlen : buf.length < 2+2
    · rw [if_pos hlen,if_pos hlen]
    · have hword := toNat_word2 buf 2 3
      have hbig := @bigEndian_two buf (by omega)
      have h2 := UInt8.toNat_lt (buf.getD 2 0)
      have h3 := UInt8.toNat_lt (buf.getD 3 0)
      rw [if_neg hlen,if_neg hlen,if_neg (by omega),byteAt_take (by decide),byteAt_take (by decide),
        ofNat_eq hword,hbig]
  · by_cases h127 : (buf.getD 1 0).toNat % 128 = 127
    · simp only [if_neg h126,if_pos h127,if_neg (by decide : (8 : ℕ) ≠ 0)]
      by_cases hlen : buf.length < 2+8
      · rw [if_pos hlen,if_pos hlen]
      · have hword := toNat_word4 buf 6 7 8 9
        have hbig := @bigEndian_eight buf (by omega)
        have hzero := or4_eq_zero buf 2 3 4 5
        have hbytes : ∀ i < 14, byteAt (buf.take 14) i = byteAt buf i := fun i => byteAt_take
        simp only [if_neg hlen,hbytes 2 (by decide),hbytes 3 (by decide),hbytes 4 (by decide),
          hbytes 5 (by decide),hbytes 6 (by decide),hbytes 7 (by decide),hbytes 8 (by decide),
          hbytes 9 (by decide)]
        generalize byteAt buf 6 <<< 24 ||| byteAt buf 7 <<< 16 ||| byteAt buf 8 <<< 8 |||
          byteAt buf 9 = x at hword
        have hsign : x.toInt < 0 ↔ 2^31 ≤ x.toNat := by
          have hx := x.isLt
          rw [BitVec.toInt_eq_toNat_cond]
          split_ifs <;> omega
        by_cases htop : byteAt buf 2 ||| byteAt buf 3 ||| byteAt buf 4 ||| byteAt buf 5 = 0#32
        · obtain ⟨h2,h3,h4,h5⟩ := hzero.mp htop
          have hvalue : bigEndian ((buf.drop 2).take 8) = x.toNat := by
            rw [hbig,hword]
            omega
          rw [if_neg (not_not_intro htop),hvalue]
          simp only [hsign]
          rw [← ofNat_eq rfl]
        · have hlarge : 2^31 ≤ bigEndian ((buf.drop 2).take 8) := by
            rw [hzero] at htop
            omega
          rw [if_pos htop,if_pos hlarge]
    · have hlt : ¬buf.length < 2+0 := by omega
      have hsmall : ¬2^31 ≤ (buf.getD 1 0).toNat % 128 := by omega
      simp only [if_neg h126,if_neg h127,if_true,if_neg hlt,if_neg hsmall]
      rw [ofNat_eq hlow]

section
variable {w : Ws} {m : Message} {h : FrameHead}

/-- The size of the header at the start of a message. -/
def headSize (buf : Bytes) : ℕ :=
  2+lengthBytes ((buf.getD 1 0).toNat % 128)+(if 128 ≤ (buf.getD 1 0).toNat then 4 else 0)

theorem frameHead_eq (buf : Bytes) : frameHead buf =
    if buf.length < headSize buf then none
    else some ⟨(buf.getD 0 0).toNat % 16,headSize buf,payloadOf buf⟩ := rfl

theorem headSize_le (buf : Bytes) : 2 ≤ headSize buf ∧ headSize buf ≤ 14 := by
  unfold headSize lengthBytes
  split_ifs <;> omega

/-- Without its whole header nothing of a frame is consumed. -/
theorem parse_part (w : Ws) (hpart : m.bytes.length < headSize m.bytes) :
    ∃ code, (code = 0 ∨ code = -1) ∧ wsParseFrameHeader w m = some ⟨code,w,m.bytes⟩ := by
  rw [wsParseFrameHeader]
  split_ifs with hlen
  · exact ⟨0,.inl rfl,rfl⟩
  · dsimp only
    rw [readLength_eq (by omega),byteAt_take (by decide)]
    by_cases hlong : m.bytes.length < 2+lengthBytes ((m.bytes.getD 1 0).toNat % 128)
    · rw [if_pos hlong]
      exact ⟨0,.inl rfl,rfl⟩
    · rw [if_neg hlong]
      by_cases hlarge : 2^31 ≤ payloadOf m.bytes
      · rw [if_pos hlarge]
        exact ⟨-1,.inr rfl,rfl⟩
      · have hmask : 128 ≤ (m.bytes.getD 1 0).toNat := by
          by_contra hmask
          rw [headSize,if_neg hmask] at hpart
          omega
        rw [headSize,if_pos hmask] at hpart
        rw [if_neg hlarge]
        dsimp only
        rw [if_pos ((top_bit _ _).mpr hmask),if_pos]
        · exact ⟨0,.inl rfl,rfl⟩
        · rw [List.length_take]
          omega

/-- With its whole header a frame is handled, unless its payload is too large. -/
theorem parse_whole (w : Ws) (hwhole : headSize m.bytes ≤ m.bytes.length) :
    (2^31 ≤ payloadOf m.bytes ∧ wsParseFrameHeader w m = some ⟨-1,w,m.bytes⟩) ∨
    (payloadOf m.bytes < 2^31 ∧ ∃ w', wsParseFrameHeader w m =
      handleFrame w' m.bytes (.ofNat 32 ((m.bytes.getD 0 0).toNat % 16))
        (.ofNat 32 (payloadOf m.bytes)) (headSize m.bytes)) := by
  have hsize := headSize_le m.bytes
  have hop := ofNat_eq (toNat_low4 m.bytes 0)
  rw [wsParseFrameHeader,if_neg (by omega)]
  dsimp only
  rw [readLength_eq (by omega),byteAt_take (by decide),byteAt_take (by decide),hop]
  unfold headSize at hwhole hsize ⊢
  rw [if_neg (by omega)]
  by_cases hlarge : 2^31 ≤ payloadOf m.bytes
  · rw [if_pos hlarge]
    exact .inl ⟨hlarge,rfl⟩
  · rw [if_neg hlarge]
    refine .inr ⟨by omega,?_⟩
    dsimp only
    by_cases hmask : 128 ≤ (m.bytes.getD 1 0).toNat
    · rw [if_pos hmask] at hwhole hsize
      rw [if_pos ((top_bit _ _).mpr hmask),if_neg,if_pos hmask]
      · exact ⟨_,rfl⟩
      · rw [List.length_take]
        omega
    · rw [if_neg (fun h => hmask ((top_bit _ _).mp h)),if_neg hmask]
      exact ⟨w,rfl⟩

/-- What is done with a frame whose sum does not overflow. -/
theorem handleFrame_exact {buf : Bytes} {opcode payload size : ℕ} (w : Ws) (hop : opcode < 16)
    (hsize : size ≤ 14) (hlen : size ≤ buf.length) (hlt : payload < 2^31)
    (hsum : opcode = 9 ∨ opcode = 10 → size+payload < 2^31) :
    handleFrame w buf (.ofNat 32 opcode) (.ofNat 32 payload) size =
      some (if opcode = 8 then ⟨-1,w,buf⟩
        else if opcode = 9 ∨ opcode = 10 then
          if buf.length < size+payload then ⟨0,w,buf⟩ else ⟨0,w,buf.drop (size+payload)⟩
        else ⟨payload,{w with remaining := payload},buf.drop size⟩) := by
  have hcode : ∀ k < 16, BitVec.ofNat 32 opcode = .ofNat 32 k ↔ opcode = k := by
    intro k hk
    rw [← BitVec.toNat_inj,BitVec.toNat_ofNat,BitVec.toNat_ofNat]
    omega
  have hint : ∀ k < 2^31, (BitVec.ofNat 32 k).toInt = k := by
    intro k hk
    rw [BitVec.toInt_eq_toNat_cond,BitVec.toNat_ofNat,Nat.mod_eq_of_lt (by omega),
      if_pos (by omega)]
  have hnat : ∀ k < 2^31, (BitVec.ofNat 32 k).toNat = k := by
    intro k hk
    rw [BitVec.toNat_ofNat,Nat.mod_eq_of_lt (by omega)]
  unfold handleFrame rwmSkipData
  simp only [opcodeClose,opcodePing,opcodePong,hcode 8 (by decide),hcode 9 (by decide),
    hcode 10 (by decide),← BitVec.ofNat_add,hint size (by omega),hnat size (by omega),
    hint payload hlt,hnat payload hlt]
  by_cases h8 : opcode = 8
  · rw [if_pos h8,if_pos h8]
  · rw [if_neg h8,if_neg h8]
    by_cases hcontrol : opcode = 9 ∨ opcode = 10
    · have hsum' := hsum hcontrol
      simp only [if_pos hcontrol,hint _ hsum',hnat _ hsum']
      split_ifs with h1 h2 h2 <;> first | rfl | omega
    · simp only [if_neg hcontrol,if_neg (by omega : ¬buf.length < size),
        if_neg (by omega : ¬(size : ℤ) < 0),Option.map_some]

/-- The sum of a ping or a pong that overflows is a negative count. -/
theorem handleFrame_top {buf : Bytes} {opcode payload size : ℕ} (w : Ws)
    (hop : opcode = 9 ∨ opcode = 10) (hsize : size ≤ 14) (hlt : payload < 2^31)
    (hsum : 2^31 ≤ size+payload) :
    handleFrame w buf (.ofNat 32 opcode) (.ofNat 32 payload) size = none := by
  have hneg : (BitVec.ofNat 32 (size+payload)).toInt < 0 := by
    rw [BitVec.toInt_eq_toNat_cond,BitVec.toNat_ofNat,Nat.mod_eq_of_lt (by omega),
      if_neg (by omega)]
    omega
  have hcontrol : BitVec.ofNat 32 opcode = opcodePing ∨ BitVec.ofNat 32 opcode = opcodePong := by
    cases hop with
    | inl h => exact .inl (by rw [h]; rfl)
    | inr h => exact .inr (by rw [h]; rfl)
  have hclose : BitVec.ofNat 32 opcode ≠ opcodeClose := by
    cases hop with
    | inl h => rw [h]; decide
    | inr h => rw [h]; decide
  rw [handleFrame,if_neg hclose,if_pos hcontrol]
  dsimp only
  rw [← BitVec.ofNat_add,if_neg (by omega),rwmSkipData,if_pos hneg,Option.map_none]

end

/-- A call consumes exactly what it should if and only if no ping or pong has a payload length
at the top of the range. -/
theorem consumption_exact_iff (w : Ws) (m : Message) :
    Exact m (wsParseFrameHeader w m) ↔ ¬AtTop m.bytes := by
  have hsize := headSize_le m.bytes
  by_cases hpart : m.bytes.length < headSize m.bytes
  · obtain ⟨code,hcode,hparse⟩ := parse_part w hpart
    have hnone : frameHead m.bytes = none := by rw [frameHead_eq,if_pos hpart]
    rw [hparse]
    constructor
    · rintro - ⟨h,hhead,-⟩
      rw [hnone] at hhead
      cases hhead
    · intro _
      exact .inl ⟨rfl,hcode⟩
  · have hhead := frameHead_eq m.bytes
    rw [if_neg hpart] at hhead
    have htop : AtTop m.bytes ↔ ((m.bytes.getD 0 0).toNat % 16 = 9 ∨
        (m.bytes.getD 0 0).toNat % 16 = 10) ∧ payloadOf m.bytes < 2^31 ∧
        2^31 ≤ headSize m.bytes+payloadOf m.bytes := by
      constructor
      · rintro ⟨h,hh,hrest⟩
        rw [hhead] at hh
        cases hh
        exact hrest
      · intro hrest
        exact ⟨_,hhead,hrest⟩
    rw [htop]
    obtain ⟨hlarge,hparse⟩ | ⟨hlt,w',hparse⟩ := parse_whole w (Nat.le_of_not_lt hpart)
    · rw [hparse]
      constructor
      · rintro - ⟨-,hsmall,-⟩
        omega
      · intro _
        exact .inl ⟨rfl,.inr rfl⟩
    · rw [hparse]
      by_cases hover : ((m.bytes.getD 0 0).toNat % 16 = 9 ∨ (m.bytes.getD 0 0).toNat % 16 = 10) ∧
          2^31 ≤ headSize m.bytes+payloadOf m.bytes
      · rw [handleFrame_top w' hover.1 hsize.2 hlt hover.2]
        exact iff_of_false id (not_not_intro ⟨hover.1,hlt,hover.2⟩)
      · have hexact := handleFrame_exact w' (Nat.mod_lt _ (by decide)) hsize.2
          (Nat.le_of_not_lt hpart) hlt (fun hop => by
            by_contra hsum
            exact hover ⟨hop,Nat.le_of_not_lt hsum⟩)
        rw [hexact]
        refine iff_of_true ?_ (fun h => hover ⟨h.1,h.2.2⟩)
        split_ifs with h8 hcontrol hmore
        · exact .inl ⟨rfl,.inr rfl⟩
        · exact .inl ⟨rfl,.inl rfl⟩
        · exact .inr ⟨_,hhead,.inl ⟨hcontrol,Nat.le_of_not_lt hmore,rfl,rfl⟩⟩
        · exact .inr ⟨_,hhead,.inr ⟨hcontrol,h8,rfl,rfl,rfl⟩⟩

/-- A ping whose header says that 2^31-1 bytes follow. -/
def topPing : Message := ⟨[0x89,0x7f,0,0,0,0,0x7f,0xff,0xff,0xff],by decide⟩

theorem ping_aborts :
    wsParseFrameHeader {} topPing = none ∧ ¬∀ w m, Exact m (wsParseFrameHeader w m) := by
  have hnone : wsParseFrameHeader {} topPing = none := by decide
  refine ⟨hnone,fun h => ?_⟩
  have hexact := h {} topPing
  rw [hnone] at hexact
  exact hexact

end Teleproxy.WebSocketHeader
