import Teleproxy.RpcWriter

/-!
# Packets of a client, written and read

What `tcp_rpc_write_packet_compact` writes for a client is read back by the packet loop
of `tcp_rpcs_compact_parse_execute` in the same mode, however the bytes are cut. The
loop reads a length only when eight bytes more are there than a length has at least.
A packet of four bytes at the end of the stream is shorter than that and stays in the
buffer.
-/
namespace Teleproxy.ClientFraming
open ClientInput (Bytes)
open PacketParser
open FrameLength (tagFlags rpcFPad rpcFMedium rpcFCompact and_not_eq_self)
open RpcWriter
open StepSystem (run)

/-- A payload and the two random words for its padding. -/
structure Message where
  payload : Bytes
  x : BitVec 32 := 0#32
  y : BitVec 32 := 0#32
  deriving DecidableEq, Repr

def Message.pad (tag : Tag) (m : Message) : Bytes :=
  if tag = .pad then (store4 m.x).take (m.y &&& 3#32).toNat else []

/-- The length in front of the packet. -/
def Message.total (tag : Tag) (m : Message) : ℕ := m.payload.length+(m.pad tag).length

/-- A message that may be sent, to a reader with this limit. -/
structure Message.Sendable (cfg : Config) (m : Message) : Prop where
  four_le : 4 ≤ m.payload.length
  words : 4 ∣ m.payload.length
  lt : m.total cfg.tag < 2^26
  le_max : 0 < cfg.maxPacketLen → (m.total cfg.tag : ℤ) ≤ cfg.maxPacketLen

instance (cfg : Config) (m : Message) : Decidable (m.Sendable cfg) :=
  decidable_of_iff (4 ≤ m.payload.length ∧ 4 ∣ m.payload.length ∧ m.total cfg.tag < 2^26 ∧
      (0 < cfg.maxPacketLen → (m.total cfg.tag : ℤ) ≤ cfg.maxPacketLen))
    ⟨fun h => ⟨h.1,h.2.1,h.2.2.1,h.2.2.2⟩,fun h => ⟨h.four_le,h.words,h.lt,h.le_max⟩⟩

def sendAll (c : OutConn) (ms : List Message) : Option OutConn :=
  ms.foldlM (fun c m => tcpRpcWritePacketCompact c m.payload m.x m.y) c

/-- What is written for one message. -/
def frame (tag : Tag) (m : Message) : Bytes :=
  compactHeader (tagFlags tag) (.ofNat 32 (m.total tag))++(m.payload++m.pad tag)

variable {cfg : Config} {m : Message}

theorem length_pad (tag : Tag) (m : Message) : (m.pad tag).length ≤ 3 ∧
    (tag ≠ .pad → m.pad tag = []) := by
  rw [Message.pad]
  constructor
  · split_ifs
    · have hthree := and_three m.y
      rw [List.length_take]
      omega
    · simp
  · intro h
    rw [if_neg h]

theorem Message.Sendable.toNat (hm : m.Sendable cfg) :
    (BitVec.ofNat 32 (m.total cfg.tag)).toNat = m.total cfg.tag := by
  have hlt := hm.lt
  rw [BitVec.toNat_ofNat]
  omega

theorem and_high_eq_zero {x : BitVec 32} (hx : x.toNat < 2^26) : x &&& 0xfc000000#32 = 0#32 := by
  have hshift : x &&& 0xfc000000#32 = x >>> 26 <<< 26 := by
    ext i hi
    interval_cases i <;> simp
  rw [hshift,← BitVec.toNat_inj]
  simp only [BitVec.toNat_shiftLeft,BitVec.toNat_ushiftRight,Nat.shiftLeft_eq,
    Nat.shiftRight_eq_div_pow,BitVec.toNat_ofNat]
  omega

/-- A connection whose client has sent its header. -/
structure InMode (tag : Tag) (c : OutConn) : Prop where
  flags : c.flags = tagFlags tag
  inited : ¬(c.isTls = true ∧ c.leftTlsPacketLength = -1)

theorem tagFlags_pad (tag : Tag) : tagFlags tag &&& rpcFPad ≠ 0#32 ↔ tag = .pad := by
  cases tag <;> decide

theorem tagFlags_medium (tag : Tag) : tagFlags tag &&& rpcFMedium ≠ 0#32 ↔ tag.isMedium = true := by
  cases tag <;> decide

theorem write_eq {c : OutConn} (hc : InMode cfg.tag c) (hm : m.Sendable cfg) :
    tcpRpcWritePacketCompact c m.payload m.x m.y =
      some {c with out := c.out++frame cfg.tag m} := by
  have hwords := hm.words
  have hmode : ¬tagFlags cfg.tag &&& (rpcFCompact ||| rpcFMedium) = 0#32 := by
    cases cfg.tag <;> decide
  have hraw : (if tagFlags cfg.tag &&& rpcFPad ≠ 0#32 then
      m.payload++(store4 m.x).take (m.y &&& 3#32).toNat else m.payload) =
      m.payload++m.pad cfg.tag := by
    simp only [tagFlags_pad,Message.pad]
    split_ifs <;> simp
  have hlen : (m.payload++m.pad cfg.tag).length = m.total cfg.tag := List.length_append
  have hrem : ¬(tagFlags cfg.tag &&& rpcFPad = 0#32 ∧
      BitVec.ofNat 32 (m.total cfg.tag) &&& 3#32 ≠ 0#32) := by
    intro ⟨hflag,hthree⟩
    have hpad : m.pad cfg.tag = [] :=
      (length_pad cfg.tag m).2 fun h => (tagFlags_pad cfg.tag).mpr h hflag
    apply hthree
    rw [← BitVec.toNat_inj,and_three,hm.toNat,Message.total,hpad]
    simpa using Nat.mod_eq_zero_of_dvd hwords
  rw [tcpRpcWritePacketCompact,if_neg (by omega),if_neg hc.inited,hc.flags,if_neg hmode]
  simp only [hraw,hlen]
  rw [if_neg (not_not_intro (and_high_eq_zero (by rw [hm.toNat]; exact hm.lt))),if_neg hrem]
  rfl

/-- All messages are written, one frame behind the other. -/
theorem sendAll_eq {c : OutConn} (hc : InMode cfg.tag c) {ms : List Message}
    (hms : ∀ m ∈ ms, m.Sendable cfg) :
    sendAll c ms = some {c with out := c.out++(ms.map (frame cfg.tag)).flatten} := by
  induction ms generalizing c with
  | nil => simp [sendAll]
  | cons m ms ih =>
      rw [List.forall_mem_cons] at hms
      have hmode : InMode cfg.tag {c with out := c.out++frame cfg.tag m} := ⟨hc.flags,hc.inited⟩
      have hrest := ih hmode hms.2
      rw [sendAll] at hrest ⊢
      rw [List.foldlM_cons,write_eq hc hms.1]
      simpa using hrest

/-- What the tests of a compact length see of the first byte. -/
theorem low_byte : ∀ v < 128, BitVec.ofNat 32 v &&& 0x80#32 = 0#32 ∧
    BitVec.ofNat 32 v &&& 0x7f#32 = BitVec.ofNat 32 v ∧
    (BitVec.ofNat 32 v = 0x7f#32 ↔ v = 127) := by
  decide +kernel

theorem and_low {raw : BitVec 32} {v : ℕ} (hraw : raw.toNat % 256 = v) :
    raw &&& 0xff#32 = BitVec.ofNat 32 v := by
  have hmod : raw.toNat &&& 0xff = raw.toNat % 256 := Nat.and_two_pow_sub_one_eq_mod raw.toNat 8
  rw [← BitVec.toNat_inj,BitVec.toNat_and]
  change raw.toNat &&& 0xff = _
  rw [hmod,hraw,BitVec.toNat_ofNat]
  omega

/-- A first byte below `0x80` is not taken for a quick ack, and decides the form. -/
theorem compactLength_eq {raw : BitVec 32} {v : ℕ} (hv : v < 128) (hraw : raw.toNat % 256 = v) :
    compactLength raw = if v = 127 then
        if (raw >>> 8).toInt < 0x7f then none else some ⟨raw >>> 8 <<< 2,4,false⟩
      else some ⟨BitVec.ofNat 32 v <<< 2,1,false⟩ := by
  have hlow := and_low hraw
  obtain ⟨hquick,hseven,hlong⟩ := low_byte v hv
  have hraw80 : raw &&& 0x80#32 = 0#32 := by
    rw [show (0x80#32 : BitVec 32) = 0xff#32 &&& 0x80#32 by decide,← BitVec.and_assoc,hlow,hquick]
  have hraw7f : raw &&& 0x7f#32 = BitVec.ofNat 32 v := by
    rw [show (0x7f#32 : BitVec 32) = 0xff#32 &&& 0x7f#32 by decide,← BitVec.and_assoc,hlow,hseven]
  have hbit : (raw &&& 0x80#32 != 0#32) = false := by rw [hraw80]; rfl
  simp only [compactLength,and_not_eq_self raw hraw80,hlow,hlong,hraw7f,hbit]

section
variable {n : ℕ}

theorem mediumLength_ofNat (hn : n < 2^26) :
    mediumLength (BitVec.ofNat 32 n) = some ⟨BitVec.ofNat 32 n,4,false⟩ := by
  have hvalue : (BitVec.ofNat 32 n).toNat = n := by
    rw [BitVec.toNat_ofNat]
    omega
  have hint : (BitVec.ofNat 32 n).toInt = n := toInt_ofNat_of_lt (by omega)
  have hmask : BitVec.ofNat 32 n &&& 0x7fffffff#32 = BitVec.ofNat 32 n := by
    rw [← BitVec.toNat_inj,and_quickack,hvalue]
    omega
  have hquick : BitVec.ofNat 32 n &&& 0x80000000#32 = 0#32 := by
    rw [← hmask,BitVec.and_assoc,show (0x7fffffff#32 &&& 0x80000000#32 : BitVec 32) = 0#32 by decide,
      BitVec.and_zero]
  rw [mediumLength,if_neg (by omega),hmask,hquick]
  rfl

/-- The form with one byte is read back, whatever comes behind it. -/
theorem compactLength_short (hn : n ≤ 0x7e*4) (hwords : 4 ∣ n) (rest : Bytes) :
    compactLength (lookup4 ((store4 (BitVec.ofNat 32 n >>> 2)).take 1++rest)) =
      some ⟨BitVec.ofNat 32 n,1,false⟩ := by
  obtain ⟨v,rfl⟩ := hwords
  have hvalue : (BitVec.ofNat 32 (4*v) >>> 2).toNat = v := by
    rw [BitVec.toNat_ushiftRight,BitVec.toNat_ofNat,Nat.shiftRight_eq_div_pow]
    omega
  have hraw : (lookup4 ((store4 (BitVec.ofNat 32 (4*v) >>> 2)).take 1++rest)).toNat % 256 = v := by
    rw [store4,hvalue,lookup4,BitVec.toNat_ofNat]
    simp only [List.take_succ_cons,List.take_zero,List.cons_append,List.nil_append,
      List.getD_cons_zero,UInt8.toNat_ofNat']
    omega
  have hshift : BitVec.ofNat 32 v <<< 2 = BitVec.ofNat 32 (4*v) := by
    rw [← BitVec.toNat_inj,BitVec.toNat_shiftLeft,BitVec.toNat_ofNat,BitVec.toNat_ofNat,
      Nat.shiftLeft_eq]
    omega
  rw [compactLength_eq (by omega) hraw,if_neg (by omega),hshift]

/-- The form with four bytes is one that the test for overlong lengths lets pass. -/
theorem compactLength_long (hlow : 0x7e*4 < n) (hn : n < 2^26) (hwords : 4 ∣ n) :
    compactLength ((BitVec.ofNat 32 n <<< 6) ||| 0x7f#32) = some ⟨BitVec.ofNat 32 n,4,false⟩ := by
  obtain ⟨k,rfl⟩ := hwords
  have hraw : ((BitVec.ofNat 32 (4*k) <<< 6) ||| 0x7f#32).toNat = k*256+127 := by
    have hshift : (BitVec.ofNat 32 (4*k) <<< 6).toNat = k <<< 8 := by
      rw [BitVec.toNat_shiftLeft,BitVec.toNat_ofNat,Nat.shiftLeft_eq,Nat.shiftLeft_eq]
      omega
    rw [BitVec.toNat_or,hshift]
    change k <<< 8 ||| 127 = _
    rw [← Nat.shiftLeft_add_eq_or_of_lt (show 127 < 2^8 by decide),Nat.shiftLeft_eq]
  have hhigh : ((BitVec.ofNat 32 (4*k) <<< 6) ||| 0x7f#32) >>> 8 = BitVec.ofNat 32 k := by
    rw [← BitVec.toNat_inj,BitVec.toNat_ushiftRight,hraw,BitVec.toNat_ofNat,
      Nat.shiftRight_eq_div_pow]
    omega
  have hint : (BitVec.ofNat 32 k).toInt = k := toInt_ofNat_of_lt (by omega)
  have hshift : BitVec.ofNat 32 k <<< 2 = BitVec.ofNat 32 (4*k) := by
    rw [← BitVec.toNat_inj,BitVec.toNat_shiftLeft,BitVec.toNat_ofNat,BitVec.toNat_ofNat,
      Nat.shiftLeft_eq]
    omega
  rw [compactLength_eq (v := 127) (by decide) (by omega),if_pos rfl,hhigh,hint,
    if_neg (by omega),hshift]

end

/-- The number of bytes that the length of a message takes. -/
def headerLen (tag : Tag) (m : Message) : ℕ :=
  (compactHeader (tagFlags tag) (.ofNat 32 (m.total tag))).length

theorem length_frame (tag : Tag) (m : Message) :
    (frame tag m).length = headerLen tag m+m.total tag := by
  rw [frame,List.length_append,List.length_append]
  rfl

theorem length_parsed (hm : m.Sendable cfg) (rest : Bytes) :
    (if cfg.tag.isMedium then mediumLength (lookup4 (frame cfg.tag m++rest))
      else compactLength (lookup4 (frame cfg.tag m++rest))) =
      some ⟨.ofNat 32 (m.total cfg.tag),headerLen cfg.tag m,false⟩ := by
  have hlt := hm.lt
  have hint : (BitVec.ofNat 32 (m.total cfg.tag)).toInt = m.total cfg.tag := toInt_ofNat_of_lt (by omega)
  rw [frame,List.append_assoc,headerLen]
  simp only [compactHeader,tagFlags_medium,hint]
  by_cases hmedium : cfg.tag.isMedium = true
  · rw [if_pos hmedium,if_pos hmedium,lookup4_store4,mediumLength_ofNat hlt]
    rfl
  · have hpad : m.pad cfg.tag = [] := (length_pad cfg.tag m).2 fun h => hmedium (by rw [h]; rfl)
    have hwords : 4 ∣ m.total cfg.tag := by
      rw [Message.total,hpad]
      exact hm.words
    rw [if_neg hmedium,if_neg hmedium]
    by_cases hshort : (m.total cfg.tag : ℤ) ≤ 0x7e*4
    · rw [if_pos hshort,compactLength_short (by omega) hwords]
      rfl
    · rw [if_neg hshort,lookup4_store4,compactLength_long (by omega) hlt hwords]
      rfl

/-- The length of a sent packet is read back and accepted. -/
theorem parse_frame (hm : m.Sendable cfg) (rest : Bytes) :
    obfs2ParseFrameLength cfg (lookup4 (frame cfg.tag m++rest)) =
      some ⟨.ofNat 32 (m.total cfg.tag),headerLen cfg.tag m,false⟩ := by
  have hfour := hm.four_le
  have hlt := hm.lt
  have hwords : cfg.tag ≠ .pad → 4 ∣ m.total cfg.tag := by
    intro h
    rw [Message.total,(length_pad cfg.tag m).2 h]
    exact hm.words
  rw [obfs2ParseFrameLength,length_parsed hm,Option.filter_some,if_pos]
  rw [checkLength_iff,hm.toNat]
  refine ⟨⟨?_,by omega,hm.le_max⟩,hwords⟩
  rw [Message.total]
  omega

/-- What is cut out of the buffer is the payload, without its padding. -/
theorem cut_frame (hm : m.Sendable cfg) (rest : Bytes) :
    cutPacket cfg ⟨.ofNat 32 (m.total cfg.tag),headerLen cfg.tag m,false⟩
      (frame cfg.tag m++rest) = m.payload := by
  have hpad := length_pad cfg.tag m
  obtain ⟨k,hk⟩ := hm.words
  have hmsg : ((frame cfg.tag m++rest).drop (headerLen cfg.tag m)).take (m.total cfg.tag) =
      m.payload++m.pad cfg.tag := by
    rw [frame,List.append_assoc,headerLen,List.drop_left,
      List.take_left' (show (m.payload++m.pad cfg.tag).length = m.total cfg.tag from
        List.length_append)]
  rw [cutPacket]
  dsimp only
  rw [hm.toNat,hmsg,and_neg_four,hm.toNat]
  split_ifs with htag
  · rw [List.take_left' (by rw [Message.total]; omega)]
  · rw [hpad.2 htag,List.append_nil]

variable {ms : List Message} {buf more : Bytes}

theorem minLen_le_headerLen (cfg : Config) (m : Message) :
    1 ≤ minLen cfg ∧ minLen cfg ≤ headerLen cfg.tag m := by
  rw [minLen,headerLen,compactHeader]
  simp only [tagFlags_medium]
  split_ifs <;> simp [store4]

theorem le_length_frame (cfg : Config) (m : Message) :
    minLen cfg+m.payload.length ≤ (frame cfg.tag m).length := by
  have hmin := (minLen_le_headerLen cfg m).2
  rw [length_frame,Message.total]
  omega

/-- A packet of four bytes is shorter than what the loop waits for. -/
theorem length_frame_lt (h : m.payload.length = 4) :
    (frame cfg.tag m).length < minLen cfg+8 := by
  have hpad := (length_pad cfg.tag m).1
  have htotal : m.total cfg.tag ≤ 7 := by
    rw [Message.total]
    omega
  have hint : (BitVec.ofNat 32 (m.total cfg.tag)).toInt = m.total cfg.tag := toInt_ofNat_of_lt (by omega)
  have hheader : headerLen cfg.tag m = minLen cfg := by
    rw [headerLen,compactHeader,minLen]
    simp only [tagFlags_medium,hint]
    by_cases hmedium : cfg.tag.isMedium = true
    · rw [if_pos hmedium,if_pos hmedium]
      rfl
    · rw [if_neg hmedium,if_neg hmedium,if_pos (by omega)]
      rfl
  rw [length_frame,hheader]
  omega

/-- What the loop does in front of a frame, of which a part has come. -/
theorem nextPacket_frame (hm : m.Sendable cfg) {rest : Bytes}
    (hbuf : buf++more = frame cfg.tag m++rest) :
    nextPacket cfg buf =
      if buf.length < minLen cfg+8 then .need (minLen cfg+8-buf.length)
      else if buf.length < (frame cfg.tag m).length then .need ((frame cfg.tag m).length-buf.length)
      else .packet ⟨false,m.payload⟩ (buf.drop (frame cfg.tag m).length) := by
  have hmin := (minLen_le_headerLen cfg m).1
  by_cases hshort : buf.length < minLen cfg+8
  · rw [nextPacket,if_pos hshort,if_pos hshort]
  · have hlookup : lookup4 buf = lookup4 (frame cfg.tag m++rest) := by
      rw [← hbuf,lookup4_append (by omega)]
    rw [nextPacket,if_neg hshort,if_neg hshort,hlookup,parse_frame hm]
    dsimp only
    rw [hm.toNat,length_frame,Nat.add_comm (m.total cfg.tag)]
    split_ifs with hpart
    · rfl
    · have hprefix : frame cfg.tag m <+: buf :=
        List.prefix_of_prefix_length_le (hbuf ▸ List.prefix_append _ rest)
          (List.prefix_append buf more) (by rw [length_frame]; omega)
      obtain ⟨r,rfl⟩ := hprefix
      rw [cut_frame hm]

/-- The messages that are read of a stream: all but a last one of four bytes. -/
def delivered : List Message → List Message
  | [] => []
  | m::ms => if ms = [] ∧ m.payload.length = 4 then [] else m::delivered ms

def Message.packet (m : Message) : Packet := ⟨false,m.payload⟩

/-- A reader in the middle of a stream: what it holds and what is to come are the frames of
`ms`, and with these the packets will be `goal`. -/
structure Stage (cfg : Config) (goal : List Packet) (more : Bytes) (ms : List Message) (c : Conn) :
    Prop where
  sendable : ∀ m ∈ ms, m.Sendable cfg
  working : c.status = .working
  buf : c.inBuf++more = (ms.map (frame cfg.tag)).flatten
  packets : c.packets++(delivered ms).map Message.packet = goal

/-- The next packet is not there yet, and no bytes are waited for that it does not need. -/
def Waits (cfg : Config) (ms : List Message) (c : Conn) : Prop :=
  c.inBuf = [] ∧ c.skipBytes = 0 ∨ ∃ m ms', ms = m::ms' ∧ c.inBuf.length < c.skipBytes ∧
    c.skipBytes ≤ max (minLen cfg+8) (frame cfg.tag m).length

theorem parseLoop_stage (hexec : ∀ n p, cfg.executeFails n p = false) {goal : List Packet}
    {c : Conn} (hstage : Stage cfg goal more ms c) (hskip : c.skipBytes = 0) {fuel : ℕ}
    (hfuel : c.inBuf.length < fuel) :
    ∃ ms', Stage cfg goal more ms' (parseLoop cfg fuel c) ∧ Waits cfg ms' (parseLoop cfg fuel c) := by
  induction fuel generalizing ms c with
  | zero => omega
  | succ fuel ih =>
      have hw := hstage.working
      by_cases hempty : c.inBuf = []
      · rw [parseLoop_stopped _ (Or.inr hempty)]
        exact ⟨ms,hstage,Or.inl ⟨hempty,hskip⟩⟩
      rw [parseLoop,if_neg (by simp [hw,hempty])]
      cases ms with
      | nil =>
          have hbuf := hstage.buf
          simp [hempty] at hbuf
      | cons m ms =>
          have hm := hstage.sendable m (by simp)
          have hnext := nextPacket_frame hm (hstage.buf.trans (by rw [List.map_cons,List.flatten_cons]))
          rw [hnext]
          split_ifs with hshort hpart
          · refine ⟨m::ms,⟨hstage.sendable,hw,hstage.buf,hstage.packets⟩,
              Or.inr ⟨m,ms,rfl,?_,?_⟩⟩ <;> dsimp only <;> omega
          · refine ⟨m::ms,⟨hstage.sendable,hw,hstage.buf,hstage.packets⟩,
              Or.inr ⟨m,ms,rfl,?_,?_⟩⟩ <;> dsimp only <;> omega
          · have hfour := hm.four_le
            have hbuf : c.inBuf.drop (frame cfg.tag m).length++more =
                (ms.map (frame cfg.tag)).flatten := by
              have hdrop := congrArg (List.drop (frame cfg.tag m).length) hstage.buf
              rw [List.map_cons,List.flatten_cons,List.drop_left,
                List.drop_append_of_le_length (by omega)] at hdrop
              exact hdrop
            have htaken : ¬(ms = [] ∧ m.payload.length = 4) := by
              rintro ⟨hlast,hpayload⟩
              have hlt : (frame cfg.tag m).length < minLen cfg+8 := length_frame_lt hpayload
              have hall := congrArg List.length hstage.buf
              simp only [hlast,List.map_cons,List.map_nil,List.flatten_cons,List.flatten_nil,
                List.append_nil,List.length_append] at hall
              omega
            have hpackets := hstage.packets
            rw [delivered,if_neg htaken,List.map_cons,← List.singleton_append,← List.append_assoc] at hpackets
            dsimp only
            rw [if_neg (by omega)]
            refine ih ⟨fun m' hm' => hstage.sendable m' (by simp [hm']),by simp [hexec],hbuf,hpackets⟩ hskip ?_
            have hle := le_length_frame cfg m
            dsimp only
            rw [List.length_drop]
            omega

theorem reader_stage (hexec : ∀ n p, cfg.executeFails n p = false) {goal : List Packet} {c : Conn}
    {piece : Bytes} (hstage : Stage cfg goal (piece++more) ms c) (hwaits : Waits cfg ms c) :
    ∃ ms', Stage cfg goal more ms' (reader cfg c piece) ∧ Waits cfg ms' (reader cfg c piece) := by
  have hnext : Stage cfg goal more ms {c with inBuf := c.inBuf++piece} :=
    ⟨hstage.sendable,hstage.working,by rw [← hstage.buf,List.append_assoc],hstage.packets⟩
  rw [reader,if_neg (not_not_intro hstage.working)]
  dsimp only
  split_ifs with hskip
  · refine ⟨ms,hnext,Or.inr ?_⟩
    cases hwaits with
    | inl h => rw [h.2] at hskip; omega
    | inr h =>
        obtain ⟨m,ms',hms,-,hle⟩ := h
        exact ⟨m,ms',hms,hskip,hle⟩
  · have hloop : Stage cfg goal more ms {c with inBuf := c.inBuf++piece, skipBytes := 0} :=
      ⟨hnext.sendable,hnext.working,hnext.buf,hnext.packets⟩
    exact parseLoop_stage hexec hloop rfl (Nat.lt_succ_self _)

theorem run_stage (hexec : ∀ n p, cfg.executeFails n p = false) {goal : List Packet}
    (pieces : List Bytes) {c : Conn} (hstage : Stage cfg goal pieces.flatten ms c)
    (hwaits : Waits cfg ms c) :
    ∃ ms', Stage cfg goal [] ms' (run (reader cfg) c pieces) ∧
      Waits cfg ms' (run (reader cfg) c pieces) := by
  induction pieces generalizing ms c with
  | nil => exact ⟨ms,hstage,hwaits⟩
  | cons piece pieces ih =>
      obtain ⟨ms',hstage',hwaits'⟩ := reader_stage hexec hstage hwaits
      exact ih hstage' hwaits'

/-- At the end of the stream nothing more is delivered. -/
theorem delivered_end {goal : List Packet} {c : Conn} (hstage : Stage cfg goal [] ms c)
    (hwaits : Waits cfg ms c) : delivered ms = [] := by
  cases ms with
  | nil => rfl
  | cons m ms =>
      have hbuf := congrArg List.length hstage.buf
      have hle := le_length_frame cfg m
      have hfour := (hstage.sendable m (by simp)).four_le
      obtain ⟨k,hk⟩ := (hstage.sendable m (by simp)).words
      rw [List.append_nil,List.map_cons,List.flatten_cons,List.length_append] at hbuf
      rw [delivered,if_pos]
      cases hwaits with
      | inl h =>
          rw [h.1,List.length_nil] at hbuf
          omega
      | inr h =>
          obtain ⟨m',ms',hms,hlt,hmax⟩ := h
          cases hms
          refine ⟨?_,by omega⟩
          -- A second frame would have made the bytes enough for the first.
          cases ms with
          | nil => rfl
          | cons m' ms =>
              have hle' := le_length_frame cfg m'
              have hfour' := (hstage.sendable m' (by simp)).four_le
              rw [List.map_cons,List.flatten_cons,List.length_append] at hbuf
              omega

/-- In compact mode the shortest form is used. -/
theorem length_frame_compact (hm : m.Sendable cfg) (htag : cfg.tag = .compact) :
    (frame cfg.tag m).length =
      (if m.payload.length < 0x7f*4 then 1 else 4)+m.payload.length := by
  have hlt := hm.lt
  obtain ⟨k,hk⟩ := hm.words
  have htotal : m.total cfg.tag = m.payload.length := by
    rw [Message.total,(length_pad cfg.tag m).2 (by simp [htag]),List.length_nil,Nat.add_zero]
  have hint : (BitVec.ofNat 32 m.payload.length).toInt = m.payload.length := toInt_ofNat_of_lt (by omega)
  have hmedium : ¬cfg.tag.isMedium = true := by simp [htag,Tag.isMedium]
  rw [length_frame,headerLen,compactHeader,htotal]
  simp only [tagFlags_medium,hint]
  rw [if_neg hmedium]
  by_cases hshort : m.payload.length < 0x7f*4
  · rw [if_pos hshort,if_pos (by omega)]
    rfl
  · rw [if_neg hshort,if_neg (by omega)]
    rfl

/-- Whatever is sent to a client in one of the three modes comes out of the packet loop in
order and without a quick ack, however it is cut; only a last payload of four bytes is not
read before more bytes come. In compact mode a length below `0x7f` words has one byte. -/
theorem packets_read (tag : Tag) (maxPacketLen : ℤ) (c : OutConn) (ms : List Message)
    (hmode : InMode tag c) (hout : c.out = [])
    (hms : ∀ m ∈ ms, m.Sendable ⟨tag,maxPacketLen,fun _ _ => false⟩) :
    ∃ c', sendAll c ms = some c' ∧ c'.out = (ms.map (frame tag)).flatten ∧
      (∀ m ∈ ms, tag = .compact → (frame tag m).length =
        (if m.payload.length < 0x7f*4 then 1 else 4)+m.payload.length) ∧
      ∀ pieces : List Bytes, pieces.flatten = c'.out →
        (run (reader ⟨tag,maxPacketLen,fun _ _ => false⟩) {} pieces).status = .working ∧
        (run (reader ⟨tag,maxPacketLen,fun _ _ => false⟩) {} pieces).packets =
          (delivered ms).map Message.packet := by
  refine ⟨_,sendAll_eq hmode hms,by rw [hout]; rfl,?_,?_⟩
  · intro m hm htag
    exact length_frame_compact (hms m hm) htag
  · intro pieces hpieces
    rw [hout,List.nil_append] at hpieces
    have hstart : Stage ⟨tag,maxPacketLen,fun _ _ => false⟩ ((delivered ms).map Message.packet)
        pieces.flatten ms {} := ⟨hms,rfl,hpieces,rfl⟩
    obtain ⟨ms',hstage,hwaits⟩ := run_stage (fun _ _ => rfl) pieces hstart (Or.inl ⟨rfl,rfl⟩)
    have hpackets := hstage.packets
    rw [delivered_end hstage hwaits,List.map_nil,List.append_nil] at hpackets
    exact ⟨hstage.working,hpackets⟩

/-- Two payloads in padded mode, cut in the middle of the first. -/
theorem packets_read_sample :
    ∃ c', sendAll {flags := tagFlags .pad} [⟨[1,2,3,4],7#32,3#32⟩,⟨[5,6,7,8,9,10,11,12],1#32,2#32⟩] =
        some c' ∧
      (run (reader ⟨.pad,0,fun _ _ => false⟩) {} [c'.out.take 5,c'.out.drop 5]).packets =
        [⟨false,[1,2,3,4]⟩,⟨false,[5,6,7,8,9,10,11,12]⟩] := by
  obtain ⟨c',hsend,-,-,hread⟩ := packets_read .pad 0 {flags := tagFlags .pad}
    [⟨[1,2,3,4],7#32,3#32⟩,⟨[5,6,7,8,9,10,11,12],1#32,2#32⟩] ⟨rfl,by decide⟩ rfl (by decide)
  exact ⟨c',hsend,(hread _ (by simp)).2⟩

/-- A payload of four bytes alone is not read. -/
theorem short_payload_waits : ¬∀ (tag : Tag) (maxPacketLen : ℤ) (c : OutConn) (ms : List Message),
    InMode tag c → c.out = [] → (∀ m ∈ ms, m.Sendable ⟨tag,maxPacketLen,fun _ _ => false⟩) →
    ∃ c', sendAll c ms = some c' ∧ ∀ pieces : List Bytes, pieces.flatten = c'.out →
      (run (reader ⟨tag,maxPacketLen,fun _ _ => false⟩) {} pieces).packets =
        ms.map Message.packet := by
  intro h
  obtain ⟨c',hsend,hread⟩ := h .compact 0 {flags := tagFlags .compact} [⟨[1,2,3,4],0#32,0#32⟩]
    ⟨rfl,by decide⟩ rfl (by decide)
  obtain rfl : {flags := tagFlags .compact, out := [1,1,2,3,4]} = c' := Option.some.inj hsend
  have hpackets := hread [[1,1,2,3,4]] rfl
  revert hpackets
  decide

end Teleproxy.ClientFraming
