import Teleproxy.ClientInput
import Teleproxy.Lib.StepSystem
import Mathlib.Tactic.IntervalCases

/-!
# Packets of a client

Behind the obfs2 header the plaintext in `c->in` is a sequence of packets, each
behind its length. The length has one or four bytes in compact mode and four in
medium and padded mode; one bit of it asks for a quick ack. The packet loop of
`tcp_rpcs_compact_parse_execute` reads a length once `min_len + 8` bytes are
there, checks it as `obfs2_parse_frame_length` does, waits for the packet, cuts
it out and, in padded mode, truncates it to a multiple of four. The type of the
packet is then read with an assertion that there are four bytes.

Lengths are C integers, here `BitVec 32`. What `execute` does with a packet is
left open, except that it may fail the connection. A piece of the plaintext is
what one call of the reader adds to `c->in`.
-/
namespace Teleproxy.PacketParser
open ClientInput (Bytes)
open StepSystem (run Throughout)

/-- The transport of the client, by the tag in its header. -/
inductive Tag where
  | compact | medium | pad
  deriving DecidableEq, Repr

/-- `D->flags & RPC_F_MEDIUM`. -/
def Tag.isMedium : Tag → Bool
  | .compact => false
  | _ => true

structure Config where
  tag : Tag
  maxPacketLen : ℤ
  /-- Whether `execute` fails the connection on a packet, given its number. -/
  executeFails : ℕ → Bytes → Bool := fun _ _ => false

structure FrameResult where
  packetLen : BitVec 32
  headerBytes : ℕ
  quickack : Bool
  deriving DecidableEq, Repr

/-- The checks that all modes share. -/
def checkLength (cfg : Config) (len : BitVec 32) : Bool :=
  !(len.toInt ≤ 0 || len &&& 0xc0000000#32 != 0#32) &&
    !(cfg.tag != .pad && len &&& 3#32 != 0#32) &&
    !(0 < cfg.maxPacketLen && cfg.maxPacketLen < len.toInt)

def mediumLength (raw4 : BitVec 32) : Option FrameResult :=
  if raw4.toInt < 0 ∧ -1000 < raw4.toInt then none
  else some ⟨raw4 &&& 0x7fffffff#32,4,raw4 &&& 0x80000000#32 != 0#32⟩

def compactLength (raw4 : BitVec 32) : Option FrameResult :=
  let quickack := raw4 &&& 0x80#32 != 0#32
  let len := raw4 &&& 0xffffff7f#32
  if len &&& 0xff#32 = 0x7f#32 then
    let len := len >>> 8
    if len.toInt < 0x7f then none else some ⟨len <<< 2,4,quickack⟩
  else some ⟨(len &&& 0x7f#32) <<< 2,1,quickack⟩

/-- `obfs2_parse_frame_length`, which the packet loop repeats in its own words. -/
def obfs2ParseFrameLength (cfg : Config) (raw4 : BitVec 32) : Option FrameResult :=
  (if cfg.tag.isMedium then mediumLength raw4 else compactLength raw4).filter
    fun f => checkLength cfg f.packetLen

/-- `rwm_fetch_lookup (&c->in, &packet_len, 4)` on four bytes or more. -/
def lookup4 (buf : Bytes) : BitVec 32 :=
  .ofNat 32 ((buf.getD 0 0).toNat+256*((buf.getD 1 0).toNat+
    256*((buf.getD 2 0).toNat+256*(buf.getD 3 0).toNat)))

/-- The four bytes of an `int`, the lowest first. -/
def store4 (w : BitVec 32) : Bytes :=
  [.ofNat w.toNat,.ofNat (w.toNat >>> 8),.ofNat (w.toNat >>> 16),.ofNat (w.toNat >>> 24)]

structure Packet where
  quickack : Bool
  msg : Bytes
  deriving DecidableEq, Repr

inductive Status where
  | working | failed | aborted
  deriving DecidableEq, Repr

/-- A client connection behind its header. `aborted` is the failed assertion, with
which the whole process ends. -/
structure Conn where
  inBuf : Bytes := []
  skipBytes : ℕ := 0
  inPacketNum : ℕ := 0
  packets : List Packet := []
  status : Status := .working
  deriving DecidableEq, Repr

inductive Next where
  | need (n : ℕ)
  | bad
  | packet (p : Packet) (rest : Bytes)
  deriving DecidableEq, Repr

def minLen (cfg : Config) : ℕ := if cfg.tag.isMedium then 4 else 1

/-- Behind the length: `rwm_split_head`, and `rwm_trunc` in padded mode. -/
def cutPacket (cfg : Config) (f : FrameResult) (buf : Bytes) : Bytes :=
  let msg := (buf.drop f.headerBytes).take f.packetLen.toNat
  if cfg.tag = .pad then msg.take (f.packetLen &&& -4#32).toNat else msg

/-- The packet at the start of `c->in`. -/
def nextPacket (cfg : Config) (buf : Bytes) : Next :=
  if buf.length < minLen cfg+8 then .need (minLen cfg+8-buf.length)
  else
    match obfs2ParseFrameLength cfg (lookup4 buf) with
    | none => .bad
    | some f =>
        let total := f.packetLen.toNat+f.headerBytes
        if buf.length < total then .need (total-buf.length)
        else .packet ⟨f.quickack,cutPacket cfg f buf⟩ (buf.drop total)

/-- The packet loop, with what the reader makes of its result. -/
def parseLoop (cfg : Config) : ℕ → Conn → Conn
  | 0, c => c
  | fuel+1, c =>
      if c.status ≠ .working ∨ c.inBuf = [] then c else
        match nextPacket cfg c.inBuf with
        | .need n => {c with skipBytes := n+c.inBuf.length}
        | .bad => {c with status := .failed}
        | .packet p rest =>
            if p.msg.length < 4 then {c with inBuf := rest, status := .aborted}
            else
              parseLoop cfg fuel
                {c with inBuf := rest, packets := c.packets++[p], inPacketNum := c.inPacketNum+1,
                        status := if cfg.executeFails c.inPacketNum p.msg then .failed else .working}

/-- `cpu_tcp_server_reader` once the cipher is set, with `piece` decrypted. -/
def reader (cfg : Config) (c : Conn) (piece : Bytes) : Conn :=
  if c.status ≠ .working then c
  else
    let c := {c with inBuf := c.inBuf++piece}
    if c.inBuf.length < c.skipBytes then c
    else parseLoop cfg (c.inBuf.length+1) {c with skipBytes := 0}

theorem lookup4_store4 (w : BitVec 32) (rest : Bytes) : lookup4 (store4 w++rest) = w := by
  have hw := w.isLt
  rw [← BitVec.toNat_inj,lookup4,BitVec.toNat_ofNat]
  simp only [store4,List.cons_append,List.getD_cons_zero,List.getD_cons_succ,UInt8.toNat_ofNat',
    Nat.shiftRight_eq_div_pow]
  omega

theorem lookup4_append {s : Bytes} (hs : 4 ≤ s.length) (more : Bytes) :
    lookup4 (s++more) = lookup4 s := by
  have hget : ∀ i < 4, (s++more).getD i 0 = s.getD i 0 := by
    intro i hi
    rw [List.getD_eq_getElem?_getD,List.getD_eq_getElem?_getD,List.getElem?_append_left (by omega)]
  simp only [lookup4,hget 0 (by omega),hget 1 (by omega),hget 2 (by omega),hget 3 (by omega)]

theorem toInt_ofNat_of_lt {n : ℕ} (h : n < 2^31) : (BitVec.ofNat 32 n).toInt = n := by
  rw [BitVec.toInt_eq_toNat_cond,BitVec.toNat_ofNat,Nat.mod_eq_of_lt (by omega),if_pos (by omega)]

theorem and_quickack (x : BitVec 32) : (x &&& 0x7fffffff#32).toNat = x.toNat % 2^31 := by
  rw [BitVec.toNat_and]
  exact Nat.and_two_pow_sub_one_eq_mod x.toNat 31

theorem and_three (x : BitVec 32) : (x &&& 3#32).toNat = x.toNat % 4 := by
  rw [BitVec.toNat_and]
  exact Nat.and_two_pow_sub_one_eq_mod x.toNat 2

theorem and_neg_four (x : BitVec 32) : (x &&& -4#32).toNat = x.toNat-x.toNat % 4 := by
  have hshift : x &&& -4#32 = x >>> 2 <<< 2 := by
    ext i hi
    interval_cases i <;> simp
  have hx := x.isLt
  rw [hshift]
  simp only [BitVec.toNat_shiftLeft,BitVec.toNat_ushiftRight,Nat.shiftLeft_eq,
    Nat.shiftRight_eq_div_pow]
  omega

theorem and_top_eq_zero (x : BitVec 32) : x &&& 0xc0000000#32 = 0#32 ↔ x.toNat < 2^30 := by
  have hshift : x &&& 0xc0000000#32 = x >>> 30 <<< 30 := by
    ext i hi
    interval_cases i <;> simp
  have hx := x.isLt
  rw [hshift,← BitVec.toNat_inj]
  simp only [BitVec.toNat_shiftLeft,BitVec.toNat_ushiftRight,Nat.shiftLeft_eq,
    Nat.shiftRight_eq_div_pow,BitVec.toNat_ofNat]
  omega

/-- A length in the range that the checks of every mode leave. -/
structure Fits (cfg : Config) (len : ℕ) : Prop where
  pos : 0 < len
  lt : len < 2^30
  le_max : 0 < cfg.maxPacketLen → (len : ℤ) ≤ cfg.maxPacketLen

theorem checkLength_iff (cfg : Config) (len : BitVec 32) :
    checkLength cfg len = true ↔ Fits cfg len.toNat ∧ (cfg.tag ≠ .pad → 4 ∣ len.toNat) := by
  have hint := BitVec.toInt_eq_toNat_cond len
  have htop := and_top_eq_zero len
  have hthree : len &&& 3#32 = 0#32 ↔ 4 ∣ len.toNat := by
    rw [← BitVec.toNat_inj,and_three,Nat.dvd_iff_mod_eq_zero]
    rfl
  simp only [checkLength,Bool.and_eq_true,Bool.not_eq_true',Bool.or_eq_false_iff,
    decide_eq_false_iff_not,bne_eq_false_iff_eq,Bool.and_eq_false_iff,htop,hthree]
  constructor
  · rintro ⟨⟨⟨hpos,hlt⟩,hpad⟩,hmax⟩
    rw [if_pos (by omega)] at hint
    exact ⟨⟨by omega,hlt,fun h => by omega⟩,fun h => by tauto⟩
  · rintro ⟨⟨hpos,hlt,hmax⟩,hpad⟩
    rw [if_pos (by omega)] at hint
    exact ⟨⟨⟨by omega,hlt⟩,by tauto⟩,by omega⟩

theorem headerBytes_le {cfg : Config} {raw4 : BitVec 32} {f : FrameResult}
    (h : obfs2ParseFrameLength cfg raw4 = some f) : 1 ≤ f.headerBytes ∧ f.headerBytes ≤ 4 := by
  unfold obfs2ParseFrameLength mediumLength compactLength at h
  obtain ⟨h,-⟩ := Option.filter_eq_some_iff.mp h
  grind

theorem fits_of_parse {cfg : Config} {raw4 : BitVec 32} {f : FrameResult}
    (h : obfs2ParseFrameLength cfg raw4 = some f) :
    Fits cfg f.packetLen.toNat ∧ (cfg.tag ≠ .pad → 4 ∣ f.packetLen.toNat) :=
  (checkLength_iff cfg f.packetLen).mp (Option.filter_eq_some_iff.mp h).2

/-- `packet_len + packet_len_bytes` does not overflow. -/
theorem total_lt {cfg : Config} {raw4 : BitVec 32} {f : FrameResult}
    (h : obfs2ParseFrameLength cfg raw4 = some f) :
    f.packetLen.toNat+f.headerBytes < 2^31 := by
  have hlt := (fits_of_parse h).1.lt
  have hbytes := headerBytes_le h
  omega

/-- In padded mode a length is accepted exactly when it fits. -/
theorem parse_pad {cfg : Config} (htag : cfg.tag = .pad) (raw4 : BitVec 32) :
    (Fits cfg (raw4.toNat % 2^31) →
      ∃ q, obfs2ParseFrameLength cfg raw4 = some ⟨raw4 &&& 0x7fffffff#32,4,q⟩) ∧
    (¬ Fits cfg (raw4.toNat % 2^31) → obfs2ParseFrameLength cfg raw4 = none) := by
  have hint := BitVec.toInt_eq_toNat_cond raw4
  have hcheck : checkLength cfg (raw4 &&& 0x7fffffff#32) = true ↔
      Fits cfg (raw4.toNat % 2^31) := by
    rw [checkLength_iff,and_quickack]
    simp [htag]
  simp only [obfs2ParseFrameLength,htag,Tag.isMedium,if_true,mediumLength]
  constructor
  · intro hfits
    have hlt := hfits.lt
    rw [if_neg (by split_ifs at hint <;> omega)]
    exact ⟨_,by rw [Option.filter_some,if_pos (hcheck.mpr hfits)]⟩
  · intro hfits
    split_ifs with herror
    · rfl
    · rw [Option.filter_some,if_neg (fun h => hfits (hcheck.mp h))]

/-- The length in front of a padded packet, without its quick-ack bit. -/
def lengthField (s : Bytes) : ℕ := (lookup4 s).toNat % 2^31

/-- The packet behind the length, truncated. -/
def paddedPacket (s : Bytes) : Bytes := (s.drop 4).take (lengthField s-lengthField s % 4)

/-- Padded plaintext that comes, behind complete packets, to a length of 1, 2 or
3 with eight bytes behind it. -/
inductive ShortLength (cfg : Config) : ℕ → Bytes → Prop where
  | here {n : ℕ} {s : Bytes} : 12 ≤ s.length → Fits cfg (lengthField s) → lengthField s < 4 →
      ShortLength cfg n s
  | behind {n : ℕ} {s : Bytes} : lengthField s+4 ≤ s.length → Fits cfg (lengthField s) →
      4 ≤ lengthField s → cfg.executeFails n (paddedPacket s) = false →
      ShortLength cfg (n+1) (s.drop (lengthField s+4)) → ShortLength cfg n s

theorem ShortLength.length {cfg : Config} {n : ℕ} {s : Bytes} (h : ShortLength cfg n s) :
    12 ≤ s.length := by
  induction h with
  | here hlen _ _ => exact hlen
  | behind _ _ _ _ _ ih =>
      rw [List.length_drop] at ih
      omega

theorem ShortLength.fits {cfg : Config} {n : ℕ} {s : Bytes} (h : ShortLength cfg n s) :
    Fits cfg (lengthField s) := by
  cases h with
  | here _ hfits _ => exact hfits
  | behind _ hfits _ _ _ => exact hfits

/-- A packet of four bytes or more is complete and leaves the rest. -/
theorem ShortLength.rest {cfg : Config} {n : ℕ} {s : Bytes} (h : ShortLength cfg n s)
    (hl : 4 ≤ lengthField s) :
    lengthField s+4 ≤ s.length ∧ cfg.executeFails n (paddedPacket s) = false ∧
      ShortLength cfg (n+1) (s.drop (lengthField s+4)) := by
  cases h with
  | here _ _ hlt => omega
  | behind hlen _ _ hexec hrest => exact ⟨hlen,hexec,hrest⟩

theorem lengthField_append {s : Bytes} (hs : 4 ≤ s.length) (more : Bytes) :
    lengthField (s++more) = lengthField s := by
  rw [lengthField,lookup4_append hs,lengthField]

theorem paddedPacket_append {s : Bytes} (hs : lengthField s+4 ≤ s.length) (more : Bytes) :
    paddedPacket (s++more) = paddedPacket s := by
  rw [paddedPacket,lengthField_append (by omega),List.drop_append_of_le_length (by omega),
    List.take_append_of_le_length (by rw [List.length_drop]; omega),paddedPacket]

theorem length_paddedPacket {s : Bytes} (hs : lengthField s+4 ≤ s.length) :
    (paddedPacket s).length = lengthField s-lengthField s % 4 := by
  rw [paddedPacket,List.length_take,List.length_drop]
  omega

section Pad
variable {cfg : Config}

theorem minLen_pad (htag : cfg.tag = .pad) : minLen cfg = 4 := by simp [minLen,htag,Tag.isMedium]

theorem nextPacket_need (htag : cfg.tag = .pad) {s : Bytes} {m : ℕ} (h : nextPacket cfg s = .need m) (n : ℕ)
    {more : Bytes} (hmore : (s++more).length < m+s.length) : ¬ ShortLength cfg n (s++more) := by
  intro hshort
  have hlong := hshort.length
  rw [nextPacket,minLen_pad htag] at h
  split_ifs at h with hlen
  · cases h
    omega
  · have hfits := hshort.fits
    rw [lengthField_append (by omega)] at hfits
    obtain ⟨q,hq⟩ := (parse_pad htag (lookup4 s)).1 hfits
    simp only [hq,and_quickack] at h
    split_ifs at h with htotal
    cases h
    have hl : lengthField s = (lookup4 s).toNat % 2^31 := rfl
    have hrest := (hshort.rest (by rw [lengthField_append (by omega)]; omega)).1
    rw [lengthField_append (by omega)] at hrest
    omega

theorem nextPacket_bad (htag : cfg.tag = .pad) {s : Bytes} (h : nextPacket cfg s = .bad) (n : ℕ) (more : Bytes) :
    ¬ ShortLength cfg n (s++more) := by
  intro hshort
  rw [nextPacket,minLen_pad htag] at h
  split_ifs at h with hlen
  have hfits := hshort.fits
  rw [lengthField_append (by omega)] at hfits
  obtain ⟨q,hq⟩ := (parse_pad htag (lookup4 s)).1 hfits
  simp only [hq] at h
  split_ifs at h

/-- A packet is taken where its length fits and all of it has come. -/
theorem nextPacket_packet (htag : cfg.tag = .pad) {s rest : Bytes} {p : Packet} (h : nextPacket cfg s = .packet p rest) :
    12 ≤ s.length ∧ Fits cfg (lengthField s) ∧ lengthField s+4 ≤ s.length ∧
      p.msg = paddedPacket s ∧ rest = s.drop (lengthField s+4) := by
  rw [nextPacket,minLen_pad htag] at h
  split_ifs at h with hlen
  by_cases hfits : Fits cfg (lengthField s)
  · obtain ⟨q,hq⟩ := (parse_pad htag (lookup4 s)).1 hfits
    have hl : lengthField s = (lookup4 s).toNat % 2^31 := rfl
    simp only [hq,and_quickack,← hl] at h
    split_ifs at h with htotal
    cases h
    refine ⟨by omega,hfits,by omega,?_,rfl⟩
    simp only [cutPacket,htag,if_true,and_neg_four,and_quickack,← hl]
    rw [List.take_take,paddedPacket,min_eq_left (by omega)]
  · rw [(parse_pad htag (lookup4 s)).2 hfits] at h
    cases h

/-- What the state reached on `s` says about everything that may follow: while the
connection works, a short length is still to come in the bytes it holds. -/
structure Reads (cfg : Config) (n : ℕ) (s : Bytes) (c : Conn) : Prop where
  working : c.status = .working → ∀ more,
    ShortLength cfg n (s++more) ↔ ShortLength cfg c.inPacketNum (c.inBuf++more)
  failed : c.status = .failed → ∀ more, ¬ ShortLength cfg n (s++more)
  aborted : c.status = .aborted → ∀ more, ShortLength cfg n (s++more)
  settled : c.status = .working → c.inBuf = [] ∨ c.inBuf.length < c.skipBytes
  waits : c.status = .working → ∀ more, (c.inBuf++more).length < c.skipBytes →
    ¬ ShortLength cfg c.inPacketNum (c.inBuf++more)

theorem Reads.of_iff {n m : ℕ} {s t : Bytes} {c : Conn} (h : Reads cfg m t c)
    (hiff : ∀ more, ShortLength cfg n (s++more) ↔ ShortLength cfg m (t++more)) :
    Reads cfg n s c where
  working hc more := (hiff more).trans (h.working hc more)
  failed hc more := fun hs => h.failed hc more ((hiff more).mp hs)
  aborted hc more := (hiff more).mpr (h.aborted hc more)
  settled := h.settled
  waits := h.waits

theorem short_iff_rest {n : ℕ} {s : Bytes} (hfits : Fits cfg (lengthField s))
    (hlen : lengthField s+4 ≤ s.length) (hl : 4 ≤ lengthField s) (more : Bytes) :
    ShortLength cfg n (s++more) ↔ cfg.executeFails n (paddedPacket s) = false ∧
      ShortLength cfg (n+1) (s.drop (lengthField s+4)++more) := by
  have hfield := lengthField_append (s := s) (by omega) more
  have hpacket := paddedPacket_append hlen more
  have hdrop : (s++more).drop (lengthField s+4) = s.drop (lengthField s+4)++more :=
    List.drop_append_of_le_length hlen
  constructor
  · intro h
    have hrest := (h.rest (by rw [hfield]; exact hl)).2
    rw [hfield,hpacket,hdrop] at hrest
    exact hrest
  · rintro ⟨hexec,hrest⟩
    apply ShortLength.behind
    · rw [hfield,List.length_append]
      omega
    · rw [hfield]
      exact hfits
    · rw [hfield]
      exact hl
    · rw [hpacket]
      exact hexec
    · rw [hfield,hdrop]
      exact hrest

theorem need_pos {s : Bytes} {m : ℕ} (h : nextPacket cfg s = .need m) : 0 < m := by
  unfold nextPacket at h
  grind

theorem parseLoop_stopped {c : Conn} (fuel : ℕ) (hc : c.status ≠ .working ∨ c.inBuf = []) :
    parseLoop cfg fuel c = c := by
  cases fuel with
  | zero => rfl
  | succ fuel => rw [parseLoop,if_pos hc]

theorem reads_empty {c : Conn} (hw : c.status = .working) (hskip : c.skipBytes = 0)
    (hbuf : c.inBuf = []) : Reads cfg c.inPacketNum c.inBuf c where
  working _ _ := Iff.rfl
  failed hc := by rw [hw] at hc; cases hc
  aborted hc := by rw [hw] at hc; cases hc
  settled _ := Or.inl hbuf
  waits _ more hlen := by omega

theorem parseLoop_reads (htag : cfg.tag = .pad) {c : Conn} {fuel : ℕ}
    (hfuel : c.inBuf.length < fuel) (hskip : c.skipBytes = 0) (hw : c.status = .working) :
    Reads cfg c.inPacketNum c.inBuf (parseLoop cfg fuel c) := by
  induction fuel generalizing c with
  | zero => omega
  | succ fuel ih =>
      by_cases hbuf : c.inBuf = []
      · rw [parseLoop_stopped _ (Or.inr hbuf)]
        exact reads_empty hw hskip hbuf
      rw [parseLoop,if_neg (by simp [hw,hbuf])]
      cases hnext : nextPacket cfg c.inBuf with
      | need m =>
          have hpos := need_pos hnext
          constructor
          · exact fun _ _ => Iff.rfl
          · exact fun hc => by simp [hw] at hc
          · exact fun hc => by simp [hw] at hc
          · exact fun _ => Or.inr (by simp only; omega)
          · exact fun _ more hmore => nextPacket_need htag hnext _ hmore
      | bad =>
          constructor
          · exact fun hc => by cases hc
          · exact fun _ more => nextPacket_bad htag hnext _ more
          · exact fun hc => by cases hc
          · exact fun hc => by cases hc
          · exact fun hc => by cases hc
      | packet p rest =>
          obtain ⟨h12,hfits,hlen,hmsg,rfl⟩ := nextPacket_packet htag hnext
          have hmsglen := length_paddedPacket hlen
          rw [← hmsg] at hmsglen
          simp only
          split_ifs with hshort hexec
          · -- the assertion fails, whatever follows
            constructor
            · exact fun hc => by cases hc
            · exact fun hc => by cases hc
            · intro _ more
              have hfield := lengthField_append (s := c.inBuf) (by omega) more
              apply ShortLength.here
              · rw [List.length_append]
                omega
              · rw [hfield]
                exact hfits
              · rw [hfield]
                omega
            · exact fun hc => by cases hc
            · exact fun hc => by cases hc
          · rw [parseLoop_stopped _ (Or.inl (by simp))]
            constructor
            · exact fun hc => by cases hc
            · intro _ more hs
              rw [short_iff_rest hfits hlen (by omega),← hmsg,hexec] at hs
              exact absurd hs.1 (by simp)
            · exact fun hc => by cases hc
            · exact fun hc => by cases hc
            · exact fun hc => by cases hc
          · have hpos := hfits.pos
            apply Reads.of_iff (ih ?_ ?_ ?_)
            · intro more
              rw [short_iff_rest hfits hlen (by omega),← hmsg]
              simp only [hexec,true_and]
            · simp only [List.length_drop]
              omega
            · exact hskip
            · rfl

/-- One call of the reader. -/
theorem reader_reads (htag : cfg.tag = .pad) {n : ℕ} {s : Bytes} {c : Conn}
    (h : Reads cfg n s c) (piece : Bytes) : Reads cfg n (s++piece) (reader cfg c piece) := by
  by_cases hw : c.status = .working
  · have hmore : ∀ more, ShortLength cfg n (s++piece++more) ↔
        ShortLength cfg c.inPacketNum (c.inBuf++piece++more) := by
      intro more
      simp only [List.append_assoc]
      exact h.working hw (piece++more)
    simp only [reader,hw,ne_eq,not_true_eq_false,if_false]
    split_ifs with hlen
    · constructor
      · exact fun _ => hmore
      · exact fun hc => by cases hc
      · exact fun hc => by cases hc
      · exact fun _ => Or.inr hlen
      · intro _ more
        simp only [List.append_assoc]
        exact h.waits hw (piece++more)
    · apply Reads.of_iff (parseLoop_reads htag ?_ ?_ ?_) hmore
      · simp only
        omega
      · rfl
      · rfl
  · simp only [reader,hw,ne_eq,not_false_eq_true,if_true]
    constructor
    · exact fun hc => absurd hc hw
    · intro hc more
      rw [List.append_assoc]
      exact h.failed hc (piece++more)
    · intro hc more
      rw [List.append_assoc]
      exact h.aborted hc (piece++more)
    · exact fun hc => absurd hc hw
    · exact fun hc => absurd hc hw

theorem Reads.aborted_iff {n : ℕ} {s : Bytes} {c : Conn} (h : Reads cfg n s c) :
    c.status = .aborted ↔ ShortLength cfg n s := by
  constructor
  · intro hc
    have hshort := h.aborted hc []
    rwa [List.append_nil] at hshort
  · intro hs
    cases hc : c.status with
    | aborted => rfl
    | failed =>
        have hnot := h.failed hc []
        rw [List.append_nil] at hnot
        exact absurd hs hnot
    | working =>
        have hbuf := h.working hc []
        have hwaits := h.waits hc []
        rw [List.append_nil,List.append_nil] at hbuf
        rw [List.append_nil] at hwaits
        have hlong := (hbuf.mp hs).length
        rcases h.settled hc with hnil | hlen
        · rw [hnil] at hlong
          exact absurd hlong (by simp)
        · exact absurd (hbuf.mp hs) (hwaits hlen)

end Pad

/-- The process runs, and every packet that was executed has its type. -/
structure Safe (c : Conn) : Prop where
  running : c.status ≠ .aborted
  typed : ∀ p ∈ c.packets, 4 ≤ p.msg.length

/-- Without truncation a packet that passes the checks has four bytes. -/
theorem four_le_of_not_pad {cfg : Config} (htag : cfg.tag ≠ .pad) {s rest : Bytes} {p : Packet}
    (h : nextPacket cfg s = .packet p rest) : 4 ≤ p.msg.length := by
  unfold nextPacket at h
  split_ifs at h
  cases hf : obfs2ParseFrameLength cfg (lookup4 s) with
  | none =>
      rw [hf] at h
      cases h
  | some f =>
      obtain ⟨⟨hpos,hlt,hmax⟩,hfour⟩ := fits_of_parse hf
      have hdvd := Nat.le_of_dvd hpos (hfour htag)
      simp only [hf] at h
      split_ifs at h with hlen
      cases h
      simp only [cutPacket,htag,if_false,List.length_take,List.length_drop]
      omega

theorem parseLoop_typed {cfg : Config} {c : Conn} (fuel : ℕ)
    (h : ∀ p ∈ c.packets, 4 ≤ p.msg.length) :
    ∀ p ∈ (parseLoop cfg fuel c).packets, 4 ≤ p.msg.length := by
  induction fuel generalizing c with
  | zero => exact h
  | succ fuel ih =>
      rw [parseLoop]
      split_ifs
      · exact h
      cases hnext : nextPacket cfg c.inBuf with
      | need m => exact h
      | bad => exact h
      | packet p rest =>
          simp only
          split_ifs with hshort
          · exact h
          all_goals
            apply ih
            intro q hq
            rcases List.mem_append.mp hq with hold | hnew
            · exact h q hold
            · rw [List.mem_singleton.mp hnew]
              omega

theorem parseLoop_running {cfg : Config} (htag : cfg.tag ≠ .pad) {c : Conn} (fuel : ℕ)
    (h : c.status ≠ .aborted) : (parseLoop cfg fuel c).status ≠ .aborted := by
  induction fuel generalizing c with
  | zero => exact h
  | succ fuel ih =>
      rw [parseLoop]
      split_ifs
      · exact h
      cases hnext : nextPacket cfg c.inBuf with
      | need m => exact h
      | bad => simp
      | packet p rest =>
          have hlen := four_le_of_not_pad htag hnext
          simp only
          split_ifs with hshort
          · omega
          all_goals
            apply ih
            simp

theorem reader_typed {cfg : Config} {c : Conn} (piece : Bytes)
    (h : ∀ p ∈ c.packets, 4 ≤ p.msg.length) :
    ∀ p ∈ (reader cfg c piece).packets, 4 ≤ p.msg.length := by
  simp only [reader]
  split_ifs
  · exact h
  · exact h
  · exact parseLoop_typed _ h

theorem reader_running {cfg : Config} (htag : cfg.tag ≠ .pad) {c : Conn} (piece : Bytes)
    (h : c.status ≠ .aborted) : (reader cfg c piece).status ≠ .aborted := by
  simp only [reader]
  split_ifs
  · exact h
  · exact h
  · exact parseLoop_running htag _ h

/-- Padded plaintext that comes to a length of 1, 2 or 3. -/
structure HasShortPacket (cfg : Config) (s : Bytes) : Prop where
  pad : cfg.tag = .pad
  short : ShortLength cfg 0 s

theorem safe_throughout_pad {cfg : Config} (htag : cfg.tag = .pad) {s : Bytes} {c : Conn}
    {pieces : List Bytes} (h : Reads cfg 0 s c) (ht : ∀ p ∈ c.packets, 4 ≤ p.msg.length)
    (hshort : ¬ ShortLength cfg 0 (s++pieces.flatten)) : Throughout (reader cfg) Safe c pieces := by
  induction pieces generalizing s c with
  | nil =>
      rw [List.flatten_nil,List.append_nil] at hshort
      exact ⟨fun hc => hshort (h.aborted_iff.mp hc),ht⟩
  | cons piece pieces ih =>
      constructor
      · exact ⟨fun hc => hshort (h.aborted hc _),ht⟩
      · apply ih (reader_reads htag h piece) (reader_typed piece ht)
        rwa [List.append_assoc,← List.flatten_cons]

theorem safe_throughout {cfg : Config} (htag : cfg.tag ≠ .pad) {c : Conn}
    (pieces : List Bytes) (h : Safe c) : Throughout (reader cfg) Safe c pieces := by
  induction pieces generalizing c with
  | nil => exact h
  | cons piece pieces ih =>
      exact ⟨h,ih ⟨reader_running htag piece h.running,reader_typed piece h.typed⟩⟩

theorem reads_run {cfg : Config} (htag : cfg.tag = .pad) {s : Bytes} {c : Conn}
    (pieces : List Bytes) (h : Reads cfg 0 s c) :
    Reads cfg 0 (s++pieces.flatten) (run (reader cfg) c pieces) := by
  induction pieces generalizing s c with
  | nil => simpa using h
  | cons piece pieces ih =>
      rw [List.flatten_cons,← List.append_assoc]
      exact ih (reader_reads htag h piece)

/-- Every length that passes the checks gives a packet with a type, and no sum of
lengths overflows, on all plaintext but the one that comes, in padded mode, to a
length of 1, 2 or 3. -/
theorem packets_typed_iff (cfg : Config) (pieces : List Bytes) :
    (Throughout (reader cfg) Safe {} pieces ∧ ∀ raw4 f, obfs2ParseFrameLength cfg raw4 = some f →
      f.packetLen.toNat+f.headerBytes < 2^31) ↔ ¬ HasShortPacket cfg pieces.flatten := by
  have hempty : Reads cfg 0 [] {} := reads_empty (c := {}) rfl rfl rfl
  constructor
  · rintro ⟨hsafe,-⟩ ⟨htag,hshort⟩
    have hreads := reads_run htag pieces hempty
    exact hsafe.last.running (hreads.aborted_iff.mpr hshort)
  · intro hshort
    constructor
    · by_cases htag : cfg.tag = .pad
      · apply safe_throughout_pad htag hempty
        · simp
        · exact fun h => hshort ⟨htag,h⟩
      · apply safe_throughout htag
        exact ⟨by simp,by simp⟩
    · exact fun raw4 f => total_lt

/-- A length of 1 with eight bytes behind it ends the process. -/
theorem short_packet_aborts :
    ¬ Throughout (reader {tag := .pad, maxPacketLen := 262144*4-4096}) Safe {}
      [[1,0,0,0],[0,0,0,0,0,0,0,0]] := by
  intro h
  apply h.last.running
  decide +kernel

end Teleproxy.PacketParser
