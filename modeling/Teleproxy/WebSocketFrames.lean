import Teleproxy.ClientInput

/-!
# Masked WebSocket frames

The frames a client sends, as RFC 6455 writes them, and what the frame parser
makes of every prefix of one. Each byte of an encoded stream carries a mark:
part of a header or of a control frame, the end of a frame without data, or a
payload byte with its value under the mask. A cut of the stream is a position
in the list of marked bytes, and a mark says what that position means.
-/
namespace Teleproxy.WebSocketFrames
open ClientInput

inductive FrameKind where
  | data | ping | pong
  deriving DecidableEq, Repr

def FrameKind.opcode : FrameKind → ℕ
  | .data => 2
  | .ping => 9
  | .pong => 10

/-- A final frame; `payload` is the data before masking. -/
structure Frame where
  kind : FrameKind := .data
  mask : Mask := {}
  payload : Bytes
  deriving DecidableEq, Repr

/-- Control frames are short. A data frame of 2 GiB or more is refused by the
parser on purpose. -/
def Frame.Valid (f : Frame) : Prop :=
  if f.kind = .data then f.payload.length < 2^31 else f.payload.length < 126

/-- The second byte with the mask bit, and the extended length. -/
def lengthBytes (n : ℕ) : Bytes :=
  if n < 126 then [UInt8.ofNat (128+n)]
  else if n < 65536 then [254,UInt8.ofNat (n/256),UInt8.ofNat (n % 256)]
  else
    [255,UInt8.ofNat (n/2^56 % 256),UInt8.ofNat (n/2^48 % 256),UInt8.ofNat (n/2^40 % 256),
      UInt8.ofNat (n/2^32 % 256),UInt8.ofNat (n/2^24 % 256),UInt8.ofNat (n/2^16 % 256),
      UInt8.ofNat (n/2^8 % 256),UInt8.ofNat (n % 256)]

def maskKey (m : Mask) : Bytes := [m.m0,m.m1,m.m2,m.m3]

def Frame.header (f : Frame) : Bytes :=
  UInt8.ofNat (128+f.kind.opcode)::(lengthBytes f.payload.length++maskKey f.mask)

def maskBytes (m : Mask) : ℕ → Bytes → Bytes
  | _, [] => []
  | i, b::bs => (b ^^^ m.get i)::maskBytes m (i+1) bs

def Frame.encode (f : Frame) : Bytes := f.header++maskBytes f.mask 0 f.payload

inductive Mark where
  | request
  | lead
  | ends
  | pay (clear : UInt8) (first : Bool)
  deriving DecidableEq, Repr

structure Marked where
  byte : UInt8
  mark : Mark
  deriving DecidableEq, Repr

def leads (bs : Bytes) : List Marked := bs.map (⟨·,.lead⟩)

def markPayload (m : Mask) : ℕ → Bytes → List Marked
  | _, [] => []
  | i, b::bs => ⟨b ^^^ m.get i,.pay b (i == 0)⟩::markPayload m (i+1) bs

/-- A frame without data: only its last byte completes it. -/
def markWhole (bs : Bytes) : List Marked :=
  match bs.getLast? with
  | some b => leads bs.dropLast++[⟨b,.ends⟩]
  | none => []

def Frame.hasData (f : Frame) : Bool := f.kind = .data ∧ f.payload ≠ []

def Frame.marked (f : Frame) : List Marked :=
  if f.hasData then leads f.header++markPayload f.mask 0 f.payload else markWhole f.encode

def markFrames (fs : List Frame) : List Marked := fs.flatMap Frame.marked

def rawBytes (ms : List Marked) : Bytes := ms.map Marked.byte

/-- The payload of the data frames, under no mask. -/
def clears (ms : List Marked) : Bytes :=
  ms.filterMap fun m =>
    match m.mark with
    | .pay b _ => some b
    | _ => none

/-- What the data frames carry, one after the other. -/
def dataPayload (fs : List Frame) : Bytes :=
  fs.flatMap fun f => if f.kind = .data then f.payload else []

section Marks
variable {f : Frame} {m : Mask} {i : ℕ} {bs : Bytes}

@[simp] theorem rawBytes_append (ms ms' : List Marked) :
    rawBytes (ms++ms') = rawBytes ms++rawBytes ms' := List.map_append

@[simp] theorem clears_append (ms ms' : List Marked) :
    clears (ms++ms') = clears ms++clears ms' := List.filterMap_append

@[simp] theorem rawBytes_leads (bs : Bytes) : rawBytes (leads bs) = bs := by
  simp [rawBytes,leads,Function.comp_def]

@[simp] theorem clears_leads (bs : Bytes) : clears (leads bs) = [] := by
  simp [clears,leads,List.filterMap_map]

@[simp] theorem rawBytes_markPayload (m : Mask) (i : ℕ) (bs : Bytes) :
    rawBytes (markPayload m i bs) = maskBytes m i bs := by
  induction bs generalizing i with
  | nil => rfl
  | cons b bs ih => exact congrArg (_::·) (ih (i+1))

@[simp] theorem clears_markPayload (m : Mask) (i : ℕ) (bs : Bytes) :
    clears (markPayload m i bs) = bs := by
  induction bs generalizing i with
  | nil => rfl
  | cons b bs ih => exact congrArg (b::·) (ih (i+1))

@[simp] theorem length_markPayload (m : Mask) (i : ℕ) (bs : Bytes) :
    (markPayload m i bs).length = bs.length := by
  induction bs generalizing i with
  | nil => rfl
  | cons b bs ih => exact congrArg (·+1) (ih (i+1))

@[simp] theorem length_maskBytes (m : Mask) (i : ℕ) (bs : Bytes) :
    (maskBytes m i bs).length = bs.length := by
  rw [← rawBytes_markPayload,rawBytes,List.length_map,length_markPayload]

theorem markPayload_append (m : Mask) (i : ℕ) (bs cs : Bytes) :
    markPayload m i (bs++cs) = markPayload m i bs++markPayload m (i+bs.length) cs := by
  induction bs generalizing i with
  | nil => rfl
  | cons b bs ih =>
      rw [List.cons_append,markPayload,markPayload,ih,List.length_cons,List.cons_append,
        Nat.add_right_comm,Nat.add_assoc]

theorem markWhole_eq {bs : Bytes} (h : bs ≠ []) :
    ∃ init b, bs = init++[b] ∧ markWhole bs = leads init++[⟨b,.ends⟩] := by
  refine ⟨bs.dropLast,bs.getLast h,(List.dropLast_append_getLast h).symm,?_⟩
  rw [markWhole,List.getLast?_eq_getLast_of_ne_nil h]

theorem encode_ne_nil (f : Frame) : f.encode ≠ [] := by simp [Frame.encode,Frame.header]

/-- The marked stream is the encoded stream. -/
theorem rawBytes_marked (f : Frame) : rawBytes f.marked = f.encode := by
  unfold Frame.marked
  split_ifs
  · simp [Frame.encode]
  · obtain ⟨init,b,heq,hmark⟩ := markWhole_eq (encode_ne_nil f)
    rw [hmark,heq,rawBytes_append,rawBytes_leads]
    rfl

@[simp] theorem clears_markWhole {bs : Bytes} (hb : bs ≠ []) : clears (markWhole bs) = [] := by
  obtain ⟨init,b,-,hm⟩ := markWhole_eq hb
  rw [hm,clears_append,clears_leads]
  rfl

theorem clears_markFrames (fs : List Frame) : clears (markFrames fs) = dataPayload fs := by
  induction fs with
  | nil => rfl
  | cons f fs ih =>
      have happend : markFrames (f::fs) = f.marked++markFrames fs := rfl
      have hcons : dataPayload (f::fs) =
          (if f.kind = .data then f.payload else [])++dataPayload fs := rfl
      rw [happend,clears_append,ih,hcons,Frame.marked]
      congr 1
      by_cases hd : f.kind = .data ∧ f.payload ≠ []
      · simp [Frame.hasData,hd]
      · have hclear : (if f.kind = .data then f.payload else []) = [] := by
          split_ifs with hk
          · exact not_not.mp fun hp => hd ⟨hk,hp⟩
          · rfl
        rw [hclear,if_neg (by simpa [Frame.hasData] using hd),clears_markWhole (encode_ne_nil f)]

end Marks

section Parser
variable {f : Frame} {w : Ws} {n : ℕ} {p rest : Bytes}

theorem payloadLength_short {len7 : ℕ} {q : Bytes}
    (h : len7 = 126 ∧ q.length < 2 ∨ len7 = 127 ∧ q.length < 8) : payloadLength len7 q = .more := by
  unfold payloadLength
  rcases h with ⟨rfl,hq⟩ | ⟨rfl,hq⟩
  · rw [if_pos rfl]
    split
    · simp only [List.length_cons] at hq
      omega
    · rfl
  · rw [if_neg (by decide),if_pos rfl]
    split
    · simp only [List.length_cons] at hq
      omega
    · rfl

theorem toNat_ofNat_mod (n : ℕ) : (UInt8.ofNat (n % 256)).toNat = n % 256 := by
  rw [UInt8.toNat_ofNat']
  omega

/-- The second byte announces a mask and the length that follows it. -/
theorem lengthBytes_eq (n : ℕ) : ∃ b ext, lengthBytes n = b::ext ∧ 128 ≤ b.toNat ∧
    (∀ q : Bytes, q.length < ext.length → payloadLength (b.toNat % 128) q = .more) ∧
    (n < 2^31 → ∀ rest, payloadLength (b.toNat % 128) (ext++rest) = .is n rest) := by
  unfold lengthBytes
  split_ifs with h₁ h₂
  · have hb : (UInt8.ofNat (128+n)).toNat = 128+n := by
      rw [UInt8.toNat_ofNat']
      omega
    refine ⟨_,[],rfl,by omega,fun q hlt => by simp at hlt,fun _ rest => ?_⟩
    unfold payloadLength
    rw [hb,if_neg (by omega),if_neg (by omega),List.nil_append]
    congr 1
    omega
  · refine ⟨_,_,rfl,by decide,fun q hlt => payloadLength_short (.inl ⟨by decide,hlt⟩),
      fun _ rest => ?_⟩
    have hhigh : (UInt8.ofNat (n/256)).toNat = n/256 := by
      rw [UInt8.toNat_ofNat']
      omega
    unfold payloadLength
    rw [if_pos (by decide)]
    simp only [List.cons_append,List.nil_append,hhigh,toNat_ofNat_mod]
    congr 1
    omega
  · refine ⟨_,_,rfl,by decide,fun q hlt => payloadLength_short (.inr ⟨by decide,hlt⟩),
      fun hn rest => ?_⟩
    have hzero : ∀ k, 32 ≤ k → UInt8.ofNat (n/2^k % 256) = 0 := by
      intro k hk
      have hlt : n < 2^k := hn.trans_le (Nat.pow_le_pow_right (by decide) (by omega))
      rw [Nat.div_eq_of_lt hlt]
      rfl
    unfold payloadLength
    rw [if_neg (by decide),if_pos (by decide)]
    simp only [List.cons_append,List.nil_append,hzero 56 (by decide),hzero 48 (by decide),
      hzero 40 (by decide),hzero 32 (by decide),toNat_ofNat_mod]
    rw [if_neg (by decide),if_neg (by omega)]
    congr 1
    omega

theorem parse_header (hn : f.payload.length < 2^31) (w : Ws) (rest : Bytes) :
    wsParseFrameHeader w (f.header++rest) =
      frameOpcode f.kind.opcode f.payload.length {w with mask := f.mask, maskOffset := 0} rest
        (f.header++rest) := by
  obtain ⟨b,ext,hl,hb,-,his⟩ := lengthBytes_eq f.payload.length
  have hop : (UInt8.ofNat (128+f.kind.opcode)).toNat % 16 = f.kind.opcode := by
    cases f.kind <;> rfl
  unfold Frame.header
  rw [hl]
  simp only [wsParseFrameHeader,List.cons_append,List.append_assoc]
  rw [his hn]
  dsimp only
  rw [if_neg (by omega),hop]
  rfl

theorem parse_short (hn : f.payload.length < 2^31) (hp : p <+: f.header)
    (hlt : p.length < f.header.length) (w : Ws) : wsParseFrameHeader w p = (.more,w,p) := by
  obtain ⟨b,ext,hl,hb,hmore,his⟩ := lengthBytes_eq f.payload.length
  unfold Frame.header at hp hlt
  rw [hl] at hp hlt
  rcases p with _ | ⟨b0,_ | ⟨b1,q⟩⟩
  · rfl
  · rfl
  · rw [List.cons_append,List.cons_prefix_cons,List.cons_prefix_cons] at hp
    obtain ⟨-,rfl,hq⟩ := hp
    simp only [List.length_cons,List.length_append,List.cons_append] at hlt
    unfold wsParseFrameHeader
    rcases Nat.lt_or_ge q.length ext.length with hlen | hlen
    · simp only [hmore q hlen]
    · obtain ⟨r,rfl⟩ := List.prefix_of_prefix_length_le (List.prefix_append _ _) hq hlen
      simp only [his hn r]
      rw [if_neg (by omega)]
      split
      · simp only [maskKey,List.length_append,List.length_cons,List.length_nil] at hlt
        omega
      · rfl

theorem frameOpcode_control {opcode : ℕ} {buf : Bytes} (h : opcode = 9 ∨ opcode = 10) :
    frameOpcode opcode n w rest buf =
      if rest.length < n then (.more,w,buf) else (.skipped,w,rest.drop n) := by
  unfold frameOpcode
  rw [if_neg (by omega),if_pos h]

theorem opcode_of_not_hasData (hd : f.hasData = false) :
    f.payload = [] ∨ f.kind.opcode = 9 ∨ f.kind.opcode = 10 := by
  cases hk : f.kind with
  | data => exact .inl (by simpa [Frame.hasData,hk] using hd)
  | ping => exact .inr (.inl rfl)
  | pong => exact .inr (.inr rfl)

/-- A control frame or an empty data frame: until its last byte has arrived
nothing is consumed, then it is consumed as a whole. -/
theorem parse_whole (hv : f.Valid) (hd : f.hasData = false) (hw : w.remaining = 0) :
    (∀ p, p <+: f.encode → p.length < f.encode.length →
      ∃ w', wsParseFrameHeader w p = (.more,w',p) ∧ w'.remaining = 0) ∧
    ∀ rest, ∃ r w', wsParseFrameHeader w (f.encode++rest) = (r,w',rest) ∧ w'.remaining = 0 ∧
      (r = .skipped ∨ r = .payload 0) := by
  have hn : f.payload.length < 2^31 := by
    unfold Frame.Valid at hv
    split_ifs at hv <;> omega
  have hmask := length_maskBytes f.mask 0 f.payload
  constructor
  · intro p hp hlt
    rcases Nat.lt_or_ge p.length f.header.length with hlen | hlen
    · have hpre := List.prefix_of_prefix_length_le hp (List.prefix_append f.header _) hlen.le
      exact ⟨w,parse_short hn hpre hlen w,hw⟩
    · obtain ⟨q,rfl⟩ := List.prefix_of_prefix_length_le (List.prefix_append f.header _) hp hlen
      have hq : q.length < f.payload.length := by
        simp only [Frame.encode,List.length_append,hmask] at hlt
        omega
      rw [parse_header hn]
      rcases opcode_of_not_hasData hd with hnil | hop
      · rw [hnil] at hq
        exact absurd hq (Nat.not_lt_zero _)
      · rw [frameOpcode_control hop,if_pos hq]
        exact ⟨_,rfl,hw⟩
  · intro rest
    rw [Frame.encode,List.append_assoc,parse_header hn]
    by_cases hop : f.kind.opcode = 9 ∨ f.kind.opcode = 10
    · rw [frameOpcode_control hop,if_neg (by rw [List.length_append,hmask]; omega),
        List.drop_left' hmask]
      exact ⟨_,_,rfl,hw,.inl rfl⟩
    · have hnil := (opcode_of_not_hasData hd).resolve_right hop
      have hk : f.kind = .data := by
        cases hk : f.kind with
        | data => rfl
        | ping => exact (hop (.inl (by rw [hk]; rfl))).elim
        | pong => exact (hop (.inr (by rw [hk]; rfl))).elim
      rw [hnil,hk]
      exact ⟨_,_,rfl,rfl,.inr rfl⟩

/-- The header of a frame with data. -/
theorem parse_data (hv : f.Valid) (hd : f.hasData) (w : Ws) (rest : Bytes) :
    wsParseFrameHeader w (f.header++rest) =
      (.payload f.payload.length,⟨f.payload.length,f.mask,0⟩,rest) := by
  have hk : f.kind = .data := by
    simp only [Frame.hasData,decide_eq_true_eq] at hd
    exact hd.1
  unfold Frame.Valid at hv
  rw [if_pos hk] at hv
  rw [parse_header hv,hk]
  rfl

theorem unmask_maskBytes (m : Mask) (i j : ℕ) (bs : Bytes) (h : i % 4 = j % 4) :
    ((maskBytes m i bs).zipIdx j).map (fun (b,k) => b ^^^ m.get k) = bs := by
  induction bs generalizing i j with
  | nil => rfl
  | cons b bs ih =>
      have hget : m.get i = m.get j := by
        unfold Mask.get
        rw [h]
      rw [maskBytes,List.zipIdx_cons,List.map_cons,ih (i+1) (j+1) (by omega),hget]
      dsimp only
      rw [UInt8.xor_assoc,UInt8.xor_self,UInt8.xor_zero]

/-- The payload of the current frame, all of it or as much as there is. -/
theorem takePayload_eq {i : ℕ} {xs : Bytes} (hi : w.maskOffset % 4 = i % 4)
    (h : xs.length = w.remaining ∨ xs.length ≤ w.remaining ∧ rest = []) :
    takePayload w (maskBytes w.mask i xs++rest) =
      (xs,{w with remaining := w.remaining-xs.length, maskOffset := (w.maskOffset+xs.length) % 4},
        rest) := by
  have hlen : min w.remaining (maskBytes w.mask i xs++rest).length = xs.length := by
    rw [List.length_append,length_maskBytes]
    rcases h with h | ⟨h,rfl⟩
    · omega
    · simp only [List.length_nil]
      omega
  have htake : (maskBytes w.mask i xs++rest).take xs.length = maskBytes w.mask i xs :=
    List.take_left' (length_maskBytes w.mask i xs)
  have hdrop : (maskBytes w.mask i xs++rest).drop xs.length = rest :=
    List.drop_left' (length_maskBytes w.mask i xs)
  simp only [takePayload,wsUnmaskData,hlen,htake,hdrop,length_maskBytes,
    unmask_maskBytes w.mask i w.maskOffset xs hi.symm]

end Parser

end Teleproxy.WebSocketFrames
