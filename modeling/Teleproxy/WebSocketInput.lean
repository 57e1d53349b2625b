import Teleproxy.Lib.StepSystem
import Teleproxy.HeaderDetection
import Teleproxy.WebSocketReading

/-!
# WebSocket input and the cuts of the stream

The theorem of this module says under which cuts the reader delivers exactly
the plaintext of what it has read, after every read.

Before the cipher is set every call of the parser unwraps `c->in` from its
start, also what an earlier call has unwrapped already, and puts raw bytes it
could not unwrap behind the unwrapped ones. So a call must unwrap no payload
and leave fewer than 64 bytes, or unwrap the whole obfs2 header and leave
nothing. After the cipher is set a frame without data ends the call, whatever
follows it, and the padding marker is looked for at the start of every piece of
a frame.
-/
namespace Teleproxy.WebSocketInput
open ClientInput HttpHandshake HeaderDetection WebSocketFrames WebSocketReading StepSystem
  Segments

variable {h : Header} {cfg : Config} {c : Conn} {p : List Marked} {fs : List Frame}

theorem parseExecute_active (hs : c.wsState = .active) :
    parseExecute cfg c =
      match wsUnwrap c with
      | (c,some r) => (c,r)
      | (c,none) => detect cfg c := by
  have hprobe : probe c = (c,none) := by rw [probe,if_pos (by simp [hs])]
  have hdechunk : dechunk cfg c = (c,none) := by rw [dechunk,if_neg (by simp [hs])]
  rw [parseExecute,hprobe]
  dsimp only
  generalize dechunk cfg c = y at hdechunk
  subst hdechunk
  rfl

section Parser
variable {w : Ws} {buf unmasked : Bytes} (hb : Before c) (hs : c.wsState = .active)
include hb hs

theorem wsUnwrap_eq (hloop : unwrapLoop (c.inBuf.length+1) c.ws c.inBuf [] = (w,buf,unmasked)) :
    wsUnwrap c = ({c with ws := w, inBuf := unmasked++buf},
      if unmasked++buf = [] then some .needMore else none) := by
  unfold wsUnwrap
  rw [if_pos ⟨hs,by simp [hb.crypto]⟩,hloop]

/-- The buffer was used up without any payload. -/
theorem parse_usedUp (hloop : unwrapLoop (c.inBuf.length+1) c.ws c.inBuf [] = (w,[],[])) :
    c.parse cfg = {c with ws := w, inBuf := []} := by
  by_cases hne : c.inBuf = []
  · rw [hne] at hloop
    cases hloop
    rw [Conn.parse,if_pos hne,← hne]
  · have hunwrap := wsUnwrap_eq hb hs hloop
    rw [List.nil_append,if_pos rfl] at hunwrap
    rw [Conn.parse,if_neg hne,parseExecute_active hs,hunwrap]

/-- No payload was unwrapped and the bytes that are left are a frame's. -/
theorem parse_nothing (cfg : Config) {b : UInt8} {q : Bytes} (hfirst : 128 ≤ b) (hlen : (b::q).length < 64)
    (hne : c.inBuf ≠ [])
    (hloop : unwrapLoop (c.inBuf.length+1) c.ws c.inBuf [] = (w,b::q,[])) :
    ∃ n : ℕ, n ≤ 64 ∧ c.parse cfg = {c with ws := w, inBuf := b::q, skipBytes := n} := by
  have hunwrap := wsUnwrap_eq hb hs hloop
  rw [List.nil_append,if_neg (by simp)] at hunwrap
  have hother : b ∉ ([0x48,0x50,0x47,0x4F,0x16] : Bytes) := by
    intro hm
    have : ∀ x ∈ ([0x48,0x50,0x47,0x4F,0x16] : Bytes), x < 128 := by decide +kernel
    exact absurd (this b hm) (UInt8.not_lt.mpr hfirst)
  obtain ⟨hhttp,htls⟩ := looks_first cfg q hother
  obtain ⟨n,hn,hdetect⟩ := detect_waits cfg (c := {c with ws := w, inBuf := b::q})
    (.inl hs) hlen hhttp htls
  refine ⟨n,hn,?_⟩
  rw [Conn.parse,if_neg hne,parseExecute_active hs,hunwrap]
  dsimp only
  rw [hdetect]
  simp [hb.inU]

/-- The whole header and only payload: the cipher is set and the payload behind
the header is decrypted. -/
theorem parse_header_pass (hlen : 64 ≤ unmasked.length) (ha : Accepts cfg h (unmasked.take 64))
    (hne : c.inBuf ≠ [])
    (hloop : unwrapLoop (c.inBuf.length+1) c.ws c.inBuf [] = (w,[],unmasked)) :
    c.parse cfg =
      {c with ws := w, padding := h.padding,
              crypto := some ⟨h.keystream,unmasked.length⟩,
              inBuf := Cipher.crypt ⟨h.keystream,64⟩ (unmasked.drop 64)} := by
  have hunwrap := wsUnwrap_eq hb hs hloop
  have hun : unmasked ≠ [] := by
    rintro rfl
    simp at hlen
  rw [List.append_nil,if_neg hun] at hunwrap
  have hdetect := detect_header (c := {c with ws := w, inBuf := unmasked})
    ⟨hb.crypto,hb.inU,hb.noError,hb.notDiverted⟩ (.inl hs) hlen ha
  rw [Conn.parse,if_neg hne,parseExecute_active hs,hunwrap]
  dsimp only
  rw [hdetect]
  simp [hs]

end Parser

/-- The connection with what it has read and what the client has still to send. -/
abbrev World := Feed Conn Marked

def step (cfg : Config) : World → ℕ → World := next fun seg => reader cfg (rawBytes seg)

def markRequest (request : Bytes) : List Marked := request.map (⟨·,.request⟩)

def connect (request : Bytes) (fs : List Frame) : World :=
  {state := {}, coming := markRequest request++markFrames fs}

/-- Plaintext in `c->in`. -/
def delivered (x : World) : Bytes := if x.state.crypto.isSome then x.state.inBuf else []

/-- Every payload byte that has arrived is delivered, unless it is padding, and
nothing else is. -/
structure Delivers (h : Header) (request : Bytes) (fs : List Frame) (x : World) : Prop where
  noError : x.state.error = false
  notDiverted : x.state.diverted = false
  exact : delivered x = (Rx.run h {} x.received).2
  sound : delivered x <+: plaintext h fs
  whole : ∀ fs₁ fs₂, fs = fs₁++fs₂ →
    request.length+(fs₁.flatMap Frame.encode).length ≤ x.received.length →
      plaintext h fs₁ <+: delivered x

/-- A pass over the buffer `p` before the cipher is set. -/
def PassOk (h : Header) (received t p : List Marked) : Prop :=
  clears (unwraps t p).1 = [] ∧ (unwraps t p).2.length < 64 ∨
  64 ≤ (clears p).length ∧ (unwraps t p).2 = [] ∧
    ∀ a, a <+: received → (Rx.run h {} a).1.dropping = false

/-- The reader meets the next `n` bytes in a state it can handle. -/
structure ReadOk (h : Header) (x : World) (n : ℕ) : Prop where
  before : x.state.crypto.isNone →
    x.state.skipBytes ≤ (x.state.inBuf++rawBytes (x.coming.take n)).length →
      PassOk h (x.received++x.coming.take n) (x.coming.drop n)
        ((x.held x.state.inBuf.length++x.coming.take n).dropWhile (·.mark = .request))
  quiet : x.state.crypto.isSome → Quiet (x.held x.state.inU.length++x.coming.take n)
  cut : x.state.crypto.isSome →
    CutOk h (Rx.run h {} x.received).1 (x.held x.state.inU.length++x.coming.take n)

/-- The request is not complete. -/
structure Handshake (request : Bytes) (c : Conn) (received : List Marked) : Prop where
  before : Before c
  handshake : c.wsState = .handshake
  skipBytes : c.skipBytes = 0
  noFrame : c.ws.remaining = 0
  inBuf : received = markRequest c.inBuf
  short : c.inBuf.length < request.length

/-- No payload has been unwrapped: the buffer is the end `p` of what was read. -/
structure Waiting (c : Conn) (received t : List Marked) : Prop where
  before : Before c
  active : c.wsState = .active
  skipBytes : 0 ≤ c.skipBytes ∧ c.skipBytes ≤ 64
  buffer : ∃ a p, received = a++p ∧ clears a = [] ∧ c.inBuf = rawBytes p ∧ p.length < 64 ∧
    Aligned c.ws (p++t)

/-- The cipher is set and all payload is delivered: `in_u` holds the end `q` of
what was read. -/
structure Following (h : Header) (c : Conn) (received t : List Marked) : Prop where
  reading : Reading h (Rx.run h {} received).1 c
  inBuf : c.inBuf = (Rx.run h {} received).2
  rest : ∃ a q, received = a++q ∧ c.inU = rawBytes q ∧ clears q = [] ∧ Aligned c.ws (q++t) ∧
    (q ≠ [] → c.ws.remaining = 0)

def Phase (h : Header) (request : Bytes) (c : Conn) (received t : List Marked) : Prop :=
  Handshake request c received ∨ Waiting c received t ∨ Following h c received t

structure Inv (h : Header) (request : Bytes) (fs : List Frame) (x : World) : Prop where
  stream : x.received++x.coming = markRequest request++markFrames fs
  phase : Phase h request x.state x.received x.coming

section Phases
variable {received t : List Marked} {request : Bytes}

/-- The first byte of a frame has its top bit set. -/
theorem first_of_frames {b : UInt8} {q : Bytes} (hv : rawBytes p = b::q) (hp : p++t = markFrames fs) :
    128 ≤ b := by
  cases fs with
  | nil =>
      have := (List.append_eq_nil_iff.mp hp).1
      subst this
      cases hv
  | cons f fs =>
      have hraw : rawBytes (p++t) = f.encode++rawBytes (markFrames fs) := by
        rw [hp,← rawBytes_marked,← rawBytes_append]
        rfl
      rw [rawBytes_append,hv] at hraw
      have hb := (List.cons.inj hraw).1
      rw [hb]
      cases f.kind <;> decide

/-- One call of the parser in front of the header. -/
theorem phase_of_pass {a : List Marked} (hb : Before c) (hs : c.wsState = .active)
    (hskip : c.skipBytes = 0) (hbuf : c.inBuf = rawBytes p) (hrec : received = a++p)
    (ha : clears a = []) (hal : Aligned c.ws (p++t))
    (hacc : Accepts cfg h ((clears (p++t)).take 64)) (hok : PassOk h received t p) :
    Phase h request (c.parse cfg) received t := by
  have hfuel : p.length < c.inBuf.length+1 := by
    rw [hbuf,rawBytes,List.length_map]
    exact Nat.lt_succ_self _
  obtain ⟨w,hloop,hal',hbet⟩ := unwrapped_aligned [] hal hfuel
  have hsplit := unwraps_append t p
  rw [← hbuf,List.nil_append] at hloop
  rcases hok with ⟨hnone,hlen⟩ | ⟨hlen,hleft,hkeep⟩
  · -- no payload: what is left is looked at again
    rw [hnone] at hloop
    refine .inr (.inl ?_)
    have hrec' : received = (a++(unwraps t p).1)++(unwraps t p).2 := by
      rw [List.append_assoc,hsplit,hrec]
    have hclears : clears (a++(unwraps t p).1) = [] := by
      rw [clears_append,ha,hnone]
      rfl
    cases hleft : (unwraps t p).2 with
    | nil =>
        rw [hleft] at hloop hal' hrec'
        rw [parse_usedUp hb hs hloop]
        exact ⟨⟨hb.crypto,hb.inU,hb.noError,hb.notDiverted⟩,hs,by simp [hskip],_,[],hrec',hclears,rfl,
          by simp,hal'⟩
    | cons m q =>
        rw [hleft] at hloop hal' hrec' hlen hsplit
        have hw := hbet (by simp [hleft])
        obtain ⟨fs,hfs⟩ := hal'.frames hw
        have hne : c.inBuf ≠ [] := by
          rw [hbuf,← hsplit]
          simp [rawBytes]
        obtain ⟨n,hn,hparse⟩ := parse_nothing hb hs cfg (first_of_frames rfl hfs)
          (by simpa using hlen) hne hloop
        rw [hparse]
        exact ⟨⟨hb.crypto,hb.inU,hb.noError,hb.notDiverted⟩,hs,by dsimp only; omega,_,m::q,hrec',
          hclears,rfl,hlen,hal'⟩
  · rw [hleft] at hloop hal' hsplit
    rw [List.append_nil] at hsplit
    rw [hsplit] at hloop
    refine .inr (.inr ?_)
    have hne : c.inBuf ≠ [] := by
      intro hnil
      have : p = [] := rawBytes_eq_nil.mp (hbuf.symm.trans hnil)
      subst this
      simp [clears] at hlen
    rw [clears_append,List.take_append_of_le_length hlen] at hacc
    have hclears : clears received = clears p := by
      rw [hrec,clears_append,ha]
      rfl
    have hrun := Rx.run_kept h rfl hkeep
    rw [hclears] at hrun
    rw [parse_header_pass hb hs hlen hacc hne hloop]
    refine ⟨?_,?_,received,[],by simp,hb.inU,rfl,hal',by simp⟩
    · rw [hrun]
      exact ⟨hs,by simp,rfl,hb.noError,hb.notDiverted,by simpa using hlen,fun _ => rfl⟩
    · rw [hrun,← crypt_drop h.keystream 0 64 hlen]
      rfl

end Phases

theorem dropWhile_request (hp : ∀ m ∈ p, m.mark ≠ .request) :
    p.dropWhile (·.mark = .request) = p := by
  cases p with
  | nil => rfl
  | cons m p => simp [hp m (by simp)]

theorem dropWhile_markRequest (request : Bytes) (hp : ∀ m ∈ p, m.mark ≠ .request) :
    (markRequest request++p).dropWhile (·.mark = .request) = p := by
  induction request with
  | nil => exact dropWhile_request hp
  | cons b request ih => exact ih

@[simp] theorem clears_markRequest (request : Bytes) : clears (markRequest request) = [] := by
  simp [clears,markRequest,List.filterMap_map]

@[simp] theorem rawBytes_markRequest (request : Bytes) :
    rawBytes (markRequest request) = request := by
  simp [rawBytes,markRequest,Function.comp_def]

section Steps
variable {x : World} {n : ℕ} {request : Bytes}

theorem rawBytes_length (p : List Marked) : (rawBytes p).length = p.length := List.length_map _

/-- The part of the request that has arrived does not reach its end. -/
theorem phase_handshake (hr : ValidUpgrade request) (hv : ∀ f ∈ fs, f.Valid)
    (hacc : Accepts cfg h ((clears (markFrames fs)).take 64))
    (hx : x.received++x.coming = markRequest request++markFrames fs)
    (hh : Handshake request x.state x.received) (hok : ReadOk h x n) :
    Phase h request (step cfg x n).state (step cfg x n).received (step cfg x n).coming := by
  have hsplit : x.received++x.coming.take n++x.coming.drop n = markRequest request++markFrames fs := by
    rw [List.append_assoc,List.take_append_drop,hx]
  have hraw : x.state.inBuf++rawBytes (x.coming.take n) = rawBytes (x.received++x.coming.take n) := by
    rw [rawBytes_append,hh.inBuf,rawBytes_markRequest]
  have hskip : x.state.skipBytes ≤ (x.state.inBuf++rawBytes (x.coming.take n)).length := by
    rw [hh.skipBytes]
    exact Int.natCast_nonneg _
  have hreader := reader_parses cfg hh.before hh.skipBytes.ge hskip
  have hheld : x.held x.state.inBuf.length = x.received := by
    have hlen : x.state.inBuf.length = x.received.length := by simp [hh.inBuf,markRequest]
    rw [hlen]
    exact Feed.held_eq (List.nil_append _).symm
  have hpass := hok.before (by simp [hh.before.crypto]) hskip
  rw [hheld] at hpass
  unfold step next
  dsimp only
  rw [hreader]
  rcases prefix_append_cases ⟨_,hsplit⟩ with ⟨hpre,hlt⟩ | ⟨p,hp,-⟩
  · obtain ⟨q,hq,heq⟩ := List.prefix_map_iff.mp hpre
    have hqraw : x.state.inBuf++rawBytes (x.coming.take n) = q := by
      rw [hraw,heq]
      exact rawBytes_markRequest q
    have hqlt : q.length < request.length := by
      rw [heq,List.length_map,markRequest,List.length_map] at hlt
      exact hlt
    have hprobe := hr.probe_waits (c := {x.state with inBuf := q, skipBytes := 0}) hh.handshake hq hqlt
    rw [hqraw,parse_of_waiting hprobe]
    exact .inl ⟨⟨hh.before.crypto,hh.before.inU,hh.before.noError,hh.before.notDiverted⟩,hh.handshake,
      rfl,hh.noFrame,heq,hqlt⟩
  · rw [hp,List.append_assoc,List.append_cancel_left_eq] at hsplit
    have hal : Aligned x.state.ws (p++x.coming.drop n) := aligned_between hh.noFrame hsplit hv
    have hno : ∀ m ∈ p, m.mark ≠ .request := fun m hm =>
      hal.no_request m (List.mem_append_left _ hm)
    have hbuf : x.state.inBuf++rawBytes (x.coming.take n) = request++rawBytes p := by
      rw [hraw,hp,rawBytes_append,rawBytes_markRequest]
    rw [hp,dropWhile_markRequest request hno,← hp] at hpass
    have hprobe := hr.probe_completes
      (c := {x.state with inBuf := request++rawBytes p, skipBytes := 0}) hh.handshake rfl
    rw [hbuf,parse_behind_request (by decide) (hr.append_ne_nil _) hprobe]
    rw [← hsplit] at hacc
    exact phase_of_pass ⟨hh.before.crypto,hh.before.inU,hh.before.noError,hh.before.notDiverted⟩ rfl rfl
      rfl hp (clears_markRequest request) hal hacc hpass

theorem phase_waiting (hw : Waiting x.state x.received x.coming)
    (hacc : Accepts cfg h ((clears (x.received++x.coming)).take 64)) (hok : ReadOk h x n) :
    Phase h request (step cfg x n).state (step cfg x n).received (step cfg x n).coming := by
  obtain ⟨hb,hs,⟨hskip0,hskip64⟩,a,p,hrec,ha,hbuf,hlen,hal⟩ := hw
  have hlen' : x.state.inBuf.length = p.length := by rw [hbuf,rawBytes_length]
  have hraw : x.state.inBuf++rawBytes (x.coming.take n) = rawBytes (p++x.coming.take n) := by
    rw [hbuf,rawBytes_append]
  have hrec' : x.received++x.coming.take n = a++(p++x.coming.take n) := by
    rw [hrec,List.append_assoc]
  have hsplit : p++x.coming.take n++x.coming.drop n = p++x.coming := by
    rw [List.append_assoc,List.take_append_drop]
  have hal' : Aligned x.state.ws (p++x.coming.take n++x.coming.drop n) := hsplit ▸ hal
  unfold step next
  dsimp only
  have hpass := hok.before (by simp [hb.crypto])
  rw [hlen',Feed.held_eq hrec] at hpass
  rcases lt_or_ge ((x.state.inBuf++rawBytes (x.coming.take n)).length : ℤ) x.state.skipBytes with
    hlt | hge
  · rw [reader_waits cfg hb hskip0 hlt]
    refine .inr (.inl ⟨⟨hb.crypto,hb.inU,hb.noError,hb.notDiverted⟩,hs,⟨hskip0,hskip64⟩,a,
      p++x.coming.take n,hrec',ha,hraw,?_,hal'⟩)
    rw [hraw,rawBytes_length] at hlt
    omega
  · have hpass := hpass hge
    rw [dropWhile_request fun m hm => hal'.no_request m (List.mem_append_left _ hm)] at hpass
    rw [reader_parses cfg hb hskip0 hge]
    rw [hrec,List.append_assoc,clears_append,ha,List.nil_append,← hsplit] at hacc
    exact phase_of_pass ⟨hb.crypto,hb.inU,hb.noError,hb.notDiverted⟩ hs rfl hraw hrec' ha hal' hacc
      hpass

theorem phase_following (cfg : Config) (hf : Following h x.state x.received x.coming)
    (hok : ReadOk h x n) :
    Phase h request (step cfg x n).state (step cfg x n).received (step cfg x n).coming := by
  obtain ⟨hread,hin,a,q,hrec,hu,hq,hal,hbet⟩ := hf
  have hlen : x.state.inU.length = q.length := by rw [hu,rawBytes_length]
  have hquiet := hok.quiet (by simp [hread.crypto])
  have hcut := hok.cut (by simp [hread.crypto])
  rw [hlen,Feed.held_eq hrec] at hquiet hcut
  have hsplit : q++x.coming.take n++x.coming.drop n = q++x.coming := by
    rw [List.append_assoc,List.take_append_drop]
  have hreader : reader cfg (rawBytes (x.coming.take n)) x.state =
      decryptInput cfg {x.state with inU := x.state.inU++rawBytes (x.coming.take n)} := by
    rw [reader,if_neg (by simp [hread.noError,hread.notDiverted]),if_pos (by simp [hread.crypto])]
  have hdel : Delivered h (Rx.run h {} x.received).1
      {x.state with inU := x.state.inU++rawBytes (x.coming.take n)} (q++x.coming.take n)
      (x.coming.drop n) (decryptInput cfg _) :=
    delivered_aligned
      ⟨hread.active,hread.crypto,hread.padding,hread.noError,hread.notDiverted,hread.pos,hread.dropping⟩
      (hsplit ▸ hal) hquiet hcut (by rw [hu,rawBytes_append])
  -- the bytes that were left in the buffer hold no payload
  have hrun : (Rx.run h {} x.received).1.run h (q++x.coming.take n) =
      (Rx.run h {} x.received).1.run h (x.coming.take n) := by
    rw [Rx.run_append,Rx.run_noPay (noPay_of_clears hq)]
    rfl
  obtain ⟨hr,hi,b,q',hb,hu',hq',hal',hbet'⟩ := hdel
  rw [hrun] at hr hi
  unfold step next
  dsimp only
  rw [hreader]
  refine .inr (.inr ⟨?_,?_,a++b,q',?_,hu',hq',hal',hbet'⟩)
  · rw [Rx.run_append]
    exact hr
  · rw [hi,Rx.run_append,hin]
  · rw [hrec,List.append_assoc,hb,List.append_assoc]

theorem inv_step (hr : ValidUpgrade request) (hv : ∀ f ∈ fs, f.Valid)
    (hacc : Accepts cfg h ((clears (markFrames fs)).take 64)) (hx : Inv h request fs x)
    (hok : ReadOk h x n) : Inv h request fs (step cfg x n) := by
  obtain ⟨hstream,hphase⟩ := hx
  refine ⟨?_,?_⟩
  · rw [step,stream_next,hstream]
  · rcases hphase with hh | hw | hf
    · exact phase_handshake hr hv hacc hstream hh hok
    · refine phase_waiting hw ?_ hok
      rw [hstream,clears_append,clears_markRequest]
      exact hacc
    · exact phase_following cfg hf hok

theorem inv_connect (h : Header) (hr : ValidUpgrade request) (fs : List Frame) :
    Inv h request fs (connect request fs) := by
  refine ⟨rfl,.inl ⟨⟨rfl,rfl,rfl,rfl⟩,rfl,rfl,rfl,rfl,?_⟩⟩
  have := hr.get.2
  exact Nat.lt_of_lt_of_le (Nat.succ_pos 3) this

/-- Nothing is delivered before the cipher is set, and nothing is to be. -/
theorem Inv.delivered_eq (hx : Inv h request fs x) : delivered x = (Rx.run h {} x.received).2 := by
  unfold delivered
  rcases hx.phase with hh | hw | hf
  · rw [if_neg (by simp [hh.before.crypto]),hh.inBuf]
    have hno := Rx.run_noPay (h := h) (s := {}) (noPay_of_clears (clears_markRequest x.state.inBuf))
    rw [hno]
  · obtain ⟨a,p,hrec,ha,-,hlen,-⟩ := hw.buffer
    rw [if_neg (by simp [hw.before.crypto])]
    have hle : (clears x.received).length ≤ p.length := by
      rw [hrec,clears_append,ha]
      exact List.length_filterMap_le _ p
    exact (Rx.run_short (s := {}) h (by simp only [Nat.zero_add]; omega)).2.symm
  · rw [if_pos (by simp [hf.reading.crypto]),hf.inBuf]

theorem Inv.quiet (hx : Inv h request fs x) : x.state.error = false ∧ x.state.diverted = false := by
  rcases hx.phase with hh | hw | hf
  · exact ⟨hh.before.noError,hh.before.notDiverted⟩
  · exact ⟨hw.before.noError,hw.before.notDiverted⟩
  · exact ⟨hf.reading.noError,hf.reading.notDiverted⟩

theorem Rx.run_stream (h : Header) (request : Bytes) (fs : List Frame) :
    (Rx.run h {} (markRequest request++markFrames fs)).2 = plaintext h fs := by
  rw [Rx.run_append,Rx.run_noPay (noPay_of_clears (clears_markRequest request))]
  exact Rx.run_markFrames h {} fs

theorem Rx.run_mono (h : Header) {ms ms' : List Marked} (hp : ms <+: ms') :
    (Rx.run h {} ms).2 <+: (Rx.run h {} ms').2 := by
  obtain ⟨r,rfl⟩ := hp
  rw [Rx.run_append]
  exact List.prefix_append _ _

theorem length_markFrames (fs : List Frame) :
    (markFrames fs).length = (fs.flatMap Frame.encode).length := by
  simp only [markFrames,List.length_flatMap]
  congr 1
  refine List.map_congr_left fun f _ => ?_
  rw [← rawBytes_marked,rawBytes_length]

theorem Inv.delivers (hx : Inv h request fs x) : Delivers h request fs x := by
  have hpre : x.received <+: markRequest request++markFrames fs := ⟨_,hx.stream⟩
  refine ⟨hx.quiet.1,hx.quiet.2,hx.delivered_eq,?_,?_⟩
  · rw [hx.delivered_eq,← Rx.run_stream h request fs]
    exact Rx.run_mono h hpre
  · intro fs₁ fs₂ hfs hlen
    rw [hx.delivered_eq,← Rx.run_stream h request fs₁]
    apply Rx.run_mono
    refine List.prefix_of_prefix_length_le ?_ hpre ?_
    · rw [hfs,markFrames,markFrames,List.flatMap_append,← List.append_assoc]
      exact List.prefix_append _ _
    · rw [List.length_append,markRequest,List.length_map,length_markFrames]
      exact hlen

end Steps

/-- A read that finds the bytes of the stream in a state the reader can handle
delivers exactly the plaintext of the data frames, after every segment. -/
theorem delivers_along_cuts {request : Bytes} (hr : ValidUpgrade request) (hv : ∀ f ∈ fs, f.Valid)
    (hacc : Accepts cfg h ((dataPayload fs).take 64)) {cuts : List ℕ}
    (hm : Meets (step cfg) (ReadOk h) (connect request fs) cuts) :
    Throughout (step cfg) (Delivers h request fs) (connect request fs) cuts := by
  rw [← clears_markFrames] at hacc
  exact throughout_of_invariant (fun _ _ hx hok => inv_step hr hv hacc hx hok)
    (fun _ hx => hx.delivers) (inv_connect h hr fs) hm

def sampleRequest : Bytes :=
  bytesOf "GET / HTTP/1.1\r\nUpgrade: websocket\r\nSec-WebSocket-Key: a\r\n\r\n"

def sampleConfig : Config :=
  {obfs2ParseHeader := fun bs => if bs = sampleStart then some sampleHeader else none}

def sampleFrames : List Frame :=
  [{mask := ⟨1,2,3,4⟩, payload := sampleStart++[5,6,7]},{kind := .ping, payload := [9]},
    {mask := ⟨8,7,6,5⟩, payload := [10,11]}]

theorem sampleRequest_valid : ValidUpgrade sampleRequest :=
  ⟨by decide +kernel,by decide +kernel,by decide +kernel⟩

theorem sampleFrames_valid : ∀ f ∈ sampleFrames, f.Valid := by
  simp only [Frame.Valid]
  decide +kernel

theorem sampleFrames_accepted :
    Accepts sampleConfig sampleHeader ((dataPayload sampleFrames).take 64) := by
  have hstart : (dataPayload sampleFrames).take 64 = sampleStart := by decide +kernel
  rw [hstart]
  exact accepts_sample rfl rfl

/-- Without the padding flag the condition is a matter of computation. -/
theorem readOk_of_no_padding {x : World} {n : ℕ} (hp : h.padding = false)
    (hx : if x.state.crypto.isSome then Quiet (x.held x.state.inU.length++x.coming.take n)
      else
        let p := (x.held x.state.inBuf.length++x.coming.take n).dropWhile (·.mark = .request)
        let r := unwraps (x.coming.drop n) p
        clears r.1 = [] ∧ r.2.length < 64 ∨ 64 ≤ (clears p).length ∧ r.2 = []) :
    ReadOk h x n := by
  constructor
  · intro hc _
    rw [if_neg (by simpa using hc)] at hx
    rcases hx with hnone | ⟨hlen,hleft⟩
    · exact .inl hnone
    · exact .inr ⟨hlen,hleft,fun a _ => Rx.dropping_of_no_padding hp rfl a⟩
  · intro hc
    rwa [if_pos hc] at hx
  · intro _ m b _ _ hpad
    rw [hp] at hpad
    cases hpad

/-- The request in two segments, then one segment for each frame. -/
theorem delivers_sample :
    Throughout (step sampleConfig) (Delivers sampleHeader sampleRequest sampleFrames)
      (connect sampleRequest sampleFrames) [30,103,7,8] ∧
    delivered (run (step sampleConfig) (connect sampleRequest sampleFrames) [30,103,7,8]) =
      [69,71,69,73,79] := by
  refine ⟨delivers_along_cuts sampleRequest_valid sampleFrames_valid sampleFrames_accepted
    ⟨?_,?_,?_,?_,trivial⟩,by decide +kernel⟩
  · apply readOk_of_no_padding rfl
    decide +kernel
  · apply readOk_of_no_padding rfl
    decide +kernel
  · apply readOk_of_no_padding rfl
    decide +kernel
  · apply readOk_of_no_padding rfl
    decide +kernel

/-- All frames are received and not all plaintext is delivered. -/
def Loses (x : World) : Prop :=
  sampleRequest.length+(sampleFrames.flatMap Frame.encode).length ≤ x.received.length ∧
    ¬ plaintext sampleHeader sampleFrames <+: delivered x

/-- The first frame comes in two segments, or the ping and the data behind it
in one: all frames are received and not all plaintext is delivered. -/
theorem cuts_lose_plaintext :
    (ValidUpgrade sampleRequest ∧ (∀ f ∈ sampleFrames, f.Valid) ∧
      Accepts sampleConfig sampleHeader ((dataPayload sampleFrames).take 64)) ∧
    ¬ Throughout (step sampleConfig) (Delivers sampleHeader sampleRequest sampleFrames)
      (connect sampleRequest sampleFrames) [80,53,7,8] ∧
    ¬ Throughout (step sampleConfig) (Delivers sampleHeader sampleRequest sampleFrames)
      (connect sampleRequest sampleFrames) [30,103,15] := by
  refine ⟨⟨sampleRequest_valid,sampleFrames_valid,sampleFrames_accepted⟩,?_⟩
  constructor
  · have hlost : Loses (run (step sampleConfig) (connect sampleRequest sampleFrames) [80,53,7,8]) := by
      unfold Loses
      decide +kernel
    exact fun ht => hlost.2 (ht.last.whole sampleFrames [] (by simp) hlost.1)
  · have hlost : Loses (run (step sampleConfig) (connect sampleRequest sampleFrames) [30,103,15]) := by
      unfold Loses
      decide +kernel
    exact fun ht => hlost.2 (ht.last.whole sampleFrames [] (by simp) hlost.1)

end Teleproxy.WebSocketInput
