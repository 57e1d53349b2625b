import Teleproxy.PeekMemory

/-!
# Reading with memory behind the peek buffer

The other modules read a client with a probe that sees nothing behind the bytes it
has copied. Here each read has its own contents of the memory behind the buffer of
the probe, and a failed assertion ends the process. A read is the same as there
unless the first bytes of a POST request are searched past their end and something is
found. Over the reads come the two results about whole connections: what an
HTTP-stream client gets delivered, and how a handshake is answered.
-/
namespace Teleproxy.PeekInput
open WorkerProcess (WsState)
open ClientInput (Bytes Conn Config Res Header dechunk wsUnwrap detect decryptInput)
open HttpHandshake HeaderDetection PeekMemory ProtocolProbe
open StepSystem (run Meets Throughout)
open Segments (Feed)

section Model
variable (cfg : Config) (acceptKey : Bytes → Bytes) (memory : Bytes)

/-- The probe on what has been received; `none` is a failed assertion. -/
def probe (c : Conn) : Option (Conn × Option Res) :=
  if c.wsState ≠ .handshake then some (c,none)
  else
    match PeekMemory.probe (fun key => some (acceptKey key)) c.inBuf memory with
    | none => none
    | some t =>
        some ({c with wsState := t.wsState, inBuf := c.inBuf.drop t.skipped, error := t.failed},
          t.result)

/-- The parser behind the probe. -/
def parseBehind (c : Conn) : Conn × Res :=
  match dechunk cfg c with
  | (c,some r) => (c,r)
  | (c,none) =>
      match wsUnwrap c with
      | (c,some r) => (c,r)
      | (c,none) => detect cfg c

/-- One call of the parser on a connection without a cipher. -/
def parseExecute (c : Conn) : Option (Conn × Res) :=
  match probe acceptKey memory c with
  | none => none
  | some (c,some r) => some (c,r)
  | some (c,none) => some (parseBehind cfg c)

/-- The loop of the reader around the parser. -/
def parse (c : Conn) : Option Conn :=
  if c.inBuf = [] then some c else
    match parseExecute cfg acceptKey memory c with
    | none => none
    | some (c,.need n) => some {c with skipBytes := n+c.inU.length}
    | some (c,.skipAll) => some {c with skipBytes := -0x10000000-c.inU.length}
    | some (c,_) => some c

/-- `cpu_tcp_server_reader` with the bytes `seg` in its queue. -/
def reader (seg : Bytes) (c : Conn) : Option Conn :=
  if c.error ∨ c.diverted then some c
  else if c.crypto.isSome then some (decryptInput cfg {c with inU := c.inU++seg})
  else
    let c := {c with inBuf := c.inBuf++seg}
    let r : ℤ := c.inBuf.length
    if c.skipBytes < 0 then
      let n := min r (-c.skipBytes)
      let c := {c with inBuf := c.inBuf.drop n.toNat, skipBytes := c.skipBytes+n}
      if c.skipBytes ≠ 0 then some c else parse cfg acceptKey memory c
    else if r < c.skipBytes then some c
    else parse cfg acceptKey memory {c with skipBytes := 0}

end Model

/-- The probe is called on the start of a POST request, searches past the end of its buffer and
finds the end of a header. -/
def Overreads (memory : Bytes) (c : Conn) (seg : Bytes) : Prop :=
  c.wsState = .handshake ∧ Exposed (c.inBuf++seg) ∧ findEnd (c.inBuf++seg) memory ≠ none

instance (buf : Bytes) : Decidable (Exposed buf) := inferInstanceAs (Decidable (_ ∧ _))

instance (memory : Bytes) (c : Conn) (seg : Bytes) : Decidable (Overreads memory c seg) :=
  inferInstanceAs (Decidable (_ ∧ _))

section Reads
variable {cfg : Config} {acceptKey : Bytes → Bytes} {memory seg : Bytes} {c : Conn}

/-- Where the search does not find anything in the memory, the probe is that of the other
modules. -/
theorem probe_eq (herror : c.error = false) (h : ¬ Overreads memory c []) :
    probe acceptKey memory c = some (ClientInput.probe c) := by
  unfold probe
  by_cases hs : c.wsState = .handshake
  swap
  · rw [if_pos hs,ClientInput.probe,if_pos hs]
  obtain ⟨t,ht,heq⟩ := @probe_nil c acceptKey hs herror
  have hsame : PeekMemory.probe (fun key => some (acceptKey key)) c.inBuf memory = some t := by
    rw [← ht]
    by_cases hexposed : Exposed c.inBuf
    · have hnone : findEnd c.inBuf memory = none := by
        by_contra hfound
        exact h ⟨hs,by rwa [List.append_nil],by rwa [List.append_nil]⟩
      unfold PeekMemory.probe postProbe
      rw [if_pos hexposed.1,if_pos hexposed.1,hnone,findEnd_nil,hexposed.2.2.1]
    · exact (probe_memory_iff _ _).mpr hexposed memory []
  rw [if_neg (not_not.mpr hs),hsame,heq]

theorem parse_eq (herror : c.error = false) (h : ¬ Overreads memory c []) :
    parse cfg acceptKey memory c = some (c.parse cfg) := by
  unfold parse Conn.parse
  by_cases hnil : c.inBuf = []
  · rw [if_pos hnil,if_pos hnil]
  · rw [if_neg hnil,if_neg hnil]
    have hexec : parseExecute cfg acceptKey memory c = some (ClientInput.parseExecute cfg c) := by
      unfold parseExecute ClientInput.parseExecute
      rw [probe_eq herror h]
      rcases ClientInput.probe c with ⟨d,_ | r⟩ <;> rfl
    rw [hexec]
    rcases ClientInput.parseExecute cfg c with ⟨d,_ | _ | n | _⟩ <;> rfl

/-- While the handshake lasts nothing is skipped and nothing is waited for. -/
def Probing (c : Conn) : Prop := c.wsState = .handshake → c.skipBytes = 0

theorem reader_eq (hprobing : Probing c) (h : ¬ Overreads memory c seg) :
    reader cfg acceptKey memory seg c = some (ClientInput.reader cfg seg c) := by
  unfold reader ClientInput.reader
  by_cases hdone : c.error = true ∨ c.diverted = true
  · rw [if_pos hdone,if_pos hdone]
  rw [if_neg hdone,if_neg hdone]
  have herror : c.error = false := by simpa using fun he => hdone (Or.inl he)
  split_ifs
  · rfl
  · dsimp only
    split_ifs with hskip hrest hwait
    · rfl
    · refine parse_eq (by exact herror) ?_
      rintro ⟨hs,-⟩
      exact absurd (hprobing hs) hskip.ne
    · rfl
    · refine parse_eq (by exact herror) ?_
      rintro ⟨hs,hexposed,hfound⟩
      rw [List.append_nil] at hexposed hfound
      exact h ⟨hs,hexposed,hfound⟩

/-- A header that ends behind the buffer is skipped beyond what was received. -/
theorem reader_overreads (hb : Before c) (hprobing : Probing c) (h : Overreads memory c seg)
    (hshort : (c.inBuf++seg).length ≤ 4096) : reader cfg acceptKey memory seg c = none := by
  obtain ⟨hs,⟨hpost,hlen,hnone,hzero⟩,hfound⟩ := h
  obtain ⟨i,hi⟩ := Option.ne_none_iff_exists'.mp hfound
  have hskip := hprobing hs
  have hne : c.inBuf++seg ≠ [] := by
    rw [← List.length_pos_iff]
    omega
  -- what is found within the buffer would have been found without the memory
  have hbeyond : (c.inBuf++seg).length < i+4 := by
    by_contra hwithin
    rw [findEnd,List.take_of_length_le hshort] at hi
    rw [List.take_of_length_le hshort] at hnone hzero
    exact not_at hzero hnone i ((strstr_at hi).1.of_append (Nat.not_lt.mp hwithin))
  have hprobe : probe acceptKey memory {c with inBuf := c.inBuf++seg, skipBytes := 0} = none := by
    rw [probe,if_neg (not_not.mpr hs),PeekMemory.probe,if_pos hpost,postProbe,
      if_neg (Nat.not_lt.mpr hlen)]
    dsimp only
    rw [hi]
    dsimp only
    rw [skip,if_pos hbeyond]
  rw [reader,if_neg (by simp [hb.noError,hb.notDiverted]),if_neg (by simp [hb.crypto])]
  dsimp only
  rw [if_neg (by simp [hskip]),if_neg (by rw [hskip]; exact not_lt.mpr (Int.natCast_nonneg _)),
    parse,if_neg hne,parseExecute,hprobe]

end Reads

/-- How many bytes arrive, and what lies behind the peek buffer when they are read. -/
structure Arrival where
  bytes : ℕ
  memory : Bytes := []

section Stream
open HttpStreamInput (Chunk encodeAll dataOf plaintext)
variable {cfg : Config} {acceptKey : Bytes → Bytes} {h : Header} {post : Bytes}
  {chs : List Chunk} {a : Arrival}

/-- The connection of an HTTP-stream client and its stream. There is none when the process has
ended. -/
abbrev Stream := Feed (Option Conn) UInt8

def step (cfg : Config) (acceptKey : Bytes → Bytes) (x : Stream) (a : Arrival) : Stream :=
  Segments.next (fun seg c => c.bind (reader cfg acceptKey a.memory seg)) x a.bytes

def connect (post : Bytes) (chs : List Chunk) : Stream :=
  {state := some {}, coming := post++encodeAll chs}

/-- The reader meets the next bytes in a state it can handle, and finds nothing behind the peek
buffer. -/
def StreamOk (post : Bytes) (chs : List Chunk) (x : Stream) (a : Arrival) : Prop :=
  ∀ c ∈ x.state, HttpStreamInput.ReadOk post chs ⟨c,x.received,x.coming⟩ a.bytes ∧
    ¬ Overreads a.memory c (x.coming.take a.bytes)

instance (post : Bytes) (chs : List Chunk) (x : HttpStreamInput.World) (n : ℕ) :
    Decidable (HttpStreamInput.ReadOk post chs x n) := inferInstanceAs (Decidable (_ ∧ _))

instance (post : Bytes) (chs : List Chunk) (x : Stream) (a : Arrival) :
    Decidable (StreamOk post chs x a) := inferInstanceAs (Decidable (∀ c ∈ x.state, _ ∧ _))

/-- The process goes on, and the data of each chunk has been delivered with its last byte. -/
def Delivers (h : Header) (post : Bytes) (chs : List Chunk) (x : Stream) : Prop :=
  ∃ c ∈ x.state, HttpStreamInput.Delivers h post chs ⟨c,x.received,x.coming⟩

def delivered (x : Stream) : Option Bytes :=
  x.state.map fun c => HttpStreamInput.delivered ⟨c,x.received,x.coming⟩

def Inv (h : Header) (post : Bytes) (chs : List Chunk) (x : Stream) : Prop :=
  ∃ c ∈ x.state, HttpStreamInput.Inv h post chs ⟨c,x.received,x.coming⟩

theorem probing_of_inv {x : HttpStreamInput.World} (hx : HttpStreamInput.Inv h post chs x) :
    Probing x.state := by
  intro hs
  rcases hx.phase with hh | hw | ⟨chs₁,chs₂,-,hf⟩
  · exact hh.skipBytes
  · rw [hw.httpStream] at hs
    cases hs
  · rw [hf.httpStream] at hs
    cases hs

theorem inv_step {x : Stream} (hr : ValidPost post) (hv : ∀ ch ∈ chs, ch.Valid cfg)
    (hacc : Accepts cfg h ((dataOf chs).take 64)) (hx : Inv h post chs x)
    (hok : StreamOk post chs x a) : Inv h post chs (step cfg acceptKey x a) := by
  obtain ⟨c,hc,hinv⟩ := hx
  obtain ⟨hread,hmemory⟩ := hok c hc
  have hnext := HttpStreamInput.inv_step hr hv hacc hinv hread
  refine ⟨ClientInput.reader cfg (x.coming.take a.bytes) c,?_,hnext⟩
  unfold step Segments.next
  dsimp only
  rw [Option.mem_def.mp hc,Option.bind_some]
  exact reader_eq (probing_of_inv hinv) hmemory

/-- Along every cut whose reads the reader can handle the data of each chunk is delivered with its
last byte, and nothing but the plaintext ever is. -/
theorem chunks_delivered (acceptKey : Bytes → Bytes) (hr : ValidPost post)
    (hv : ∀ ch ∈ chs, ch.Valid cfg) (hacc : Accepts cfg h ((dataOf chs).take 64))
    {as : List Arrival}
    (hm : Meets (step cfg acceptKey) (StreamOk post chs) (connect post chs) as) :
    Throughout (step cfg acceptKey) (Delivers h post chs) (connect post chs) as := by
  apply StepSystem.throughout_of_invariant (P := Inv h post chs) _ _ _ hm
  · exact fun x a hx hok => inv_step hr hv hacc hx hok
  · rintro x ⟨c,hc,hinv⟩
    exact ⟨c,hc,hinv.delivers⟩
  · exact ⟨_,rfl,HttpStreamInput.inv_connect h hr chs⟩

/-- All chunks have been received. -/
theorem Delivers.whole {x : Stream} (hd : Delivers h post chs x)
    (hlen : post.length+(encodeAll chs).length ≤ x.received.length) :
    delivered x = some (plaintext h chs) := by
  obtain ⟨c,hc,hd⟩ := hd
  have hall := hd.whole chs [] (List.append_nil chs).symm hlen
  rw [delivered,Option.mem_def.mp hc,Option.map_some,
    hd.sound.eq_of_length_le (List.IsPrefix.length_le hall)]

end Stream

/-- What arrives and is written in a run of the connection, and what lies behind the peek
buffer. -/
structure Event extends HandshakeAnswer.Event where
  memory : Bytes := []

section Answer
open HandshakeAnswer hiding Event Inv AnswerOk readWrite connect
variable {s : Settings} {tr : Transport} {request rest : Bytes}

/-- `cpu_server_read_write`. There is no connection when the process has ended. -/
def readWrite (s : Settings) (x : Option World) (e : Event) : Option World :=
  match x with
  | none => none
  | some x =>
      if x.conn.error ∨ x.conn.diverted then some x
      else
        let seg := x.coming.take e.arrives
        match reader s.cfg s.acceptKey e.memory seg x.conn with
        | none => none
        | some c =>
            some <| writer s e.write
              {x with conn := c, output := answer s x.conn c (x.conn.inBuf++seg) x.output,
                      received := x.received++seg, coming := x.coming.drop e.arrives}

/-- The process goes on, and all that was sent is the answer to a complete request and framed
ciphertext of later writes. -/
def Answered (s : Settings) (tr : Transport) (request : Bytes) (x : Option World) : Prop :=
  ∃ w ∈ x, Clear s tr request w

/-- No read finds something behind the peek buffer, brings another protocol, or brings too much or
too little of the obfs2 header. -/
def AnswerOk (s : Settings) (tr : Transport) (request : Bytes) (x : Option World) (e : Event) :
    Prop :=
  ∀ w ∈ x, HandshakeAnswer.AnswerOk s tr request w e.toEvent ∧
    ¬ Overreads e.memory w.conn (w.coming.take e.arrives)

def AnswerInv (s : Settings) (tr : Transport) (request rest : Bytes) (x : Option World) : Prop :=
  ∃ w ∈ x, HandshakeAnswer.Inv s tr request rest w

section Step
variable {x : World} {e : Event} (hx : HandshakeAnswer.Inv s tr request rest x)
include hx

/-- The handshake lasts until the request is complete. -/
theorem fresh_of_handshake (hs : x.conn.wsState = .handshake) :
    x.received.length < request.length ∧ Fresh x.conn ∧ x.conn.inBuf = x.received := by
  rcases Nat.lt_or_ge x.received.length request.length with hshort | hle
  · obtain ⟨hf,hbuf,-⟩ := hx.before hshort
    exact ⟨hshort,hf,hbuf⟩
  · rw [(hx.behind hle).1] at hs
    cases tr <;> cases hs

theorem readWrite_some (h : ¬ Overreads e.memory x.conn (x.coming.take e.arrives)) :
    readWrite s (some x) e = some (HandshakeAnswer.readWrite s x e.toEvent) := by
  have hprobing : Probing x.conn := fun hs => (fresh_of_handshake hx hs).2.1.skipBytes
  unfold readWrite HandshakeAnswer.readWrite
  dsimp only
  rw [reader_eq hprobing h]
  split_ifs <;> rfl

/-- Past the end of the buffer only an incomplete POST request is searched. -/
theorem short_of_exposed (hv : tr.Valid request) {bs : Bytes} (hbs : bs <+: request++rest)
    (h : Exposed bs) : bs.length ≤ 4096 := by
  obtain ⟨hpost,-,hnone,-⟩ := h
  cases tr with
  | webSocket => exact absurd hpost.2 (ValidUpgrade.not_post hv hbs hpost.1)
  | httpStream =>
      have hv : ValidPost request := hv
      rcases Segments.prefix_append_cases hbs with ⟨-,hlt⟩ | ⟨t,rfl,-⟩
      · exact hlt.le.trans hv.fits
      · rw [take_4096 hv.fits,strstr_append hv.ends] at hnone
        cases hnone

theorem readWrite_none (hv : tr.Valid request)
    (h : Overreads e.memory x.conn (x.coming.take e.arrives)) : readWrite s (some x) e = none := by
  obtain ⟨-,hf,hbuf⟩ := fresh_of_handshake hx h.1
  have hprefix : x.conn.inBuf++x.coming.take e.arrives <+: request++rest := by
    rw [hbuf]
    exact ⟨_,stream_split hx e.arrives⟩
  unfold readWrite
  dsimp only
  rw [if_neg (by simp [hf.before.noError,hf.before.notDiverted]),
    reader_overreads hf.before (fun _ => hf.skipBytes) h (short_of_exposed hx hv hprefix h.2.1)]

end Step

end Answer

section Samples
open HttpStreamInput

/-- The first bytes of the request with anything behind the buffer, two more with a zero byte
there, the rest with the start of a chunk, the rest of the header, and the last chunk in two
segments. -/
def sampleArrivals : List Arrival :=
  [⟨10,[13,10]⟩,⟨8,[0]⟩,⟨22,[]⟩,⟨58,[]⟩,⟨4,[]⟩,⟨3,[]⟩]

theorem sample_chunks_delivered :
    Throughout (PeekInput.step sampleConfig id) (Delivers sampleHeader samplePost sampleChunks)
      (connect samplePost sampleChunks) sampleArrivals ∧
    delivered (run (PeekInput.step sampleConfig id) (connect samplePost sampleChunks)
      sampleArrivals) = some [69,71,69,73,79] := by
  refine ⟨chunks_delivered id samplePost_valid sampleChunks_valid sampleChunks_accepted
    ⟨?_,?_,?_,?_,?_,?_,trivial⟩,?_⟩ <;> decide +kernel

/-- The header arrives chunk by chunk, or with the start of the next chunk: all chunks are received
and not all plaintext is delivered. Or the last byte of the request has not arrived, but lies on
the stack: the process ends. -/
theorem cuts_lose_delivery :
    (ValidPost samplePost ∧ (∀ ch ∈ sampleChunks, ch.Valid sampleConfig) ∧
      Accepts sampleConfig sampleHeader ((dataOf sampleChunks).take 64)) ∧
    ¬ Throughout (PeekInput.step sampleConfig id) (Delivers sampleHeader samplePost sampleChunks)
      (connect samplePost sampleChunks) [⟨57,[]⟩,⟨41,[]⟩,⟨7,[]⟩] ∧
    ¬ Throughout (PeekInput.step sampleConfig id) (Delivers sampleHeader samplePost sampleChunks)
      (connect samplePost sampleChunks) [⟨101,[]⟩,⟨4,[]⟩] ∧
    ¬ Throughout (PeekInput.step sampleConfig id) (Delivers sampleHeader samplePost sampleChunks)
      (connect samplePost sampleChunks) [⟨18,[10]⟩] := by
  refine ⟨⟨samplePost_valid,sampleChunks_valid,sampleChunks_accepted⟩,?_,?_,?_⟩
  · intro ht
    exact absurd (ht.last.whole (by decide +kernel)) (by decide +kernel)
  · intro ht
    exact absurd (ht.last.whole (by decide +kernel)) (by decide +kernel)
  · intro ht
    obtain ⟨c,hc,-⟩ := ht.last
    have hended : ((run (PeekInput.step sampleConfig id) (connect samplePost sampleChunks)
        [⟨18,[10]⟩]).state).isNone = true := by decide +kernel
    rw [Option.mem_def.mp hc] at hended
    cases hended

end Samples

section AnswerSamples
open HandshakeAnswer hiding Event Inv AnswerOk readWrite connect
open WebSocketInput (sampleRequest sampleRequest_valid)

/-- A run on one segment of `n` bytes, with `memory` behind the peek buffer. -/
def sampleRead (n : ℕ) (memory : Bytes) : Event := {sampleEvent n with memory := memory}

def sampleWorld : World := HandshakeAnswer.connect sampleSettings (sampleRequest++sampleFrame)

/-- The request is there and the answer does not begin as one, or the process has ended. -/
def Spoiled (request : Bytes) (x : Option World) : Prop :=
  ∀ w ∈ x, ¬ w.received.length < request.length ∧ w.sent.head? ≠ some 0x48

instance (request : Bytes) (x : Option World) : Decidable (Spoiled request x) :=
  inferInstanceAs (Decidable (∀ w ∈ x, _ ∧ _))

theorem Spoiled.not_answered {request : Bytes} {x : Option World} (h : Spoiled request x)
    (tr : Transport) : ¬ Answered sampleSettings tr request x := by
  rintro ⟨w,hw,hclear⟩
  obtain ⟨hreceived,hhead⟩ := h w hw
  have ⟨bs,hbs⟩ := response_head sampleSettings tr request
  have hsent := congrArg List.head? hclear.sent
  rw [if_neg hreceived,hbs,List.cons_append,List.head?_cons] at hsent
  exact hhead hsent

end AnswerSamples

end Teleproxy.PeekInput
