import Teleproxy.TlsRecords

/-!
# Reading under a rate limit

A direct-mode connection is read by two jobs. The socket job reads what has
arrived, appends it to `in_queue` and signals the connection job. A run of the
connection job takes everything from the queue, decrypts it, and relays it
unless the other end is not ready. A relay that empties the token bucket sets
`C_STOPREAD` on both and arms the timer; the alarm clears both flags and signals
the socket job.

A run of the connection job during the pause takes bytes from the queue and
leaves them in `c->in`. Whether they are ever relayed depends on who is
signalled next. The decryption of a WebSocket or an HTTP stream ends at a ping, a
pong, or a frame or chunk without payload, and leaves in `c->in_u` what stands
behind it. The chunk parser of the T3 library is a parameter.
-/
namespace Teleproxy.ThrottledReading
open TlsRecords hiding decryptLoop
open ClientInput (Bytes Cipher ChunkResult Ws takePayload wsParseFrameHeader)
open WorkerProcess (WsState)
open StepSystem

/-- What carries the bytes of a connection. This does not change behind the handshake. -/
structure Transport where
  wsState : WsState := .none
  tls : Bool := false
  /-- `T3_FLAG_PADDING` in `ws_flags`. -/
  padding : Bool := false
  t3HttpChunkParse : Bytes → ChunkResult := fun _ => {rc := .bufTooSmall}

/-- `c->in_u`, `c->in` and the state of the decryption. -/
structure Stream where
  input : Input
  ws : Ws := {}

def Stream.fail (s : Stream) : Stream := {s with input := {s.input with error := true}}

def Stream.rest (s : Stream) (inU : Bytes) : Stream := {s with input := {s.input with inU := inU}}

/-- Plaintext of the cipher's length is taken to `c->in`, or dropped. -/
def Stream.decrypt (s : Stream) (data : Bytes) (dropped : Bytes → Bool) : Stream :=
  let plain := s.input.crypto.crypt data
  {s with input :=
    {s.input with inBuf := if dropped plain then s.input.inBuf else s.input.inBuf++plain
                  crypto := s.input.crypto.advance data.length}}

/-- A piece of a data frame. It is dropped when it starts with the padding marker. -/
def Stream.frame (padding : Bool) (s : Stream) : Stream :=
  let (data,w,inU) := takePayload s.ws s.input.inU
  ({s.rest inU with ws := w}).decrypt data fun plain => padding && plain.head? == some 0xFE

/-- `cpu_tcp_aes_crypto_ctr128_decrypt_input`. The branches without frames or chunks leave the
loop only when there is nothing more to read. -/
def decryptLoop (t : Transport) : ℕ → Stream → Stream
  | 0, s => s
  | fuel+1, s =>
      if s.input.inU = [] then s
      else
        match t.wsState with
        | .httpStream =>
            let r := t.t3HttpChunkParse (s.input.inU.take 16384)
            if r.rc = .bufTooSmall ∨ r.consumed = 0 then s
            else if r.rc ≠ .ok then s.fail
            else
              let s := s.rest (s.input.inU.drop r.consumed)
              if r.data = [] then s else decryptLoop t fuel (s.decrypt r.data fun _ => false)
        | .active =>
            if s.ws.remaining = 0 then
              match wsParseFrameHeader s.ws s.input.inU with
              | (.error,w,inU) => Stream.fail {s.rest inU with ws := w}
              | (.payload (_+1),w,inU) =>
                  decryptLoop t fuel (Stream.frame t.padding {s.rest inU with ws := w})
              | (_,w,inU) => {s.rest inU with ws := w}
            else decryptLoop t fuel (s.frame t.padding)
        | _ =>
            if t.tls then {s with input := TlsRecords.decryptLoop (fuel+1) s.input}
            else (s.rest []).decrypt s.input.inU fun _ => false

def decryptInput (t : Transport) (s : Stream) : Stream := decryptLoop t (s.input.inU.length+1) s

structure Conn where
  transport : Transport
  /-- Bytes that have arrived and are not read yet. -/
  wire : Bytes := []
  /-- What the socket job has read and not yet put into the queue. -/
  reading : Option Bytes := none
  inQueue : List Bytes := []
  stream : Stream
  /-- The other end of the relay takes bytes. -/
  ready : Bool := false
  /-- The last run of the parser returned `NEED_MORE_BYTES`. -/
  asked : Bool := false
  stopRead : Bool := false
  socketStopRead : Bool := false
  timer : Option ℚ := none
  /-- `JS_RUN` is pending for the connection job, and for the socket job. -/
  connRun : Bool := false
  socketRun : Bool := false
  gone : Bool := false

/-- `c->in` -/
def Conn.inBuf (c : Conn) : Bytes := c.stream.input.inBuf

def Conn.setInBuf (c : Conn) (bs : Bytes) : Conn :=
  {c with stream := {c.stream with input := {c.stream.input with inBuf := bs}}}

/-- What a run of the parser meets: an exhausted quota, the end of a SOCKS5 answer after so many
bytes, and the length of the pause when the relay empties the bucket. -/
structure Circumstances where
  now : ℚ := 0
  overQuota : Bool := false
  completes : Option ℕ := none
  pause : Option ℚ := none

/-- `tcp_direct_relay` and `rate_limit_after_relay`. -/
def Conn.relay (x : Circumstances) (c : Conn) : Conn :=
  if x.overQuota then {c with gone := true}
  else
    let c := c.setInBuf []
    match x.pause with
    | none => c
    | some d => {c with stopRead := true, socketStopRead := true, timer := some (x.now+d)}

/-- The loop of `cpu_tcp_server_reader` around the parser. -/
def Conn.parse (x : Circumstances) (c : Conn) : Conn :=
  if c.inBuf = [] then c
  else if c.ready then c.relay x
  else
    match x.completes with
    | none => {c with asked := true}
    | some n =>
        let c := {c.setInBuf (c.inBuf.drop n) with ready := true}
        if c.inBuf = [] then c else c.relay x

/-- What is in the queue is decrypted. -/
def Conn.decrypted (c : Conn) : Stream :=
  decryptInput c.transport (c.stream.rest (c.stream.input.inU++c.inQueue.flatten))

/-- A run of the connection job: `cpu_tcp_server_reader`. -/
def Conn.run (x : Circumstances) (c : Conn) : Conn :=
  let c := {c with connRun := false, inQueue := [], stream := c.decrypted}
  if c.stream.input.error then {c with gone := true}
  else if c.stopRead then c
  else Conn.parse x {c with asked := false}

/-- `rate_limit_resume` -/
def Conn.rateLimitResume (c : Conn) : Conn :=
  if c.stopRead then {c with stopRead := false, socketStopRead := false, socketRun := true} else c

inductive Event where
  | arrive (bs : Bytes)
  /-- The socket job reads `n` bytes. -/
  | socketRead (n : ℕ)
  /-- It puts them into the queue and signals the connection job. -/
  | socketPush
  | run (x : Circumstances)
  | alarm (now : ℚ)
  /-- The other end takes bytes now; the connection job is signalled. -/
  | becomesReady
  /-- The other end relays bytes to this one, which is signalled to write them. -/
  | peerRelay

def step (c : Conn) : Event → Conn
  | .arrive bs => {c with wire := c.wire++bs}
  | .socketRead n =>
      if c.socketStopRead ∨ c.reading.isSome ∨ c.gone ∨ c.wire.take n = [] then c
      else {c with reading := some (c.wire.take n), wire := c.wire.drop n, socketRun := false}
  | .socketPush =>
      match c.reading with
      | none => c
      | some bs => {c with reading := none, inQueue := c.inQueue++[bs], connRun := true}
  | .run x => if c.connRun = false ∨ c.gone then c else c.run x
  | .alarm now =>
      match c.timer with
      | none => c
      | some w => if now < w then c else Conn.rateLimitResume {c with timer := none}
  | .becomesReady => {c with ready := true, connRun := true}
  | .peerRelay => {c with connRun := true}

/-- There is nothing in `c->in_u`, or what the decryption has asked to complete: the start of a
record header, of a frame header or a control frame, or of a chunk, of which the parser sees
16384 bytes. -/
def Drained (t : Transport) (s : Stream) : Prop :=
  s.input.inU = [] ∨
    match t.wsState with
    | .httpStream =>
        (t.t3HttpChunkParse (s.input.inU.take 16384)).rc = .bufTooSmall ∨
          (t.t3HttpChunkParse (s.input.inU.take 16384)).consumed = 0
    | .active => s.ws.remaining = 0 ∧ (wsParseFrameHeader s.ws s.input.inU).1 = .more
    | _ => t.tls = true ∧ s.input.left = 0 ∧ s.input.inU.length < 5

instance (t : Transport) (s : Stream) : Decidable (Drained t s) := by
  unfold Drained
  cases t.wsState with
  | none => exact inferInstanceAs (Decidable (_ ∨ _))
  | handshake => exact inferInstanceAs (Decidable (_ ∨ _))
  | active => exact inferInstanceAs (Decidable (_ ∨ _))
  | httpStream => exact inferInstanceAs (Decidable (_ ∨ _))

/-- Bytes that no parser has asked to complete: in the queue, in `c->in_u`, or in `c->in`. -/
def Conn.Holds (c : Conn) : Prop :=
  c.inQueue ≠ [] ∨ ¬ Drained c.transport c.stream ∨ c.inBuf ≠ [] ∧ c.asked = false

/-- Bytes that are held are waited for: a pause that ends, or a run of the connection job. -/
def Awaited (c : Conn) : Prop :=
  c.gone = false → c.Holds → c.stopRead = true ∧ c.timer ≠ none ∨ c.connRun = true

/-- The run relays, and the relay ends the connection or starts a pause. -/
def Conn.stops (x : Circumstances) (c : Conn) : Bool :=
  (x.overQuota || x.pause.isSome) && c.inBuf != [] &&
    (c.ready || x.completes.any fun n => c.inBuf.drop n != [])

/-- The alarm ends a pause only when no run has left bytes in `c->in` or `c->in_u`, or another
run is to come. A run outside a pause on a WebSocket or an HTTP stream does not leave bytes behind a
ping, a pong, or a frame or chunk without payload, unless its relay starts a pause or ends the
connection. -/
def NotParked (c : Conn) : Event → Prop
  | .alarm now =>
      c.gone = false → c.stopRead = true → (∃ w, c.timer = some w ∧ w ≤ now) →
        c.inBuf = [] ∧ Drained c.transport c.stream ∨ c.connRun = true
  | .run x =>
      c.transport.wsState = .active ∨ c.transport.wsState = .httpStream →
      c.gone = false → c.connRun = true → c.stopRead = false → c.decrypted.input.error = false →
        Drained c.transport c.decrypted ∨ Conn.stops x {c with stream := c.decrypted} = true
  | _ => True

/-- A new connection, perhaps in the middle of a record or of a frame. -/
def start (t : Transport) (ready : Bool) (k : Cipher) (left : ℕ) (ws : Ws) : Conn :=
  {transport := t, stream := {input := {crypto := k, left := left}, ws := ws}, ready := ready}

/-- What is left in `c->in_u` is the start of a header that the decryption asked to complete. -/
theorem decryptLoop_drained {fuel : ℕ} {i : Input} (hfuel : i.inU.length ≤ fuel) :
    (TlsRecords.decryptLoop fuel i).error = true ∨ (TlsRecords.decryptLoop fuel i).inU = [] ∨
      (TlsRecords.decryptLoop fuel i).left = 0 ∧
        (TlsRecords.decryptLoop fuel i).inU.length < 5 := by
  induction fuel generalizing i with
  | zero => exact Or.inr (Or.inl (List.length_eq_zero_iff.mp (Nat.le_zero.mp hfuel)))
  | succ fuel ih =>
      rw [TlsRecords.decryptLoop]
      split_ifs with hnil hleft
      · exact Or.inr (Or.inl hnil)
      · split
        · rename_i h0 h1 h2 h3 h4 rest hin
          split_ifs with hhead
          · exact Or.inl rfl
          · apply ih
            rw [hin] at hfuel
            simp only [List.length_cons] at hfuel
            simp only [Input.piece,List.length_drop]
            omega
        · rename_i hin
          refine Or.inr (Or.inr ⟨hleft,?_⟩)
          by_contra hlong
          obtain ⟨h0,h1,h2,h3,h4,rest,hcons⟩ : ∃ h0 h1 h2 h3 h4 rest,
              i.inU = h0::h1::h2::h3::h4::rest := exists_five (Nat.not_lt.mp hlong)
          exact hin h0 h1 h2 h3 h4 rest hcons
      · apply ih
        have hpos := List.length_pos_of_ne_nil hnil
        simp only [Input.piece,List.length_drop]
        omega

/-- The branch without frames and chunks leaves nothing that could be read. -/
theorem decryptPlain_drained (t : Transport) (s : Stream) {s' : Stream}
    (h : (if t.tls then
        {s with input := TlsRecords.decryptLoop (s.input.inU.length+1) s.input}
      else (s.rest []).decrypt s.input.inU fun _ => false) = s') :
    s'.input.error = true ∨ s'.input.inU = [] ∨
      t.tls = true ∧ s'.input.left = 0 ∧ s'.input.inU.length < 5 := by
  subst h
  split_ifs with htls
  · rcases decryptLoop_drained (Nat.le_succ s.input.inU.length) with h | h | h
    · exact Or.inl h
    · exact Or.inr (Or.inl h)
    · exact Or.inr (Or.inr ⟨htls,h⟩)
  · exact Or.inr (Or.inl rfl)

/-- Without frames and chunks nothing that could be read is left. -/
theorem decryptInput_drained {t : Transport} (s : Stream) (hactive : t.wsState ≠ .active)
    (hhttp : t.wsState ≠ .httpStream) :
    (decryptInput t s).input.error = true ∨ Drained t (decryptInput t s) := by
  unfold decryptInput Drained
  by_cases hnil : s.input.inU = []
  · rw [decryptLoop,if_pos hnil]
    exact Or.inr (Or.inl hnil)
  · rw [decryptLoop,if_neg hnil]
    cases hstate : t.wsState with
    | none => exact decryptPlain_drained t s rfl
    | handshake => exact decryptPlain_drained t s rfl
    | active => exact absurd hstate hactive
    | httpStream => exact absurd hstate hhttp

structure Kept (c : Conn) : Prop where
  queued : c.inQueue ≠ [] → c.connRun = true
  drained : Drained c.transport c.stream ∨ c.stopRead = true ∨ c.connRun = true
  parked : c.inBuf ≠ [] → c.asked = true ∨ c.stopRead = true ∨ c.connRun = true
  armed : c.stopRead = true → c.timer ≠ none
  unasked : c.stopRead = true → c.asked = false

def Sound (c : Conn) : Prop := c.gone = false → Kept c

variable {c : Conn}

theorem Sound.awaited (h : Sound c) : Awaited c := by
  intro hgone hholds
  have hk := h hgone
  rcases hholds with hq | hu | ⟨hin,hasked⟩
  · exact Or.inr (hk.queued hq)
  · rcases hk.drained.resolve_left hu with hs | hr
    · exact Or.inl ⟨hs,hk.armed hs⟩
    · exact Or.inr hr
  · rcases hk.parked hin with ha | hs | hr
    · simp [hasked] at ha
    · exact Or.inl ⟨hs,hk.armed hs⟩
    · exact Or.inr hr

/-- A connection job that has taken the queue and not parsed yet. -/
structure Taken (c : Conn) : Prop where
  queue : c.inQueue = []
  run : c.connRun = false
  reading : c.stopRead = false
  unasked : c.asked = false
  alive : c.gone = false

/-- What the parser leaves of a connection. It stops the reading or the connection, or leaves
`c->in` empty or asks for more. -/
structure Parsed (c : Conn) (stops : Bool) (d : Conn) : Prop where
  queue : d.inQueue = []
  run : d.connRun = false
  transport : d.transport = c.transport
  drained : Drained c.transport d.stream ↔ Drained c.transport c.stream
  ends : if stops then d.gone = true ∨ d.stopRead = true ∧ d.timer ≠ none ∧ d.asked = false
    else d.gone = false ∧ d.stopRead = false ∧ (d.inBuf = [] ∨ d.asked = true)

theorem relay_parsed (x : Circumstances) (h : Taken c) :
    Parsed c (x.overQuota || x.pause.isSome) (c.relay x) := by
  unfold Conn.relay
  cases x.overQuota with
  | true => exact ⟨h.queue,h.run,rfl,Iff.rfl,Or.inl rfl⟩
  | false =>
      cases x.pause with
      | none => exact ⟨h.queue,h.run,rfl,Iff.rfl,h.alive,h.reading,Or.inl rfl⟩
      | some d => exact ⟨h.queue,h.run,rfl,Iff.rfl,Or.inr ⟨rfl,by simp,h.unasked⟩⟩

theorem parse_parsed (x : Circumstances) (h : Taken c) : Parsed c (c.stops x) (c.parse x) := by
  unfold Conn.parse
  by_cases hnil : c.inBuf = []
  · have hstops : c.stops x = false := by simp [Conn.stops,hnil]
    rw [if_pos hnil,hstops]
    exact ⟨h.queue,h.run,rfl,Iff.rfl,h.alive,h.reading,Or.inl hnil⟩
  rw [if_neg hnil]
  cases hready : c.ready with
  | true =>
      have hstops : c.stops x = (x.overQuota || x.pause.isSome) := by
        simp [Conn.stops,hnil,hready]
      rw [hstops]
      exact relay_parsed x h
  | false =>
      cases hcompletes : x.completes with
      | none =>
          have hstops : c.stops x = false := by simp [Conn.stops,hready,hcompletes]
          rw [hstops]
          exact ⟨h.queue,h.run,rfl,Iff.rfl,h.alive,h.reading,Or.inr rfl⟩
      | some n =>
          have hin : ({c.setInBuf (c.inBuf.drop n) with ready := true} : Conn).inBuf =
              c.inBuf.drop n := rfl
          simp only [Bool.false_eq_true,if_false,hin]
          by_cases hrest : c.inBuf.drop n = []
          · have hstops : c.stops x = false := by
              simp [Conn.stops,hready,hcompletes,hrest]
            rw [if_pos hrest,hstops]
            exact ⟨h.queue,h.run,rfl,Iff.rfl,h.alive,h.reading,Or.inl (hin.trans hrest)⟩
          · have hstops : c.stops x = (x.overQuota || x.pause.isSome) := by
              have hsome : (c.inBuf != []) = true := bne_iff_ne.mpr hnil
              have hmore : (c.inBuf.drop n != []) = true := bne_iff_ne.mpr hrest
              simp only [Conn.stops,hcompletes,Option.any_some,hsome,hmore,Bool.or_true,
                Bool.and_true]
            rw [if_neg hrest,hstops]
            have hrelay := relay_parsed x (c := {c.setInBuf (c.inBuf.drop n) with ready := true})
              ⟨h.queue,h.run,h.reading,h.unasked,h.alive⟩
            exact ⟨hrelay.queue,hrelay.run,hrelay.transport,hrelay.drained,hrelay.ends⟩

theorem parse_sound (x : Circumstances) (h : Taken c)
    (hdrained : Drained c.transport c.stream ∨ c.stops x = true) : Sound (c.parse x) := by
  intro hgone
  obtain ⟨hqueue,-,htransport,hiff,hends⟩ := parse_parsed x h
  refine ⟨by simp [hqueue],?_,?_,?_,?_⟩
  · rw [htransport,hiff]
    split_ifs at hends with hstops
    · exact Or.inr (Or.inl (hends.resolve_left (by simp [hgone])).1)
    · exact Or.inl (hdrained.resolve_right hstops)
  · intro hin
    split_ifs at hends
    · exact Or.inr (Or.inl (hends.resolve_left (by simp [hgone])).1)
    · exact Or.inl (hends.2.2.resolve_left hin)
  · intro hs
    split_ifs at hends
    · exact (hends.resolve_left (by simp [hgone])).2.1
    · simp [hs] at hends
  · intro hs
    split_ifs at hends
    · exact (hends.resolve_left (by simp [hgone])).2.2
    · simp [hs] at hends

/-- The connection as the parser of a run finds it. -/
theorem taken_run (hgone : c.gone = false) (hstop : c.stopRead = false) :
    Taken {c with connRun := false, inQueue := [], stream := c.decrypted, asked := false} :=
  ⟨rfl,rfl,hstop,rfl,hgone⟩

theorem run_eq (x : Circumstances) (herror : c.decrypted.input.error = false)
    (hstop : c.stopRead = false) :
    c.run x = Conn.parse x
      {c with connRun := false, inQueue := [], stream := c.decrypted, asked := false} := by
  unfold Conn.run
  dsimp only
  rw [if_neg (by simp [herror]),if_neg (by simp [hstop])]

theorem run_sound (x : Circumstances) (h : Sound c) (hgone : c.gone = false)
    (hrun : c.connRun = true) (hok : NotParked c (.run x)) : Sound (c.run x) := by
  have hk := h hgone
  cases herror : c.decrypted.input.error with
  | true =>
      unfold Conn.run
      dsimp only
      rw [if_pos herror]
      intro hg
      simp at hg
  | false =>
      cases hstop : c.stopRead with
      | true =>
          unfold Conn.run
          dsimp only
          rw [if_neg (by simp [herror]),if_pos hstop]
          intro _
          exact ⟨by simp,Or.inr (Or.inl hstop),fun _ => Or.inr (Or.inl hstop),
            fun _ => hk.armed hstop,fun _ => hk.unasked hstop⟩
      | false =>
          rw [run_eq x herror hstop]
          apply parse_sound x (taken_run hgone hstop)
          by_cases hpieces : c.transport.wsState = .active ∨ c.transport.wsState = .httpStream
          · exact hok hpieces hgone hrun hstop herror
          · rw [not_or] at hpieces
            have hdrained : c.decrypted.input.error = true ∨ Drained c.transport c.decrypted :=
              decryptInput_drained _ hpieces.1 hpieces.2
            exact Or.inl (hdrained.resolve_left (by simp [herror]))

theorem alarm_sound (h : Sound c) (now : ℚ) (hok : NotParked c (.alarm now)) :
    Sound (step c (.alarm now)) := by
  rw [step]
  split
  · exact h
  · rename_i w hw
    split_ifs with hearly
    · exact h
    · intro hgone
      unfold Conn.rateLimitResume at hgone ⊢
      split_ifs at hgone ⊢ with hstop
      · have hk := h hgone
        have hparked := hok hgone hstop ⟨w,hw,not_lt.mp hearly⟩
        refine ⟨hk.queued,?_,?_,by simp,by simp⟩
        · exact hparked.imp And.right Or.inr
        · intro hne
          exact Or.inr (Or.inr (hparked.resolve_left fun hp => hne hp.1))
      · have hk := h hgone
        exact ⟨hk.queued,hk.drained,hk.parked,fun hs => absurd hs hstop,hk.unasked⟩

theorem step_sound (e : Event) (h : Sound c) (hok : NotParked c e) : Sound (step c e) := by
  cases e with
  | arrive bs =>
      intro hgone
      have hk := h hgone
      exact ⟨hk.queued,hk.drained,hk.parked,hk.armed,hk.unasked⟩
  | socketRead n =>
      rw [step]
      split_ifs
      · exact h
      · intro hgone
        have hk := h hgone
        exact ⟨hk.queued,hk.drained,hk.parked,hk.armed,hk.unasked⟩
  | socketPush =>
      rw [step]
      split
      · exact h
      · intro hgone
        have hk := h hgone
        exact ⟨fun _ => rfl,Or.inr (Or.inr rfl),fun _ => Or.inr (Or.inr rfl),hk.armed,hk.unasked⟩
  | run x =>
      rw [step]
      split_ifs with hidle
      · exact h
      · rw [not_or,Bool.not_eq_false,Bool.not_eq_true] at hidle
        exact run_sound x h hidle.2 hidle.1 hok
  | alarm now => exact alarm_sound h now hok
  | becomesReady =>
      intro hgone
      have hk := h hgone
      exact ⟨fun _ => rfl,Or.inr (Or.inr rfl),fun _ => Or.inr (Or.inr rfl),hk.armed,hk.unasked⟩
  | peerRelay =>
      intro hgone
      have hk := h hgone
      exact ⟨fun _ => rfl,Or.inr (Or.inr rfl),fun _ => Or.inr (Or.inr rfl),hk.armed,hk.unasked⟩

/-- A run that leaves bytes in `c->in_u` without anybody to wake up. -/
theorem run_notParked (x : Circumstances) (hq : Awaited (step c (.run x))) :
    NotParked c (.run x) := by
  intro _ hgone hrun hstop herror
  by_contra hlost
  rw [not_or] at hlost
  rw [step,if_neg (by simp [hgone,hrun]),run_eq x herror hstop] at hq
  obtain ⟨-,hidle,htransport,hiff,hends⟩ := parse_parsed x (taken_run hgone hstop)
  have hstays : ¬ Conn.stops x
      {c with connRun := false, inQueue := [], stream := c.decrypted, asked := false} = true :=
    hlost.2
  rw [if_neg hstays] at hends
  rcases hq hends.1 (Or.inr (Or.inl (by rw [htransport,hiff]; exact hlost.1))) with ⟨hs,-⟩ | hr
  · simp [hends.2.1] at hs
  · simp [hidle] at hr

/-- An alarm that leaves bytes without anybody to wake up. -/
theorem alarm_notParked (now : ℚ) (h : Sound c) (hq : Awaited (step c (.alarm now))) :
    NotParked c (.alarm now) := by
  rintro hgone hstop ⟨w,hw,hdue⟩
  by_contra hparked
  rw [not_or,Classical.not_and_iff_not_or_not] at hparked
  have hafter : step c (.alarm now) = {c with
      timer := none, stopRead := false, socketStopRead := false, socketRun := true} := by
    simp [step,hw,not_lt.mpr hdue,Conn.rateLimitResume,hstop]
  rw [hafter] at hq
  have hholds : Conn.Holds {c with
      timer := none, stopRead := false, socketStopRead := false, socketRun := true} := by
    rcases hparked.1 with hin | hu
    · exact Or.inr (Or.inr ⟨hin,(h hgone).unasked hstop⟩)
    · exact Or.inr (Or.inl hu)
  rcases hq hgone hholds with ⟨hs,-⟩ | hr
  · simp at hs
  · exact hparked.2 hr

theorem notParked_of_awaited (e : Event) (h : Sound c) (hq : Awaited (step c e)) :
    NotParked c e := by
  cases e with
  | alarm now => exact alarm_notParked now h hq
  | run x => exact run_notParked x hq
  | _ => trivial

/-- The bytes held are awaited throughout a run exactly when no alarm ends a pause over bytes
that a run has left in `c->in` or `c->in_u`, and no run of the connection job leaves bytes behind
a frame or chunk at which its decryption ends. -/
theorem bytes_awaited_iff (t : Transport) (ready : Bool) (k : Cipher) (left : ℕ) (ws : Ws)
    (es : List Event) : Throughout step Awaited (start t ready k left ws) es ↔
      Meets step NotParked (start t ready k left ws) es := by
  have hstart : Sound (start t ready k left ws) := by
    intro _
    exact ⟨by simp [start],Or.inl (Or.inl rfl),by simp [start,Conn.inBuf],by simp [start],
      by simp [start]⟩
  exact throughout_iff_meets (P := Sound) (fun _ e h hok => step_sound e h hok)
    (fun _ h => h.awaited) (fun _ e h hq => notParked_of_awaited e h hq) hstart

def sampleCipher : Cipher := ⟨fun _ => 0,0⟩

/-- A second segment is read before the first one is relayed, and is taken from the queue during
the pause. -/
def parkedRun : List Event :=
  [.arrive [1,2],.socketRead 1,.socketPush,.socketRead 1,.run {pause := some 1},.socketPush,.run {},
    .alarm 1]

/-- A ping and a frame of one byte behind it are read at once. -/
def pingRun : List Event :=
  [.arrive [0x89,0,0x82,1,7],.socketRead 5,.socketPush,.run {}]

/-- Bytes are held by a connection that reads, and no run is to come. -/
theorem not_awaited_of_idle {c : Conn} (hgone : c.gone = false) (hstop : c.stopRead = false)
    (hrun : c.connRun = false) (hholds : c.Holds) : ¬ Awaited c := by
  intro h
  rcases h hgone hholds with ⟨hs,-⟩ | hr
  · simp [hstop] at hs
  · simp [hrun] at hr

theorem parkedRun_strands :
    let parked := run step (start {} true sampleCipher 0 {}) parkedRun
    let pinged := run step (start {wsState := .active} true sampleCipher 0 {}) pingRun
    (parked.inBuf = [2] ∧ parked.connRun = false) ∧
    (pinged.stream.input.inU = [0x82,1,7] ∧ pinged.connRun = false) ∧
    ¬ Throughout step Awaited (start {} true sampleCipher 0 {}) parkedRun ∧
    ¬ Throughout step Awaited (start {wsState := .active} true sampleCipher 0 {}) pingRun := by
  refine ⟨by decide +kernel,by decide +kernel,fun h => ?_,fun h => ?_⟩
  · exact not_awaited_of_idle (by decide +kernel) (by decide +kernel) (by decide +kernel)
      (Or.inr (Or.inr ⟨by decide +kernel,by decide +kernel⟩)) h.last
  · exact not_awaited_of_idle (by decide +kernel) (by decide +kernel) (by decide +kernel)
      (Or.inr (Or.inl (by decide +kernel))) h.last

end Teleproxy.ThrottledReading
