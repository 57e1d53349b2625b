import Teleproxy.HttpStreamInput
import Teleproxy.ServerOutput
import Teleproxy.WebSocketInput

/-!
# The answer to the handshake

The probe answers an upgrade request with a 101 and a POST request with a 200.
The 101 is put in `c->out`, where it waits to be sent as it is while there is no
cipher, but is encrypted and framed like everything else once there is one. The
200 is put in `c->out_p`, which is sent only when there is a cipher. The reader and
the writer of a connection run in turn, so which of the two happens depends on
whether the read that completes the request also brings the obfs2 header.

Nothing is written to a client before its header has been read. SHA-1 and
base64 are a parameter, and so is the keystream to the client.
-/
namespace Teleproxy.HandshakeAnswer
open WorkerProcess (WsState)
open ClientInput HttpHandshake HeaderDetection ServerOutput

structure Settings where
  cfg : Config
  /-- `ws_compute_accept_key`. -/
  acceptKey : Bytes → Bytes
  writeKey : ℕ → UInt8
  wsMaxFrameSize : ℤ := 16384

/-- The key that `ws_parse_upgrade_request` extracts, in a buffer of 128 bytes. -/
def wsKey (buf : Bytes) : Bytes :=
  let s := buf.take 4096
  match strcasestr (bytesOf "Sec-WebSocket-Key:") s with
  | none => []
  | some i =>
      let key := (s.drop (i+(bytesOf "Sec-WebSocket-Key:").length)).dropWhile (· = 32)
      match strstr crlf key with
      | none => []
      | some n => (key.take n).take 127

def wsBuildUpgradeResponse (acceptKey : Bytes) : Bytes :=
  bytesOf ("HTTP/1.1 101 Switching Protocols\r\n"++"Upgrade: websocket\r\n"++
    "Connection: Upgrade\r\n"++"Sec-WebSocket-Accept: ")++acceptKey++bytesOf "\r\n\r\n"

def http200 : Bytes :=
  bytesOf ("HTTP/1.1 200 OK\r\n"++"Content-Type: application/octet-stream\r\n"++
    "Transfer-Encoding: chunked\r\n"++"Connection: keep-alive\r\n"++"\r\n")

def Settings.channel (s : Settings) (c : Conn) : Channel :=
  {wsState := c.wsState, padding := c.padding, wsMaxFrameSize := s.wsMaxFrameSize}

/-- The answer, when a call of the reader on `buf` turns `c` into `c'`. Only the
probe leaves the handshake. -/
def answer (s : Settings) (c c' : Conn) (buf : Bytes) (o : Output) : Output :=
  if c.wsState = .handshake then
    match c'.wsState with
    | .active => {o with out := o.out++wsBuildUpgradeResponse (s.acceptKey (wsKey buf))}
    | .httpStream => o.push http200
    | _ => o
  else o

/-- A connection with what it has sent to the socket, what was written to it and
what the client has sent and has still to send. -/
structure World where
  conn : Conn := {}
  output : Output
  sent : Bytes := []
  later : List Write := []
  received : Bytes := []
  coming : Bytes

/-- How many bytes arrive, and what is written in the same run. -/
structure Event where
  arrives : ℕ
  write : Write

/-- `cpu_tcp_server_writer`: with a cipher it sends `c->out_p`, else `c->out`. -/
def writer (s : Settings) (w : Write) (x : World) : World :=
  if x.conn.crypto.isSome then
    let o := send (s.channel x.conn) x.output w
    {x with output := {o with outP := []}, sent := x.sent++o.outP, later := x.later++[w]}
  else {x with output := {x.output with out := []}, sent := x.sent++x.output.out}

/-- `cpu_server_read_write`. -/
def readWrite (s : Settings) (x : World) (e : Event) : World :=
  if x.conn.error ∨ x.conn.diverted then x else
    let seg := x.coming.take e.arrives
    let c := reader s.cfg seg x.conn
    writer s e.write
      {x with conn := c, output := answer s x.conn c (x.conn.inBuf++seg) x.output,
              received := x.received++seg, coming := x.coming.drop e.arrives}

inductive Transport where
  | webSocket | httpStream
  deriving DecidableEq, Repr

def Transport.state : Transport → WsState
  | .webSocket => .active
  | .httpStream => .httpStream

def Transport.Valid : Transport → Bytes → Prop
  | .webSocket, request => ValidUpgrade request
  | .httpStream, request => ValidPost request

def Transport.response (s : Settings) : Transport → Bytes → Bytes
  | .webSocket, request => wsBuildUpgradeResponse (s.acceptKey (wsKey request))
  | .httpStream, _ => http200

def connect (s : Settings) (stream : Bytes) : World :=
  {output := {crypto := {keystream := s.writeKey}}, coming := stream}

/-- Framed ciphertext of what is written from the position of the cipher on. -/
def framed (ch : Channel) : Cipher → List Write → Bytes
  | _, [] => []
  | k, w::ws =>
      let o := send ch {crypto := k} w
      o.outP++framed ch o.crypto ws

/-- The connection has not been given to another protocol, and all it has sent is
the answer to a complete request and framed ciphertext of later writes. -/
structure Clear (s : Settings) (tr : Transport) (request : Bytes) (x : World) : Prop where
  ours : x.conn.diverted = false
  sent : x.sent = if x.received.length < request.length then []
    else tr.response s request++framed (s.channel x.conn) {keystream := s.writeKey} x.later

/-- The bytes that one pass over `buf` takes for the start of the obfs2 stream. -/
def unwrapped (cfg : Config) (tr : Transport) (ws : Ws) (buf : Bytes) : Option Bytes :=
  match tr with
  | .webSocket =>
      let (_,rest,unmasked) := unwrapLoop (buf.length+1) ws buf []
      some (unmasked++rest)
  | .httpStream => (dechunkLoop cfg (buf.length+1) buf []).map fun (chunked,out) => out++chunked

/-- What the parser is called on in a read, if it is called. -/
def parserBuffer (c : Conn) (seg : Bytes) : Option Bytes :=
  let buf := c.inBuf++seg
  let n := min (buf.length : ℤ) (-c.skipBytes)
  if c.skipBytes < 0 then if c.skipBytes+n ≠ 0 then none else some (buf.drop n.toNat)
  else if (buf.length : ℤ) < c.skipBytes then none
  else some buf

/-- The start of another protocol, or a tag that is not allowed. -/
inductive HandedOn (cfg : Config) (u : Bytes) : Prop where
  | looks : 9 ≤ u.length → looksHttp cfg u = true ∨ looksTls cfg u = true → HandedOn cfg u
  | tag {h : Header} : 64 ≤ u.length → looksHttp cfg u = false → looksTls cfg u = false →
      cfg.obfs2ParseHeader (u.take 64) = some h → h.padTag = false → cfg.allowOnlyTls = true →
      HandedOn cfg u

def HoldsHeader (cfg : Config) (u : Bytes) : Prop :=
  64 ≤ u.length ∧ ∃ h, Accepts cfg h (u.take 64)

/-- What a read brings of the obfs2 stream while there is no cipher. -/
def obfs2Start (s : Settings) (tr : Transport) (request : Bytes) (x : World) (e : Event) :
    Option Bytes :=
  let seg := x.coming.take e.arrives
  if x.conn.error ∨ x.conn.diverted ∨ x.conn.crypto.isSome then none
  else if x.received.length < request.length then
    if (x.received++seg).length < request.length then none
    else unwrapped s.cfg tr {} ((x.received++seg).drop request.length)
  else (parserBuffer x.conn seg).bind (unwrapped s.cfg tr x.conn.ws)

/-- No read brings another protocol, and the read that completes the request
brings the whole obfs2 header behind a POST and does not bring it behind an
upgrade. -/
structure AnswerOk (s : Settings) (tr : Transport) (request : Bytes) (x : World) (e : Event) :
    Prop where
  own : ∀ u, obfs2Start s tr request x e = some u → ¬ HandedOn s.cfg u
  same : x.received.length < request.length →
    request.length ≤ (x.received++x.coming.take e.arrives).length →
      (tr = .httpStream ↔ ∃ u, obfs2Start s tr request x e = some u ∧ HoldsHeader s.cfg u)

/-- The transport of a connection is the same, and so is whether it has a cipher. -/
structure Kept (c d : Conn) : Prop where
  wsState : d.wsState = c.wsState
  padding : d.padding = c.padding
  diverted : d.diverted = c.diverted
  crypto : d.crypto.isSome = c.crypto.isSome

theorem Kept.refl (c : Conn) : Kept c c := ⟨rfl,rfl,rfl,rfl⟩

theorem Kept.trans {c d e : Conn} (h : Kept c d) (h' : Kept d e) : Kept c e :=
  ⟨h'.wsState.trans h.wsState,h'.padding.trans h.padding,h'.diverted.trans h.diverted,
    h'.crypto.trans h.crypto⟩

theorem kept_decryptPiece {c : Conn} {k : Cipher} (hc : c.crypto = some k) :
    Kept c (c.decryptPiece k) := ⟨rfl,rfl,rfl,by simp [Conn.decryptPiece,hc]⟩

theorem kept_decryptLoop (cfg : Config) (fuel : ℕ) (c : Conn) : Kept c (decryptLoop cfg fuel c) := by
  induction fuel generalizing c with
  | zero => exact Kept.refl c
  | succ fuel ih =>
      by_cases hu : c.inU = []
      · rw [decryptLoop_nil _ hu]
        exact Kept.refl c
      rw [decryptLoop,if_neg hu]
      cases hc : c.crypto with
      | none => exact Kept.refl c
      | some k =>
          cases hs : c.wsState with
          | httpStream =>
              simp only
              split_ifs
              · exact Kept.refl c
              · constructor <;> simp [hs,hc]
              · constructor <;> simp [hs,hc]
              · apply Kept.trans _ (ih _)
                constructor <;> simp [hs,hc]
          | active =>
              by_cases hw : c.ws.remaining = 0
              · simp only [hw,if_true]
                rcases wsParseFrameHeader c.ws c.inU with ⟨_ | _ | _ | _ | n,w,inU⟩
                iterate 4 · constructor <;> simp [hs,hc]
                apply Kept.trans _ (ih _)
                constructor <;> simp [Conn.decryptPiece,hs,hc]
              · simp only [hw,if_false]
                exact (kept_decryptPiece hc).trans (ih _)
          | none => constructor <;> simp [hs,hc]
          | handshake => constructor <;> simp [hs,hc]

section Pass
variable {cfg : Config} {c : Conn} {u : Bytes}

theorem HandedOn.not_short (h : HandedOn cfg u) : 9 ≤ u.length := by
  cases h with
  | looks hlen _ => exact hlen
  | tag hlen _ _ _ _ _ => omega

theorem HoldsHeader.quiet (h : HoldsHeader cfg u) :
    looksHttp cfg u = false ∧ looksTls cfg u = false := by
  obtain ⟨hlen,hd,hacc⟩ := h
  have hhttp := hacc.notHttp
  have htls := hacc.notTls
  rw [looksHttp_take cfg (by decide)] at hhttp
  rw [looksTls_take cfg (by decide)] at htls
  exact ⟨hhttp,htls⟩

/-- What a call of the parser comes to: whether the connection is given away and
whether its cipher is set. -/
structure Outcome (cfg : Config) (c r : Conn) (u : Option Bytes) : Prop where
  wsState : r.wsState = c.wsState
  diverted : r.diverted = true ↔ ∃ v, u = some v ∧ HandedOn cfg v
  crypto : r.crypto.isSome = true ↔ ∃ v, u = some v ∧ HoldsHeader cfg v

theorem Outcome.nothing {r : Conn} (hs : r.wsState = c.wsState) (hd : r.diverted = false)
    (hc : r.crypto = none)
    (hu : ∀ v, u = v → ¬ HandedOn cfg v ∧ ¬ HoldsHeader cfg v) : Outcome cfg c r (some u) := by
  constructor
  · exact hs
  · simp [hd,(hu u rfl).1]
  · simp [hc,(hu u rfl).2]

theorem handOver_spec (cfg : Config) (h : Header) (c : Conn) :
    (handOver cfg h c).wsState = c.wsState ∧ (handOver cfg h c).diverted = c.diverted ∧
      (handOver cfg h c).crypto.isSome = true := by
  unfold handOver decryptInput
  exact ⟨rfl,(kept_decryptLoop cfg _ _).diverted,(kept_decryptLoop cfg _ _).crypto⟩

theorem detect_outcome (hw : Wrapped c) (hc : c.crypto = none) (hd : c.diverted = false) :
    Outcome cfg c (detect cfg c).1 (some c.inBuf) := by
  unfold detect
  dsimp only
  rw [hw.allowed]
  by_cases h9 : c.inBuf.length < 9
  · rw [if_pos h9]
    apply Outcome.nothing rfl hd hc
    rintro v rfl
    exact ⟨fun h => absurd h.not_short (by omega),fun h => absurd h.1 (by omega)⟩
  rw [if_neg h9]
  by_cases hlooks : looksHttp cfg c.inBuf = true ∨ looksTls cfg c.inBuf = true
  · rw [if_pos (by rwa [Bool.or_eq_true])]
    constructor
    · rfl
    · simp [HandedOn.looks (by omega) hlooks]
    · have hnot : ¬ HoldsHeader cfg c.inBuf := fun h => by
        have hquiet := h.quiet
        simp [hquiet.1,hquiet.2] at hlooks
      simp [hc,hnot]
  obtain ⟨hhttp,htls⟩ : looksHttp cfg c.inBuf = false ∧ looksTls cfg c.inBuf = false := by
    simpa using hlooks
  rw [if_neg (by simp [hhttp,htls]),if_neg (by simp)]
  by_cases h64 : c.inBuf.length < 64
  · rw [if_pos h64]
    apply Outcome.nothing rfl hd hc
    rintro v rfl
    constructor
    · intro h
      cases h with
      | looks _ hl => exact hlooks hl
      | tag hlen _ _ _ _ _ => omega
    · exact fun h => absurd h.1 (by omega)
  rw [if_neg h64]
  cases hparse : cfg.obfs2ParseHeader (c.inBuf.take 64) with
  | none =>
      apply Outcome.nothing rfl hd hc
      rintro v rfl
      constructor
      · intro h
        cases h with
        | looks _ hl => exact hlooks hl
        | tag _ _ _ hp _ _ => rw [hparse] at hp; cases hp
      · rintro ⟨-,h,hacc⟩
        have hsame := hacc.parse
        rw [hparse] at hsame
        cases hsame
  | some h =>
      dsimp only
      by_cases htag : h.padTag = false ∧ cfg.allowOnlyTls = true
      · rw [if_pos htag]
        constructor
        · rfl
        · simp [HandedOn.tag (by omega) hhttp htls hparse htag.1 htag.2]
        · have hnot : ¬ HoldsHeader cfg c.inBuf := by
            rintro ⟨-,h',hacc⟩
            have hsame := hacc.parse
            rw [hparse] at hsame
            cases hsame
            rcases hacc.tag with ht | ht <;> simp [ht] at htag
          simp [hc,hnot]
      · rw [if_neg htag]
        obtain ⟨hstate,hdiv,hcrypto⟩ := handOver_spec cfg h c
        have hnot : ¬ HandedOn cfg c.inBuf := by
          intro hh
          cases hh with
          | looks _ hl => exact hlooks hl
          | tag _ _ _ hp hpad htls =>
              rw [hparse] at hp
              cases hp
              exact htag ⟨hpad,htls⟩
        have hyes : HoldsHeader cfg c.inBuf := by
          refine ⟨by omega,h,by simp; omega,hparse,?_,?_,?_⟩
          · rw [looksHttp_take cfg (by decide),hhttp]
          · rw [looksTls_take cfg (by decide),htls]
          · cases hpad : h.padTag with
            | true => exact Or.inl rfl
            | false => exact Or.inr (by simpa [hpad] using htag)
        constructor
        · exact hstate
        · simp [hdiv,hd,hnot]
        · simp [hcrypto,hyes]

theorem Outcome.empty {r : Conn} (hs : r.wsState = c.wsState) (hd : r.diverted = false)
    (hc : r.crypto = none) : Outcome cfg c r (some []) := by
  apply Outcome.nothing hs hd hc
  rintro v rfl
  exact ⟨fun h => absurd h.not_short (by simp),fun h => absurd h.1 (by simp)⟩

/-- The reader turns the result of the parser into a number of bytes. -/
theorem parse_outcome_of {d : Conn} {r : Res} {u : Option Bytes} (hne : c.inBuf ≠ [])
    (hexec : parseExecute cfg c = (d,r)) (h : Outcome cfg c d u) :
    Outcome cfg c (c.parse cfg) u := by
  rw [Conn.parse,if_neg hne,hexec]
  cases r with
  | done => exact h
  | needMore => exact h
  | need n => exact ⟨h.wsState,h.diverted,h.crypto⟩
  | skipAll => exact ⟨h.wsState,h.diverted,h.crypto⟩

theorem probe_none (hs : c.wsState ≠ .handshake) : probe c = (c,none) := by rw [probe,if_pos hs]

theorem parse_outcome_stream (hs : c.wsState = .httpStream) (hc : c.crypto = none)
    (hd : c.diverted = false) (hne : c.inBuf ≠ []) :
    Outcome cfg c (c.parse cfg) (unwrapped cfg .httpStream c.ws c.inBuf) := by
  have hprobe := probe_none (c := c) (by simp [hs])
  have hpos : c.wsState = .httpStream ∧ c.crypto.isNone := ⟨hs,by simp [hc]⟩
  rw [unwrapped]
  cases hloop : dechunkLoop cfg (c.inBuf.length+1) c.inBuf [] with
  | none =>
      have hexec : parseExecute cfg c = ({c with error := true},.done) := by
        rw [parseExecute,hprobe]
        dsimp only
        rw [dechunk,if_pos hpos,hloop]
      apply parse_outcome_of hne hexec
      exact ⟨rfl,by simp [hd],by simp [hc]⟩
  | some r =>
      obtain ⟨chunked,out⟩ := r
      have hdechunk : dechunk cfg c =
          ({c with inBuf := out++chunked},if out++chunked = [] then some .needMore else none) := by
        rw [dechunk,if_pos hpos,hloop]
      simp only [Option.map_some]
      by_cases hout : out++chunked = []
      · rw [if_pos hout] at hdechunk
        have hexec : parseExecute cfg c = ({c with inBuf := out++chunked},.needMore) := by
          rw [parseExecute,hprobe]
          dsimp only
          rw [hdechunk]
        rw [hout]
        exact parse_outcome_of hne hexec (Outcome.empty rfl hd hc)
      · rw [if_neg hout] at hdechunk
        have hunwrap : wsUnwrap {c with inBuf := out++chunked} =
            ({c with inBuf := out++chunked},none) := by
          rw [wsUnwrap,if_neg (by simp [hs])]
        have hexec : parseExecute cfg c = detect cfg {c with inBuf := out++chunked} := by
          rw [parseExecute,hprobe]
          dsimp only
          rw [hdechunk]
          dsimp only
          rw [hunwrap]
        have hdetect : Outcome cfg _ (detect cfg {c with inBuf := out++chunked}).1 _ :=
          detect_outcome (Or.inr hs) hc hd
        apply parse_outcome_of hne hexec
        exact ⟨hdetect.wsState,hdetect.diverted,hdetect.crypto⟩

theorem parse_outcome_active (hs : c.wsState = .active) (hc : c.crypto = none)
    (hd : c.diverted = false) (hne : c.inBuf ≠ []) :
    Outcome cfg c (c.parse cfg) (unwrapped cfg .webSocket c.ws c.inBuf) := by
  have hprobe := probe_none (c := c) (by simp [hs])
  have hdechunk : dechunk cfg c = (c,none) := by rw [dechunk,if_neg (by simp [hs])]
  rw [unwrapped]
  rcases hloop : unwrapLoop (c.inBuf.length+1) c.ws c.inBuf [] with ⟨w,rest,unmasked⟩
  have hunwrap : wsUnwrap c = ({c with ws := w, inBuf := unmasked++rest},
      if unmasked++rest = [] then some .needMore else none) := by
    rw [wsUnwrap,if_pos ⟨hs,by simp [hc]⟩,hloop]
  have hexec : parseExecute cfg c = (if unmasked++rest = [] then
      ({c with ws := w, inBuf := unmasked++rest},.needMore)
      else detect cfg {c with ws := w, inBuf := unmasked++rest}) := by
    rw [parseExecute,hprobe]
    dsimp only
    generalize dechunk cfg c = y at hdechunk
    subst hdechunk
    dsimp only
    rw [hunwrap]
    by_cases hout : unmasked++rest = []
    · rw [if_pos hout,if_pos hout]
    · rw [if_neg hout,if_neg hout]
  by_cases hout : unmasked++rest = []
  · rw [if_pos hout] at hexec
    dsimp only
    rw [hout]
    exact parse_outcome_of hne hexec (Outcome.empty rfl hd hc)
  · rw [if_neg hout] at hexec
    have hdetect : Outcome cfg _ (detect cfg {c with ws := w, inBuf := unmasked++rest}).1 _ :=
      detect_outcome (Or.inl hs) hc hd
    apply parse_outcome_of hne hexec
    exact ⟨hdetect.wsState,hdetect.diverted,hdetect.crypto⟩

theorem parse_outcome {tr : Transport} (hs : c.wsState = tr.state) (hc : c.crypto = none)
    (hd : c.diverted = false) : Outcome cfg c (c.parse cfg) (unwrapped cfg tr c.ws c.inBuf) := by
  by_cases hnil : c.inBuf = []
  · have hempty : unwrapped cfg tr c.ws c.inBuf = some [] := by
      cases tr <;> simp [unwrapped,hnil,unwrapLoop,dechunkLoop]
    rw [hempty,Conn.parse,if_pos hnil]
    exact Outcome.empty rfl hd hc
  · cases tr with
    | webSocket => exact parse_outcome_active hs hc hd hnil
    | httpStream => exact parse_outcome_stream hs hc hd hnil

end Pass

section Read
variable {cfg : Config} {c : Conn} {tr : Transport} {request : Bytes}

theorem reader_outcome (hs : c.wsState = tr.state) (hc : c.crypto = none) (he : c.error = false)
    (hd : c.diverted = false) (seg : Bytes) :
    Outcome cfg c (reader cfg seg c) ((parserBuffer c seg).bind (unwrapped cfg tr c.ws)) := by
  have hskipped : ∀ d : Conn, d.wsState = c.wsState → d.diverted = false → d.crypto = none →
      Outcome cfg c d none := fun d h₁ h₂ h₃ => ⟨h₁,by simp [h₂],by simp [h₃]⟩
  have hparsed : ∀ d : Conn, d.wsState = c.wsState → d.ws = c.ws → d.diverted = false →
      d.crypto = none → Outcome cfg c (d.parse cfg) (unwrapped cfg tr c.ws d.inBuf) := by
    intro d h₁ h₂ h₃ h₄
    have h : Outcome cfg d (d.parse cfg) _ := parse_outcome (h₁.trans hs) h₄ h₃
    rw [h₂] at h
    exact ⟨h.wsState.trans h₁,h.diverted,h.crypto⟩
  unfold reader parserBuffer
  rw [if_neg (by simp [he,hd]),if_neg (by simp [hc])]
  dsimp only
  split_ifs
  · exact hskipped _ rfl hd hc
  · exact hparsed _ rfl rfl hd hc
  · exact hskipped _ rfl hd hc
  · exact hparsed {c with inBuf := c.inBuf++seg, skipBytes := 0} rfl rfl hd hc

theorem reader_kept (hc : c.crypto.isSome = true) (seg : Bytes) : Kept c (reader cfg seg c) := by
  unfold reader
  split_ifs
  · exact Kept.refl c
  · have h := kept_decryptLoop cfg ((c.inU++seg).length+1) {c with inU := c.inU++seg}
    exact ⟨h.wsState,h.padding,h.diverted,h.crypto⟩

/-- A connection that waits for the rest of the request. -/
structure Fresh (c : Conn) : Prop where
  before : Before c
  handshake : c.wsState = .handshake
  skipBytes : c.skipBytes = 0
  ws : c.ws = {}

theorem Transport.Valid.probe_waits (hv : tr.Valid request) (hs : c.wsState = .handshake)
    (hq : c.inBuf <+: request) (hlt : c.inBuf.length < request.length) :
    probe c = (c,some .needMore) := by
  cases tr with
  | webSocket => exact ValidUpgrade.probe_waits hv hs hq hlt
  | httpStream => exact ValidPost.probe_waits hv hs hq hlt

theorem Transport.Valid.probe_completes {t : Bytes} (hv : tr.Valid request)
    (hs : c.wsState = .handshake) (ht : c.inBuf = request++t) :
    probe c =
      ({c with inBuf := t, wsState := tr.state},if t = [] then some .needMore else none) := by
  cases tr with
  | webSocket => exact ValidUpgrade.probe_completes hv hs ht
  | httpStream => exact ValidPost.probe_completes hv hs ht

theorem Transport.Valid.append_ne_nil (hv : tr.Valid request) (t : Bytes) : request++t ≠ [] := by
  cases tr with
  | webSocket => exact ValidUpgrade.append_ne_nil hv t
  | httpStream => exact ValidPost.append_ne_nil hv t

theorem reader_fresh (hf : Fresh c) (seg : Bytes) :
    reader cfg seg c = Conn.parse cfg {c with inBuf := c.inBuf++seg} := by
  rw [reader_parses cfg hf.before hf.skipBytes.ge (by rw [hf.skipBytes]; exact Int.natCast_nonneg _)]
  congr 2
  exact hf.skipBytes.symm

theorem reader_request_waits (hv : tr.Valid request) (hf : Fresh c) {seg : Bytes}
    (hq : c.inBuf++seg <+: request) (hlt : (c.inBuf++seg).length < request.length) :
    reader cfg seg c = {c with inBuf := c.inBuf++seg} := by
  rw [reader_fresh hf]
  exact parse_of_waiting (hv.probe_waits hf.handshake hq hlt)

theorem reader_request_completes (hv : tr.Valid request) (hf : Fresh c) {seg t : Bytes}
    (ht : c.inBuf++seg = request++t) :
    Outcome cfg {c with wsState := tr.state} (reader cfg seg c) (unwrapped cfg tr {} t) := by
  have hprobe := hv.probe_completes (c := {c with inBuf := c.inBuf++seg}) hf.handshake ht
  have hne : c.inBuf++seg ≠ [] := by
    rw [ht]
    exact hv.append_ne_nil t
  have hstate : tr.state ≠ .handshake := by cases tr <;> decide
  have hparse : Outcome cfg _ (Conn.parse cfg {c with inBuf := t, wsState := tr.state})
      (unwrapped cfg tr c.ws t) := parse_outcome rfl hf.before.crypto hf.before.notDiverted
  have hws : unwrapped cfg tr {} t = unwrapped cfg tr c.ws t := by rw [hf.ws]
  rw [reader_fresh hf,parse_behind_request hstate hne hprobe,hws]
  exact ⟨hparse.wsState,hparse.diverted,hparse.crypto⟩

end Read

/-- The cipher behind what has been written. -/
def cipherAfter (ch : Channel) : Cipher → List Write → Cipher
  | k, [] => k
  | k, w::ws => cipherAfter ch (send ch {crypto := k} w).crypto ws

theorem framed_concat (ch : Channel) (k : Cipher) (ws : List Write) (w : Write) :
    framed ch k (ws++[w]) = framed ch k ws++(send ch {crypto := cipherAfter ch k ws} w).outP := by
  induction ws generalizing k with
  | nil => simp [framed,cipherAfter]
  | cons v ws ih => simp only [List.cons_append,framed,cipherAfter,ih,List.append_assoc]

theorem cipherAfter_concat (ch : Channel) (k : Cipher) (ws : List Write) (w : Write) :
    cipherAfter ch k (ws++[w]) = (send ch {crypto := cipherAfter ch k ws} w).crypto := by
  induction ws generalizing k with
  | nil => rfl
  | cons v ws ih => exact ih _

/-- The key of an accepted request, whatever has arrived behind it. -/
theorem wsKey_append {request : Bytes} (ha : wsParseUpgradeRequest request = .upgrade) (t : Bytes) :
    wsKey (request++t) = wsKey request := by
  by_cases hfits : request.length ≤ 4096
  swap
  · unfold wsKey
    rw [List.take_append_of_le_length (by omega)]
  unfold wsParseUpgradeRequest at ha
  rw [List.take_of_length_le hfits] at ha
  unfold wsKey
  rw [take_4096 hfits,List.take_of_length_le hfits]
  dsimp only at ha ⊢
  generalize t.take (4096-request.length) = u
  split_ifs at ha
  cases hk : strcasestr (bytesOf "Sec-WebSocket-Key:") request with
  | none =>
      rw [hk] at ha
      cases ha
  | some i =>
      rw [hk] at ha
      rw [strcasestr_append hk]
      dsimp only at ha ⊢
      have hle : i+(bytesOf "Sec-WebSocket-Key:").length ≤ request.length := by
        simpa using strstr_le hk
      rw [List.drop_append_of_le_length hle]
      generalize request.drop (i+(bytesOf "Sec-WebSocket-Key:").length) = field at ha ⊢
      split_ifs at ha with hcrlf
      obtain ⟨n,hn⟩ := Option.ne_none_iff_exists'.mp hcrlf
      have hne : field.dropWhile (· = 32) ≠ [] := by
        intro hnil
        rw [hnil] at hn
        cases hn
      have hlen := strstr_le hn
      rw [dropWhile_append_of_ne_nil hne,strstr_append hn,hn]
      dsimp only
      rw [List.take_append_of_le_length (by omega)]

/-- Where the answer is put. -/
def Transport.answered (response : Bytes) (k : Cipher) : Transport → Output
  | .webSocket => {out := response, crypto := k}
  | .httpStream => {outP := response, crypto := k}

theorem answer_completes (s : Settings) {tr : Transport} {request t : Bytes} {c c' : Conn}
    (hv : tr.Valid request) (hc : c.wsState = .handshake) (hc' : c'.wsState = tr.state)
    (k : Cipher) :
    answer s c c' (request++t) {crypto := k} = tr.answered (tr.response s request) k := by
  unfold answer
  rw [if_pos hc,hc']
  cases tr with
  | webSocket =>
      simp only [Transport.state,Transport.response,Transport.answered,List.nil_append]
      rw [wsKey_append (show ValidUpgrade request from hv).accepted]
  | httpStream => rfl

structure Inv (s : Settings) (tr : Transport) (request rest : Bytes) (x : World) : Prop where
  stream : x.received++x.coming = request++rest
  clear : Clear s tr request x
  output : x.output =
    {crypto := cipherAfter (s.channel x.conn) {keystream := s.writeKey} x.later}
  before : x.received.length < request.length →
    Fresh x.conn ∧ x.conn.inBuf = x.received ∧ x.later = []
  behind : request.length ≤ x.received.length →
    x.conn.wsState = tr.state ∧ (x.conn.crypto = none → x.later = [])

section Step
variable {s : Settings} {tr : Transport} {request rest : Bytes} {x : World} {e : Event}

/-- Nothing is read on a connection that has failed. -/
theorem step_failed (hx : Inv s tr request rest x) (he : x.conn.error = true) :
    readWrite s x e = x ∧ AnswerOk s tr request x e := by
  constructor
  · rw [readWrite,if_pos (Or.inl he)]
  · constructor
    · intro u hu
      simp [obfs2Start,he] at hu
    · intro hlt
      have hfresh := (hx.before hlt).1
      rw [hfresh.before.noError] at he
      cases he

theorem readWrite_eq (hx : Inv s tr request rest x) (he : x.conn.error = false) :
    readWrite s x e =
      writer s e.write
        {x with conn := reader s.cfg (x.coming.take e.arrives) x.conn
                output := answer s x.conn (reader s.cfg (x.coming.take e.arrives) x.conn)
                  (x.conn.inBuf++x.coming.take e.arrives) x.output
                received := x.received++x.coming.take e.arrives
                coming := x.coming.drop e.arrives} := by
  rw [readWrite,if_neg (by simp [he,hx.clear.ours])]

theorem stream_split (hx : Inv s tr request rest x) (n : ℕ) :
    x.received++x.coming.take n++x.coming.drop n = request++rest := by
  rw [List.append_assoc,List.take_append_drop,hx.stream]

/-- The request is still not complete. -/
theorem step_waits (hv : tr.Valid request) (hx : Inv s tr request rest x)
    (hlt : (x.received++x.coming.take e.arrives).length < request.length) :
    Inv s tr request rest (readWrite s x e) ∧ AnswerOk s tr request x e := by
  have hshort : x.received.length < request.length := by
    rw [List.length_append] at hlt
    omega
  obtain ⟨hf,hbuf,hlater⟩ := hx.before hshort
  have hsent := hx.clear.sent
  rw [if_pos hshort] at hsent
  have hpre : x.conn.inBuf++x.coming.take e.arrives <+: request := by
    rw [hbuf]
    apply List.prefix_of_prefix_length_le _ (List.prefix_append request rest) hlt.le
    exact ⟨_,stream_split hx e.arrives⟩
  have hreader : reader s.cfg (x.coming.take e.arrives) x.conn =
      {x.conn with inBuf := x.conn.inBuf++x.coming.take e.arrives} :=
    reader_request_waits hv hf hpre (by rwa [hbuf])
  have houtput : x.output = {crypto := {keystream := s.writeKey}} := by
    rw [hx.output,hlater]
    rfl
  have hstep : readWrite s x e =
      {x with conn := {x.conn with inBuf := x.conn.inBuf++x.coming.take e.arrives}
              received := x.received++x.coming.take e.arrives
              coming := x.coming.drop e.arrives} := by
    rw [readWrite_eq hx hf.before.noError,hreader,writer]
    simp [answer,hf.handshake,hf.before.crypto,houtput]
  constructor
  · rw [hstep]
    constructor
    · exact stream_split hx e.arrives
    · exact ⟨hf.before.notDiverted,by simp only [if_pos hlt,hsent]⟩
    · simp only [houtput,hlater]
      rfl
    · intro _
      refine ⟨⟨⟨hf.before.crypto,hf.before.inU,hf.before.noError,hf.before.notDiverted⟩,
        hf.handshake,hf.skipBytes,hf.ws⟩,?_,hlater⟩
      simp only [hbuf]
    · exact fun hle => absurd hlt (by simpa using hle)
  · constructor
    · intro u hu
      simp [obfs2Start,hf.before.noError,hf.before.notDiverted,hf.before.crypto,hshort] at hu
      simp only [List.length_append,List.length_take] at hlt
      omega
    · intro _ hle
      omega

theorem response_head (s : Settings) (tr : Transport) (request : Bytes) :
    ∃ bs, tr.response s request = 72::bs := by
  cases tr with
  | webSocket => exact ⟨_,rfl⟩
  | httpStream => exact ⟨_,rfl⟩

theorem writer_plain {w : Write} (hc : x.conn.crypto.isSome = false) :
    writer s w x =
      {x with output := {x.output with out := []}, sent := x.sent++x.output.out} := by
  rw [writer,if_neg (by simp [hc])]

theorem writer_framed {w : Write} (hc : x.conn.crypto.isSome = true) {p : Bytes} {k : Cipher}
    (ho : x.output = {outP := p, crypto := k}) :
    writer s w x =
      {x with output := {crypto := (send (s.channel x.conn) {crypto := k} w).crypto}
              sent := x.sent++p++(send (s.channel x.conn) {crypto := k} w).outP
              later := x.later++[w]} := by
  have hafter : x.output = Output.after p {crypto := k} := by simp [ho,Output.after]
  have hout : (send (s.channel x.conn) {crypto := k} w).out = [] := encryptOutput_out _ _ _
  rw [writer,if_pos hc,hafter,send_after]
  simp [Output.after,hout]

/-- The state behind the read that completes the request. -/
theorem step_completes (hv : tr.Valid request) (hx : Inv s tr request rest x)
    (hshort : x.received.length < request.length)
    (hle : request.length ≤ (x.received++x.coming.take e.arrives).length) :
    (AnswerOk s tr request x e → Inv s tr request rest (readWrite s x e)) ∧
      (Clear s tr request (readWrite s x e) → AnswerOk s tr request x e) := by
  obtain ⟨hf,hbuf,hlater⟩ := hx.before hshort
  have hsent := hx.clear.sent
  rw [if_pos hshort] at hsent
  obtain ⟨t,ht⟩ : ∃ t, x.received++x.coming.take e.arrives = request++t := by
    obtain ⟨t,ht⟩ := List.prefix_of_prefix_length_le (List.prefix_append request rest)
      ⟨_,stream_split hx e.arrives⟩ hle
    exact ⟨t,ht.symm⟩
  have hin : x.conn.inBuf++x.coming.take e.arrives = request++t := by rw [hbuf,ht]
  have hstart : obfs2Start s tr request x e = unwrapped s.cfg tr {} t := by
    simp only [obfs2Start,hf.before.noError,hf.before.notDiverted,hf.before.crypto]
    rw [if_neg (by simp),if_pos hshort,if_neg (by omega),ht,List.drop_left]
  have hout : Outcome s.cfg _ (reader s.cfg (x.coming.take e.arrives) x.conn) _ :=
    reader_request_completes hv hf hin
  have houtput : x.output = {crypto := {keystream := s.writeKey}} := by
    rw [hx.output,hlater]
    rfl
  have hstep := readWrite_eq (e := e) hx hf.before.noError
  generalize reader s.cfg (x.coming.take e.arrives) x.conn = c at hout hstep
  rw [hin,houtput,answer_completes s hv hf.handshake hout.wsState] at hstep
  have hnot : ¬ (x.received++x.coming.take e.arrives).length < request.length := by omega
  have hown : (∀ u, obfs2Start s tr request x e = some u → ¬ HandedOn s.cfg u) ↔
      c.diverted = false := by
    rw [← Bool.not_eq_true,hout.diverted,hstart]
    simp
  have hholds : (∃ u, obfs2Start s tr request x e = some u ∧ HoldsHeader s.cfg u) ↔
      c.crypto.isSome = true := by rw [hout.crypto,hstart]
  cases hc : c.crypto.isSome with
  | false =>
      rw [writer_plain hc] at hstep
      rw [hc] at hholds
      constructor
      · intro hok
        have htr : tr = .webSocket := by
          cases tr with
          | webSocket => rfl
          | httpStream => exact absurd ((hok.same hshort hle).mp rfl) (by simp [hholds])
        subst htr
        rw [hstep]
        constructor
        · exact stream_split hx e.arrives
        · refine ⟨hown.mp hok.own,?_⟩
          simp only [if_neg hnot,hsent,hlater,framed,Transport.answered,List.nil_append,
            List.append_nil]
        · simp only [hlater]
          rfl
        · exact fun h => absurd h hnot
        · exact fun _ => ⟨hout.wsState,fun _ => hlater⟩
      · intro hclear
        rw [hstep] at hclear
        constructor
        · exact hown.mpr hclear.ours
        · intro _ _
          rw [hholds]
          simp only [Bool.false_eq_true,iff_false]
          rintro rfl
          obtain ⟨bs,hbs⟩ := response_head s .httpStream request
          have hnothing := hclear.sent
          simp only [if_neg hnot,hsent,Transport.answered,hbs] at hnothing
          cases hnothing
  | true =>
      rw [hc] at hholds
      constructor
      · intro hok
        have htr : tr = .httpStream := by
          cases tr with
          | webSocket => exact absurd ((hok.same hshort hle).mpr (hholds.mpr rfl)) (by decide)
          | httpStream => rfl
        subst htr
        rw [writer_framed hc rfl] at hstep
        rw [hstep]
        constructor
        · exact stream_split hx e.arrives
        · refine ⟨hown.mp hok.own,?_⟩
          simp only [if_neg hnot,hsent,hlater,framed,List.nil_append,List.append_nil]
        · simp only [hlater]
          rfl
        · exact fun h => absurd h hnot
        · refine fun _ => ⟨hout.wsState,fun h => ?_⟩
          rw [show c.crypto = none from h] at hc
          cases hc
      · intro hclear
        constructor
        · apply hown.mpr
          have hours := hclear.ours
          rw [hstep,writer,if_pos hc] at hours
          exact hours
        · intro _ _
          rw [hholds]
          simp only [iff_true]
          cases tr with
          | httpStream => rfl
          | webSocket =>
              -- the answer is encrypted and framed
              obtain ⟨bs,hbs⟩ := response_head s .webSocket request
              have hfirst := hclear.sent
              have hhead : (send (s.channel c) (Transport.answered
                  (Transport.response s .webSocket request) {keystream := s.writeKey} .webSocket)
                  e.write).outP.head? = some 0x82 := by
                apply encryptOutput_head
                · exact hout.wsState
                · rfl
                · simp [Transport.answered,hbs]
              rw [hstep,writer,if_pos hc] at hfirst
              simp only [if_neg hnot,hsent,List.nil_append] at hfirst
              rw [hfirst,hbs] at hhead
              simp at hhead

/-- Behind the request and before the cipher is set. -/
theorem step_behind_plain (hx : Inv s tr request rest x) (he : x.conn.error = false)
    (hle : request.length ≤ x.received.length) (hc : x.conn.crypto = none) :
    (AnswerOk s tr request x e → Inv s tr request rest (readWrite s x e)) ∧
      (Clear s tr request (readWrite s x e) → AnswerOk s tr request x e) := by
  obtain ⟨hstate,hlater⟩ := hx.behind hle
  have hsent := hx.clear.sent
  have hstart : obfs2Start s tr request x e =
      (parserBuffer x.conn (x.coming.take e.arrives)).bind (unwrapped s.cfg tr x.conn.ws) := by
    simp only [obfs2Start,he,hx.clear.ours,hc]
    rw [if_neg (by simp),if_neg (by omega)]
  have hout : Outcome s.cfg _ (reader s.cfg (x.coming.take e.arrives) x.conn) _ :=
    reader_outcome hstate hc he hx.clear.ours _
  have houtput : x.output = {crypto := {keystream := s.writeKey}} := by
    rw [hx.output,hlater hc]
    rfl
  have hstep := readWrite_eq (e := e) hx he
  have hanswer : ∀ c buf, answer s x.conn c buf x.output = {crypto := {keystream := s.writeKey}} := by
    intro c buf
    rw [answer,if_neg (by rw [hstate]; cases tr <;> decide),houtput]
  rw [hanswer] at hstep
  generalize reader s.cfg (x.coming.take e.arrives) x.conn = c at hout hstep
  have hnot : ¬ (x.received++x.coming.take e.arrives).length < request.length := by
    rw [List.length_append]
    omega
  have hown : (∀ u, obfs2Start s tr request x e = some u → ¬ HandedOn s.cfg u) ↔
      c.diverted = false := by
    rw [← Bool.not_eq_true,hout.diverted,hstart]
    simp
  rw [if_neg (by omega),hlater hc] at hsent
  cases hc' : c.crypto.isSome with
  | false =>
      rw [writer_plain hc'] at hstep
      rw [hstep]
      constructor
      · intro hok
        constructor
        · exact stream_split hx e.arrives
        · refine ⟨hown.mp hok.own,?_⟩
          simp only [if_neg hnot,hsent,hlater hc,framed,List.append_nil]
        · simp only [hlater hc]
          rfl
        · exact fun h => absurd h hnot
        · exact fun _ => ⟨hout.wsState.trans hstate,fun _ => hlater hc⟩
      · intro hclear
        exact ⟨hown.mpr hclear.ours,fun h => absurd h (by omega)⟩
  | true =>
      rw [writer_framed hc' rfl] at hstep
      rw [hstep]
      constructor
      · intro hok
        constructor
        · exact stream_split hx e.arrives
        · refine ⟨hown.mp hok.own,?_⟩
          simp only [if_neg hnot,hsent,hlater hc,framed,List.append_nil,List.nil_append]
        · simp only [hlater hc]
          rfl
        · exact fun h => absurd h hnot
        · refine fun _ => ⟨hout.wsState.trans hstate,fun h => ?_⟩
          rw [show c.crypto = none from h] at hc'
          cases hc'
      · intro hclear
        exact ⟨hown.mpr hclear.ours,fun h => absurd h (by omega)⟩

/-- Behind the request and with the cipher. -/
theorem step_behind_framed (hx : Inv s tr request rest x) (he : x.conn.error = false)
    (hle : request.length ≤ x.received.length) (hc : x.conn.crypto.isSome = true) :
    Inv s tr request rest (readWrite s x e) ∧ AnswerOk s tr request x e := by
  obtain ⟨hstate,-⟩ := hx.behind hle
  have hsent := hx.clear.sent
  have hkept : Kept x.conn (reader s.cfg (x.coming.take e.arrives) x.conn) := reader_kept hc _
  have hstep := readWrite_eq (e := e) hx he
  have hanswer : ∀ c buf, answer s x.conn c buf x.output = x.output := by
    intro c buf
    rw [answer,if_neg (by rw [hstate]; cases tr <;> decide)]
  rw [hanswer,hx.output] at hstep
  generalize reader s.cfg (x.coming.take e.arrives) x.conn = c at hkept hstep
  have hc' : c.crypto.isSome = true := hkept.crypto.trans hc
  have hchannel : s.channel c = s.channel x.conn := by
    simp only [Settings.channel,hkept.wsState,hkept.padding]
  have hnot : ¬ (x.received++x.coming.take e.arrives).length < request.length := by
    rw [List.length_append]
    omega
  rw [if_neg (by omega)] at hsent
  rw [writer_framed hc' rfl] at hstep
  simp only [hchannel] at hstep
  constructor
  · rw [hstep]
    constructor
    · exact stream_split hx e.arrives
    · refine ⟨hkept.diverted.trans hx.clear.ours,?_⟩
      simp only [if_neg hnot,hsent,hchannel,framed_concat,List.append_nil,List.append_assoc]
    · simp only [hchannel,cipherAfter_concat]
    · exact fun h => absurd h hnot
    · refine fun _ => ⟨hkept.wsState.trans hstate,fun h => ?_⟩
      rw [show c.crypto = none from h] at hc'
      cases hc'
  · constructor
    · intro u hu
      simp [obfs2Start,hc] at hu
    · exact fun h => absurd h (by omega)

theorem step_spec (hv : tr.Valid request) (hx : Inv s tr request rest x) :
    (AnswerOk s tr request x e → Inv s tr request rest (readWrite s x e)) ∧
      (Clear s tr request (readWrite s x e) → AnswerOk s tr request x e) := by
  cases he : x.conn.error with
  | true =>
      obtain ⟨hsame,hok⟩ := step_failed (e := e) hx he
      rw [hsame]
      exact ⟨fun _ => hx,fun _ => hok⟩
  | false =>
      rcases Nat.lt_or_ge x.received.length request.length with hshort | hle
      · rcases Nat.lt_or_ge (x.received++x.coming.take e.arrives).length request.length with hlt | hge
        · obtain ⟨hinv,hok⟩ := step_waits hv hx hlt
          exact ⟨fun _ => hinv,fun _ => hok⟩
        · exact step_completes hv hx hshort hge
      · cases hc : x.conn.crypto.isSome with
        | false => exact step_behind_plain hx he hle (by simpa using hc)
        | true =>
            obtain ⟨hinv,hok⟩ := step_behind_framed (e := e) hx he hle hc
            exact ⟨fun _ => hinv,fun _ => hok⟩

end Step

theorem Transport.Valid.length_pos {tr : Transport} {request : Bytes} (hv : tr.Valid request) :
    0 < request.length := by
  have h := hv.append_ne_nil []
  rw [List.append_nil] at h
  exact List.length_pos_iff.mpr h

theorem inv_connect (s : Settings) {tr : Transport} {request : Bytes} (hv : tr.Valid request)
    (rest : Bytes) : Inv s tr request rest (connect s (request++rest)) where
  stream := rfl
  clear := ⟨rfl,by rw [if_pos (by exact hv.length_pos)]; rfl⟩
  output := rfl
  before := fun _ => ⟨⟨⟨rfl,rfl,rfl,rfl⟩,rfl,rfl,rfl⟩,rfl,rfl⟩
  behind := fun h => absurd (Nat.le_zero.mp h) hv.length_pos.ne'

/-- The accept key is that of the key `a`, the only one in the samples. -/
def sampleSettings : Settings :=
  {cfg := WebSocketInput.sampleConfig
   acceptKey := fun _ => bytesOf "FtgH8qqfEKHvZKEZYEWkYDhlXNY="
   writeKey := fun i => UInt8.ofNat i}

def sampleEvent (n : ℕ) : Event := {arrives := n, write := ⟨[],{},by decide⟩}

def sampleFrame : Bytes := WebSocketFrames.Frame.encode {payload := sampleStart}

end Teleproxy.HandshakeAnswer
