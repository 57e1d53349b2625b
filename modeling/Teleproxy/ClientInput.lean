import Teleproxy.WorkerProcess

/-!
# Bytes from a client

What a client sends is read in pieces of any size. Until its obfs2 header has
been found the bytes wait in `c->in`; a WebSocket or an HTTP-stream client has
its frames or chunks unwrapped there, by every call of the parser anew. Once
the cipher is set, new bytes go to `c->in_u`, and unwrapping and decryption
move them to `c->in`.

The model follows `cpu_tcp_server_reader`, the part of
`tcp_rpcs_compact_parse_execute` that runs before the cipher is set and
`cpu_tcp_aes_crypto_ctr128_decrypt_input`. The packet parser behind the cipher
takes bytes out of `c->in` but decides nothing here, so after the header `inBuf`
keeps all plaintext that was ever delivered. Fake TLS and the PROXY protocol
are left out, and a connection that is given to another protocol or a backend
is only marked `diverted`. A header that `obfs2_parse_header` accepts is taken to
pass the checks of its slot.

AES-CTR is a keystream and a position in it. `obfs2_parse_header` and the chunk
parser of the T3 library are parameters.
-/
namespace Teleproxy.ClientInput
open WorkerProcess (WsState)

abbrev Bytes := List UInt8

structure Cipher where
  keystream : ℕ → UInt8
  pos : ℕ := 0

def Cipher.crypt (k : Cipher) (bs : Bytes) : Bytes :=
  (bs.zipIdx k.pos).map fun (b,i) => b ^^^ k.keystream i

def Cipher.advance (k : Cipher) (n : ℕ) : Cipher := {k with pos := k.pos+n}

theorem crypt_cons (ks : ℕ → UInt8) (pos : ℕ) (b : UInt8) (bs : Bytes) :
    Cipher.crypt ⟨ks,pos⟩ (b::bs) = (b ^^^ ks pos)::Cipher.crypt ⟨ks,pos+1⟩ bs := by
  simp [Cipher.crypt,List.zipIdx_cons]

theorem crypt_append (ks : ℕ → UInt8) (pos : ℕ) (bs cs : Bytes) :
    Cipher.crypt ⟨ks,pos⟩ (bs++cs) =
      Cipher.crypt ⟨ks,pos⟩ bs++Cipher.crypt ⟨ks,pos+bs.length⟩ cs := by
  simp [Cipher.crypt,List.zipIdx_append]

@[simp] theorem length_crypt (k : Cipher) (bs : Bytes) : (k.crypt bs).length = bs.length := by
  simp [Cipher.crypt]

theorem crypt_crypt (k : Cipher) (bs : Bytes) : k.crypt (k.crypt bs) = bs := by
  obtain ⟨ks,pos⟩ := k
  induction bs generalizing pos with
  | nil => rfl
  | cons b bs ih =>
      rw [crypt_cons,crypt_cons,ih,UInt8.xor_assoc,UInt8.xor_self,UInt8.xor_zero]

theorem crypt_drop (ks : ℕ → UInt8) (pos n : ℕ) {bs : Bytes} (hn : n ≤ bs.length) :
    (Cipher.crypt ⟨ks,pos⟩ bs).drop n = Cipher.crypt ⟨ks,pos+n⟩ (bs.drop n) := by
  have hlen : (bs.take n).length = n := List.length_take_of_le hn
  have hsplit := crypt_append ks pos (bs.take n) (bs.drop n)
  rw [List.take_append_drop,hlen] at hsplit
  rw [hsplit,List.drop_left' (by rw [length_crypt,hlen])]

/-- What an accepted obfs2 header says. -/
structure Header where
  keystream : ℕ → UInt8
  padTag : Bool := true
  padding : Bool := false

inductive T3Result where
  | ok | bufTooSmall | error
  deriving DecidableEq, Repr

structure ChunkResult where
  rc : T3Result
  data : Bytes := []
  consumed : ℕ := 0
  deriving DecidableEq, Repr

structure Config where
  allowOnlyTls : Bool := false
  haveSecrets : Bool := true
  httpFallback : Bool := true
  obfs2ParseHeader : Bytes → Option Header
  t3HttpChunkParse : Bytes → ChunkResult := fun _ => {rc := .error}

structure Mask where
  m0 : UInt8 := 0
  m1 : UInt8 := 0
  m2 : UInt8 := 0
  m3 : UInt8 := 0
  deriving DecidableEq, Repr

/-- `ws_mask[i & 3]`. -/
def Mask.get (m : Mask) (i : ℕ) : UInt8 :=
  match i % 4 with
  | 0 => m.m0
  | 1 => m.m1
  | 2 => m.m2
  | _ => m.m3

/-- The frame that is being read: `ws_frame_remaining`, `ws_mask` and
`ws_mask_offset`. -/
structure Ws where
  remaining : ℕ := 0
  mask : Mask := {}
  maskOffset : ℕ := 0
  deriving DecidableEq, Repr

structure Conn where
  wsState : WsState := .handshake
  inBuf : Bytes := []
  inU : Bytes := []
  crypto : Option Cipher := none
  ws : Ws := {}
  padding : Bool := false
  skipBytes : ℤ := 0
  error : Bool := false
  diverted : Bool := false

inductive FrameHeader where
  | error
  | more
  | skipped
  | payload (n : ℕ)
  deriving DecidableEq, Repr

/-- The extended payload length behind the second byte: how long the payload
is and how many bytes of length were read. -/
inductive PayloadLength where
  | more
  | tooLarge
  | is (n : ℕ) (rest : Bytes)
  deriving DecidableEq, Repr

def payloadLength (len7 : ℕ) (rest : Bytes) : PayloadLength :=
  if len7 = 126 then
    match rest with
    | a::b::rest => .is (a.toNat*256+b.toNat) rest
    | _ => .more
  else if len7 = 127 then
    match rest with
    | a::b::c::d::e::f::g::h::rest =>
        if a ≠ 0 ∨ b ≠ 0 ∨ c ≠ 0 ∨ d ≠ 0 then .tooLarge
        else if e.toNat ≥ 128 then .tooLarge
        else .is (((e.toNat*256+f.toNat)*256+g.toNat)*256+h.toNat) rest
    | _ => .more
  else .is len7 rest

/-- What is done with a frame once its header is complete. A control frame is
skipped as a whole. -/
def frameOpcode (opcode n : ℕ) (w : Ws) (rest buf : Bytes) : FrameHeader × Ws × Bytes :=
  if opcode = 8 then (.error,w,buf)
  else if opcode = 9 ∨ opcode = 10 then
    if rest.length < n then (.more,w,buf) else (.skipped,w,rest.drop n)
  else (.payload n,{w with remaining := n},rest)

/-- `ws_parse_frame_header`. Both `more` and `skipped` are its result 0. -/
def wsParseFrameHeader (w : Ws) (buf : Bytes) : FrameHeader × Ws × Bytes :=
  match buf with
  | b0::b1::rest =>
      match payloadLength (b1.toNat % 128) rest with
      | .more => (.more,w,buf)
      | .tooLarge => (.error,w,buf)
      | .is n rest =>
          if b1.toNat < 128 then frameOpcode (b0.toNat % 16) n w rest buf
          else
            match rest with
            | m0::m1::m2::m3::rest =>
                frameOpcode (b0.toNat % 16) n {w with mask := ⟨m0,m1,m2,m3⟩, maskOffset := 0} rest buf
            | _ => (.more,w,buf)
  | _ => (.more,w,buf)

def wsUnmaskData (w : Ws) (data : Bytes) : Bytes × Ws :=
  ((data.zipIdx w.maskOffset).map fun (b,i) => b ^^^ w.mask.get i,
    {w with maskOffset := (w.maskOffset+data.length) % 4})

/-- Payload of the current frame, as much of it as there is in `buf`. -/
def takePayload (w : Ws) (buf : Bytes) : Bytes × Ws × Bytes :=
  let len := min w.remaining buf.length
  let (data,w) := wsUnmaskData w (buf.take len)
  (data,{w with remaining := w.remaining-len},buf.drop len)

/-- The unwrap loop that runs before the cipher is set. -/
def unwrapLoop : ℕ → Ws → Bytes → Bytes → Ws × Bytes × Bytes
  | 0, w, buf, unmasked => (w,buf,unmasked)
  | fuel+1, w, buf, unmasked =>
      if buf = [] then (w,buf,unmasked)
      else if w.remaining = 0 then
        match wsParseFrameHeader w buf with
        | (.payload (_+1),w,buf) =>
            if buf = [] then (w,buf,unmasked)
            else
              let (data,w,buf) := takePayload w buf
              unwrapLoop fuel w buf (unmasked++data)
        | (_,w,buf) => (w,buf,unmasked)
      else
        let (data,w,buf) := takePayload w buf
        unwrapLoop fuel w buf (unmasked++data)

/-- One piece of a data frame is decrypted, and dropped when it starts with the
padding marker. -/
def Conn.decryptPiece (c : Conn) (k : Cipher) : Conn :=
  let (data,w,inU) := takePayload c.ws c.inU
  let plain := k.crypt data
  let isPadding := c.padding && plain.head? == some 0xFE
  {c with ws := w, inU := inU, crypto := some (k.advance data.length),
          inBuf := if isPadding then c.inBuf else c.inBuf++plain}

def decryptLoop (cfg : Config) : ℕ → Conn → Conn
  | 0, c => c
  | fuel+1, c =>
      if c.inU = [] then c else
        match c.crypto with
        | none => c
        | some k =>
            match c.wsState with
            | .httpStream =>
                let r := cfg.t3HttpChunkParse (c.inU.take 16384)
                if r.rc = .bufTooSmall ∨ r.consumed = 0 then c
                else if r.rc ≠ .ok then {c with error := true}
                else if r.data = [] then {c with inU := c.inU.drop r.consumed}
                else
                  decryptLoop cfg fuel
                    {c with inU := c.inU.drop r.consumed, inBuf := c.inBuf++k.crypt r.data,
                            crypto := some (k.advance r.data.length)}
            | .active =>
                if c.ws.remaining = 0 then
                  match wsParseFrameHeader c.ws c.inU with
                  | (.error,w,inU) => {c with ws := w, inU := inU, error := true}
                  | (.payload (_+1),w,inU) =>
                      decryptLoop cfg fuel (Conn.decryptPiece {c with ws := w, inU := inU} k)
                  | (_,w,inU) => {c with ws := w, inU := inU}
                else decryptLoop cfg fuel (c.decryptPiece k)
            | _ =>
                {c with inU := [], inBuf := c.inBuf++k.crypt c.inU,
                        crypto := some (k.advance c.inU.length)}

def decryptInput (cfg : Config) (c : Conn) : Conn := decryptLoop cfg (c.inU.length+1) c

theorem decryptLoop_nil {cfg : Config} {c : Conn} (fuel : ℕ) (hu : c.inU = []) :
    decryptLoop cfg fuel c = c := by
  cases fuel with
  | zero => rfl
  | succ fuel => rw [decryptLoop,if_pos hu]

/-- `strstr` on a string that ends at its first zero byte or with the buffer. -/
def strstr (p : Bytes) : Bytes → Option ℕ
  | [] => if p = [] then some 0 else none
  | b::s =>
      if p.isPrefixOf (b::s) then some 0
      else if b = 0 then none
      else (strstr p s).map (·+1)

def toLower (b : UInt8) : UInt8 := if 65 ≤ b ∧ b ≤ 90 then b+32 else b

def strcasestr (p s : Bytes) : Option ℕ := strstr (p.map toLower) (s.map toLower)

/-- The bytes of a text. -/
def bytesOf (s : String) : Bytes := s.toList.map fun c => UInt8.ofNat c.toNat

def crlf : Bytes := bytesOf "\r\n"
def headerEnd : Bytes := bytesOf "\r\n\r\n"

inductive Upgrade where
  | notUpgrade | more | upgrade
  deriving DecidableEq, Repr

/-- The results -1, 0 and 1 of `ws_parse_upgrade_request`; its path and key are
only used for the answer. -/
def wsParseUpgradeRequest (buf : Bytes) : Upgrade :=
  if buf.length < 4 then .more else
    let s := buf.take 4096
    if strstr headerEnd s = none then
      if s.length ≥ 4096 then .notUpgrade else .more
    else if s.take 4 ≠ bytesOf "GET " then .notUpgrade
    else if strstr (bytesOf " HTTP/") (s.drop 4) = none then .notUpgrade
    else if strcasestr (bytesOf "Upgrade: websocket") s = none then .notUpgrade
    else
      match strcasestr (bytesOf "Sec-WebSocket-Key:") s with
      | none => .notUpgrade
      | some i =>
          let key := (s.drop (i+(bytesOf "Sec-WebSocket-Key:").length)).dropWhile (· = 32)
          if strstr crlf key = none then .notUpgrade else .upgrade

/-- What `parse_execute` returns: 0, `NEED_MORE_BYTES`, a number of missing
bytes, or the global skip mode. -/
inductive Res where
  | done | needMore
  | need (n : ℕ)
  | skipAll
  deriving DecidableEq, Repr

/-- The bytes up to the end of the HTTP header. -/
def headerLength (buf : Bytes) : ℕ :=
  match strstr headerEnd (buf.take 4096) with
  | some i => i+4
  | none => min buf.length 4096

/-- The search for the end of the header ends with the buffer here. What lies behind the peek
buffer comes in with `PeekInput`. -/
def probePost (c : Conn) : Conn × Option Res :=
  if c.inBuf.length < 16 then (c,some .needMore)
  else if strstr headerEnd (c.inBuf.take 4096) = none then
    if c.inBuf.length > 4096 then ({c with error := true},some .done) else (c,some .needMore)
  else
    let c := {c with inBuf := c.inBuf.drop (headerLength c.inBuf), wsState := .httpStream}
    (c,if c.inBuf = [] then some .needMore else none)

def probeUpgrade (c : Conn) : Conn × Option Res :=
  match wsParseUpgradeRequest c.inBuf with
  | .more => (c,some .needMore)
  | .notUpgrade => ({c with wsState := .none},none)
  | .upgrade =>
      let c := {c with inBuf := c.inBuf.drop (headerLength c.inBuf), wsState := .active}
      (c,if c.inBuf = [] then some .needMore else none)

/-- A fresh connection: an HTTP stream, a WebSocket upgrade or anything else. -/
def probe (c : Conn) : Conn × Option Res :=
  if c.wsState ≠ .handshake then (c,none)
  else if c.inBuf.length ≥ 4 ∧ c.inBuf.take 4 = bytesOf "POST" then probePost c
  else probeUpgrade c

/-- The dechunk loop; `none` is a chunk that cannot be parsed. -/
def dechunkLoop (cfg : Config) : ℕ → Bytes → Bytes → Option (Bytes × Bytes)
  | 0, chunked, out => some (chunked,out)
  | fuel+1, chunked, out =>
      if chunked = [] then some (chunked,out) else
        let r := cfg.t3HttpChunkParse (chunked.take 16384)
        if r.rc = .bufTooSmall ∨ r.consumed = 0 then some (chunked,out)
        else if r.rc ≠ .ok then none
        else if r.data = [] then some (chunked.drop r.consumed,out)
        else dechunkLoop cfg fuel (chunked.drop r.consumed) (out++r.data)

/-- What was not unwrapped goes back behind what was. -/
def dechunk (cfg : Config) (c : Conn) : Conn × Option Res :=
  if c.wsState = .httpStream ∧ c.crypto.isNone then
    match dechunkLoop cfg (c.inBuf.length+1) c.inBuf [] with
    | none => ({c with error := true},some .done)
    | some (chunked,out) =>
        let c := {c with inBuf := out++chunked}
        (c,if c.inBuf = [] then some .needMore else none)
  else (c,none)

def wsUnwrap (c : Conn) : Conn × Option Res :=
  if c.wsState = .active ∧ c.crypto.isNone then
    let (w,buf,unmasked) := unwrapLoop (c.inBuf.length+1) c.ws c.inBuf []
    let c := {c with ws := w, inBuf := unmasked++buf}
    (c,if c.inBuf = [] then some .needMore else none)
  else (c,none)

/-- The first four bytes of an HTTP request, when there is a handler for it. -/
def looksHttp (cfg : Config) (buf : Bytes) : Bool :=
  cfg.httpFallback &&
    [bytesOf "HEAD",bytesOf "POST",bytesOf "GET ",bytesOf "OPTI"].contains (buf.take 4)

/-- The first four bytes of a ClientHello, when only fake TLS is expected. They are
compared as a signed number. -/
def looksTls (cfg : Config) (buf : Bytes) : Bool :=
  cfg.haveSecrets && cfg.allowOnlyTls && buf.take 3 == [0x16,0x03,0x01] &&
    2 ≤ buf.getD 3 0 && buf.getD 3 0 < 128

/-- The cipher is set at position 64. The rest of `c->in` is decrypted at once,
with `ws_state` cleared so that nothing is unwrapped a second time. -/
def handOver (cfg : Config) (h : Header) (c : Conn) : Conn :=
  let saved := c.wsState
  let c := {c with padding := if c.wsState = .active then h.padding else c.padding,
                   crypto := some {keystream := h.keystream, pos := 64},
                   inU := c.inU++c.inBuf.drop 64, inBuf := [], wsState := .none}
  {decryptInput cfg c with wsState := saved}

def detect (cfg : Config) (c : Conn) : Conn × Res :=
  let len := c.inBuf.length
  if len < 9 then (c,.need (9-len))
  else if looksHttp cfg c.inBuf || looksTls cfg c.inBuf then ({c with diverted := true},.done)
  else if cfg.allowOnlyTls && c.wsState != .active && c.wsState != .httpStream then
    ({c with diverted := true},.done)
  else if len < 64 then (c,.need (64-len))
  else
    match cfg.obfs2ParseHeader (c.inBuf.take 64) with
    | none => (c,.skipAll)
    | some h =>
        if h.padTag = false ∧ cfg.allowOnlyTls then ({c with diverted := true},.done)
        else (handOver cfg h c,.done)

/-- One call of the parser on a connection without a cipher. -/
def parseExecute (cfg : Config) (c : Conn) : Conn × Res :=
  match probe c with
  | (c,some r) => (c,r)
  | (c,none) =>
      match dechunk cfg c with
      | (c,some r) => (c,r)
      | (c,none) =>
          match wsUnwrap c with
          | (c,some r) => (c,r)
          | (c,none) => detect cfg c

/-- The loop of the reader around the parser. A result is turned into a number
of bytes to wait for, or to skip. -/
def Conn.parse (cfg : Config) (c : Conn) : Conn :=
  if c.inBuf = [] then c else
    match parseExecute cfg c with
    | (c,.need n) => {c with skipBytes := n+c.inU.length}
    | (c,.skipAll) => {c with skipBytes := -0x10000000-c.inU.length}
    | (c,_) => c

/-- `cpu_tcp_server_reader` with the bytes `seg` in its queue. The test of
`skip_bytes` looks at all bytes of `c->in`, also those it held before. -/
def reader (cfg : Config) (seg : Bytes) (c : Conn) : Conn :=
  if c.error ∨ c.diverted then c
  else if c.crypto.isSome then decryptInput cfg {c with inU := c.inU++seg}
  else
    let c := {c with inBuf := c.inBuf++seg}
    let r : ℤ := c.inBuf.length
    if c.skipBytes < 0 then
      let n := min r (-c.skipBytes)
      let c := {c with inBuf := c.inBuf.drop n.toNat, skipBytes := c.skipBytes+n}
      if c.skipBytes ≠ 0 then c else c.parse cfg
    else if r < c.skipBytes then c
    else Conn.parse cfg {c with skipBytes := 0}

end Teleproxy.ClientInput
