import Mathlib.Data.List.TakeWhile
import Teleproxy.Lib.Segments
import Teleproxy.HeaderDetection

/-!
# HTTP-stream input and the cuts of the stream

A client that speaks HTTP stream sends the headers of a POST request and then
chunks. The chunk parser of the T3 library is a parameter: on the chunks of the
stream it does what its documentation says.

Before the cipher is set every call of the parser dechunks `c->in` from its
start, also what an earlier call has dechunked already, and puts the raw bytes
of an incomplete chunk behind the dechunked ones. So a call must find no
complete chunk and fewer than 64 bytes, or complete chunks only, with the
whole obfs2 header in them. Before and after the cipher is set the chunk parser is
shown no more than 16384 bytes, and a longer chunk is never taken.
-/
namespace Teleproxy.HttpStreamInput
open ClientInput HttpHandshake HeaderDetection Segments

/-- A chunk; `size` is the text of its size line. -/
structure Chunk where
  size : Bytes
  data : Bytes
  deriving DecidableEq, Repr

def Chunk.encode (ch : Chunk) : Bytes := ch.size++crlf++ch.data++crlf

def encodeAll (chs : List Chunk) : Bytes := chs.flatMap Chunk.encode

def dataOf (chs : List Chunk) : Bytes := chs.flatMap Chunk.data

def isHexDigit (b : UInt8) : Bool := 48 ≤ b && b ≤ 57 || 65 ≤ b && b ≤ 70 || 97 ≤ b && b ≤ 102

/-- A chunk that is not the last one, and what the chunk parser makes of it. -/
structure Chunk.Valid (cfg : Config) (ch : Chunk) : Prop where
  hex : ch.size.head?.any isHexDigit = true
  data : ch.data ≠ []
  whole : ∀ rest, cfg.t3HttpChunkParse (ch.encode++rest) = ⟨.ok,ch.data,ch.encode.length⟩
  short : ∀ p, p <+: ch.encode → p.length < ch.encode.length → p ≠ [] →
    (cfg.t3HttpChunkParse p).rc = .bufTooSmall ∧ (cfg.t3HttpChunkParse p).consumed = 0

/-- The complete chunks at the start of a buffer, and what is left of it. -/
def dechunks : List Chunk → Bytes → List Chunk × Bytes
  | [], p => ([],p)
  | ch::chs, p =>
      if ch.encode.length ≤ p.length then
        (ch::(dechunks chs (p.drop ch.encode.length)).1,(dechunks chs (p.drop ch.encode.length)).2)
      else ([],p)

section Chunks
variable {cfg : Config} {h : Header} {c : Conn} {ch : Chunk} {chs : List Chunk} {p q t : Bytes}

@[simp] theorem encodeAll_cons (ch : Chunk) (chs : List Chunk) :
    encodeAll (ch::chs) = ch.encode++encodeAll chs := rfl

@[simp] theorem dataOf_cons (ch : Chunk) (chs : List Chunk) :
    dataOf (ch::chs) = ch.data++dataOf chs := rfl

@[simp] theorem encodeAll_append (chs chs' : List Chunk) :
    encodeAll (chs++chs') = encodeAll chs++encodeAll chs' := List.flatMap_append

@[simp] theorem dataOf_append (chs chs' : List Chunk) :
    dataOf (chs++chs') = dataOf chs++dataOf chs' := List.flatMap_append

theorem length_encode (ch : Chunk) : ch.encode.length = ch.size.length+ch.data.length+4 := by
  have hcrlf : crlf.length = 2 := rfl
  simp only [Chunk.encode,List.length_append,hcrlf]
  omega

theorem length_dataOf_le (chs : List Chunk) : (dataOf chs).length ≤ (encodeAll chs).length := by
  induction chs with
  | nil => exact Nat.le_refl _
  | cons ch chs ih =>
      have := length_encode ch
      simp only [dataOf_cons,encodeAll_cons,List.length_append]
      omega

/-- A buffer that holds no complete chunk of those to come. -/
def Short : List Chunk → Bytes → Prop
  | [], q => q = []
  | ch::_, q => q.length < ch.encode.length

theorem dechunks_whole (chs : List Chunk) (r : Bytes) :
    dechunks (ch::chs) (ch.encode++r) = (ch::(dechunks chs r).1,(dechunks chs r).2) := by
  rw [dechunks,if_pos (by rw [List.length_append]; omega),List.drop_left]

theorem dechunks_short (hlt : p.length < ch.encode.length) : dechunks (ch::chs) p = ([],p) := by
  rw [dechunks,if_neg (Nat.not_le.mpr hlt)]

/-- The complete chunks are the first ones of the stream. -/
theorem dechunks_eq (hp : p++t = encodeAll chs) :
    ∃ chs', chs = (dechunks chs p).1++chs' ∧ p = encodeAll (dechunks chs p).1++(dechunks chs p).2 ∧
      (dechunks chs p).2++t = encodeAll chs' ∧ Short chs' (dechunks chs p).2 := by
  induction chs generalizing p with
  | nil =>
      obtain ⟨rfl,rfl⟩ := List.append_eq_nil_iff.mp hp
      exact ⟨[],rfl,rfl,rfl,rfl⟩
  | cons ch chs ih =>
      rw [encodeAll_cons] at hp
      rcases prefix_append_cases ⟨t,hp⟩ with ⟨-,hlt⟩ | ⟨r,rfl,-⟩
      · rw [dechunks_short hlt]
        exact ⟨ch::chs,rfl,rfl,hp,hlt⟩
      · rw [List.append_assoc,List.append_cancel_left_eq] at hp
        obtain ⟨chs',hchs,hr,ht,hs⟩ := ih hp
        rw [dechunks_whole]
        refine ⟨chs',?_,?_,ht,hs⟩
        · rw [List.cons_append,← hchs]
        · rw [encodeAll_cons,List.append_assoc,← hr]

/-- All of the chunk is within the bytes the parser is shown. -/
theorem parse_whole (hv : ch.Valid cfg) (hfits : ch.encode.length ≤ 16384) (r : Bytes) :
    cfg.t3HttpChunkParse ((ch.encode++r).take 16384) = ⟨.ok,ch.data,ch.encode.length⟩ := by
  rw [List.take_append,List.take_of_length_le hfits]
  exact hv.whole _

theorem parse_short (hv : ch.Valid cfg) (hp : p <+: ch.encode) (hlt : p.length < ch.encode.length)
    (hne : p ≠ []) :
    (cfg.t3HttpChunkParse (p.take 16384)).rc = .bufTooSmall ∨
      (cfg.t3HttpChunkParse (p.take 16384)).consumed = 0 := by
  have hlen : (p.take 16384).length ≤ p.length := List.length_take_le' _ _
  refine .inl (hv.short _ ((List.take_prefix _ _).trans hp) (by omega) ?_).1
  simpa using hne

theorem encode_ne_nil (ch : Chunk) : ch.encode ≠ [] := by
  intro hnil
  have := length_encode ch
  rw [hnil] at this
  simp at this

/-- The loop before the cipher is set takes the complete chunks. -/
theorem dechunkLoop_eq (hv : ∀ ch ∈ chs, ch.Valid cfg) (hp : p++t = encodeAll chs)
    (hfits : ∀ ch ∈ (dechunks chs p).1, ch.encode.length ≤ 16384) {fuel : ℕ} (hf : p.length < fuel)
    (out : Bytes) :
    dechunkLoop cfg fuel p out = some ((dechunks chs p).2,out++dataOf (dechunks chs p).1) := by
  induction chs generalizing p out fuel with
  | nil =>
      obtain ⟨rfl,rfl⟩ := List.append_eq_nil_iff.mp hp
      cases fuel <;> simp [dechunkLoop,dechunks,dataOf]
  | cons ch chs ih =>
      obtain ⟨n,rfl⟩ : ∃ n, fuel = n+1 := ⟨fuel-1,by omega⟩
      have hvch := hv ch (by simp)
      rw [encodeAll_cons] at hp
      rcases prefix_append_cases ⟨t,hp⟩ with ⟨hpre,hlt⟩ | ⟨r,rfl,-⟩
      · rw [dechunks_short hlt,dechunkLoop]
        by_cases hnil : p = []
        · simp [hnil,dataOf]
        · dsimp only
          rw [if_neg hnil,if_pos (parse_short hvch hpre hlt hnil)]
          simp [dataOf]
      · rw [dechunks_whole] at hfits ⊢
        rw [List.append_assoc,List.append_cancel_left_eq] at hp
        have hlen := length_encode ch
        rw [List.length_append] at hf
        rw [dechunkLoop,if_neg (by simp [encode_ne_nil]),parse_whole hvch (hfits ch (by simp))]
        dsimp only
        rw [if_neg (by simp [encode_ne_nil]),if_neg (by simp),if_neg hvch.data,List.drop_left,
          ih (fun ch' hch => hv ch' (by simp [hch])) hp (fun ch' hch => hfits ch' (by simp [hch]))
            (by omega)]
        simp

/-- The loop behind the cipher delivers the complete chunks. -/
theorem decryptLoop_eq (hs : c.wsState = .httpStream) {ks : ℕ → UInt8} {pos : ℕ}
    (hc : c.crypto = some ⟨ks,pos⟩) (hv : ∀ ch ∈ chs, ch.Valid cfg) (hu : c.inU = p)
    (hp : p++t = encodeAll chs)
    (hfits : ∀ ch ∈ (dechunks chs p).1, ch.encode.length ≤ 16384) {fuel : ℕ}
    (hf : p.length < fuel) :
    decryptLoop cfg fuel c =
      {c with inU := (dechunks chs p).2,
              inBuf := c.inBuf++Cipher.crypt ⟨ks,pos⟩ (dataOf (dechunks chs p).1),
              crypto := some ⟨ks,pos+(dataOf (dechunks chs p).1).length⟩} := by
  induction chs generalizing p c pos fuel with
  | nil =>
      obtain ⟨rfl,rfl⟩ := List.append_eq_nil_iff.mp hp
      rw [decryptLoop_nil _ hu]
      obtain ⟨wsState,inBuf,inU,crypto,ws,padding,skipBytes,error,diverted⟩ := c
      cases hc
      cases hu
      simp [dechunks,dataOf,Cipher.crypt]
  | cons ch chs ih =>
      obtain ⟨n,rfl⟩ : ∃ n, fuel = n+1 := ⟨fuel-1,by omega⟩
      have hvch := hv ch (by simp)
      rw [encodeAll_cons] at hp
      rcases prefix_append_cases ⟨t,hp⟩ with ⟨hpre,hlt⟩ | ⟨r,rfl,-⟩
      · rw [dechunks_short hlt]
        have hstop : decryptLoop cfg (n+1) c = c := by
          by_cases hnil : p = []
          · rw [decryptLoop_nil _ (hu.trans hnil)]
          · rw [decryptLoop,hu,if_neg hnil,hc,hs]
            dsimp only
            rw [if_pos (parse_short hvch hpre hlt hnil)]
        rw [hstop]
        obtain ⟨wsState,inBuf,inU,crypto,ws,padding,skipBytes,error,diverted⟩ := c
        cases hc
        cases hu
        simp [dataOf,Cipher.crypt]
      · rw [dechunks_whole] at hfits ⊢
        rw [List.append_assoc,List.append_cancel_left_eq] at hp
        have hlen := length_encode ch
        rw [List.length_append] at hf
        have hnext : decryptLoop cfg (n+1) c =
            decryptLoop cfg n {c with inU := r, inBuf := c.inBuf++Cipher.crypt ⟨ks,pos⟩ ch.data,
                                      crypto := some ⟨ks,pos+ch.data.length⟩} := by
          have hparse := parse_whole hvch (hfits ch (by simp)) r
          simp only [decryptLoop,hu,hc,hs,hparse,List.append_eq_nil_iff,encode_ne_nil,false_and,if_false,
            reduceCtorEq,List.length_eq_zero_iff,or_self,ne_eq,not_true_eq_false,hvch.data,
            List.drop_left,Cipher.advance]
        have hr : r.length < n := by omega
        rw [hnext,ih (by exact hs) rfl (fun ch' hch => hv ch' (by simp [hch])) rfl hp
          (fun ch' hch => hfits ch' (by simp [hch])) hr]
        simp [crypt_append,Nat.add_assoc]

/-- A chunk is not taken for another protocol. -/
theorem looks_chunk (hv : ch.Valid cfg) (hp : p <+: ch.encode) (hne : p ≠ []) :
    looksHttp cfg p = false ∧ looksTls cfg p = false := by
  obtain ⟨b,bs,rfl⟩ := List.exists_cons_of_ne_nil hne
  have hhex := hv.hex
  obtain ⟨t,ht⟩ := hp
  cases hsize : ch.size with
  | nil =>
      rw [hsize] at hhex
      cases hhex
  | cons d ds =>
      rw [hsize] at hhex
      have hbd : b = d := by
        rw [Chunk.encode,hsize] at ht
        exact (List.cons.inj ht).1
      subst hbd
      apply looks_first
      intro hm
      have hnot : ∀ x ∈ ([0x48,0x50,0x47,0x4F,0x16] : Bytes), isHexDigit x = false := by
        decide +kernel
      rw [List.head?_cons,Option.any_some,hnot b hm] at hhex
      cases hhex

section Parser
variable {left out : Bytes} (hb : Before c) (hs : c.wsState = .httpStream)
  (hleft : out++left ≠ [])
  (hloop : dechunkLoop cfg (c.inBuf.length+1) c.inBuf [] = some (left,out))
include hb hs hleft hloop

theorem parseExecute_stream :
    parseExecute cfg c = detect cfg {c with inBuf := out++left} := by
  have hprobe : probe c = (c,none) := by rw [probe,if_pos (by simp [hs])]
  have hdechunk : dechunk cfg c = ({c with inBuf := out++left},none) := by
    rw [dechunk,if_pos ⟨hs,by simp [hb.crypto]⟩,hloop]
    dsimp only
    rw [if_neg hleft]
  have hunwrap : wsUnwrap {c with inBuf := out++left} = ({c with inBuf := out++left},none) := by
    rw [wsUnwrap,if_neg (by simp [hs])]
  rw [parseExecute,hprobe]
  dsimp only
  rw [hdechunk]
  dsimp only
  rw [hunwrap]

theorem parse_waits (hne : c.inBuf ≠ []) (hlen : (out++left).length < 64)
    (hhttp : looksHttp cfg (out++left) = false) (htls : looksTls cfg (out++left) = false) :
    ∃ n : ℕ, n ≤ 64 ∧ c.parse cfg = {c with inBuf := out++left, skipBytes := n} := by
  obtain ⟨n,hn,hdetect⟩ := detect_waits cfg (c := {c with inBuf := out++left}) (.inr hs) hlen hhttp htls
  refine ⟨n,hn,?_⟩
  rw [Conn.parse,if_neg hne,parseExecute_stream hb hs hleft hloop,hdetect]
  simp [hb.inU]

theorem parse_header (hne : c.inBuf ≠ []) (hlen : 64 ≤ (out++left).length)
    (ha : Accepts cfg h ((out++left).take 64)) :
    c.parse cfg =
      {c with crypto := some ⟨h.keystream,(out++left).length⟩,
              inBuf := Cipher.crypt ⟨h.keystream,64⟩ ((out++left).drop 64)} := by
  have hdetect := detect_header (c := {c with inBuf := out++left})
    ⟨hb.crypto,hb.inU,hb.noError,hb.notDiverted⟩ (.inr hs) hlen ha
  rw [Conn.parse,if_neg hne,parseExecute_stream hb hs hleft hloop,hdetect]
  simp [hs]

end Parser

end Chunks

def hexDigit (b : UInt8) : ℕ :=
  if b ≤ 57 then b.toNat-48 else if b ≤ 70 then b.toNat-55 else b.toNat-87

def hexValue (ds : Bytes) : ℕ := ds.foldl (fun n b => n*16+hexDigit b) 0

/-- A parser of chunks without extensions. -/
def plainChunkParse (buf : Bytes) : ChunkResult :=
  let size := buf.takeWhile isHexDigit
  let rest := buf.drop size.length
  if rest.length < 2 then {rc := .bufTooSmall}
  else if size = [] ∨ rest.take 2 ≠ crlf then {rc := .error}
  else if rest.length < hexValue size+4 then {rc := .bufTooSmall}
  else {rc := .ok, data := (rest.drop 2).take (hexValue size), consumed := size.length+hexValue size+4}

section PlainParser
variable {ch : Chunk} (hhex : ∀ b ∈ ch.size, isHexDigit b = true)
  (hval : hexValue ch.size = ch.data.length) (hne : ch.size ≠ [])
include hhex

theorem takeWhile_size (q : Bytes) : (ch.size++13::q).takeWhile isHexDigit = ch.size := by
  rw [List.takeWhile_append_of_pos hhex,List.takeWhile_cons_of_neg (by decide),List.append_nil]

include hval hne

theorem plainChunkParse_whole (rest : Bytes) :
    plainChunkParse (ch.encode++rest) = ⟨.ok,ch.data,ch.encode.length⟩ := by
  have henc : ch.encode++rest = ch.size++13::10::(ch.data++crlf++rest) := by
    simp [Chunk.encode,crlf,bytesOf]
  have hcrlf : crlf.length = 2 := rfl
  rw [henc,plainChunkParse,takeWhile_size hhex,List.drop_left,hval,length_encode]
  rw [if_neg (by simp),if_neg (by simp [hne]; rfl),
    if_neg (by simp only [List.length_cons,List.length_append,hcrlf]; omega)]
  simp [List.append_assoc]

theorem plainChunkParse_short {p : Bytes} (hp : p <+: ch.encode) (hlt : p.length < ch.encode.length) :
    plainChunkParse p = {rc := .bufTooSmall} := by
  have henc : ch.encode = ch.size++(13::10::(ch.data++crlf)) := by simp [Chunk.encode,crlf,bytesOf]
  rw [length_encode] at hlt
  rw [henc] at hp
  rcases prefix_append_cases hp with ⟨hpre,-⟩ | ⟨r,rfl,hr⟩
  · have hall : p.takeWhile isHexDigit = p :=
      List.takeWhile_eq_self_iff.mpr fun b hb => hhex b (hpre.subset hb)
    rw [plainChunkParse,hall]
    simp
  · rw [List.length_append] at hlt
    rcases r with _ | ⟨b,r⟩
    · rw [List.append_nil,plainChunkParse,List.takeWhile_eq_self_iff.mpr hhex]
      simp
    · obtain ⟨rfl,hr'⟩ := List.cons_prefix_cons.mp hr
      rw [plainChunkParse,takeWhile_size hhex,List.drop_left,hval]
      rcases r with _ | ⟨b,r⟩
      · rfl
      · obtain ⟨rfl,-⟩ := List.cons_prefix_cons.mp hr'
        simp only [List.length_cons] at hlt ⊢
        rw [if_neg (by omega),if_neg (by simp [hne]; rfl),if_pos (by omega)]

theorem valid_of_plain {cfg : Config} (hcfg : cfg.t3HttpChunkParse = plainChunkParse)
    (hdata : ch.data ≠ []) : ch.Valid cfg := by
  refine ⟨?_,hdata,?_,?_⟩
  · obtain ⟨b,bs,hb⟩ := List.exists_cons_of_ne_nil hne
    rw [hb,List.head?_cons,Option.any_some]
    exact hhex b (by simp [hb])
  · rw [hcfg]
    exact plainChunkParse_whole hhex hval hne
  · intro p hp hlt _
    rw [hcfg,plainChunkParse_short hhex hval hne hp hlt]
    exact ⟨rfl,rfl⟩

end PlainParser

abbrev World := Feed Conn UInt8

def step (cfg : Config) : World → ℕ → World := next (reader cfg)

def connect (post : Bytes) (chs : List Chunk) : World := {state := {}, coming := post++encodeAll chs}

def delivered (x : World) : Bytes := if x.state.crypto.isSome then x.state.inBuf else []

/-- What the data of the chunks decrypts to behind the header. -/
def plaintext (h : Header) (chs : List Chunk) : Bytes :=
  (Cipher.crypt ⟨h.keystream,0⟩ (dataOf chs)).drop 64

theorem plaintext_append (h : Header) {chs₁ : List Chunk} (hlen : 64 ≤ (dataOf chs₁).length)
    (chs₂ : List Chunk) :
    plaintext h (chs₁++chs₂) =
      plaintext h chs₁++Cipher.crypt ⟨h.keystream,(dataOf chs₁).length⟩ (dataOf chs₂) := by
  unfold plaintext
  rw [dataOf_append,crypt_append,List.drop_append_of_le_length (by simpa using hlen),Nat.zero_add]

theorem plaintext_mono (h : Header) {chs₁ chs : List Chunk} (hp : chs₁ <+: chs) :
    plaintext h chs₁ <+: plaintext h chs := by
  obtain ⟨chs₂,rfl⟩ := hp
  unfold plaintext
  rw [dataOf_append,crypt_append]
  exact (List.prefix_append _ _).drop 64

theorem plaintext_eq_nil (h : Header) {chs : List Chunk} (hlen : (encodeAll chs).length ≤ 64) :
    plaintext h chs = [] := by
  have := length_dataOf_le chs
  unfold plaintext
  rw [List.drop_eq_nil_iff,length_crypt]
  omega

/-- Only plaintext of the chunks is delivered, and all of it that was received
with the last byte of its chunk. -/
structure Delivers (h : Header) (post : Bytes) (chs : List Chunk) (x : World) : Prop where
  noError : x.state.error = false
  notDiverted : x.state.diverted = false
  sound : delivered x <+: plaintext h chs
  whole : ∀ chs₁ chs₂, chs = chs₁++chs₂ → post.length+(encodeAll chs₁).length ≤ x.received.length →
    plaintext h chs₁ <+: delivered x

/-- The chunks that are complete once `n` more bytes have arrived, and the bytes
behind them. -/
def arrived (post : Bytes) (chs : List Chunk) (x : World) (n : ℕ) : List Chunk × Bytes :=
  dechunks chs ((x.received++x.coming.take n).drop post.length)

/-- The reader meets the next `n` bytes in a state it can handle. -/
def ReadOk (post : Bytes) (chs : List Chunk) (x : World) (n : ℕ) : Prop :=
  (∀ ch ∈ (arrived post chs x n).1, ch.encode.length ≤ 16384) ∧
  (x.state.crypto.isNone → x.state.skipBytes ≤ (x.state.inBuf++x.coming.take n).length →
    (arrived post chs x n).1 = [] ∧ (arrived post chs x n).2.length < 64 ∨
    (arrived post chs x n).2 = [] ∧ 64 ≤ (dataOf (arrived post chs x n).1).length)

/-- The headers of the request are not complete. -/
structure Handshake (post : Bytes) (c : Conn) (received : Bytes) : Prop where
  before : Before c
  handshake : c.wsState = .handshake
  skipBytes : c.skipBytes = 0
  inBuf : c.inBuf = received
  short : received.length < post.length

/-- No chunk has been taken: the buffer is all that follows the request. -/
structure Waiting (post : Bytes) (c : Conn) (received : Bytes) : Prop where
  before : Before c
  httpStream : c.wsState = .httpStream
  skipBytes : 0 ≤ c.skipBytes ∧ c.skipBytes ≤ 64
  buffer : received = post++c.inBuf
  short : c.inBuf.length < 64

/-- The cipher is set and the chunks `chs₁` are delivered: `in_u` holds what
follows them. -/
structure Following (h : Header) (post : Bytes) (c : Conn) (received t : Bytes)
    (chs₁ chs₂ : List Chunk) : Prop where
  httpStream : c.wsState = .httpStream
  noError : c.error = false
  notDiverted : c.diverted = false
  crypto : c.crypto = some ⟨h.keystream,(dataOf chs₁).length⟩
  header : 64 ≤ (dataOf chs₁).length
  inBuf : c.inBuf = plaintext h chs₁
  received : received = post++encodeAll chs₁++c.inU
  coming : c.inU++t = encodeAll chs₂
  short : Short chs₂ c.inU

def Phase (h : Header) (post : Bytes) (chs : List Chunk) (c : Conn) (received t : Bytes) : Prop :=
  Handshake post c received ∨ Waiting post c received ∨
    ∃ chs₁ chs₂, chs = chs₁++chs₂ ∧ Following h post c received t chs₁ chs₂

structure Inv (h : Header) (post : Bytes) (chs : List Chunk) (x : World) : Prop where
  stream : x.received++x.coming = post++encodeAll chs
  phase : Phase h post chs x.state x.received x.coming

section Phases
variable {cfg : Config} {h : Header} {c : Conn} {chs : List Chunk} {post p t received : Bytes}

/-- One call of the parser in front of the header. -/
theorem phase_of_pass (hb : Before c) (hs : c.wsState = .httpStream) (hskip : c.skipBytes = 0)
    (hbuf : c.inBuf = p) (hrec : received = post++p) (hp : p++t = encodeAll chs)
    (hv : ∀ ch ∈ chs, ch.Valid cfg) (hacc : Accepts cfg h ((dataOf chs).take 64))
    (hfits : ∀ ch ∈ (dechunks chs p).1, ch.encode.length ≤ 16384)
    (hok : (dechunks chs p).1 = [] ∧ (dechunks chs p).2.length < 64 ∨
      (dechunks chs p).2 = [] ∧ 64 ≤ (dataOf (dechunks chs p).1).length) :
    Phase h post chs (c.parse cfg) received t := by
  have hloop : dechunkLoop cfg (c.inBuf.length+1) c.inBuf [] =
      some ((dechunks chs p).2,dataOf (dechunks chs p).1) := by
    rw [hbuf]
    exact dechunkLoop_eq hv hp hfits (Nat.lt_succ_self _) []
  obtain ⟨chs',hchs,hsplit,hcoming,hshort⟩ := dechunks_eq hp
  rcases hok with ⟨hnone,hlen⟩ | ⟨hleft,hlen⟩
  · refine .inr (.inl ?_)
    have hleft : (dechunks chs p).2 = p := by
      rw [hnone] at hsplit
      exact hsplit.symm
    rw [hnone,hleft] at hloop
    rw [hleft] at hlen hcoming hshort
    by_cases hnil : p = []
    · rw [Conn.parse,if_pos (hbuf.trans hnil)]
      exact ⟨hb,hs,by simp [hskip],by rw [hrec,hbuf],by rw [hbuf]; exact hlen⟩
    · -- the buffer is the start of the first chunk
      cases chs' with
      | nil => exact (hnil hshort).elim
      | cons ch chs' =>
          have hpre : p <+: ch.encode :=
            List.prefix_of_prefix_length_le ⟨t,hcoming⟩ (List.prefix_append _ _) (Nat.le_of_lt hshort)
          obtain ⟨hhttp,htls⟩ := looks_chunk (hv ch (by rw [hchs]; simp)) hpre hnil
          obtain ⟨n,hn,hparse⟩ := parse_waits hb hs (by simpa [dataOf] using hnil) hloop
            (hbuf.trans_ne hnil) (by simpa [dataOf] using hlen) (by simpa [dataOf] using hhttp)
            (by simpa [dataOf] using htls)
          rw [hparse]
          refine ⟨⟨hb.crypto,hb.inU,hb.noError,hb.notDiverted⟩,hs,by dsimp only; omega,?_,?_⟩
          · simpa [dataOf] using hrec
          · simpa [dataOf] using hlen
  · refine .inr (.inr ⟨(dechunks chs p).1,chs',hchs,?_⟩)
    have hout : dataOf (dechunks chs p).1++[] ≠ [] := by
      rw [List.append_nil,← List.length_pos_iff]
      omega
    have hne : c.inBuf ≠ [] := by
      rw [hbuf]
      rintro rfl
      have := length_dataOf_le (dechunks chs []).1
      rw [hleft,List.append_nil] at hsplit
      rw [← hsplit,List.length_nil] at this
      omega
    have hstart : (dataOf chs).take 64 = (dataOf (dechunks chs p).1).take 64 := by
      conv_lhs => rw [hchs]
      rw [dataOf_append,List.take_append_of_le_length hlen]
    rw [hstart] at hacc
    rw [hleft] at hloop hcoming hshort
    rw [hleft,List.append_nil] at hsplit
    have hparse := parse_header (h := h) hb hs hout hloop hne (by simpa using hlen)
      (by simpa using hacc)
    rw [List.append_nil] at hparse
    rw [hparse]
    refine ⟨hs,hb.noError,hb.notDiverted,rfl,hlen,?_,?_,?_,?_⟩
    · exact (crypt_drop h.keystream 0 64 hlen).symm
    · rw [hrec,hb.inU,List.append_nil,← hsplit]
    · rw [hb.inU]
      exact hcoming
    · rw [hb.inU]
      exact hshort

end Phases

section Steps
variable {cfg : Config} {h : Header} {post : Bytes} {chs : List Chunk} {x : World} {n : ℕ}

theorem phase_handshake (hr : ValidPost post) (hv : ∀ ch ∈ chs, ch.Valid cfg)
    (hacc : Accepts cfg h ((dataOf chs).take 64)) (hx : x.received++x.coming = post++encodeAll chs)
    (hh : Handshake post x.state x.received) (hok : ReadOk post chs x n) :
    Phase h post chs (step cfg x n).state (step cfg x n).received (step cfg x n).coming := by
  have hsplit : x.received++x.coming.take n++x.coming.drop n = post++encodeAll chs := by
    rw [List.append_assoc,List.take_append_drop,hx]
  have hskip : x.state.skipBytes ≤ (x.state.inBuf++x.coming.take n).length := by
    rw [hh.skipBytes]
    exact Int.natCast_nonneg _
  have hreader := reader_parses cfg hh.before hh.skipBytes.ge hskip
  obtain ⟨hfits,hpass⟩ := hok
  have hpass := hpass (by simp [hh.before.crypto]) hskip
  unfold step next
  dsimp only
  rw [hreader,hh.inBuf]
  unfold arrived at hfits hpass
  rcases prefix_append_cases ⟨_,hsplit⟩ with ⟨hpre,hlt⟩ | ⟨p,hp,-⟩
  · have hprobe := hr.probe_waits
      (c := {x.state with inBuf := x.received++x.coming.take n, skipBytes := 0}) hh.handshake hpre hlt
    rw [parse_of_waiting hprobe]
    exact .inl ⟨⟨hh.before.crypto,hh.before.inU,hh.before.noError,hh.before.notDiverted⟩,hh.handshake,
      rfl,rfl,hlt⟩
  · rw [hp,List.append_assoc,List.append_cancel_left_eq] at hsplit
    rw [hp,List.drop_left] at hfits hpass
    have hprobe := hr.probe_completes (c := {x.state with inBuf := post++p, skipBytes := 0})
      hh.handshake rfl
    rw [hp,parse_behind_request (by decide) (hr.append_ne_nil p) hprobe]
    exact phase_of_pass ⟨hh.before.crypto,hh.before.inU,hh.before.noError,hh.before.notDiverted⟩ rfl rfl
      rfl rfl hsplit hv hacc hfits hpass

theorem phase_waiting (hv : ∀ ch ∈ chs, ch.Valid cfg)
    (hacc : Accepts cfg h ((dataOf chs).take 64)) (hx : x.received++x.coming = post++encodeAll chs)
    (hw : Waiting post x.state x.received) (hok : ReadOk post chs x n) :
    Phase h post chs (step cfg x n).state (step cfg x n).received (step cfg x n).coming := by
  obtain ⟨hb,hs,⟨hskip0,hskip64⟩,hrec,hlen⟩ := hw
  obtain ⟨hfits,hpass⟩ := hok
  have hrec' : x.received++x.coming.take n = post++(x.state.inBuf++x.coming.take n) := by
    rw [hrec,List.append_assoc]
  have hp : x.state.inBuf++x.coming.take n++x.coming.drop n = encodeAll chs := by
    rw [hrec,List.append_assoc,List.append_cancel_left_eq] at hx
    rw [List.append_assoc,List.take_append_drop,hx]
  unfold arrived at hfits hpass
  rw [hrec',List.drop_left] at hfits hpass
  unfold step next
  dsimp only
  rcases lt_or_ge ((x.state.inBuf++x.coming.take n).length : ℤ) x.state.skipBytes with hlt | hge
  · rw [reader_waits cfg hb hskip0 hlt]
    refine .inr (.inl ⟨⟨hb.crypto,hb.inU,hb.noError,hb.notDiverted⟩,hs,⟨hskip0,hskip64⟩,hrec',?_⟩)
    dsimp only
    omega
  · rw [reader_parses cfg hb hskip0 hge]
    exact phase_of_pass ⟨hb.crypto,hb.inU,hb.noError,hb.notDiverted⟩ hs rfl rfl hrec' hp hv hacc hfits
      (hpass (by simp [hb.crypto]) hge)

theorem dechunks_append (chs₁ chs₂ : List Chunk) (p : Bytes) :
    dechunks (chs₁++chs₂) (encodeAll chs₁++p) = (chs₁++(dechunks chs₂ p).1,(dechunks chs₂ p).2) := by
  induction chs₁ with
  | nil => rfl
  | cons ch chs₁ ih =>
      rw [List.cons_append,encodeAll_cons,List.append_assoc,dechunks_whole,ih]
      rfl

theorem phase_following {chs₁ chs₂ : List Chunk} (hv : ∀ ch ∈ chs, ch.Valid cfg)
    (hchs : chs = chs₁++chs₂) (hf : Following h post x.state x.received x.coming chs₁ chs₂)
    (hok : ReadOk post chs x n) :
    Phase h post chs (step cfg x n).state (step cfg x n).received (step cfg x n).coming := by
  have hp : x.state.inU++x.coming.take n++x.coming.drop n = encodeAll chs₂ := by
    rw [List.append_assoc,List.take_append_drop,hf.coming]
  have hfits := hok.1
  unfold arrived at hfits
  rw [hf.received,hchs,List.append_assoc,List.append_assoc,List.drop_left,dechunks_append] at hfits
  have hreader : reader cfg (x.coming.take n) x.state =
      decryptInput cfg {x.state with inU := x.state.inU++x.coming.take n} := by
    rw [reader,if_neg (by simp [hf.noError,hf.notDiverted]),if_pos (by simp [hf.crypto])]
  have hloop := decryptLoop_eq (c := {x.state with inU := x.state.inU++x.coming.take n})
    (by exact hf.httpStream) hf.crypto (fun ch hch => hv ch (by simp [hchs,hch])) rfl hp
    (fun ch hch => hfits ch (by simp [hch])) (Nat.lt_succ_self _)
  obtain ⟨chs',hchs',hsplit,hcoming,hshort⟩ := dechunks_eq hp
  unfold step next
  dsimp only
  rw [hreader,decryptInput,hloop]
  refine .inr (.inr ⟨chs₁++(dechunks chs₂ (x.state.inU++x.coming.take n)).1,chs',?_,?_⟩)
  · rw [List.append_assoc,← hchs',hchs]
  · refine ⟨hf.httpStream,hf.noError,hf.notDiverted,?_,?_,?_,?_,hcoming,hshort⟩
    · simp
    · rw [dataOf_append,List.length_append]
      exact hf.header.trans (Nat.le_add_right _ _)
    · dsimp only
      rw [hf.inBuf,plaintext_append h hf.header]
    · dsimp only
      rw [hf.received,encodeAll_append]
      simp only [List.append_assoc] at hsplit ⊢
      rw [← hsplit]

theorem inv_step (hr : ValidPost post) (hv : ∀ ch ∈ chs, ch.Valid cfg)
    (hacc : Accepts cfg h ((dataOf chs).take 64)) (hx : Inv h post chs x)
    (hok : ReadOk post chs x n) : Inv h post chs (step cfg x n) := by
  obtain ⟨hstream,hphase⟩ := hx
  constructor
  · rw [step,stream_next,hstream]
  · rcases hphase with hh | hw | ⟨chs₁,chs₂,hchs,hf⟩
    · exact phase_handshake hr hv hacc hstream hh hok
    · exact phase_waiting hv hacc hstream hw hok
    · exact phase_following hv hchs hf hok

theorem inv_connect (h : Header) (hr : ValidPost post) (chs : List Chunk) :
    Inv h post chs (connect post chs) := by
  refine ⟨rfl,.inl ⟨⟨rfl,rfl,rfl,rfl⟩,rfl,rfl,rfl,?_⟩⟩
  exact Nat.lt_of_lt_of_le (Nat.succ_pos 15) hr.line

/-- Chunks that were received in full are among the delivered ones. -/
theorem Following.covers {c : Conn} {received t : Bytes} {chs₁ chs₂ as bs : List Chunk}
    (hf : Following h post c received t chs₁ chs₂) (heq : chs₁++chs₂ = as++bs)
    (hlen : post.length+(encodeAll as).length ≤ received.length) : as <+: chs₁ := by
  rcases prefix_append_cases ⟨bs,heq.symm⟩ with ⟨hpre,-⟩ | ⟨r,rfl,hr⟩
  · exact hpre
  · cases r with
    | nil => simp
    | cons ch r =>
        -- the next chunk would be complete in `in_u`
        obtain ⟨u,hu⟩ := hr
        have hshort := hf.short
        rw [← hu] at hshort
        have hlt : c.inU.length < ch.encode.length := hshort
        rw [hf.received] at hlen
        simp only [encodeAll_append,encodeAll_cons,List.length_append] at hlen
        omega

theorem Inv.delivers (hx : Inv h post chs x) : Delivers h post chs x := by
  rcases hx.phase with hh | hw | ⟨chs₁,chs₂,hchs,hf⟩
  · have hnone : delivered x = [] := by rw [delivered,if_neg (by simp [hh.before.crypto])]
    refine ⟨hh.before.noError,hh.before.notDiverted,by simp [hnone],fun as bs _ hlen => ?_⟩
    have := hh.short
    rw [hnone,plaintext_eq_nil h (by omega)]
  · have hnone : delivered x = [] := by rw [delivered,if_neg (by simp [hw.before.crypto])]
    refine ⟨hw.before.noError,hw.before.notDiverted,by simp [hnone],fun as bs _ hlen => ?_⟩
    have := hw.short
    rw [hw.buffer,List.length_append] at hlen
    rw [hnone,plaintext_eq_nil h (by omega)]
  · have hall : delivered x = plaintext h chs₁ := by
      rw [delivered,if_pos (by simp [hf.crypto]),hf.inBuf]
    refine ⟨hf.noError,hf.notDiverted,?_,fun as bs has hlen => ?_⟩
    · rw [hall,hchs]
      exact plaintext_mono h (List.prefix_append _ _)
    · rw [hall]
      exact plaintext_mono h (hf.covers (hchs.symm.trans has) hlen)

end Steps

def samplePost : Bytes := bytesOf "POST / HTTP/1.1\r\n\r\n"

def sampleConfig : Config :=
  {obfs2ParseHeader := fun bs => if bs = sampleStart then some sampleHeader else none
   t3HttpChunkParse := plainChunkParse}

/-- The header in two chunks, then two more bytes. -/
def sampleChunks : List Chunk :=
  [⟨bytesOf "20",sampleStart.take 32⟩,⟨bytesOf "23",sampleStart.drop 32++[5,6,7]⟩,
    ⟨bytesOf "2",[10,11]⟩]

theorem samplePost_valid : ValidPost samplePost :=
  ⟨by decide +kernel,by decide +kernel,by decide +kernel,by decide +kernel⟩

theorem sampleChunks_valid : ∀ ch ∈ sampleChunks, ch.Valid sampleConfig := by
  have hplain : ∀ ch ∈ sampleChunks, (∀ b ∈ ch.size, isHexDigit b = true) ∧
      hexValue ch.size = ch.data.length ∧ ch.size ≠ [] ∧ ch.data ≠ [] := by
    decide +kernel
  intro ch hch
  obtain ⟨hhex,hval,hne,hdata⟩ := hplain ch hch
  exact valid_of_plain hhex hval hne rfl hdata

theorem sampleChunks_accepted :
    Accepts sampleConfig sampleHeader ((dataOf sampleChunks).take 64) := by
  have hstart : (dataOf sampleChunks).take 64 = sampleStart := by decide +kernel
  rw [hstart]
  exact accepts_sample rfl rfl

end Teleproxy.HttpStreamInput
