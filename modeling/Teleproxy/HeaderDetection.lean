import Teleproxy.HttpHandshake

/-!
# Finding the obfs2 header

What the parser does with the bytes it takes for the start of the obfs2
stream, whichever transport they came through. Fewer than 64 bytes make it
wait; with 64 or more the cipher is set, and what follows the header is
decrypted in the same call.
-/
namespace Teleproxy.HeaderDetection
open ClientInput

variable {h : Header} {cfg : Config} {c : Conn}

/-- A header that is accepted and looks like no other protocol. -/
structure Accepts (cfg : Config) (h : Header) (bs : Bytes) : Prop where
  length : bs.length = 64
  parse : cfg.obfs2ParseHeader bs = some h
  notHttp : looksHttp cfg bs = false
  notTls : looksTls cfg bs = false
  tag : h.padTag = true ∨ cfg.allowOnlyTls = false

/-- A header for the runs on fixed input: 64 bytes and the keystream they stand
for. -/
def sampleStart : Bytes := (List.range 64).map fun i => UInt8.ofNat (i+1)

def sampleHeader : Header := {keystream := fun i => UInt8.ofNat i}

theorem accepts_sample {cfg : Config}
    (hcfg : cfg.obfs2ParseHeader = fun bs => if bs = sampleStart then some sampleHeader else none)
    (hopen : cfg.allowOnlyTls = false) : Accepts cfg sampleHeader sampleStart := by
  refine ⟨by decide,by simp [hcfg],?_,?_,.inl rfl⟩
  · rw [looksHttp,Bool.and_eq_false_iff]
    exact .inr (by decide)
  · rw [looksTls,hopen,Bool.and_false]
    rfl

theorem looksHttp_take (cfg : Config) {bs : Bytes} {n : ℕ} (hn : 4 ≤ n) :
    looksHttp cfg (bs.take n) = looksHttp cfg bs := by
  unfold looksHttp
  rw [List.take_take,Nat.min_eq_left hn]

theorem looksTls_take (cfg : Config) {bs : Bytes} {n : ℕ} (hn : 4 ≤ n) :
    looksTls cfg (bs.take n) = looksTls cfg bs := by
  unfold looksTls
  rw [List.take_take,Nat.min_eq_left (by omega)]
  have hget : (bs.take n).getD 3 0 = bs.getD 3 0 := by
    simp only [List.getD_eq_getElem?_getD]
    rw [List.getElem?_take_of_lt (by omega)]
  rw [hget]

/-- A first byte other than those of `HEAD`, `POST`, `GET`, `OPTIONS` and a
ClientHello is that of no other protocol. -/
theorem looks_first (cfg : Config) {b : UInt8} (bs : Bytes)
    (hb : b ∉ ([0x48,0x50,0x47,0x4F,0x16] : Bytes)) :
    looksHttp cfg (b::bs) = false ∧ looksTls cfg (b::bs) = false := by
  constructor
  · have hnot : ∀ x xs, x ∈ ([0x48,0x50,0x47,0x4F,0x16] : Bytes) → (b::bs).take 4 ≠ x::xs := by
      intro x xs hx heq
      rw [(List.cons.inj heq).1] at hb
      exact hb hx
    have hcontains : [bytesOf "HEAD",bytesOf "POST",bytesOf "GET ",bytesOf "OPTI"].contains
        ((b::bs).take 4) = false := by
      rw [List.contains_eq_mem,decide_eq_false_iff_not]
      intro hmem
      simp only [List.mem_cons,List.not_mem_nil,or_false] at hmem
      rcases hmem with hm | hm | hm | hm <;> exact hnot _ _ (by decide) hm
    rw [looksHttp,hcontains,Bool.and_false]
  · have htls : ((b::bs).take 3 == [0x16,0x03,0x01]) = false := by
      rw [beq_eq_false_iff_ne]
      intro heq
      rw [(List.cons.inj heq).1] at hb
      exact hb (by decide)
    rw [looksTls,htls,Bool.and_false,Bool.false_and,Bool.false_and]

/-- The cipher is not set and nothing has gone wrong. -/
structure Before (c : Conn) : Prop where
  crypto : c.crypto = none
  inU : c.inU = []
  noError : c.error = false
  notDiverted : c.diverted = false

/-- Frames and chunks are unwrapped in front of the header. -/
def Wrapped (c : Conn) : Prop := c.wsState = .active ∨ c.wsState = .httpStream

theorem Wrapped.allowed (hw : Wrapped c) (b : Bool) :
    (b && c.wsState != .active && c.wsState != .httpStream) = false := by
  rcases hw with hw | hw <;> simp [hw]

theorem detect_waits (cfg : Config) (hw : Wrapped c) (hlen : c.inBuf.length < 64)
    (hhttp : looksHttp cfg c.inBuf = false) (htls : looksTls cfg c.inBuf = false) :
    ∃ n : ℕ, n ≤ 64 ∧ detect cfg c = (c,.need n) := by
  unfold detect
  dsimp only
  rw [hhttp,htls,hw.allowed]
  simp only [Bool.or_self,Bool.false_eq_true,if_false,hlen,if_true]
  split_ifs
  · exact ⟨9-c.inBuf.length,by omega,rfl⟩
  · exact ⟨64-c.inBuf.length,by omega,rfl⟩

theorem decryptInput_plain (k : Cipher) (hs : c.wsState = .none) (hc : c.crypto = some k) :
    decryptInput cfg c =
      {c with inU := [], inBuf := c.inBuf++k.crypt c.inU,
              crypto := some (k.advance c.inU.length)} := by
  unfold decryptInput
  by_cases hu : c.inU = []
  · rw [decryptLoop_nil _ hu,hu]
    obtain ⟨wsState,inBuf,inU,crypto,ws,padding,skipBytes,error,diverted⟩ := c
    cases hc
    cases hu
    simp [Cipher.crypt,Cipher.advance]
  · rw [decryptLoop,if_neg hu,hc,hs]

/-- The cipher is set and what stands behind the header is decrypted. -/
theorem detect_header (hb : Before c) (hw : Wrapped c) (hlen : 64 ≤ c.inBuf.length)
    (ha : Accepts cfg h (c.inBuf.take 64)) :
    detect cfg c =
      ({c with padding := if c.wsState = .active then h.padding else c.padding,
               crypto := some ⟨h.keystream,c.inBuf.length⟩,
               inBuf := Cipher.crypt ⟨h.keystream,64⟩ (c.inBuf.drop 64)},.done) := by
  have hhttp := ha.notHttp
  have htls := ha.notTls
  rw [looksHttp_take cfg (by decide)] at hhttp
  rw [looksTls_take cfg (by decide)] at htls
  have htag : ¬ (h.padTag = false ∧ cfg.allowOnlyTls = true) := by
    rcases ha.tag with ht | ht <;> simp [ht]
  unfold detect
  dsimp only
  rw [hhttp,htls,hw.allowed,ha.parse]
  simp only [Bool.or_self,Bool.false_eq_true,if_false,htag,show ¬ c.inBuf.length < 9 by omega,
    show ¬ c.inBuf.length < 64 by omega]
  unfold handOver
  dsimp only
  rw [decryptInput_plain ⟨h.keystream,64⟩ rfl rfl]
  simp only [hb.inU,List.nil_append,Cipher.advance,List.length_drop]
  congr 4
  omega

theorem parse_of_waiting (hprobe : probe c = (c,some .needMore)) : c.parse cfg = c := by
  unfold Conn.parse
  split_ifs
  · rfl
  · rw [parseExecute,hprobe]

/-- The request is complete: the parser goes on behind it in the same call. -/
theorem parse_behind_request {t : Bytes} {st : WorkerProcess.WsState} (hst : st ≠ .handshake)
    (hne : c.inBuf ≠ [])
    (hprobe : probe c = ({c with inBuf := t, wsState := st},if t = [] then some .needMore else none)) :
    c.parse cfg = Conn.parse cfg {c with inBuf := t, wsState := st} := by
  rw [Conn.parse,if_neg hne,parseExecute,hprobe]
  by_cases hnil : t = []
  · subst hnil
    rfl
  · have hagain : probe {c with inBuf := t, wsState := st} = ({c with inBuf := t, wsState := st},none) := by
      rw [probe,if_pos hst]
    rw [if_neg hnil,Conn.parse,if_neg (by exact hnil),parseExecute,hagain]

theorem reader_waits (cfg : Config) {seg : Bytes} (hb : Before c) (hskip : 0 ≤ c.skipBytes)
    (hlt : ((c.inBuf++seg).length : ℤ) < c.skipBytes) :
    reader cfg seg c = {c with inBuf := c.inBuf++seg} := by
  unfold reader
  rw [if_neg (by simp [hb.noError,hb.notDiverted]),if_neg (by simp [hb.crypto])]
  dsimp only
  rw [if_neg (by omega),if_pos hlt]

theorem reader_parses (cfg : Config) {seg : Bytes} (hb : Before c) (hskip : 0 ≤ c.skipBytes)
    (hle : c.skipBytes ≤ ((c.inBuf++seg).length : ℤ)) :
    reader cfg seg c = Conn.parse cfg {c with inBuf := c.inBuf++seg, skipBytes := 0} := by
  unfold reader
  rw [if_neg (by simp [hb.noError,hb.notDiverted]),if_neg (by simp [hb.crypto])]
  dsimp only
  rw [if_neg (by omega),if_neg (by omega)]

end Teleproxy.HeaderDetection
