import Teleproxy.PacketParser

/-!
# The obfs2 header

A connection starts with 64 random bytes, of which the last eight hide the tag of the
transport and the target DC. The keys of both directions are taken from the bytes in
front, forwards for one and backwards for the other. `tcp_direct_dc_send_obfs2_init`
makes such a header for a DC, without a secret; `obfs2_parse_header` reads the one of a
client. It decrypts the buffer in place under the key of each secret in turn.

AES-256-CTR is the keystream of a key and an initial vector, and SHA256 a function. Both
are parameters.
-/
namespace Teleproxy.Obfs2Header
open ClientInput (Bytes Cipher crypt_crypt crypt_drop length_crypt)
open PacketParser (Tag lookup4 store4 lookup4_store4)

structure Crypto where
  aes256Ctr : Bytes → Bytes → ℕ → UInt8
  sha256 : Bytes → Bytes

structure AesKeyData where
  readKey : Bytes
  readIv : Bytes
  writeKey : Bytes
  writeIv : Bytes
  deriving DecidableEq, Repr

def tagPad : BitVec 32 := 0xdddddddd#32
def tagMedium : BitVec 32 := 0xeeeeeeee#32
def tagCompact : BitVec 32 := 0xefefefef#32

def tagWord : Tag → BitVec 32
  | .pad => tagPad
  | .medium => tagMedium
  | .compact => tagCompact

def slice (bs : Bytes) (start n : ℕ) : Bytes := (bs.drop start).take n

/-- `n` bytes from `last` on backwards. -/
def reversed (bs : Bytes) (last n : ℕ) : Bytes := (List.range n).map fun i => bs.getD (last-i) 0

/-- `*(short *)bs`. -/
def lookup2 (bs : Bytes) : BitVec 16 := .ofNat 16 ((bs.getD 0 0).toNat+256*(bs.getD 1 0).toNat)

structure ParseResult where
  tag : BitVec 32
  dc : ℤ
  secretId : ℕ
  keys : AesKeyData
  deriving DecidableEq, Repr

variable (crypto : Crypto)

/-- The keys under a secret; without secrets the bytes of the header are the keys. -/
def deriveKeys (header : Bytes) : Option Bytes → AesKeyData
  | some secret =>
      {readKey := crypto.sha256 (slice header 8 32++secret)
       readIv := slice header 40 16
       writeKey := crypto.sha256 (reversed header 55 32++secret)
       writeIv := reversed header 23 16}
  | none =>
      {readKey := slice header 8 32
       readIv := slice header 40 16
       writeKey := reversed header 55 32
       writeIv := reversed header 23 16}

/-- The header after `evp_crypt` in place. -/
def decrypted (header : Bytes) (secret : Option Bytes) : Bytes :=
  let kd := deriveKeys crypto header secret
  Cipher.crypt ⟨crypto.aes256Ctr kd.readKey kd.readIv,0⟩ header

def tagAccepted (randPadOnly : Bool) (tag : BitVec 32) : Bool :=
  tag == tagPad || ((tag == tagMedium || tag == tagCompact) && !randPadOnly)

/-- The loop over the secrets: the header as it is left, and the result. -/
def parseLoop (randPadOnly : Bool) (saved : Bytes) :
    List (Option Bytes) → ℕ → Bytes → Bytes × Option ParseResult
  | [], _, header => (header,none)
  | secret::secrets, sid, header =>
      let kd := deriveKeys crypto header secret
      let header := Cipher.crypt ⟨crypto.aes256Ctr kd.readKey kd.readIv,0⟩ header
      let tag := lookup4 (header.drop 56)
      if tagAccepted randPadOnly tag then
        (header,some ⟨tag,(lookup2 (header.drop 60)).toInt,sid,kd⟩)
      else parseLoop randPadOnly saved secrets (sid+1) saved

/-- What is tried: each secret, or no secret when there are none. -/
def candidates (secrets : List Bytes) : List (Option Bytes) :=
  if secrets = [] then [none] else secrets.map some

def obfs2ParseHeader (randPadOnly : Bool) (secrets : List Bytes) (header : Bytes) :
    Bytes × Option ParseResult :=
  parseLoop crypto randPadOnly header (candidates secrets) 0 header

/-- The test of the loop that draws the random bytes. -/
def drawnAgain (init : Bytes) : Bool :=
  init.getD 0 0 == 0xef || lookup4 init == 0x44414548#32 || lookup4 init == 0x54534f50#32 ||
    lookup4 init == 0x20544547#32 || lookup4 init == 0x4954504f#32 || lookup4 init == 0xeeeeeeee#32 ||
    lookup4 init == 0xdddddddd#32 || lookup4 init == 0xefefefef#32 || lookup4 (init.drop 4) == 0#32

/-- The 64 bytes with which that loop ends. -/
structure RandomInit where
  bytes : Bytes
  length_eq : bytes.length = 64
  kept : drawnAgain bytes = false

/-- `(short)w` in two bytes. -/
def store2 (w : BitVec 32) : Bytes := [.ofNat w.toNat,.ofNat (w.toNat >>> 8)]

structure Sent where
  init : Bytes
  keys : AesKeyData
  deriving DecidableEq, Repr

/-- The payload with the tag and the DC in it, before anything is encrypted. -/
def plainInit (random : Bytes) (extraInt3 extraInt4 : BitVec 32) : Bytes :=
  let clientTag := if extraInt3 = 0#32 then 0xeeeeeeee#32 else extraInt3
  random.take 56++store4 clientTag++store2 extraInt4++random.drop 62

/-- `tcp_direct_dc_send_obfs2_init`: what goes to the DC and the keys of the connection. -/
def tcpDirectDcSendObfs2Init (random : RandomInit) (extraInt3 extraInt4 : BitVec 32) : Sent :=
  let init := plainInit random.bytes extraInt3 extraInt4
  let writeKey := slice init 8 32
  let writeIv := slice init 40 16
  let encrypted := Cipher.crypt ⟨crypto.aes256Ctr writeKey writeIv,0⟩ init
  {init := init.take 56++slice encrypted 56 8
   keys := {readKey := reversed init 55 32, readIv := reversed init 23 16,
            writeKey := writeKey, writeIv := writeIv}}

theorem slice_take {bs : Bytes} {start n m : ℕ} (h : start+n ≤ m) :
    slice (bs.take m) start n = slice bs start n := by
  rw [slice,slice,List.drop_take,List.take_take,Nat.min_eq_left (by omega)]

theorem reversed_take {bs : Bytes} {last n m : ℕ} (h : last < m) :
    reversed (bs.take m) last n = reversed bs last n := by
  rw [reversed,reversed]
  apply List.map_congr_left
  intro i _
  rw [List.getD_eq_getElem?_getD,List.getD_eq_getElem?_getD,List.getElem?_take_of_lt (by omega)]

/-- The keys depend on the first 56 bytes only. -/
theorem deriveKeys_take (header : Bytes) (secret : Option Bytes) :
    deriveKeys crypto (header.take 56) secret = deriveKeys crypto header secret := by
  cases secret <;>
    simp only [deriveKeys,slice_take (show 8+32 ≤ 56 by decide),
      slice_take (show 40+16 ≤ 56 by decide),reversed_take (show 55 < 56 by decide),
      reversed_take (show 23 < 56 by decide)]

theorem lookup2_store2 {w : BitVec 32} (hlow : -2^15 ≤ w.toInt) (hhigh : w.toInt < 2^15)
    (rest : Bytes) : (lookup2 (store2 w++rest)).toInt = w.toInt := by
  have hw := w.isLt
  have hvalue : (lookup2 (store2 w++rest)).toNat = w.toNat % 2^16 := by
    rw [lookup2,BitVec.toNat_ofNat]
    simp only [store2,List.cons_append,List.getD_cons_zero,List.getD_cons_succ,UInt8.toNat_ofNat',
      Nat.shiftRight_eq_div_pow]
    omega
  rw [BitVec.toInt_eq_toNat_cond,hvalue]
  rw [BitVec.toInt_eq_toNat_cond] at hlow hhigh ⊢
  split_ifs at hlow hhigh ⊢ <;> omega

section
variable (randPadOnly : Bool) (header : Bytes)

/-- Under this secret the tag is one that is accepted. -/
def Accepts (secret : Option Bytes) : Prop :=
  tagAccepted randPadOnly (lookup4 ((decrypted crypto header secret).drop 56)) = true

/-- What is returned for a secret and its number. -/
def found (secret : Option Bytes) (sid : ℕ) : Bytes × Option ParseResult :=
  (decrypted crypto header secret,
    some {tag := lookup4 ((decrypted crypto header secret).drop 56)
          dc := (lookup2 ((decrypted crypto header secret).drop 60)).toInt
          secretId := sid
          keys := deriveKeys crypto header secret})

theorem parseLoop_none {secrets : List (Option Bytes)} (sid : ℕ)
    (h : ∀ s ∈ secrets, ¬Accepts crypto randPadOnly header s) :
    parseLoop crypto randPadOnly header secrets sid header = (header,none) := by
  induction secrets generalizing sid with
  | nil => rfl
  | cons s secrets ih =>
      rw [List.forall_mem_cons] at h
      rw [parseLoop]
      exact (if_neg h.1).trans (ih (sid+1) h.2)

theorem parseLoop_found {before after : List (Option Bytes)} {secret : Option Bytes} (sid : ℕ)
    (hbefore : ∀ s ∈ before, ¬Accepts crypto randPadOnly header s)
    (hsecret : Accepts crypto randPadOnly header secret) :
    parseLoop crypto randPadOnly header (before++secret::after) sid header =
      found crypto header secret (sid+before.length) := by
  induction before generalizing sid with
  | nil =>
      rw [List.nil_append,parseLoop]
      exact if_pos hsecret
  | cons s before ih =>
      rw [List.forall_mem_cons] at hbefore
      rw [List.cons_append,parseLoop,List.length_cons,← Nat.add_assoc,Nat.add_right_comm]
      exact (if_neg hbefore.1).trans (ih (sid+1) hbefore.2)

end

theorem length_plainInit (random : RandomInit) (tag dc : BitVec 32) :
    (plainInit random.bytes tag dc).length = 64 := by
  have hlen := random.length_eq
  simp only [plainInit,List.length_append,List.length_take,List.length_drop,store4,store2,
    List.length_cons,List.length_nil]
  omega

section
variable (random : RandomInit) (tag dc : BitVec 32)

theorem sent_take : (tcpDirectDcSendObfs2Init crypto random tag dc).init.take 56 =
    (plainInit random.bytes tag dc).take 56 := by
  have hlen := length_plainInit random tag dc
  rw [tcpDirectDcSendObfs2Init]
  dsimp only
  rw [List.take_append_of_le_length (by rw [List.length_take]; omega),List.take_take,Nat.min_self]

/-- The keys that the parser takes from the header are those of the sender, the other way round. -/
theorem keys_sent : deriveKeys crypto (tcpDirectDcSendObfs2Init crypto random tag dc).init none =
    let keys := (tcpDirectDcSendObfs2Init crypto random tag dc).keys
    ⟨keys.writeKey,keys.writeIv,keys.readKey,keys.readIv⟩ := by
  rw [← deriveKeys_take,sent_take,deriveKeys_take]
  rfl

theorem length_sent : (tcpDirectDcSendObfs2Init crypto random tag dc).init.length = 64 := by
  have hlen := length_plainInit random tag dc
  simp [tcpDirectDcSendObfs2Init,slice,hlen]

/-- Behind the keys the header of the sender is decrypted to what it was. -/
theorem decrypted_sent :
    (decrypted crypto (tcpDirectDcSendObfs2Init crypto random tag dc).init none).drop 56 =
      (plainInit random.bytes tag dc).drop 56 := by
  have hlen := length_plainInit random tag dc
  have hcipher : ∀ bs : Bytes, bs.length = 64 → ∀ ks,
      (Cipher.crypt ⟨ks,0⟩ bs).drop 56 = Cipher.crypt ⟨ks,56⟩ (bs.drop 56) := by
    intro bs hbs ks
    rw [crypt_drop ks 0 56 (by omega),Nat.zero_add]
  have hdrop : ∀ ks, (slice (Cipher.crypt ⟨ks,0⟩ (plainInit random.bytes tag dc)) 56 8) =
      Cipher.crypt ⟨ks,56⟩ ((plainInit random.bytes tag dc).drop 56) := by
    intro ks
    rw [slice,hcipher _ hlen,List.take_of_length_le (by simp [hlen])]
  rw [decrypted,keys_sent]
  dsimp only
  rw [hcipher _ (length_sent crypto random tag dc),tcpDirectDcSendObfs2Init]
  dsimp only
  rw [List.drop_append_of_le_length (by simp [hlen]),
    List.drop_eq_nil_of_le (by simp),List.nil_append,hdrop,crypt_crypt]

end

theorem drop_plainInit (random : RandomInit) (tag : Tag) (dc : BitVec 32) :
    (plainInit random.bytes (tagWord tag) dc).drop 56 =
      store4 (tagWord tag)++(store2 dc++random.bytes.drop 62) := by
  have hword : tagWord tag ≠ 0#32 := by cases tag <;> decide
  have hlen := random.length_eq
  rw [plainInit,if_neg hword,List.append_assoc,List.append_assoc,
    List.drop_left' (by rw [List.length_take]; omega)]

theorem tag_sent (random : RandomInit) (tag : Tag) (dc : BitVec 32) :
    lookup4 ((decrypted crypto
      (tcpDirectDcSendObfs2Init crypto random (tagWord tag) dc).init none).drop 56) =
      tagWord tag := by
  rw [decrypted_sent,drop_plainInit,lookup4_store4]

theorem dc_sent (random : RandomInit) (tag : Tag) {dc : BitVec 32} (hlow : -2^15 ≤ dc.toInt)
    (hhigh : dc.toInt < 2^15) :
    (lookup2 ((decrypted crypto
      (tcpDirectDcSendObfs2Init crypto random (tagWord tag) dc).init none).drop 60)).toInt =
      dc.toInt := by
  rw [show 60 = 56+4 from rfl,← List.drop_drop,decrypted_sent,drop_plainInit,
    List.drop_left' (show (store4 (tagWord tag)).length = 4 from rfl),lookup2_store2 hlow hhigh]

theorem tagAccepted_tagWord {randPadOnly : Bool} {tag : Tag} (h : randPadOnly = false ∨ tag = .pad) :
    tagAccepted randPadOnly (tagWord tag) = true := by
  cases h with
  | inl h => cases tag <;> simp [h,tagAccepted,tagWord]
  | inr h => simp [h,tagAccepted,tagWord]

/-- The header for a DC is accepted by the parser without secrets, with the tag and the DC that
were put into it and the keys of the sender exchanged. On any header the parser takes the first
secret under which the tag is accepted; where there is none it fails and the header is as
before. -/
theorem header_parsed :
    (∀ (random : RandomInit) (tag : Tag) (dc : BitVec 32) (randPadOnly : Bool),
      -2^15 ≤ dc.toInt → dc.toInt < 2^15 → randPadOnly = false ∨ tag = .pad →
      let sent := tcpDirectDcSendObfs2Init crypto random (tagWord tag) dc
      sent.init.length = 64 ∧
        (obfs2ParseHeader crypto randPadOnly [] sent.init).2 =
          some ⟨tagWord tag,dc.toInt,0,sent.keys.writeKey,sent.keys.writeIv,sent.keys.readKey,
            sent.keys.readIv⟩) ∧
    ∀ (randPadOnly : Bool) (secrets : List Bytes) (header : Bytes),
      (∀ before secret after, candidates secrets = before++secret::after →
        (∀ s ∈ before, ¬Accepts crypto randPadOnly header s) →
        Accepts crypto randPadOnly header secret →
        obfs2ParseHeader crypto randPadOnly secrets header =
          found crypto header secret before.length) ∧
      ((∀ s ∈ candidates secrets, ¬Accepts crypto randPadOnly header s) →
        obfs2ParseHeader crypto randPadOnly secrets header = (header,none)) := by
  constructor
  · intro random tag dc randPadOnly hlow hhigh htag
    have htagword := tag_sent crypto random tag dc
    have haccepts : Accepts crypto randPadOnly
        (tcpDirectDcSendObfs2Init crypto random (tagWord tag) dc).init none := by
      rw [Accepts,htagword]
      exact tagAccepted_tagWord htag
    refine ⟨length_sent crypto random (tagWord tag) dc,?_⟩
    have hfound : parseLoop crypto randPadOnly _ ([]++none::[]) 0 _ = _ :=
      parseLoop_found crypto randPadOnly _ 0 (by simp) haccepts
    rw [obfs2ParseHeader,candidates,if_pos rfl]
    refine (congrArg Prod.snd hfound).trans ?_
    rw [found,htagword,dc_sent crypto random tag hlow hhigh,keys_sent]
    rfl
  · intro randPadOnly secrets header
    constructor
    · intro before secret after hsplit hbefore hsecret
      rw [obfs2ParseHeader,hsplit,parseLoop_found crypto randPadOnly header 0 hbefore hsecret,
        Nat.zero_add]
    · intro h
      exact parseLoop_none crypto randPadOnly header 0 h

/-- A header of equal bytes for DC 2, read without secrets and then with a list of two. -/
theorem header_parsed_sample :
    let crypto : Crypto := ⟨fun _ _ i => UInt8.ofNat i,List.take 32⟩
    let random : RandomInit := ⟨List.replicate 64 1,rfl,by decide⟩
    let sent := tcpDirectDcSendObfs2Init crypto random (tagWord .medium) 2#32
    (obfs2ParseHeader crypto false [] sent.init).2 =
        some ⟨tagWord .medium,2,0,sent.keys.writeKey,sent.keys.writeIv,sent.keys.readKey,
          sent.keys.readIv⟩ ∧
      obfs2ParseHeader crypto false [[1],[2]] sent.init = found crypto sent.init (some [1]) 0 ∧
      obfs2ParseHeader crypto true [[1],[2]] sent.init = (sent.init,none) :=
  ⟨((header_parsed _).1 _ .medium 2#32 false (by decide) (by decide) (Or.inl rfl)).2,
    ((header_parsed _).2 false [[1],[2]] _).1 [] (some [1]) [some [2]] rfl (by simp)
      (by unfold Accepts; decide +kernel),
    ((header_parsed _).2 true [[1],[2]] _).2 (by unfold Accepts; decide +kernel)⟩

/-- With `rand_pad_only` the header of a medium transport is refused and left as it was. -/
theorem medium_header_refused :
    let crypto : Crypto := ⟨fun _ _ i => UInt8.ofNat i,List.take 32⟩
    let random : RandomInit := ⟨List.replicate 64 1,rfl,by decide⟩
    let sent := tcpDirectDcSendObfs2Init crypto random (tagWord .medium) 2#32
    obfs2ParseHeader crypto true [] sent.init = (sent.init,none) ∧
      (obfs2ParseHeader crypto true [] sent.init).2 ≠
        some ⟨tagWord .medium,2,0,sent.keys.writeKey,sent.keys.writeIv,sent.keys.readKey,
          sent.keys.readIv⟩ := by
  decide +kernel

end Teleproxy.Obfs2Header
