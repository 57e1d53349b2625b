import Teleproxy.ClientInput
import Teleproxy.Lib.Buffer

/-!
# The TLS parsers

`net-tls-parse.c` looks into TLS messages of untrusted peers: `tls_check_server_hello` at the
answer of an upstream server, `tls_parse_sni` and `tls_parse_client_hello_ciphers` at the
ClientHello of a client. They compute positions with `int`s and bound-check them against the
length of the buffer, which is an `int` too. Positions at which a loop stands can be as large
as the buffer, and a sum of such a position and a length is taken modulo 2^32. Sums in front
of the loops are far below that and are written as sums.

What `tls_check_server_hello` has stored when it fails is left out.
-/
namespace Teleproxy.TlsParse
open ClientInput (Bytes)
open Loop (Pass)
open Buffer

abbrev Run := Except (Stop String)

/-- A buffer whose length is an `int`. -/
structure Input where
  bytes : Bytes
  length_lt : bytes.length < 2147483648

/-- Two bytes as a number. -/
def word (bs : Bytes) : ℕ := (bs.getD 0 0).toNat*256+(bs.getD 1 0).toNat

def tlsReadLength (data : Bytes) (pos : ℤ) : Run ℤ := do
  let bs ← read data pos 2
  pure (word bs : ℤ)

def helloRetryRequest : Bytes :=
  [0xcf,0x21,0xad,0x74,0xe5,0x9a,0x61,0x11,0xbe,0x1d,0x8c,0x02,0x1e,0x65,0xb8,0x91,
   0xc2,0xa2,0x11,0x16,0x7a,0xbb,0x8c,0x5e,0x07,0x9e,0x09,0xe2,0xc8,0xa8,0x33,0x9c]

def maxEncryptedRecords : ℕ := 8

section Check
variable (response : Bytes)

/-- Everything in front of the extensions; the length of the ServerHello is returned. -/
def checkStart (requestSessionId : Bytes) : Run ℤ := do
  let len : ℤ := response.length
  expect (0+3 ≤ len) "Too short"
  let recordType ← read response 0 3
  expect (recordType = [0x16,0x03,0x03]) "Non-TLS response or TLS <= 1.1"
  expect (3+2 ≤ len) "Too short"
  let serverHelloLength ← tlsReadLength response 3
  expect (¬ serverHelloLength ≤ 39) "Receive too short ServerHello"
  expect (5+serverHelloLength ≤ len) "Too short"
  let messageType ← read response 5 2
  expect (messageType = [0x02,0x00]) "Non-TLS response 2"
  let version ← read response 9 2
  expect (version = [0x03,0x03]) "Non-TLS response 3"
  let random ← read response 11 32
  expect (random ≠ helloRetryRequest)
    "TLS 1.3 servers returning HelloRetryRequest are not supprted"
  let idLength ← read response 43 1
  expect (idLength ≠ [0x00]) "TLS <= 1.2: empty session_id"
  expect (idLength = [0x20]) "Non-TLS response 4"
  expect (¬ serverHelloLength ≤ 75) "Receive too short server hello 2"
  let sessionId ← read response 44 32
  expect (sessionId = requestSessionId) "TLS <= 1.2: expected mirrored session_id"
  let cipher ← read response 76 3
  expect (cipher = [0x13,0x01,0x00]) "TLS <= 1.2: expected x25519 as a chosen cipher"
  let extensionsLength ← tlsReadLength response 79
  expect (extensionsLength+76 = serverHelloLength) "Receive wrong extensions length"
  pure serverHelloLength

/-- The loop over the extensions: the position, the sum of their numbers and the flag. -/
structure Extensions where
  pos : ℤ
  sum : ℤ
  isReversed : ℤ

def extensionPass (serverHelloLength : ℤ) (s : Extensions) : Run (Pass Extensions Extensions) :=
  if s.pos < 5+serverHelloLength-4 then do
    let extensionId ← tlsReadLength response s.pos
    expect (extensionId = 0x33 ∨ extensionId = 0x2b) "Receive unexpected extension"
    let isReversed := if s.pos+2 = 83 then (if extensionId = 0x2b then 1 else 0) else s.isReversed
    let extensionLength ← tlsReadLength response (s.pos+2)
    expect (s.pos+4+extensionLength ≤ 5+serverHelloLength) "Receive wrong extension length"
    expect (extensionLength = if extensionId = 0x33 then 36 else 2) "Unexpected extension length"
    pure (.again ⟨s.pos+4+extensionLength,s.sum+extensionId,isReversed⟩)
  else pure (.leave s)

def changeCipherSpec : Bytes := [0x14,0x03,0x03,0x00,0x01,0x01]

def applicationData : Bytes := [0x17,0x03,0x03]

/-- The loop over the records: the position, and what is stored for the caller. -/
structure Records where
  pos : ℤ
  sizes : Vector ℤ maxEncryptedRecords
  count : ℕ

/-- The size of a record is kept if there is room. -/
def keepSize (sizes : Vector ℤ maxEncryptedRecords) (count : ℕ) (recLen : ℤ) :
    Vector ℤ maxEncryptedRecords :=
  if h : count < maxEncryptedRecords then sizes.set count recLen h else sizes

def recordPass (s : Records) : Run (Pass Records Records) :=
  if wrap (s.pos+5) ≤ response.length then do
    let tag ← read response s.pos 3
    if tag = applicationData then do
      let recLen ← tlsReadLength response (wrap (s.pos+3))
      let pos := wrap (s.pos+5)
      if recLen = 0 ∨ wrap (pos+recLen) > response.length then pure (.leave {s with pos := pos})
      else pure (.again
        {pos := wrap (pos+recLen), sizes := keepSize s.sizes s.count recLen, count := s.count+1})
    else pure (.leave s)
  else pure (.leave s)

/-- What the caller is told. -/
structure Report where
  isReversedExtensionOrder : ℤ
  encryptedRecordSizes : Vector ℤ maxEncryptedRecords
  encryptedRecordCount : ℕ
  deriving DecidableEq, Repr

/-- The return value 1 with what is stored, or 0 with the message. -/
def tlsCheckServerHello (fuel : ℕ) (requestSessionId : Bytes) (out : Report) : Run Report := do
  let serverHelloLength ← checkStart response requestSessionId
  let exts ← run (extensionPass response serverHelloLength) fuel ⟨81,0,out.isReversedExtensionOrder⟩
  expect (exts.sum = 0x33+0x2b) "Receive duplicate extensions"
  expect (exts.pos = 5+serverHelloLength) "Receive wrong extensions list"
  expect (exts.pos+6 ≤ response.length) "Too short"
  let ccs ← read response exts.pos 6
  expect (ccs = changeCipherSpec) "Expected dummy ChangeCipherSpec"
  let records ← run (recordPass response) fuel ⟨exts.pos+6,out.encryptedRecordSizes,0⟩
  expect (records.count ≠ 0) "No encrypted application data records"
  pure ⟨exts.isReversed,records.sizes,records.count⟩

end Check

section ClientHello
variable (clientHello : Bytes)

/-- The bytes of the domain are looked at one by one. -/
def noZero : ℕ → ℤ → Run Bool
  | 0, _ => pure true
  | n+1, pos => do
      let b ← read clientHello pos 1
      if b = [0] then pure false else noZero n (wrap (pos+1))

/-- The SNI at `pos`: the domain, or -1. -/
def sniName (maxDomainLen extensionLength pos : ℤ) : Run (Option Bytes) :=
  if wrap (pos+5) > clientHello.length then pure none
  else do
    let innerLength ← tlsReadLength clientHello pos
    if innerLength ≠ extensionLength-2 then pure none
    else do
      let nameType ← read clientHello (wrap (pos+2)) 1
      if nameType ≠ [0] then pure none
      else do
        let domainLength ← tlsReadLength clientHello (wrap (pos+3))
        if domainLength ≠ extensionLength-5 then pure none
        else do
          let pos := wrap (pos+5)
          let clean ← noZero clientHello domainLength.toNat pos
          if clean = false then pure none
          else if domainLength ≥ maxDomainLen ∨ domainLength ≤ 0 then pure none
          else do
            let domain ← read clientHello pos domainLength.toNat
            pure (some domain)

/-- One extension; the SNI ends the loop. -/
def sniPass (maxDomainLen pos : ℤ) : Run (Pass ℤ (Option Bytes)) :=
  let len : ℤ := clientHello.length
  if wrap (pos+4) > len then pure (.leave none)
  else do
    let extensionId ← tlsReadLength clientHello pos
    let extensionLength ← tlsReadLength clientHello (wrap (pos+2))
    let pos := wrap (pos+4)
    if wrap (pos+extensionLength) > len then pure (.leave none)
    else if extensionId = 0 then do
      let domain ← sniName clientHello maxDomainLen extensionLength pos
      pure (.leave domain)
    else pure (.again (wrap (pos+extensionLength)))

/-- The domain that is written to the caller's buffer, or -1. -/
def tlsParseSni (fuel : ℕ) (maxDomainLen : ℤ) : Run (Option Bytes) :=
  let len : ℤ := clientHello.length
  let pos : ℤ := 11+32+1+32
  if pos+2 > len then pure none
  else do
    let cipherSuitesLength ← tlsReadLength clientHello pos
    let pos := pos+2
    if pos+(cipherSuitesLength+4) > len then pure none
    else run (sniPass clientHello maxDomainLen) fuel (pos+(cipherSuitesLength+4))

/-- GREASE values in front of the cipher suites: how much is left and the position. -/
def greasePass (s : ℤ × ℤ) : Run (Pass (ℤ × ℤ) (ℤ × ℤ)) :=
  if 2 ≤ s.1 then do
    let a ← read clientHello s.2 1
    if (a.getD 0 0) &&& 0x0f = 0x0a then do
      let b ← read clientHello (s.2+1) 1
      if (b.getD 0 0) &&& 0x0f = 0x0a then pure (.again (s.1-2,s.2+2)) else pure (.leave s)
    else pure (.leave s)
  else pure (.leave s)

/-- The last byte of the cipher suite, or -1. -/
def tlsParseClientHelloCiphers (fuel : ℕ) : Run (Option UInt8) :=
  let len : ℤ := clientHello.length
  let pos : ℤ := 76
  if pos+2 > len then pure none
  else do
    let cipherSuitesLength ← tlsReadLength clientHello pos
    let pos := pos+2
    if pos+cipherSuitesLength > len then pure none
    else do
      let (left,pos) ← run (greasePass clientHello) fuel (cipherSuitesLength,pos)
      if left ≤ 1 then pure none
      else do
        let a ← read clientHello pos 1
        if a ≠ [0x13] then pure none
        else do
          let b ← read clientHello (pos+1) 1
          if b.getD 0 0 < 0x01 ∨ b.getD 0 0 > 0x03 then pure none else pure (some (b.getD 0 0))

end ClientHello

/-- `n` bytes at `p`. -/
def part (buf : Bytes) (p n : ℕ) : Bytes := (buf.drop p).take n

section Steps
variable {β : Type} {buf : Bytes} {p n : ℕ} {T : β → Prop}

theorem decides_part {f : Bytes → Run β} (h : p+n ≤ buf.length) (hf : Decides (f (part buf p n)) T) :
    Decides (read buf (p : ℤ) n >>= f) T := decides_read h hf

theorem tlsReadLength_eq (h : p+2 ≤ buf.length) :
    tlsReadLength buf (p : ℤ) = .ok (word (part buf p 2) : ℤ) := by
  rw [tlsReadLength,read_eq h]
  rfl

theorem decides_length {f : ℤ → Run β} (h : p+2 ≤ buf.length)
    (hf : Decides (f (word (part buf p 2))) T) : Decides (tlsReadLength buf (p : ℤ) >>= f) T := by
  rw [tlsReadLength_eq h,ok_bind]
  exact hf

end Steps

/-- A record with a ServerHello of `n` bytes, up to its extensions. -/
structure StartsHello (buf sessionId : Bytes) (n : ℕ) : Prop where
  recordType : part buf 0 3 = [0x16,0x03,0x03]
  length : word (part buf 3 2) = n
  complete : 5+n ≤ buf.length
  messageType : part buf 5 2 = [0x02,0x00]
  version : part buf 9 2 = [0x03,0x03]
  random : part buf 11 32 ≠ helloRetryRequest
  idLength : part buf 43 1 = [0x20]
  mirrored : part buf 44 32 = sessionId
  cipher : part buf 76 3 = [0x13,0x01,0x00]
  extensionsLength : word (part buf 79 2)+76 = n

theorem checkStart_decides (buf sessionId : Bytes) :
    Decides (checkStart buf sessionId) (fun len => ∃ n : ℕ, len = n ∧ StartsHello buf sessionId n) := by
  apply Decides.congr
  · unfold checkStart
    apply decides_expect
    intro h3
    apply decides_part (p := 0) (by omega)
    apply decides_expect
    intro htype
    apply decides_expect
    intro h5
    apply decides_length (p := 3) (by omega)
    apply decides_expect
    intro h39
    apply decides_expect
    intro hlen
    apply decides_part (p := 5) (by omega)
    apply decides_expect
    intro hmessage
    apply decides_part (p := 9) (by omega)
    apply decides_expect
    intro hversion
    apply decides_part (p := 11) (by omega)
    apply decides_expect
    intro hrandom
    apply decides_part (p := 43) (by omega)
    apply decides_expect
    intro hempty
    apply decides_expect
    intro hid
    apply decides_expect
    intro h75
    apply decides_part (p := 44) (by omega)
    apply decides_expect
    intro hmirrored
    apply decides_part (p := 76) (by omega)
    apply decides_expect
    intro hcipher
    apply decides_length (p := 79) (by omega)
    apply decides_expect
    intro hexts
    apply decides_ok
  · intro len
    constructor
    · rintro ⟨-,htype,-,h39,hlen,hmessage,hversion,hrandom,-,hid,h75,hmirrored,hcipher,hexts,rfl⟩
      exact ⟨_,rfl,htype,rfl,by omega,hmessage,hversion,hrandom,hid,hmirrored,hcipher,by omega⟩
    · rintro ⟨n,rfl,h⟩
      have hn := h.extensionsLength
      have hlen := h.complete
      have hword := h.length
      exact ⟨by omega,h.recordType,by omega,by omega,by omega,h.messageType,h.version,h.random,
        by rw [h.idLength]; decide,h.idLength,by omega,h.mirrored,h.cipher,by omega,by omega⟩

/-- The length that the extension has to have. -/
def extensionSize (id : ℕ) : ℕ := if id = 0x33 then 36 else 2

/-- A good extension at `p` of a ServerHello of `n` bytes. -/
structure ExtensionAt (buf : Bytes) (n p id : ℕ) : Prop where
  number : word (part buf p 2) = id
  known : id = 0x33 ∨ id = 0x2b
  fits : p+4+extensionSize id ≤ 5+n
  length : word (part buf (p+2) 2) = extensionSize id

def Extensions.after (s : Extensions) (id : ℕ) : Extensions :=
  {pos := s.pos+4+extensionSize id
   sum := s.sum+id
   isReversed := if s.pos+2 = 83 then (if id = 0x2b then 1 else 0) else s.isReversed}

section Extensions
variable {buf : Bytes} {n p : ℕ} {s r : Extensions}

theorem extensionPass_leave (h : ¬ s.pos < 5+(n : ℤ)-4) : extensionPass buf n s = .ok (.leave s) := by
  rw [extensionPass,if_neg h]
  rfl

theorem extensionPass_decides (hn : 5+n ≤ buf.length) (hpos : s.pos = p) (hlt : s.pos < 5+(n : ℤ)-4) :
    Decides (extensionPass buf n s) (fun pass => ∃ id, ExtensionAt buf n p id ∧ pass = .again (s.after id)) := by
  apply Decides.congr
  · rw [extensionPass,if_pos hlt,hpos]
    apply decides_length (by omega)
    apply decides_expect
    intro hknown
    apply decides_length (p := p+2) (by omega)
    apply decides_expect
    intro hfits
    apply decides_expect
    intro hlength
    apply decides_ok
  · intro pass
    have hsize : (if (word (part buf p 2) : ℤ) = 0x33 then 36 else 2 : ℤ) =
        (extensionSize (word (part buf p 2)) : ℕ) := by
      unfold extensionSize
      split_ifs <;> first | rfl | omega
    have hafter : (word (part buf (p+2) 2) : ℤ) = extensionSize (word (part buf p 2)) →
        (⟨p+4+word (part buf (p+2) 2),s.sum+word (part buf p 2),
          if (p : ℤ)+2 = 83 then (if (word (part buf p 2) : ℤ) = 0x2b then 1 else 0)
          else s.isReversed⟩ : Extensions) = s.after (word (part buf p 2)) := by
      intro hlength
      rw [Extensions.after,hlength,hpos]
      simp only [show ((word (part buf p 2) : ℤ) = 43 ↔ word (part buf p 2) = 43) by omega]
    rw [hsize]
    constructor
    · rintro ⟨hknown,hfits,hlength,rfl⟩
      exact ⟨word (part buf p 2),⟨rfl,by omega,by omega,by omega⟩,congrArg Pass.again (hafter hlength)⟩
    · rintro ⟨id,⟨rfl,hknown,hfits,hlength⟩,rfl⟩
      have hlength' : (word (part buf (p+2) 2) : ℤ) = extensionSize (word (part buf p 2)) := by omega
      exact ⟨by omega,by omega,hlength',congrArg Pass.again (hafter hlength').symm⟩

/-- The position is inside the ServerHello. -/
def Extensions.Inside (n : ℕ) (s : Extensions) : Prop := ∃ p : ℕ, s.pos = p ∧ p ≤ 5+n

theorem extensionPass_again {s' : Extensions} (hn : 5+n ≤ buf.length) (hs : s.Inside n)
    (h : extensionPass buf n s = .ok (.again s')) :
    ∃ p id, s.pos = (p : ℕ) ∧ ExtensionAt buf n p id ∧ s' = s.after id := by
  obtain ⟨p,hpos,hp⟩ := hs
  by_cases hlt : s.pos < 5+(n : ℤ)-4
  · obtain ⟨id,hid,hs'⟩ := ((extensionPass_decides hn hpos hlt).2 _).mp h
    cases hs'
    exact ⟨p,id,hpos,hid,rfl⟩
  · rw [extensionPass_leave hlt] at h
    cases h

theorem ExtensionAt.inside {id : ℕ} (h : ExtensionAt buf n p id) (hpos : s.pos = p) :
    (s.after id).Inside n :=
  ⟨p+4+extensionSize id,by rw [Extensions.after,hpos]; push_cast; rfl,h.fits⟩

theorem extensions_decide (hn : 5+n ≤ buf.length) (hs : s.Inside n) (fuel : ℕ) (hfuel : 5+n < fuel) :
    Decides (run (extensionPass buf n) fuel s) (Runs (extensionPass buf n) s) := by
  apply decides_run (Extensions.Inside n) fun s => (5+n-s.pos).toNat
  · intro s hs
    obtain ⟨p,hpos,hp⟩ := hs
    by_cases hlt : s.pos < 5+(n : ℤ)-4
    · exact (extensionPass_decides hn hpos hlt).1
    · rw [extensionPass_leave hlt]
      exact sound_ok _
  · intro s s' hs hagain
    obtain ⟨p,id,hpos,hid,rfl⟩ := extensionPass_again hn hs hagain
    have hfits := hid.fits
    refine ⟨hid.inside hpos,?_⟩
    simp only [Extensions.after,hpos]
    omega
  · exact hs
  · obtain ⟨p,hpos,hp⟩ := hs
    omega

theorem extensionPass_left (hn : 5+n ≤ buf.length) (hs : s.Inside n)
    (h : extensionPass buf n s = .ok (.leave r)) : r = s := by
  obtain ⟨p,hpos,hp⟩ := hs
  by_cases hlt : s.pos < 5+(n : ℤ)-4
  · obtain ⟨id,-,hpass⟩ := ((extensionPass_decides hn hpos hlt).2 _).mp h
    cases hpass
  · rw [extensionPass_leave hlt] at h
    cases h
    rfl

theorem runs_cases (hn : 5+n ≤ buf.length) (hs : s.Inside n) (h : Runs (extensionPass buf n) s r) :
    r = s ∨ ∃ p id, s.pos = (p : ℕ) ∧ ExtensionAt buf n p id ∧
      Runs (extensionPass buf n) (s.after id) r := by
  cases h with
  | leave hr => exact .inl (extensionPass_left hn hs hr)
  | again hr hrest =>
      obtain ⟨p,id,hpos,hid,rfl⟩ := extensionPass_again hn hs hr
      exact .inr ⟨p,id,hpos,hid,hrest⟩

theorem runs_sum_le (hn : 5+n ≤ buf.length) (hs : s.Inside n) (h : Runs (extensionPass buf n) s r) :
    s.sum ≤ r.sum := by
  induction h with
  | leave hr => rw [extensionPass_left hn hs hr]
  | again hr hrest ih =>
      obtain ⟨p,id,hpos,hid,rfl⟩ := extensionPass_again hn hs hr
      have hle := ih (hid.inside hpos)
      rw [Extensions.after] at hle
      dsimp only at hle
      omega

/-- The extension that comes first and the one behind it. -/
def firstExtension (reversed : Bool) : ℕ := if reversed then 0x2b else 0x33

def secondExtension (reversed : Bool) : ℕ := if reversed then 0x33 else 0x2b

/-- Both extensions, which fill a ServerHello of 122 bytes. -/
def HasExtensions (buf : Bytes) (reversed : Bool) : Prop :=
  ExtensionAt buf 122 81 (firstExtension reversed) ∧
    ExtensionAt buf 122 (85+extensionSize (firstExtension reversed)) (secondExtension reversed)

/-- Two extensions with the right sum are the two that are wanted. -/
theorem two_extensions {id id' : ℕ} (h : ExtensionAt buf n 81 id)
    (h' : ExtensionAt buf n (85+extensionSize id) id') (hsum : id+id' = 0x33+0x2b)
    (hpos : 81+4+extensionSize id+4+extensionSize id' = 5+n) :
    n = 122 ∧ ∃ reversed, id = firstExtension reversed ∧ id' = secondExtension reversed := by
  have h33 : extensionSize 0x33 = 36 := rfl
  have h2b : extensionSize 0x2b = 2 := rfl
  rcases h.known with rfl | rfl
  · obtain rfl : id' = 0x2b := by omega
    exact ⟨by omega,false,rfl,rfl⟩
  · obtain rfl : id' = 0x33 := by omega
    exact ⟨by omega,true,rfl,rfl⟩

/-- The state behind the two extensions. -/
theorem after_two (reversed : Bool) (first : ℤ) :
    (Extensions.after (Extensions.after ⟨81,0,first⟩ (firstExtension reversed))
      (secondExtension reversed)) = ⟨127,0x33+0x2b,if reversed then 1 else 0⟩ := by
  cases reversed <;> rfl

theorem extensions_two (hn : 5+n ≤ buf.length) {first : ℤ} (hn76 : 76 ≤ n)
    (h : Runs (extensionPass buf n) ⟨81,0,first⟩ r) (hsum : r.sum = 0x33+0x2b) (hpos : r.pos = 5+n) :
    n = 122 ∧ ∃ reversed, HasExtensions buf reversed ∧ r = ⟨127,0x33+0x2b,if reversed then 1 else 0⟩ := by
  have hin : Extensions.Inside n ⟨81,0,first⟩ := ⟨81,rfl,by omega⟩
  rcases runs_cases hn hin h with rfl | ⟨p,id,hp,hid,hrest⟩
  · cases hsum
  have hp' : p = 81 := by
    dsimp only at hp
    omega
  subst hp'
  rcases runs_cases hn (hid.inside hp) hrest with rfl | ⟨q,id',hq,hid',hrest'⟩
  · have hknown := hid.known
    simp only [Extensions.after] at hsum
    omega
  have hq' : q = 85+extensionSize id := by
    simp only [Extensions.after] at hq
    omega
  subst hq'
  rcases runs_cases hn (hid'.inside hq) hrest' with rfl | ⟨p,id'',hpos'',hid'',hrest''⟩
  · simp only [Extensions.after] at hsum hpos
    obtain ⟨rfl,reversed,rfl,rfl⟩ := two_extensions hid hid' (by omega) (by omega)
    exact ⟨rfl,reversed,⟨hid,hid'⟩,after_two reversed first⟩
  · have hle := runs_sum_le hn (hid''.inside hpos'') hrest''
    have hknown := hid.known
    have hknown' := hid'.known
    have hknown'' := hid''.known
    simp only [Extensions.after] at hle
    omega

theorem extensionPass_next {id : ℕ} (hn : 5+n ≤ buf.length) (hpos : s.pos = p)
    (hid : ExtensionAt buf n p id) : extensionPass buf n s = .ok (.again (s.after id)) := by
  have hfits := hid.fits
  have hsize : 2 ≤ extensionSize id := by
    unfold extensionSize
    split_ifs <;> omega
  exact ((extensionPass_decides hn hpos (by omega)).2 _).mpr ⟨id,hid,rfl⟩

theorem runs_two {reversed : Bool} (hn : 127 ≤ buf.length) (h : HasExtensions buf reversed) (first : ℤ) :
    Runs (extensionPass buf 122) ⟨81,0,first⟩ ⟨127,0x33+0x2b,if reversed then 1 else 0⟩ := by
  have hnext : extensionPass buf (122 : ℕ) ⟨81,0,first⟩ = _ := extensionPass_next (p := 81) hn rfl h.1
  have hnext' : extensionPass buf (122 : ℕ) (Extensions.after ⟨81,0,first⟩ (firstExtension reversed)) = _ :=
    extensionPass_next hn (by cases reversed <;> rfl) h.2
  rw [after_two] at hnext'
  exact .again hnext (.again hnext' (.leave (extensionPass_leave (n := 122)
    (show ¬ (127 : ℤ) < 5+122-4 by decide))))

end Extensions

/-- A record of application data. -/
def record (data : Bytes) : Bytes :=
  applicationData++[UInt8.ofNat (data.length/256),UInt8.ofNat data.length]++data

/-- What the length field can say, and not nothing. -/
def IsPayload (data : Bytes) : Prop := data ≠ [] ∧ data.length < 65536

/-- No complete record that is not empty comes next. -/
def Ended (tail : Bytes) : Prop := ¬ ∃ data rest, IsPayload data ∧ tail = record data++rest

def records (payloads : List Bytes) : Bytes := concat record payloads

/-- The loop that stands at `e`, in front of `tail`, ends before a sum gets too large or is
not misled by it. -/
def EndFits (e : ℕ) (tail : Bytes) : Prop :=
  (5 ≤ tail.length → applicationData <+: tail →
    word (part tail 3 2) = 0 ∨ e+5+word (part tail 3 2) < 2147483648) ∧
  (tail.length < 5 → e+5 < 2147483648 ∨ 3 ≤ tail.length ∧ ¬ applicationData <+: tail)

section Records
variable {buf pre tail rest data : Bytes} {s : Records}

theorem part_append (pre tail : Bytes) (p n : ℕ) : part (pre++tail) (pre.length+p) n = part tail p n := by
  rw [part,part,List.drop_append,List.drop_eq_nil_of_le (by omega),List.nil_append,
    Nat.add_sub_cancel_left]

theorem length_record (data : Bytes) : (record data).length = 5+data.length := by
  simp [record,applicationData]
  omega

theorem word_pair {n : ℕ} (hn : n < 65536) : word [UInt8.ofNat (n/256),UInt8.ofNat n] = n := by
  simp only [word,List.getD_cons_zero,List.getD_cons_succ,UInt8.toNat_ofNat']
  omega

theorem ofInt_natCast (n : ℕ) : UInt8.ofInt (n : ℤ) = UInt8.ofNat n := by
  apply UInt8.toNat.inj
  rw [UInt8.ofInt,UInt8.toNat_ofNat',UInt8.toNat_ofNat']
  omega

/-- The two bytes of a length as they are computed from an `int`. -/
theorem ofInt_tdiv (n : ℕ) : UInt8.ofInt ((n : ℤ).tdiv 256) = UInt8.ofNat (n/256) := ofInt_natCast (n/256)

theorem ofInt_tmod (n : ℕ) : UInt8.ofInt ((n : ℤ).tmod 256) = UInt8.ofNat n := by
  refine (ofInt_natCast (n%256)).trans (UInt8.toNat.inj ?_)
  rw [UInt8.toNat_ofNat',UInt8.toNat_ofNat']
  omega

theorem pair_word {bs : Bytes} (hlen : bs.length = 2) :
    [UInt8.ofNat (word bs/256),UInt8.ofNat (word bs)] = bs := by
  obtain ⟨a,b,rfl⟩ := List.length_eq_two.mp hlen
  have hb := b.toNat_lt
  have hword : word [a,b] = a.toNat*256+b.toNat := rfl
  rw [hword,show (a.toNat*256+b.toNat)/256 = a.toNat by omega,UInt8.ofNat_toNat]
  congr 2
  apply UInt8.toNat.inj
  rw [UInt8.toNat_ofNat']
  omega

theorem word_lt (bs : Bytes) : word bs < 65536 := by
  have h0 := (bs.getD 0 0).toNat_lt
  have h1 := (bs.getD 1 0).toNat_lt
  unfold word
  omega

theorem part_mid {pre mid rest : Bytes} {p n : ℕ} (hp : pre.length = p) (hn : mid.length = n) :
    part (pre++(mid++rest)) p n = mid := by
  rw [part,List.drop_left' hp,List.take_left' hn]

theorem length_part {bs : Bytes} {p n : ℕ} (h : p+n ≤ bs.length) : (part bs p n).length = n := by
  rw [part,List.length_take,List.length_drop]
  omega

theorem part_append_drop (bs : Bytes) (p n : ℕ) : part bs p n++bs.drop (p+n) = bs.drop p := by
  rw [part,← List.drop_drop,List.take_append_drop]

theorem word_record (hdata : data.length < 65536) (rest : Bytes) :
    word (part (record data++rest) 3 2) = data.length := word_pair hdata

/-- What a length field says of the bytes behind it. -/
theorem split_word {bs : Bytes} {p : ℕ} (hlen : p+2+word (part bs p 2) ≤ bs.length) :
    ∃ data, data.length = word (part bs p 2) ∧
      bs = bs.take p++[UInt8.ofNat (data.length/256),UInt8.ofNat data.length]++data++
        bs.drop (p+2+word (part bs p 2)) := by
  refine ⟨part bs (p+2) (word (part bs p 2)),length_part hlen,?_⟩
  rw [length_part hlen,pair_word (length_part (by omega)),List.append_assoc,List.append_assoc,
    part_append_drop,part_append_drop,List.take_append_drop]

/-- A tail that starts with the tag and holds what its length field says is a record. -/
theorem record_of_word (htag : applicationData <+: tail) (hpos : word (part tail 3 2) ≠ 0)
    (hlen : 5+word (part tail 3 2) ≤ tail.length) : ¬ Ended tail := by
  obtain ⟨data,hdata,hsplit⟩ := split_word (p := 3) hlen
  have hlt := word_lt (part tail 3 2)
  have htake : tail.take 3 = applicationData := (List.prefix_iff_eq_take.mp htag).symm
  intro hended
  apply hended
  refine ⟨data,tail.drop (3+2+word (part tail 3 2)),⟨?_,by omega⟩,?_⟩
  · intro hnil
    rw [hnil,List.length_nil] at hdata
    exact hpos hdata.symm
  · rw [htake] at hsplit
    exact hsplit

theorem record_ne_nil (data : Bytes) : record data ≠ [] := by
  intro hnil
  cases hnil

theorem ended_nil : Ended [] := by
  intro ⟨data,rest,_,hnil⟩
  cases hnil

theorem tag_eq_iff : part tail 0 3 = applicationData ↔ applicationData <+: tail := by
  rw [part,List.drop_zero,List.prefix_iff_eq_take,eq_comm]
  rfl

theorem read_tail (pre tail : Bytes) {p n : ℕ} (h : p+n ≤ tail.length) :
    read (pre++tail) ((pre.length+p : ℕ) : ℤ) n = (.ok (part tail p n) : Run _) := by
  rw [read_eq (by rw [List.length_append]; omega)]
  exact congrArg _ (part_append pre tail p n)

theorem length_tail (pre tail : Bytes) {p : ℕ} (h : p+2 ≤ tail.length) :
    tlsReadLength (pre++tail) ((pre.length+p : ℕ) : ℤ) = .ok (word (part tail p 2) : ℤ) := by
  rw [tlsReadLength,read_tail pre tail h]
  rfl

/-- A pass with a complete record header in front of it. -/
theorem recordPass_header (hlt : (pre++tail).length < 2147483648) (hpos : s.pos = pre.length)
    (h5 : 5 ≤ tail.length) : recordPass (pre++tail) s =
      if applicationData <+: tail then
        if word (part tail 3 2) = 0 ∨
            wrap (pre.length+5+word (part tail 3 2)) > (pre++tail).length then
          .ok (.leave {s with pos := pre.length+5})
        else .ok (.again
          {pos := wrap (pre.length+5+word (part tail 3 2))
           sizes := keepSize s.sizes s.count (word (part tail 3 2))
           count := s.count+1})
      else .ok (.leave s) := by
  have hlen : (pre++tail).length = pre.length+tail.length := List.length_append
  have hfive : wrap ((pre.length : ℤ)+5) = pre.length+5 := wrap_of_lt (by omega) (by omega)
  have hthree : wrap ((pre.length : ℤ)+3) = ((pre.length+3 : ℕ) : ℤ) := by
    rw [wrap_of_lt (by omega) (by omega)]
    rfl
  have htag : read (pre++tail) (pre.length : ℤ) 3 = (.ok (part tail 0 3) : Run _) :=
    read_tail pre tail (p := 0) (by omega)
  have hword := length_tail pre tail (p := 3) (by omega)
  rw [recordPass,hpos,hfive,if_pos (by omega),htag,ok_bind,hthree,hword]
  simp only [tag_eq_iff,ok_bind,Int.natCast_eq_zero]
  split_ifs <;> rfl

/-- A pass without one. -/
theorem recordPass_short (hlt : (pre++tail).length < 2147483648) (hpos : s.pos = pre.length)
    (h5 : tail.length < 5) : recordPass (pre++tail) s =
      if pre.length+5 < 2147483648 ∨ 3 ≤ tail.length ∧ ¬ applicationData <+: tail then .ok (.leave s)
      else .error .outOfBounds := by
  have hlen : (pre++tail).length = pre.length+tail.length := List.length_append
  rw [recordPass,hpos]
  by_cases hsmall : pre.length+5 < 2147483648
  · rw [wrap_of_lt (by omega) (by omega),if_neg (by omega),if_pos (.inl hsmall)]
    rfl
  · rw [wrap_of_ge (by omega) (by omega),if_pos (by omega)]
    by_cases h3 : 3 ≤ tail.length
    · have htag : read (pre++tail) (pre.length : ℤ) 3 = (.ok (part tail 0 3) : Run _) :=
        read_tail pre tail (p := 0) (by omega)
      have hthree : wrap ((pre.length : ℤ)+3) = pre.length+3 := wrap_of_lt (by omega) (by omega)
      have hword : tlsReadLength (pre++tail) ((pre.length : ℤ)+3) = .error .outOfBounds := by
        rw [tlsReadLength,read_outside (by omega)]
        rfl
      rw [htag,ok_bind,hthree,hword]
      by_cases happ : applicationData <+: tail
      · have hnot : ¬ (pre.length+5 < 2147483648 ∨ 3 ≤ tail.length ∧ ¬ applicationData <+: tail) := by
          intro h
          rcases h with h | h
          · exact hsmall h
          · exact h.2 happ
        rw [if_pos (tag_eq_iff.mpr happ),if_neg hnot]
        rfl
      · rw [if_neg (fun h => happ (tag_eq_iff.mp h)),if_pos (.inr ⟨h3,happ⟩)]
        rfl
    · rw [read_outside (by omega),if_neg (by omega)]
      rfl

theorem recordPass_negative (hneg : s.pos < -5) (hlow : -2147483648 ≤ s.pos) :
    recordPass buf s = .error .outOfBounds := by
  rw [recordPass,wrap_of_lt (by omega) (by omega),if_pos (by omega),read_outside (.inl (by omega))]
  rfl

theorem recordPass_record (hlt : (pre++(record data++rest)).length < 2147483648)
    (hpos : s.pos = pre.length) (hdata : IsPayload data) :
    recordPass (pre++(record data++rest)) s = .ok (.again
      {pos := (pre++record data).length
       sizes := keepSize s.sizes s.count data.length
       count := s.count+1}) := by
  have hne : data.length ≠ 0 := fun h => hdata.1 (List.length_eq_zero_iff.mp h)
  have hrecord := length_record data
  have hlen : (pre++(record data++rest)).length = pre.length+(5+data.length+rest.length) := by
    rw [List.length_append,List.length_append,hrecord]
  have htag : applicationData <+: record data++rest := ⟨_,by rw [record,List.append_assoc,List.append_assoc]⟩
  rw [recordPass_header hlt hpos (by rw [List.length_append]; omega),if_pos htag,word_record hdata.2,
    wrap_of_lt (by omega) (by omega),if_neg (by omega)]
  simp only [List.length_append,hrecord]
  congr 3
  push_cast
  omega

/-- At the end of the records the loop ends or runs into bytes outside. -/
theorem run_ended (hlt : (pre++tail).length < 2147483648) (hpos : s.pos = pre.length)
    (hended : Ended tail) (fuel : ℕ) :
    (EndFits pre.length tail → ∃ pos, run (recordPass (pre++tail)) (fuel+2) s = .ok {s with pos := pos}) ∧
    (¬ EndFits pre.length tail → run (recordPass (pre++tail)) (fuel+2) s = .error .outOfBounds) := by
  have hlen : (pre++tail).length = pre.length+tail.length := List.length_append
  by_cases h5 : 5 ≤ tail.length
  · have hpass := recordPass_header hlt hpos h5
    by_cases htag : applicationData <+: tail
    · have hword := word_lt (part tail 3 2)
      have hshort : word (part tail 3 2) = 0 ∨ tail.length < 5+word (part tail 3 2) := by
        by_contra h
        exact record_of_word htag (by omega) (by omega) hended
      have hfits : EndFits pre.length tail ↔
          word (part tail 3 2) = 0 ∨ pre.length+5+word (part tail 3 2) < 2147483648 :=
        ⟨fun h => h.1 h5 htag,fun h => ⟨fun _ _ => h,fun h => absurd h (by omega)⟩⟩
      rw [if_pos htag] at hpass
      rw [hfits]
      constructor
      · intro h
        have hleave : word (part tail 3 2) = 0 ∨
            wrap (pre.length+5+word (part tail 3 2)) > (pre++tail).length := by
          rcases h with h | h
          · exact .inl h
          · rw [wrap_of_lt (by omega) (by omega)]
            omega
        rw [if_pos hleave] at hpass
        exact ⟨_,run_leave hpass _⟩
      · intro h
        rw [wrap_of_ge (by omega) (by omega),if_neg (by omega)] at hpass
        rw [run_again hpass]
        exact run_error (recordPass_negative (by dsimp only; omega) (by dsimp only; omega)) _
    · rw [if_neg htag] at hpass
      have hfits : EndFits pre.length tail := ⟨fun _ h => absurd h htag,fun h => absurd h (by omega)⟩
      constructor
      · intro _
        exact ⟨s.pos,run_leave hpass _⟩
      · intro h
        exact absurd hfits h
  · have hpass := recordPass_short hlt hpos (by omega)
    have hfits : EndFits pre.length tail ↔
        pre.length+5 < 2147483648 ∨ 3 ≤ tail.length ∧ ¬ applicationData <+: tail :=
      ⟨fun h => h.2 (by omega),fun h => ⟨fun h => absurd h h5,fun _ => h⟩⟩
    rw [hfits]
    constructor
    · intro h
      rw [if_pos h] at hpass
      exact ⟨s.pos,run_leave hpass _⟩
    · intro h
      rw [if_neg h] at hpass
      exact run_error hpass _

/-- The sizes after these records. -/
def keepSizes (sizes : Vector ℤ maxEncryptedRecords) (count : ℕ) : List Bytes → Vector ℤ maxEncryptedRecords
  | [] => sizes
  | data::payloads => keepSizes (keepSize sizes count data.length) (count+1) payloads

/-- The loop takes the records in front of it one by one. -/
theorem run_records (payloads : List Bytes) (hall : ∀ data ∈ payloads, IsPayload data)
    (hended : Ended tail) (pre : Bytes) (hlt : (pre++(records payloads++tail)).length < 2147483648)
    (s : Records) (hpos : s.pos = pre.length) (fuel : ℕ) (hfuel : payloads.length+2 ≤ fuel) :
    (EndFits (pre++records payloads).length tail →
      ∃ pos, run (recordPass (pre++(records payloads++tail))) fuel s =
        .ok ⟨pos,keepSizes s.sizes s.count payloads,s.count+payloads.length⟩) ∧
    (¬ EndFits (pre++records payloads).length tail →
      run (recordPass (pre++(records payloads++tail))) fuel s = .error .outOfBounds) := by
  induction payloads generalizing pre s fuel with
  | nil =>
      obtain ⟨fuel,rfl⟩ := Nat.exists_eq_add_of_le' hfuel
      simpa [records,concat,keepSizes] using run_ended hlt hpos hended fuel
  | cons data payloads ih =>
      obtain ⟨fuel,rfl⟩ := Nat.exists_eq_add_of_le' hfuel
      rw [List.forall_mem_cons] at hall
      have hsplit : pre++(records (data::payloads)++tail) = pre++(record data++(records payloads++tail)) := by
        simp [records,concat]
      have hassoc : pre++(record data++(records payloads++tail)) =
          (pre++record data)++(records payloads++tail) := by simp
      have hend : pre++records (data::payloads) = (pre++record data)++records payloads := by
        simp [records,concat]
      rw [hsplit] at hlt
      have hpass := recordPass_record hlt hpos hall.1
      rw [hsplit,hend,show fuel+((data::payloads).length+2) = (fuel+(payloads.length+2))+1 from rfl,
        run_again hpass,hassoc]
      rw [hassoc] at hlt
      have hrun := ih hall.2 (pre++record data) hlt
        ⟨(pre++record data).length,keepSize s.sizes s.count data.length,s.count+1⟩ rfl
        (fuel+(payloads.length+2)) (by omega)
      simpa [keepSizes,Nat.add_assoc,Nat.add_comm 1] using hrun

theorem toList_keepSize (sizes : Vector ℤ maxEncryptedRecords) (count : ℕ) (n : ℤ) :
    (keepSize sizes count n).toList = sizes.toList.set count n := by
  unfold keepSize
  split
  · exact Vector.toList_set _
  · rw [List.set_eq_of_length_le (by rw [Vector.length_toList]; omega)]

/-- The first sizes are those of the first records. -/
theorem toList_keepSizes (payloads : List Bytes) (sizes : Vector ℤ maxEncryptedRecords) (count : ℕ) :
    (keepSizes sizes count payloads).toList = sizes.toList.take count++
      (payloads.take (maxEncryptedRecords-count)).map (fun data => (data.length : ℤ))++
      sizes.toList.drop (count+payloads.length) := by
  induction payloads generalizing sizes count with
  | nil => simp [keepSizes]
  | cons data payloads ih =>
      have hlen := sizes.length_toList
      have hdrop : (sizes.toList.set count data.length).drop (count+1+payloads.length) =
          sizes.toList.drop (count+(data::payloads).length) := by
        rw [List.drop_set_of_lt (by omega),List.length_cons,Nat.add_right_comm,Nat.add_assoc]
      rw [keepSizes,ih,toList_keepSize,hdrop]
      by_cases hroom : count < maxEncryptedRecords
      · have htake : (sizes.toList.set count data.length).take (count+1) =
            sizes.toList.take count++[(data.length : ℤ)] := by
          rw [List.take_succ_eq_append_getElem (by rw [List.length_set]; omega),List.getElem_set_self,
            List.take_set_of_le (le_refl _)]
        rw [htake,show maxEncryptedRecords-count = (maxEncryptedRecords-(count+1))+1 by omega,
          List.take_succ_cons,List.map_cons,List.append_assoc (sizes.toList.take count),
          List.singleton_append]
      · have hset : sizes.toList.set count data.length = sizes.toList :=
          List.set_eq_of_length_le (by omega)
        have htake : sizes.toList.take (count+1) = sizes.toList.take count := by
          rw [List.take_of_length_le (by omega),List.take_of_length_le (by omega)]
        rw [hset,htake,show maxEncryptedRecords-count = 0 by omega,
          show maxEncryptedRecords-(count+1) = 0 by omega]
        rfl

end Records

/-- In front of the records: a ServerHello with the two extensions and the
ChangeCipherSpec. -/
structure Greets (buf sessionId : Bytes) (reversed : Bool) : Prop where
  hello : StartsHello buf sessionId 122
  extensions : HasExtensions buf reversed
  ccs : part buf 127 6 = changeCipherSpec

/-- What `tls_check_server_hello` is to accept. -/
structure Flight (buf sessionId : Bytes) (reversed : Bool) (payloads : List Bytes) : Prop where
  greets : Greets buf sessionId reversed
  some : payloads ≠ []
  complete : ∀ data ∈ payloads, IsPayload data
  all : ∃ tail, buf.drop 133 = records payloads++tail ∧ Ended tail

/-- What is reported of it. -/
def reportOf (out : Report) (reversed : Bool) (payloads : List Bytes) : Report :=
  ⟨if reversed then 1 else 0,keepSizes out.encryptedRecordSizes 0 payloads,payloads.length⟩

section Flight
variable {buf sessionId : Bytes} {reversed : Bool} {out : Report} {fuel : ℕ}

theorem Greets.length (h : Greets buf sessionId reversed) : 133 ≤ buf.length := by
  have hlen := congrArg List.length h.ccs
  simp only [part,List.length_take,List.length_drop,changeCipherSpec,List.length_cons,
    List.length_nil] at hlen
  omega

theorem part_extend {p n : ℕ} (h : p+n ≤ buf.length) (rest : Bytes) :
    part (buf++rest) p n = part buf p n := by
  rw [part,part,List.drop_append_of_le_length (by omega),
    List.take_append_of_le_length (by rw [List.length_drop]; omega)]

theorem ExtensionAt.extend {n p id : ℕ} (h : ExtensionAt buf n p id) (hn : 5+n ≤ buf.length)
    (rest : Bytes) : ExtensionAt (buf++rest) n p id := by
  have hfits := h.fits
  refine ⟨?_,h.known,h.fits,?_⟩
  · rw [part_extend (by omega)]
    exact h.number
  · rw [part_extend (by omega)]
    exact h.length

/-- What follows a greeting does not matter for it. -/
theorem Greets.extend (h : Greets buf sessionId reversed) (rest : Bytes) :
    Greets (buf++rest) sessionId reversed := by
  have hlen := h.length
  have hpart : ∀ p n, p+n ≤ 133 → part (buf++rest) p n = part buf p n := by
    intro p n hpn
    exact part_extend (by omega) rest
  exact
    {hello :=
       {recordType := by rw [hpart 0 3 (by decide)]; exact h.hello.recordType
        length := by rw [hpart 3 2 (by decide)]; exact h.hello.length
        complete := by rw [List.length_append]; omega
        messageType := by rw [hpart 5 2 (by decide)]; exact h.hello.messageType
        version := by rw [hpart 9 2 (by decide)]; exact h.hello.version
        random := by rw [hpart 11 32 (by decide)]; exact h.hello.random
        idLength := by rw [hpart 43 1 (by decide)]; exact h.hello.idLength
        mirrored := by rw [hpart 44 32 (by decide)]; exact h.hello.mirrored
        cipher := by rw [hpart 76 3 (by decide)]; exact h.hello.cipher
        extensionsLength := by rw [hpart 79 2 (by decide)]; exact h.hello.extensionsLength}
     extensions := ⟨h.extensions.1.extend (by omega) rest,h.extensions.2.extend (by omega) rest⟩
     ccs := by rw [hpart 127 6 (by decide)]; exact h.ccs}

theorem checkStart_hello {n : ℕ} (h : StartsHello buf sessionId n) :
    checkStart buf sessionId = .ok (n : ℤ) :=
  ((checkStart_decides buf sessionId).2 _).mpr ⟨n,rfl,h⟩

theorem run_extensions (h : Greets buf sessionId reversed) (hfuel : buf.length < fuel) (first : ℤ) :
    run (extensionPass buf (122 : ℕ)) fuel ⟨81,0,first⟩ =
      .ok ⟨127,0x33+0x2b,if reversed then 1 else 0⟩ := by
  have hlen := h.length
  have hdecides : Decides (run (extensionPass buf (122 : ℕ)) fuel ⟨81,0,first⟩) _ :=
    extensions_decide (by omega) ⟨81,rfl,by decide⟩ fuel (by omega)
  exact (hdecides.2 _).mpr (runs_two (by omega) h.extensions first)

/-- Behind the ChangeCipherSpec only the records are left to decide. -/
theorem check_greets (h : Greets buf sessionId reversed) (hfuel : buf.length < fuel) :
    tlsCheckServerHello buf fuel sessionId out = (do
      let records ← run (recordPass buf) fuel ⟨133,out.encryptedRecordSizes,0⟩
      expect (records.count ≠ 0) "No encrypted application data records"
      pure ⟨if reversed then 1 else 0,records.sizes,records.count⟩) := by
  have hlen := h.length
  have hread : read buf (127 : ℤ) 6 = (.ok changeCipherSpec : Run _) := by
    rw [← h.ccs]
    exact read_eq (p := 127) (by omega)
  rw [tlsCheckServerHello,checkStart_hello h.hello,ok_bind,run_extensions h hfuel,ok_bind]
  dsimp only
  rw [expect_bind rfl,expect_bind (show (127 : ℤ) = 5+(122 : ℕ) from rfl),expect_bind (by omega),hread,ok_bind,expect_bind rfl]
  rfl

theorem check_other (h : ∀ reversed, ¬ Greets buf sessionId reversed) (hfuel : buf.length < fuel) :
    Decides (tlsCheckServerHello buf fuel sessionId out) fun _ => False := by
  unfold tlsCheckServerHello
  apply Decides.never (checkStart_decides buf sessionId)
  rintro _ ⟨n,rfl,hstart⟩
  have hcomplete := hstart.complete
  have hn76 := hstart.extensionsLength
  have hruns : Decides (run (extensionPass buf n) fuel ⟨81,0,out.isReversedExtensionOrder⟩) _ :=
    extensions_decide hcomplete ⟨81,rfl,by omega⟩ fuel (by omega)
  apply Decides.never hruns
  intro s hs
  apply expect_never
  intro hsum
  apply expect_never
  intro hpos
  apply expect_never
  intro hlen
  obtain ⟨rfl,reversed,hexts,rfl⟩ := extensions_two hcomplete (by omega) hs hsum hpos
  apply decides_part (p := 127) (by dsimp only at hlen; omega)
  apply expect_never
  intro hccs
  exact absurd ⟨hstart,hexts,hccs⟩ (h reversed)

/-- No sum that the loop over the records forms misleads it. -/
def RecordsFit (buf sessionId : Bytes) : Prop :=
  ∀ reversed payloads tail, Greets buf sessionId reversed → buf.drop 133 = records payloads++tail →
    (∀ data ∈ payloads, IsPayload data) → Ended tail → EndFits (133+(records payloads).length) tail

/-- In a buffer of a usual size no sum is near the largest `int`. -/
theorem recordsFit_of_lt (hlt : buf.length < 2147418100) : RecordsFit buf sessionId := by
  intro reversed payloads tail h hrest _ _
  have hlen := h.length
  have hword := word_lt (part tail 3 2)
  have htotal := congrArg List.length hrest
  rw [List.length_drop,List.length_append] at htotal
  exact ⟨fun _ _ => .inr (by omega),fun _ => .inl (by omega)⟩

/-- The records that follow a greeting are taken, or bytes outside are read. -/
theorem run_flight {payloads : List Bytes} {tail : Bytes} (hlt : buf.length < 2147483648)
    (h : Greets buf sessionId reversed) (hrest : buf.drop 133 = records payloads++tail)
    (hall : ∀ data ∈ payloads, IsPayload data) (hended : Ended tail) (hfuel : buf.length < fuel) :
    (EndFits (133+(records payloads).length) tail → ∃ pos,
      run (recordPass buf) fuel ⟨133,out.encryptedRecordSizes,0⟩ =
        .ok ⟨pos,keepSizes out.encryptedRecordSizes 0 payloads,payloads.length⟩) ∧
    (¬ EndFits (133+(records payloads).length) tail →
      run (recordPass buf) fuel ⟨133,out.encryptedRecordSizes,0⟩ = .error .outOfBounds) := by
  have hlen := h.length
  have hcount : payloads.length ≤ (records payloads).length := length_le_concat record_ne_nil payloads
  have hpre : (buf.take 133).length = 133 := by
    rw [List.length_take]
    omega
  have hbuf : buf = buf.take 133++(records payloads++tail) := by
    rw [← hrest,List.take_append_drop]
  have htotal := congrArg List.length hbuf
  simp only [List.length_append,hpre] at htotal
  have hrun := run_records payloads hall hended (buf.take 133) (by rw [← hbuf]; exact hlt)
    ⟨133,out.encryptedRecordSizes,0⟩ (by rw [hpre]; rfl) fuel (by omega)
  rw [← hbuf,List.length_append,hpre,Nat.zero_add] at hrun
  exact hrun

theorem check_fits (hlt : buf.length < 2147483648) (hfits : RecordsFit buf sessionId)
    (hfuel : buf.length < fuel) :
    Decides (tlsCheckServerHello buf fuel sessionId out) fun r =>
      ∃ reversed payloads, Flight buf sessionId reversed payloads ∧ r = reportOf out reversed payloads := by
  by_cases hgreets : ∃ reversed, Greets buf sessionId reversed
  · have hrun : ∀ reversed payloads tail, Greets buf sessionId reversed →
        buf.drop 133 = records payloads++tail → (∀ data ∈ payloads, IsPayload data) → Ended tail →
        tlsCheckServerHello buf fuel sessionId out = if payloads.length ≠ 0 then
          .ok (reportOf out reversed payloads)
          else .error (.fail "No encrypted application data records") := by
      intro reversed payloads tail h hrest hall hended
      obtain ⟨pos,hloop⟩ := (run_flight hlt h hrest hall hended hfuel).1
        (hfits reversed payloads tail h hrest hall hended)
      rw [check_greets h hfuel,hloop,ok_bind]
      dsimp only
      by_cases hcount : payloads.length ≠ 0
      · rw [if_pos hcount,expect_bind hcount]
        rfl
      · rw [if_neg hcount,expect,if_neg hcount]
        rfl
    obtain ⟨reversed,h⟩ := hgreets
    obtain ⟨payloads,tail,hrest,hall,hended⟩ :=
      exists_units (fun data (_ : IsPayload data) => record_ne_nil data) (buf.drop 133)
    have heq := hrun reversed payloads tail h hrest hall hended
    constructor
    · rw [heq]
      split_ifs
      · exact sound_ok _
      · exact sound_fail _
    · intro r
      constructor
      · intro hr
        rw [heq] at hr
        split_ifs at hr with hcount
        cases hr
        exact ⟨reversed,payloads,⟨h,by simpa using hcount,hall,tail,hrest,hended⟩,rfl⟩
      · rintro ⟨reversed',payloads',hflight,rfl⟩
        obtain ⟨tail',hrest',hended'⟩ := hflight.all
        rw [hrun reversed' payloads' tail' hflight.greets hrest' hflight.complete hended',
          if_pos (by simpa using hflight.some)]
  · refine (check_other (not_exists.mp hgreets) hfuel).congr fun r => ⟨fun h => h.elim,?_⟩
    rintro ⟨reversed,payloads,hflight,-⟩
    exact hgreets ⟨reversed,hflight.greets⟩

theorem check_misled (hlt : buf.length < 2147483648) (hfits : ¬ RecordsFit buf sessionId)
    (hfuel : buf.length < fuel) :
    tlsCheckServerHello buf fuel sessionId out = .error .outOfBounds := by
  unfold RecordsFit at hfits
  push Not at hfits
  obtain ⟨reversed,payloads,tail,h,hrest,hall,hended,hend⟩ := hfits
  rw [check_greets h hfuel,(run_flight hlt h hrest hall hended hfuel).2 hend]
  rfl

end Flight

/-- Every test of the SNI in `body` that is reached finds its bytes, up to the one that says
no. -/
def NameFits (extensionLength : ℕ) (body : Bytes) : Prop :=
  2 ≤ body.length ∧ (word (part body 0 2)+2 = extensionLength →
    3 ≤ body.length ∧ (part body 2 1 = [0] →
      5 ≤ body.length ∧ (word (part body 3 2)+5 = extensionLength →
        0 ∈ part body 5 (word (part body 3 2)) ∨ 5+word (part body 3 2) ≤ body.length)))

/-- The loop that stands at `e`, in front of `tail`, ends before a sum gets too large or is
not misled by it. -/
def SniEndFits (e : ℕ) (tail : Bytes) : Prop :=
  if tail.length < 4 then e+4 < 2147483648
  else (tail.length < 4+word (part tail 2 2) ∧ e+4+word (part tail 2 2) < 2147483648) ∨
    word (part tail 0 2) = 0 ∧
      (tail.length < 9 ∧ e+9 < 2147483648 ∨ NameFits (word (part tail 2 2)) (tail.drop 4))

section Sni
variable {pre body tail : Bytes} {maxDomainLen : ℤ} {n : ℕ}

theorem noZero_sound (pre body : Bytes) (hlt : (pre++body).length < 2147483648) (n p : ℕ)
    (hp : p ≤ body.length) :
    (0 ∈ part body p n → noZero (pre++body) n ((pre.length+p : ℕ) : ℤ) = .ok false) ∧
    (0 ∉ part body p n → p+n ≤ body.length → noZero (pre++body) n ((pre.length+p : ℕ) : ℤ) = .ok true) ∧
    (0 ∉ part body p n → body.length < p+n →
      noZero (pre++body) n ((pre.length+p : ℕ) : ℤ) = .error .outOfBounds) := by
  induction n generalizing p with
  | zero =>
      refine ⟨fun h => ?_,fun _ _ => rfl,fun _ h => absurd h (by omega)⟩
      simp [part] at h
  | succ n ih =>
      have hlen : (pre++body).length = pre.length+body.length := List.length_append
      rw [noZero]
      by_cases hin : p < body.length
      · have hread : read (pre++body) ((pre.length+p : ℕ) : ℤ) 1 = (.ok (part body p 1) : Run _) :=
          read_tail pre body (by omega)
        have hone : part body p 1 = [body[p]] := by
          rw [part,List.drop_eq_getElem_cons hin]
          rfl
        have hsucc : part body p (n+1) = body[p]::part body (p+1) n := by
          rw [part,List.drop_eq_getElem_cons hin,List.take_succ_cons,part]
        have hnext : wrap (((pre.length+p : ℕ) : ℤ)+1) = ((pre.length+(p+1) : ℕ) : ℤ) := by
          rw [wrap_of_lt (by omega) (by omega)]
          push_cast
          omega
        rw [hread,ok_bind,hone,hsucc,hnext]
        by_cases hzero : body[p] = 0
        · simp [hzero]
          rfl
        · have hzero' : ¬ [body[p]] = [(0 : UInt8)] := by simpa using hzero
          have hmem : 0 ∈ body[p]::part body (p+1) n ↔ 0 ∈ part body (p+1) n := by
            simp [Ne.symm hzero]
          rw [if_neg hzero',hmem,show p+(n+1) = p+1+n by omega]
          exact ih (p+1) (by omega)
      · have hread : read (pre++body) ((pre.length+p : ℕ) : ℤ) 1 = (.error .outOfBounds : Run _) :=
          read_outside (.inr (by omega))
        have hempty : part body p (n+1) = [] := by
          rw [part,List.drop_eq_nil_of_le (by omega),List.take_nil]
        rw [hread,error_bind,hempty]
        refine ⟨fun h => (by cases h),fun _ h => absurd h (by omega),fun _ _ => rfl⟩

theorem length_outside {buf : Bytes} {pos : ℤ} (h : pos < 0 ∨ buf.length < pos+2) :
    tlsReadLength buf pos = .error .outOfBounds := by
  rw [tlsReadLength,read_outside h]
  rfl

theorem length_wrap_outside {buf : Bytes} {p k : ℕ} (hlt : buf.length < 2147483648)
    (hp : p ≤ buf.length) (hk : k < 2147483648) (h : buf.length < p+k+2) :
    tlsReadLength buf (wrap ((p : ℤ)+k)) = .error .outOfBounds := by
  rw [tlsReadLength,read_wrap_outside hlt hp hk h]
  rfl

/-- Behind the last test the domain is read only when all of it is there. -/
theorem sniDomain_sound (hlt : (pre++body).length < 2147483648) (h5 : 5 ≤ body.length) :
    Sound (noZero (pre++body) n ((pre.length+5 : ℕ) : ℤ) >>= fun clean =>
      if clean = false then pure none
      else if (n : ℤ) ≥ maxDomainLen ∨ (n : ℤ) ≤ 0 then pure none
      else read (pre++body) ((pre.length+5 : ℕ) : ℤ) n >>= fun domain =>
        (pure (some domain) : Run (Option Bytes))) ↔
      0 ∈ part body 5 n ∨ 5+n ≤ body.length := by
  obtain ⟨hdirty,hclean,houtside⟩ := noZero_sound pre body hlt n 5 h5
  by_cases hzero : 0 ∈ part body 5 n
  · rw [hdirty hzero,ok_bind,if_pos rfl]
    exact ⟨fun _ => .inl hzero,fun _ => sound_ok _⟩
  · by_cases hfits : 5+n ≤ body.length
    · rw [hclean hzero hfits,ok_bind,if_neg (by decide),read_tail pre body hfits,ok_bind]
      refine ⟨fun _ => .inr hfits,fun _ => ?_⟩
      split_ifs <;> exact sound_ok _
    · rw [houtside hzero (by omega),error_bind]
      exact ⟨fun h => absurd h not_sound_outOfBounds,fun h => (h.elim hzero hfits).elim⟩

theorem sniName_sound (hlt : (pre++body).length < 2147483648) :
    Sound (sniName (pre++body) maxDomainLen n pre.length) ↔
      body.length < 5 ∧ pre.length+5 < 2147483648 ∨ NameFits n body := by
  have hlen : (pre++body).length = pre.length+body.length := List.length_append
  by_cases hearly : body.length < 5 ∧ pre.length+5 < 2147483648
  · rw [sniName,wrap_of_lt (by omega) (by omega),if_pos (by omega)]
    exact ⟨fun _ => .inl hearly,fun _ => sound_ok _⟩
  have hgo : ¬ wrap ((pre.length : ℤ)+5) > (pre++body).length := by
    by_cases h5 : 5 ≤ body.length
    · rw [wrap_of_lt (by omega) (by omega)]
      omega
    · rw [wrap_of_ge (by omega) (by omega)]
      omega
  rw [sniName,if_neg hgo,or_iff_right hearly,NameFits]
  by_cases h2 : 2 ≤ body.length
  swap
  · rw [length_outside (.inr (by omega)),error_bind]
    exact ⟨fun h => absurd h not_sound_outOfBounds,fun h => absurd h.1 h2⟩
  have hinner : tlsReadLength (pre++body) (pre.length : ℤ) = .ok (word (part body 0 2) : ℤ) :=
    length_tail pre body (p := 0) (by omega)
  rw [hinner,ok_bind]
  by_cases hw : word (part body 0 2)+2 = n
  swap
  · rw [if_pos (by omega)]
    exact ⟨fun _ => ⟨h2,fun h => absurd h hw⟩,fun _ => sound_ok _⟩
  rw [if_neg (by omega)]
  by_cases h3 : 3 ≤ body.length
  swap
  · have houtside : read (pre++body) (wrap ((pre.length : ℤ)+2)) 1 = (.error .outOfBounds : Run _) :=
      read_wrap_outside (k := 2) hlt (by omega) (by omega) (by omega)
    rw [houtside,error_bind]
    exact ⟨fun h => absurd h not_sound_outOfBounds,fun h => absurd (h.2 hw).1 h3⟩
  have hthird : wrap ((pre.length : ℤ)+2) = ((pre.length+2 : ℕ) : ℤ) := by
    rw [wrap_of_lt (by omega) (by omega)]
    rfl
  rw [hthird,read_tail pre body (by omega),ok_bind]
  by_cases htype : part body 2 1 = [0]
  swap
  · rw [if_pos htype]
    exact ⟨fun _ => ⟨h2,fun _ => ⟨h3,fun h => absurd h htype⟩⟩,fun _ => sound_ok _⟩
  rw [if_neg (by simpa using htype)]
  by_cases h5 : 5 ≤ body.length
  swap
  · have houtside : tlsReadLength (pre++body) (wrap ((pre.length : ℤ)+3)) = .error .outOfBounds :=
      length_wrap_outside (k := 3) hlt (by omega) (by omega) (by omega)
    rw [houtside,error_bind]
    exact ⟨fun h => absurd h not_sound_outOfBounds,fun h => absurd ((h.2 hw).2 htype).1 h5⟩
  have hfourth : wrap ((pre.length : ℤ)+3) = ((pre.length+3 : ℕ) : ℤ) := by
    rw [wrap_of_lt (by omega) (by omega)]
    rfl
  have hfifth : wrap ((pre.length : ℤ)+5) = ((pre.length+5 : ℕ) : ℤ) := by
    rw [wrap_of_lt (by omega) (by omega)]
    rfl
  rw [hfourth,length_tail pre body (by omega),ok_bind,hfifth]
  by_cases hdomain : word (part body 3 2)+5 = n
  swap
  · rw [if_pos (by omega)]
    exact ⟨fun _ => ⟨h2,fun _ => ⟨h3,fun _ => ⟨h5,fun h => absurd h hdomain⟩⟩⟩,fun _ => sound_ok _⟩
  rw [if_neg (by omega),Int.toNat_natCast]
  refine (sniDomain_sound hlt h5).trans ⟨?_,?_⟩
  · intro h
    exact ⟨h2,fun _ => ⟨h3,fun _ => ⟨h5,fun _ => h⟩⟩⟩
  · intro h
    exact ((h.2 hw).2 htype).2 hdomain

/-- An extension with its number. -/
def extension (x : ℕ × Bytes) : Bytes :=
  [UInt8.ofNat (x.1/256),UInt8.ofNat x.1,UInt8.ofNat (x.2.length/256),UInt8.ofNat x.2.length]++x.2

/-- An extension other than the SNI. -/
def IsOther (x : ℕ × Bytes) : Prop := x.1 ≠ 0 ∧ x.1 < 65536 ∧ x.2.length < 65536

/-- No complete extension other than the SNI comes next. -/
def SniEnded (tail : Bytes) : Prop := ¬ ∃ x rest, IsOther x ∧ tail = extension x++rest

theorem extension_ne_nil (x : ℕ × Bytes) : extension x ≠ [] := by
  intro hnil
  cases hnil

theorem length_extension (x : ℕ × Bytes) : (extension x).length = 4+x.2.length := by
  simp [extension]
  omega

/-- A tail that holds what its length field says is an extension. -/
theorem extension_of_word (hid : word (part tail 0 2) ≠ 0) (h4 : 4 ≤ tail.length)
    (hlen : 4+word (part tail 2 2) ≤ tail.length) : ¬ SniEnded tail := by
  obtain ⟨data,hdata,hsplit⟩ := split_word (p := 2) hlen
  have hlt := word_lt (part tail 2 2)
  have htake : tail.take 2 = [UInt8.ofNat (word (part tail 0 2)/256),UInt8.ofNat (word (part tail 0 2))] := by
    rw [pair_word (length_part (by omega))]
    rfl
  intro hended
  apply hended
  refine ⟨(word (part tail 0 2),data),tail.drop (2+2+word (part tail 2 2)),⟨hid,word_lt _,by dsimp only; omega⟩,?_⟩
  rw [htake] at hsplit
  exact hsplit

/-- A pass with a complete header in front of it. -/
theorem sniPass_header (hlt : (pre++tail).length < 2147483648) (h4 : 4 ≤ tail.length) :
    sniPass (pre++tail) maxDomainLen pre.length =
      if wrap (((pre++tail.take 4).length : ℤ)+word (part tail 2 2)) > (pre++tail).length then
        .ok (.leave none)
      else if word (part tail 0 2) = 0 then
        sniName (pre++tail) maxDomainLen (word (part tail 2 2)) (pre++tail.take 4).length >>=
          fun domain => pure (.leave domain)
      else .ok (.again (wrap (((pre++tail.take 4).length : ℤ)+word (part tail 2 2)))) := by
  have hlen : (pre++tail).length = pre.length+tail.length := List.length_append
  have hfour : (pre++tail.take 4).length = pre.length+4 := by
    rw [List.length_append,List.length_take,Nat.min_eq_left h4]
  have hnext : wrap ((pre.length : ℤ)+4) = ((pre.length+4 : ℕ) : ℤ) := by
    rw [wrap_of_lt (by omega) (by omega)]
    rfl
  have hid : tlsReadLength (pre++tail) (pre.length : ℤ) = .ok (word (part tail 0 2) : ℤ) :=
    length_tail pre tail (p := 0) (by omega)
  have hsecond : wrap ((pre.length : ℤ)+2) = ((pre.length+2 : ℕ) : ℤ) := by
    rw [wrap_of_lt (by omega) (by omega)]
    rfl
  rw [sniPass,hnext,if_neg (by omega),hid,ok_bind,hsecond,length_tail pre tail (by omega),ok_bind,hfour]
  simp only [Int.natCast_eq_zero]
  rfl

theorem sniPass_short (hlt : (pre++tail).length < 2147483648) (h4 : tail.length < 4) :
    sniPass (pre++tail) maxDomainLen pre.length =
      if pre.length+4 < 2147483648 then .ok (.leave none) else .error .outOfBounds := by
  have hlen : (pre++tail).length = pre.length+tail.length := List.length_append
  rw [sniPass]
  by_cases hsmall : pre.length+4 < 2147483648
  · rw [wrap_of_lt (by omega) (by omega),if_pos (by omega),if_pos hsmall]
    rfl
  · rw [wrap_of_ge (by omega) (by omega),if_neg (by omega),if_neg hsmall]
    have hlength : tlsReadLength (pre++tail) (wrap ((pre.length : ℤ)+2)) = .error .outOfBounds :=
      length_wrap_outside (k := 2) hlt (by omega) (by omega) (by omega)
    by_cases h2 : 2 ≤ tail.length
    · have hid : tlsReadLength (pre++tail) (pre.length : ℤ) = .ok (word (part tail 0 2) : ℤ) :=
        length_tail pre tail (p := 0) (by omega)
      rw [hid,ok_bind,hlength]
      rfl
    · rw [length_outside (.inr (by omega))]
      rfl

theorem sniPass_negative {buf : Bytes} {pos : ℤ} (hneg : pos < -4) (hlow : -2147483648 ≤ pos) :
    sniPass buf maxDomainLen pos = .error .outOfBounds := by
  rw [sniPass,wrap_of_lt (by omega) (by omega),if_neg (by omega),length_outside (.inl (by omega))]
  rfl

theorem sniPass_extension {x : ℕ × Bytes} {rest : Bytes} (hx : IsOther x)
    (hlt : (pre++(extension x++rest)).length < 2147483648) :
    sniPass (pre++(extension x++rest)) maxDomainLen pre.length =
      .ok (.again ((pre++extension x).length : ℤ)) := by
  have hext := length_extension x
  have hlen : (pre++(extension x++rest)).length = pre.length+(4+x.2.length+rest.length) := by
    rw [List.length_append,List.length_append,hext]
  have hid : word (part (extension x++rest) 0 2) = x.1 := word_pair hx.2.1
  have hlength : word (part (extension x++rest) 2 2) = x.2.length := word_pair hx.2.2
  have hfour : (pre++(extension x++rest).take 4).length = pre.length+4 := by
    rw [List.length_append,List.length_take,List.length_append]
    omega
  have hnext : wrap (((pre.length+4 : ℕ) : ℤ)+x.2.length) = ((pre++extension x).length : ℤ) := by
    rw [wrap_of_lt (by omega) (by omega),List.length_append,hext]
    push_cast
    omega
  rw [sniPass_header hlt (by rw [List.length_append]; omega),hid,hlength,hfour,hnext,
    if_neg (by rw [List.length_append]; omega),if_neg hx.1]

/-- A pass that ends the loop with the result of `x`. -/
theorem run_of_bind {body : ℤ → Run (Pass ℤ (Option Bytes))} {pos : ℤ} {x : Run (Option Bytes)} {fuel : ℕ}
    (h : body pos = x >>= fun r => pure (.leave r)) : run body (fuel+1) pos = x := by
  cases x with
  | error e => exact run_error h fuel
  | ok r => exact run_leave h fuel

/-- At the end of the other extensions the loop ends or runs into bytes outside. -/
theorem sni_ended (hlt : (pre++tail).length < 2147483648) (hended : SniEnded tail) (fuel : ℕ) :
    Sound (run (sniPass (pre++tail) maxDomainLen) (fuel+2) pre.length) ↔ SniEndFits pre.length tail := by
  have hlen : (pre++tail).length = pre.length+tail.length := List.length_append
  by_cases h4 : tail.length < 4
  · have hpass : sniPass (pre++tail) maxDomainLen pre.length = _ := sniPass_short hlt h4
    rw [SniEndFits,if_pos h4]
    by_cases hsmall : pre.length+4 < 2147483648
    · rw [if_pos hsmall] at hpass
      rw [run_leave hpass]
      exact ⟨fun _ => hsmall,fun _ => sound_ok _⟩
    · rw [if_neg hsmall] at hpass
      rw [run_error hpass]
      exact ⟨fun h => absurd h not_sound_outOfBounds,fun h => absurd h hsmall⟩
  have hpass : sniPass (pre++tail) maxDomainLen pre.length = _ := sniPass_header hlt (by omega)
  have hword := word_lt (part tail 2 2)
  have hfour : (pre++tail.take 4).length = pre.length+4 := by
    rw [List.length_append,List.length_take,Nat.min_eq_left (by omega)]
  rw [SniEndFits,if_neg h4]
  by_cases hshort : tail.length < 4+word (part tail 2 2) ∧ pre.length+4+word (part tail 2 2) < 2147483648
  · rw [hfour,wrap_of_lt (by omega) (by omega),if_pos (by omega)] at hpass
    rw [run_leave hpass]
    exact ⟨fun _ => .inl hshort,fun _ => sound_ok _⟩
  have hgo : ¬ wrap (((pre++tail.take 4).length : ℤ)+word (part tail 2 2)) > (pre++tail).length := by
    rw [hfour]
    by_cases hsmall : pre.length+4+word (part tail 2 2) < 2147483648
    · rw [wrap_of_lt (by omega) (by omega)]
      omega
    · rw [wrap_of_ge (by omega) (by omega)]
      omega
  rw [if_neg hgo] at hpass
  rw [or_iff_right hshort]
  by_cases hid : word (part tail 0 2) = 0
  · have hsplit : (pre++tail.take 4)++tail.drop 4 = pre++tail := by
      rw [List.append_assoc,List.take_append_drop]
    have hname : Sound (sniName ((pre++tail.take 4)++tail.drop 4) maxDomainLen (word (part tail 2 2))
        (pre++tail.take 4).length) ↔ _ := sniName_sound (by rw [hsplit]; exact hlt)
    rw [hsplit,List.length_drop,hfour] at hname
    rw [if_pos hid,hfour] at hpass
    rw [run_of_bind hpass,hname,and_iff_right hid]
    exact or_congr_left (and_congr (by omega) (by omega))
  · have hlong : tail.length < 4+word (part tail 2 2) := by
      by_contra h
      exact extension_of_word hid (by omega) (by omega) hended
    rw [if_neg hid,hfour,wrap_of_ge (by omega) (by omega)] at hpass
    rw [run_again hpass,run_error (sniPass_negative (by omega) (by omega))]
    exact ⟨fun h => absurd h not_sound_outOfBounds,fun h => absurd h.1 hid⟩

theorem sni_extensions (xs : List (ℕ × Bytes)) (hall : ∀ x ∈ xs, IsOther x) (hended : SniEnded tail)
    (pre : Bytes) (hlt : (pre++(concat extension xs++tail)).length < 2147483648) (fuel : ℕ)
    (hfuel : xs.length+2 ≤ fuel) :
    Sound (run (sniPass (pre++(concat extension xs++tail)) maxDomainLen) fuel pre.length) ↔
      SniEndFits (pre++concat extension xs).length tail := by
  induction xs generalizing pre fuel with
  | nil =>
      obtain ⟨fuel,rfl⟩ := Nat.exists_eq_add_of_le' hfuel
      simpa [concat] using sni_ended hlt hended fuel
  | cons x xs ih =>
      obtain ⟨fuel,rfl⟩ := Nat.exists_eq_add_of_le' hfuel
      rw [List.forall_mem_cons] at hall
      have hsplit : pre++(concat extension (x::xs)++tail) =
          pre++(extension x++(concat extension xs++tail)) := by simp [concat]
      have hassoc : pre++(extension x++(concat extension xs++tail)) =
          (pre++extension x)++(concat extension xs++tail) := by simp
      have hend : pre++concat extension (x::xs) = (pre++extension x)++concat extension xs := by
        simp [concat]
      rw [hsplit] at hlt
      rw [hsplit,hend,show fuel+((x::xs).length+2) = (fuel+(xs.length+2))+1 from rfl,
        run_again (sniPass_extension hall.1 hlt),hassoc]
      rw [hassoc] at hlt
      exact ih hall.2 (pre++extension x) hlt (fuel+(xs.length+2)) (by omega)

/-- Where the extensions of a ClientHello begin. -/
def extensionsStart (buf : Bytes) : ℕ := 82+word (part buf 76 2)

/-- No sum that the loop over the extensions forms misleads it. -/
def SniFits (buf : Bytes) : Prop :=
  ∀ xs tail, extensionsStart buf ≤ buf.length →
    buf.drop (extensionsStart buf) = concat extension xs++tail → (∀ x ∈ xs, IsOther x) →
    SniEnded tail → SniEndFits (extensionsStart buf+(concat extension xs).length) tail

/-- Only a buffer of nearly 2^31 bytes can leave the condition. -/
theorem sniFits_of_lt {buf : Bytes} (hlt : buf.length < 2147418100) : SniFits buf := by
  intro xs tail hstart hrest _ hended
  have hword := word_lt (part tail 2 2)
  have htotal := congrArg List.length hrest
  rw [List.length_drop,List.length_append] at htotal
  rw [SniEndFits]
  split_ifs with h4
  · omega
  · by_cases hshort : tail.length < 4+word (part tail 2 2)
    · exact .inl ⟨hshort,by omega⟩
    · have hid : word (part tail 0 2) = 0 := by
        by_contra hid
        exact extension_of_word hid (by omega) (by omega) hended
      have hbody : (tail.drop 4).length = tail.length-4 := List.length_drop
      refine .inr ⟨hid,?_⟩
      by_cases h9 : tail.length < 9
      · exact .inl ⟨h9,by omega⟩
      · exact .inr ⟨by omega,fun _ => ⟨by omega,fun _ => ⟨by omega,fun _ => .inr (by omega)⟩⟩⟩

theorem tlsParseSni_sound {buf : Bytes} (hlt : buf.length < 2147483648) {fuel : ℕ} (hfuel : buf.length < fuel) :
    Sound (tlsParseSni buf fuel maxDomainLen) ↔ SniFits buf := by
  rw [tlsParseSni]
  dsimp only
  by_cases h78 : buf.length < 78
  · have hstart : ¬ extensionsStart buf ≤ buf.length := by
      rw [extensionsStart]
      omega
    rw [if_pos (by omega)]
    exact ⟨fun _ _ _ h => absurd h hstart,fun _ => sound_ok _⟩
  rw [if_neg (by omega),show (11+32+1+32 : ℤ) = ((76 : ℕ) : ℤ) from rfl,
    tlsReadLength_eq (p := 76) (by omega),ok_bind]
  by_cases hstart : extensionsStart buf ≤ buf.length
  swap
  · rw [if_pos (by rw [extensionsStart] at hstart; omega)]
    exact ⟨fun _ _ _ h => absurd h hstart,fun _ => sound_ok _⟩
  have hpos : ((76 : ℕ) : ℤ)+2+((word (part buf 76 2) : ℤ)+4) = (extensionsStart buf : ℕ) := by
    rw [extensionsStart]
    push_cast
    omega
  have hpre : (buf.take (extensionsStart buf)).length = extensionsStart buf := by
    rw [List.length_take]
    omega
  have hloop : ∀ xs tail, buf.drop (extensionsStart buf) = concat extension xs++tail →
      (∀ x ∈ xs, IsOther x) → SniEnded tail →
      (Sound (run (sniPass buf maxDomainLen) fuel (extensionsStart buf : ℕ)) ↔
        SniEndFits (extensionsStart buf+(concat extension xs).length) tail) := by
    intro xs tail hrest hall hended
    have hcount := length_le_concat extension_ne_nil xs
    have hbuf : buf = buf.take (extensionsStart buf)++(concat extension xs++tail) := by
      rw [← hrest,List.take_append_drop]
    have htotal := congrArg List.length hbuf
    simp only [List.length_append,hpre] at htotal
    have hstart78 : 78 ≤ extensionsStart buf := by
      rw [extensionsStart]
      omega
    have hrun : Sound (run (sniPass _ maxDomainLen) fuel _) ↔ _ :=
      sni_extensions xs hall hended (buf.take (extensionsStart buf))
      (by rw [← hbuf]; exact hlt) fuel (by omega)
    rw [← hbuf,List.length_append,hpre] at hrun
    exact hrun
  rw [hpos,if_neg (by omega)]
  constructor
  · intro hsound xs tail _ hrest hall hended
    exact (hloop xs tail hrest hall hended).mp hsound
  · intro hfits
    obtain ⟨xs,tail,hrest,hall,hended⟩ :=
      exists_units (fun x (_ : IsOther x) => extension_ne_nil x) (buf.drop (extensionsStart buf))
    exact (hloop xs tail hrest hall hended).mpr (hfits xs tail hstart hrest hall hended)

end Sni

section Ciphers
variable {buf : Bytes} {left p : ℕ}

/-- What is left lies in the buffer. -/
def Left (buf : Bytes) (s : ℤ × ℤ) : Prop := ∃ left p : ℕ, s = ((left : ℤ),(p : ℤ)) ∧ p+left ≤ buf.length

theorem greasePass_cases {s : ℤ × ℤ} (hs : Left buf s) :
    greasePass buf s = .ok (.leave s) ∨
      ∃ s', greasePass buf s = .ok (.again s') ∧ Left buf s' ∧ s'.1.toNat < s.1.toNat := by
  obtain ⟨left,p,rfl,h⟩ := hs
  rw [greasePass]
  by_cases h2 : 2 ≤ left
  · have hsecond : read buf ((p : ℤ)+1) 1 = (.ok (part buf (p+1) 1) : Run _) := read_eq (p := p+1) (by omega)
    dsimp only
    rw [if_pos (by omega),read_eq (by omega),ok_bind,hsecond,ok_bind]
    split_ifs
    · right
      refine ⟨_,rfl,⟨left-2,p+2,?_,by omega⟩,by dsimp only; omega⟩
      rw [Nat.cast_sub h2]
      rfl
    · exact .inl rfl
    · exact .inl rfl
  · rw [if_neg (by dsimp only; omega)]
    exact .inl rfl

theorem left_of_runs {s r : ℤ × ℤ} (hs : Left buf s) (h : Runs (greasePass buf) s r) : Left buf r := by
  induction h with
  | leave hr =>
      rcases greasePass_cases hs with hleave | ⟨s',hagain,-⟩
      · cases hr.symm.trans hleave
        exact hs
      · cases hr.symm.trans hagain
  | again hr _ ih =>
      rcases greasePass_cases hs with hleave | ⟨s',hagain,hnext,-⟩
      · cases hr.symm.trans hleave
      · cases hr.symm.trans hagain
        exact ih hnext

theorem grease_decides {s : ℤ × ℤ} (hs : Left buf s) {fuel : ℕ} (hfuel : buf.length < fuel) :
    Decides (run (greasePass buf) fuel s) (Runs (greasePass buf) s) := by
  apply decides_run (Left buf) (fun s => s.1.toNat)
  · intro s hs
    rcases greasePass_cases hs with hleave | ⟨s',hagain,-⟩
    · rw [hleave]
      exact sound_ok _
    · rw [hagain]
      exact sound_ok _
  · intro s s' hs hagain
    rcases greasePass_cases hs with hleave | ⟨s'',hagain',hnext⟩
    · cases hagain.symm.trans hleave
    · cases hagain.symm.trans hagain'
      exact hnext
  · exact hs
  · obtain ⟨left,p,rfl,h⟩ := hs
    dsimp only
    omega

/-- The positions here are sums of two bytes, and always inside. -/
theorem ciphers_sound (buf : Bytes) {fuel : ℕ} (hfuel : buf.length < fuel) :
    Sound (tlsParseClientHelloCiphers buf fuel) := by
  rw [tlsParseClientHelloCiphers]
  dsimp only
  by_cases h78 : buf.length < 78
  · rw [if_pos (by omega)]
    exact sound_ok _
  rw [if_neg (by omega),show (76 : ℤ) = ((76 : ℕ) : ℤ) from rfl,tlsReadLength_eq (by omega),ok_bind]
  by_cases hfits : 78+word (part buf 76 2) ≤ buf.length
  swap
  · rw [if_pos (by omega)]
    exact sound_ok _
  rw [if_neg (by omega)]
  have hstart : Left buf ((word (part buf 76 2) : ℤ),((76 : ℕ) : ℤ)+2) := ⟨_,78,rfl,by omega⟩
  apply (grease_decides hstart hfuel).sound_bind
  intro s hs
  obtain ⟨left,p,rfl,hleft⟩ := left_of_runs hstart hs
  dsimp only
  by_cases h1 : left ≤ 1
  · rw [if_pos (by omega)]
    exact sound_ok _
  have hsecond : read buf ((p : ℤ)+1) 1 = (.ok (part buf (p+1) 1) : Run _) := read_eq (p := p+1) (by omega)
  rw [if_neg (by omega),read_eq (by omega),ok_bind,hsecond,ok_bind]
  split_ifs <;> exact sound_ok _

end Ciphers

/-- What the caller is told of a flight; entries behind the last record stay as they were. -/
structure Reports (out r : Report) (reversed : Bool) (payloads : List Bytes) : Prop where
  order : r.isReversedExtensionOrder = if reversed then 1 else 0
  count : r.encryptedRecordCount = payloads.length
  sizes : r.encryptedRecordSizes.toList =
    (payloads.take maxEncryptedRecords).map (fun data => (data.length : ℤ))++
      out.encryptedRecordSizes.toList.drop payloads.length

theorem reports_iff {out r : Report} {reversed : Bool} {payloads : List Bytes} :
    Reports out r reversed payloads ↔ r = reportOf out reversed payloads := by
  have hsizes := toList_keepSizes payloads out.encryptedRecordSizes 0
  rw [List.take_zero,List.nil_append,Nat.sub_zero,Nat.zero_add] at hsizes
  constructor
  · intro h
    obtain ⟨order,sizes,count⟩ := r
    obtain ⟨rfl,rfl,hlist⟩ := h
    have heq : sizes = keepSizes out.encryptedRecordSizes 0 payloads :=
      Vector.toList_inj.mp (hlist.trans hsizes.symm)
    rw [heq]
    rfl
  · rintro rfl
    exact ⟨rfl,rfl,hsizes⟩

/-- No parser reads outside the buffer or runs for ever, and the ServerHello is accepted
and reported as it should be. -/
def ParsersExact (buf : Input) (sessionId : Bytes) (out : Report) (maxDomainLen : ℤ) : Prop :=
  ∀ fuel, buf.bytes.length < fuel →
    (Decides (tlsCheckServerHello buf.bytes fuel sessionId out) fun r => ∃ reversed payloads,
      Flight buf.bytes sessionId reversed payloads ∧ Reports out r reversed payloads) ∧
    Sound (tlsParseSni buf.bytes fuel maxDomainLen) ∧
    Sound (tlsParseClientHelloCiphers buf.bytes fuel)

/-- The parsers are exact on the buffers in which the loops stop before the sum of a position
and a length gets larger than an `int`, or do not care. -/
theorem tls_parsers_iff (buf : Input) (sessionId : Bytes) (out : Report) (maxDomainLen : ℤ) :
    ParsersExact buf sessionId out maxDomainLen ↔ RecordsFit buf.bytes sessionId ∧ SniFits buf.bytes := by
  constructor
  · intro hexact
    obtain ⟨hcheck,hsni,-⟩ := hexact (buf.bytes.length+1) (by omega)
    constructor
    · by_contra hfits
      have hsound := hcheck.1
      rw [check_misled buf.length_lt hfits (by omega)] at hsound
      exact not_sound_outOfBounds hsound
    · exact (tlsParseSni_sound buf.length_lt (by omega)).mp hsni
  · intro ⟨hrecords,hsni⟩ fuel hfuel
    refine ⟨?_,(tlsParseSni_sound buf.length_lt hfuel).mpr hsni,ciphers_sound buf.bytes hfuel⟩
    simp only [reports_iff]
    exact check_fits buf.length_lt hrecords hfuel

def sampleGreeting : Bytes :=
  [0x16,0x03,0x03,0x00,0x7a,0x02,0x00,0x00,0x76,0x03,0x03]++List.replicate 32 0++[0x20]++
    List.replicate 32 1++[0x13,0x01,0x00,0x00,0x2e]++
    [0x00,0x33,0x00,0x24]++List.replicate 36 0++[0x00,0x2b,0x00,0x02,0x03,0x04]++changeCipherSpec

theorem length_sampleGreeting : sampleGreeting.length = 133 := by
  simp [sampleGreeting,changeCipherSpec]

theorem sampleGreeting_greets : Greets sampleGreeting (List.replicate 32 1) false where
  hello :=
    {recordType := rfl
     length := rfl
     complete := by rw [length_sampleGreeting]; omega
     messageType := rfl
     version := rfl
     random := fun h => absurd (congrArg List.head? h) (by decide)
     idLength := rfl
     mirrored := rfl
     cipher := rfl
     extensionsLength := rfl}
  extensions := ⟨⟨rfl,by decide,by decide,rfl⟩,⟨rfl,by decide,by decide,rfl⟩⟩
  ccs := rfl

/-- Records that fill a buffer up to the largest `int`. -/
def hugePayloads : List Bytes :=
  List.replicate 32765 (List.replicate 65535 0)++[List.replicate 65409 0]

theorem length_concat_replicate (n : ℕ) (data : Bytes) :
    (records (List.replicate n data)).length = n*(5+data.length) := by
  rw [records,concat,List.map_replicate,List.length_flatten,List.map_replicate,List.sum_replicate,
    length_record,smul_eq_mul]

theorem records_append (xs ys : List Bytes) : records (xs++ys) = records xs++records ys := by
  rw [records,concat,List.map_append,List.flatten_append]
  rfl

theorem length_hugeRecords : (records hugePayloads).length = 2147483514 := by
  have hlast : (records [List.replicate 65409 0]).length = 1*(5+65409) := by
    have h := length_concat_replicate 1 (List.replicate 65409 0)
    rw [List.length_replicate] at h
    exact h
  rw [hugePayloads,records_append,List.length_append,length_concat_replicate,List.length_replicate,hlast]

def hugeFlight : Input where
  bytes := sampleGreeting++records hugePayloads
  length_lt := by
    rw [List.length_append,length_sampleGreeting,length_hugeRecords]
    decide

theorem hugePayloads_good : ∀ data ∈ hugePayloads, IsPayload data := by
  intro data hdata
  rw [hugePayloads,List.mem_append,List.mem_replicate,List.mem_singleton] at hdata
  rcases hdata with ⟨-,rfl⟩ | rfl
  · exact ⟨fun h => absurd (congrArg List.length h) (by rw [List.length_replicate]; decide),
      by rw [List.length_replicate]; decide⟩
  · exact ⟨fun h => absurd (congrArg List.length h) (by rw [List.length_replicate]; decide),
      by rw [List.length_replicate]; decide⟩

/-- Every byte of the buffer is part of a good flight. Behind the last record the loop looks
for another one, three bytes outside. -/
theorem huge_flight_overrun : hugeFlight.bytes.length = 2147483647 ∧ ∀ out,
    Flight hugeFlight.bytes (List.replicate 32 1) false hugePayloads ∧
    tlsCheckServerHello hugeFlight.bytes 2147483648 (List.replicate 32 1) out = .error .outOfBounds ∧
    ¬ ParsersExact hugeFlight (List.replicate 32 1) out 256 := by
  have hlen : hugeFlight.bytes.length = 2147483647 := by
    rw [hugeFlight,List.length_append,length_sampleGreeting,length_hugeRecords]
  have hgreets : Greets hugeFlight.bytes (List.replicate 32 1) false :=
    sampleGreeting_greets.extend (records hugePayloads)
  have hrest : hugeFlight.bytes.drop 133 = records hugePayloads++[] := by
    rw [hugeFlight,List.append_nil,← length_sampleGreeting,List.drop_left]
  have hfits : ¬ RecordsFit hugeFlight.bytes (List.replicate 32 1) := by
    intro hfits
    have hend := (hfits false hugePayloads [] hgreets hrest hugePayloads_good ended_nil).2 (by decide)
    rw [length_hugeRecords] at hend
    rcases hend with h | h
    · omega
    · exact absurd h.1 (by decide)
  refine ⟨hlen,fun out => ⟨⟨hgreets,?_,hugePayloads_good,[],hrest,ended_nil⟩,?_,?_⟩⟩
  · rw [hugePayloads]
    exact List.append_ne_nil_of_right_ne_nil _ (List.cons_ne_nil _ _)
  · exact check_misled hugeFlight.length_lt hfits (by omega)
  · intro hexact
    have hsound := (hexact 2147483648 (by omega)).1.1
    rw [check_misled hugeFlight.length_lt hfits (by omega)] at hsound
    exact not_sound_outOfBounds hsound

end Teleproxy.TlsParse
