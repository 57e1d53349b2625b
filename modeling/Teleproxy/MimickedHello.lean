import Teleproxy.TlsParse

/-!
# The ServerHello that is sent to a client

At the start `update_domain_info` probes the server of a domain twenty times and keeps how
many encrypted bytes it sends, as a `short`, and whether that number has to be varied. With
this `tcp_rpcs_compact_parse_execute` answers a ClientHello: a ServerHello, a
ChangeCipherSpec and one record of random bytes, in a block of memory that it fills at fixed
positions. Writing outside the block and failed assertions end the model.

The mean of the probes is computed with doubles; the sums are far too small for rounding to
make a difference, so it is the rounded quotient here. The HMAC is a parameter.
-/
namespace Teleproxy.MimickedHello
open ClientInput (Bytes)
open Buffer TlsParse

def tries : ℕ := 20

/-- A report of `tls_check_server_hello`. -/
structure Probe where
  report : Report
  reported : ∃ (buf : Input) (fuel : ℕ) (sessionId : Bytes) (out : Report), buf.bytes.length < fuel ∧
    tlsCheckServerHello buf.bytes fuel sessionId out = .ok report

/-- The sum over the records that were recorded. -/
def totalEncrypted (r : Report) : ℤ := (r.encryptedRecordSizes.toList.take r.encryptedRecordCount).sum

structure DomainInfo where
  serverHelloEncryptedSize : BitVec 16
  useRandomEncryptedSize : Bool
  isReversedExtensionOrder : BitVec 8
  deriving DecidableEq, Repr

def smallest (xs : List ℤ) : ℤ := xs.tail.foldl (fun m x => if x < m then x else m) (xs.headD 0)

def largest (xs : List ℤ) : ℤ := xs.tail.foldl (fun m x => if x > m then x else m) (xs.headD 0)

/-- What `update_domain_info` keeps of the probes, in the order in which they finish. -/
def updateDomainInfo (probes : Vector Probe tries) : DomainInfo :=
  let totals := probes.toList.map fun p => totalEncrypted p.report
  let order := BitVec.ofInt 8 (smallest (probes.toList.map fun p => p.report.isReversedExtensionOrder))
  if smallest totals = largest totals then ⟨.ofInt 16 (smallest totals),false,order⟩
  else if largest totals-smallest totals ≤ 3 then ⟨.ofInt 16 (largest totals-1),true,order⟩
  else ⟨.ofInt 16 ((totals.sum+10)/20),true,order⟩

def noiseRange : ℕ := 65
def noiseOffset : ℤ := 32
def encryptedMinSize : ℤ := 1000

/-- `get_domain_server_hello_encrypted_size`, for a result of `rand`. -/
def getDomainServerHelloEncryptedSize (info : DomainInfo) (rand : ℕ) : ℤ :=
  let base := info.serverHelloEncryptedSize.toInt
  if info.useRandomEncryptedSize then
    let noise : ℤ := (rand%noiseRange : ℕ)-noiseOffset
    let size := base+noise
    if size < encryptedMinSize then encryptedMinSize else size
  else base

/-- Everything that is drawn for an answer. -/
structure Draws where
  rand : ℕ
  publicKey : Vector UInt8 32
  bytes : ℕ → UInt8

/-- What is known of the client. -/
structure Client where
  random : Vector UInt8 32
  sessionId : Vector UInt8 32
  cipherSuiteId : UInt8

/-- In front of the extensions; the response begins at byte 32. -/
def fillStart (client : Client) (buffer : Bytes) : Option Bytes := do
  let buffer ← write buffer 0 client.random.toList
  let buffer ← write buffer (32+0) [0x16,0x03,0x03,0x00,0x7a,0x02,0x00,0x00,0x76,0x03,0x03]
  let buffer ← write buffer (32+11) (List.replicate 32 0)
  let buffer ← write buffer (32+43) [0x20]
  let buffer ← write buffer (32+44) client.sessionId.toList
  let buffer ← write buffer (32+76) [0x13,0x01,0x00,0x00,0x2e]
  write buffer (32+77) [client.cipherSuiteId]

/-- One extension at `pos`. -/
def fillExtension (publicKey : Vector UInt8 32) (responseSize : ℤ) (s : Bytes × ℕ) (id : ℕ) :
    Option (Bytes × ℕ) :=
  let (buffer,pos) := s
  if id = 0x33 then
    if pos+40 ≤ responseSize then do
      let buffer ← write buffer (32+pos) [0x00,0x33,0x00,0x24,0x00,0x1d,0x00,0x20]
      let buffer ← write buffer (32+pos+8) publicKey.toList
      some (buffer,pos+40)
    else none
  else
    if pos+5 ≤ responseSize then do
      let buffer ← write buffer (32+pos) [0x00,0x2b,0x00,0x02,0x03,0x04]
      some (buffer,pos+6)
    else none

/-- The flag as it is tested. -/
def DomainInfo.reversed (info : DomainInfo) : Bool := info.isReversedExtensionOrder ≠ 0

def serverExtensions (info : DomainInfo) : List ℕ :=
  if info.reversed then [0x2b,0x33] else [0x33,0x2b]

/-- Behind the extensions. -/
def fillRecord (draws : Draws) (encryptedSize responseSize : ℤ) (s : Bytes × ℕ) : Option Bytes :=
  let (buffer,pos) := s
  if pos = 127 then do
    let buffer ← write buffer (32+127) [0x14,0x03,0x03,0x00,0x01,0x01,0x17,0x03,0x03]
    let pos := pos+9
    let buffer ← write buffer (32+pos) [UInt8.ofInt (encryptedSize.tdiv 256)]
    let buffer ← write buffer (32+(pos+1)) [UInt8.ofInt (encryptedSize.tmod 256)]
    let pos := pos+2
    if pos+encryptedSize = responseSize then
      write buffer (32+pos) ((List.range encryptedSize.toNat).map draws.bytes)
    else none
  else none

/-- The response; a negative size cannot be allocated. -/
def answerHello (sha256Hmac : Bytes → Vector UInt8 32) (info : DomainInfo) (draws : Draws)
    (client : Client) : Option Bytes := do
  let encryptedSize := getDomainServerHelloEncryptedSize info draws.rand
  let responseSize := 127+6+5+encryptedSize
  if 32+responseSize < 0 then none
  else do
    let buffer ← fillStart client (List.replicate (32+responseSize).toNat 0)
    let s ← (serverExtensions info).foldlM (fillExtension draws.publicKey responseSize) (buffer,81)
    let buffer ← fillRecord draws encryptedSize responseSize s
    let buffer ← write buffer (32+11) (sha256Hmac buffer).toList
    some (buffer.drop 32)

/-- The two extensions, in their order. -/
def extensionBytes (reversed : Bool) (publicKey : Bytes) : Bytes :=
  let keyShare : Bytes := [0x00,0x33,0x00,0x24,0x00,0x1d,0x00,0x20]++publicKey
  let version : Bytes := [0x00,0x2b,0x00,0x02,0x03,0x04]
  if reversed then version++keyShare else keyShare++version

/-- The record with the ServerHello. -/
def helloRecord (random sessionId : Bytes) (cipherSuiteId : UInt8) (extensions : Bytes) : Bytes :=
  [0x16,0x03,0x03,0x00,0x7a,0x02,0x00,0x00,0x76,0x03,0x03]++random++[0x20]++sessionId++
    [0x13,cipherSuiteId,0x00,0x00,0x2e]++extensions

def encryptedBytes (draws : Draws) (n : ℕ) : Bytes := (List.range n).map draws.bytes

/-- The response with the given random bytes in its ServerHello. -/
def responseBytes (random : Bytes) (info : DomainInfo) (draws : Draws) (client : Client) (n : ℕ) :
    Bytes :=
  helloRecord random client.sessionId.toList client.cipherSuiteId
      (extensionBytes info.reversed draws.publicKey.toList)++
    changeCipherSpec++(applicationData++[UInt8.ofNat (n/256),UInt8.ofNat n]++encryptedBytes draws n)

section Fill
variable {client : Client} {info : DomainInfo} {draws : Draws} {buffer buffer' : Bytes}

/-- The client's random bytes and the response up to the extensions. -/
def startBytes (client : Client) : Bytes :=
  client.random.toList++[0x16,0x03,0x03,0x00,0x7a,0x02,0x00,0x00,0x76,0x03,0x03]++
    List.replicate 32 0++[0x20]++client.sessionId.toList++[0x13]++[client.cipherSuiteId]++[0x00,0x00,0x2e]

theorem length_startBytes : (startBytes client).length = 113 := by simp [startBytes]

theorem fillStart_eq (k : ℕ) : fillStart client (List.replicate (113+k) 0) =
    some (startBytes client++List.replicate k 0) := by
  let r := client.random.toList
  let hdr : Bytes := [0x16,0x03,0x03,0x00,0x7a,0x02,0x00,0x00,0x76,0x03,0x03]
  let z : Bytes := List.replicate 32 0
  let sid := client.sessionId.toList
  have h0 : write ([]++List.replicate (113+k) 0) 0 r = some ([]++r++List.replicate (81+k) 0) :=
    write_next rfl (by simp [r]; omega)
  have h1 : write (r++List.replicate (81+k) 0) (32+0) hdr = some (r++hdr++List.replicate (70+k) 0) :=
    write_next (by simp [r]) (by simp [hdr]; omega)
  have h2 : write (r++hdr++List.replicate (70+k) 0) (32+11) z =
      some (r++hdr++z++List.replicate (38+k) 0) :=
    write_next (by simp [r,hdr]) (by simp [z]; omega)
  have h3 : write (r++hdr++z++List.replicate (38+k) 0) (32+43) [0x20] =
      some (r++hdr++z++[0x20]++List.replicate (37+k) 0) :=
    write_next (by simp [r,hdr,z]) (by simp; omega)
  have h4 : write (r++hdr++z++[0x20]++List.replicate (37+k) 0) (32+44) sid =
      some (r++hdr++z++[0x20]++sid++List.replicate (5+k) 0) :=
    write_next (by simp [r,hdr,z]) (by simp [sid]; omega)
  have h5 : write (r++hdr++z++[0x20]++sid++List.replicate (5+k) 0) (32+76) [0x13,0x01,0x00,0x00,0x2e] =
      some (r++hdr++z++[0x20]++sid++[0x13,0x01,0x00,0x00,0x2e]++List.replicate k 0) :=
    write_next (by simp [r,hdr,z,sid]) (by simp)
  have h6 : write (r++hdr++z++[0x20]++sid++[0x13]++[0x01]++([0x00,0x00,0x2e]++List.replicate k 0)) (32+77)
      [client.cipherSuiteId] = some (r++hdr++z++[0x20]++sid++[0x13]++[client.cipherSuiteId]++
        ([0x00,0x00,0x2e]++List.replicate k 0)) :=
    write_over (by simp [r,hdr,z,sid]) rfl
  have hsplit : r++hdr++z++[0x20]++sid++[0x13,0x01,0x00,0x00,0x2e]++List.replicate k 0 =
      r++hdr++z++[0x20]++sid++[0x13]++[0x01]++([0x00,0x00,0x2e]++List.replicate k 0) := by
    simp only [List.append_assoc,List.cons_append,List.nil_append]
  rw [List.nil_append,List.nil_append] at h0
  rw [hsplit] at h5
  simp only [fillStart,Option.bind_eq_bind]
  rw [h0,Option.bind_some,h1,Option.bind_some,h2,Option.bind_some,h3,Option.bind_some,h4,
    Option.bind_some,h5,Option.bind_some,h6,startBytes]
  simp only [List.append_assoc]
  rfl

theorem fillExtension_keyShare {pre : Bytes} {pos k : ℕ} {responseSize : ℤ} (hpos : pre.length = 32+pos)
    (hsize : pos+40 ≤ responseSize) :
    fillExtension draws.publicKey responseSize (pre++List.replicate (40+k) 0,pos) 0x33 =
      some (pre++([0x00,0x33,0x00,0x24,0x00,0x1d,0x00,0x20]++draws.publicKey.toList)++
        List.replicate k 0,pos+40) := by
  have h0 : write (pre++List.replicate (40+k) 0) (32+pos) [0x00,0x33,0x00,0x24,0x00,0x1d,0x00,0x20] =
      some (pre++[0x00,0x33,0x00,0x24,0x00,0x1d,0x00,0x20]++List.replicate (32+k) 0) :=
    write_next hpos (by simp; omega)
  have h1 : write (pre++[0x00,0x33,0x00,0x24,0x00,0x1d,0x00,0x20]++List.replicate (32+k) 0) (32+pos+8)
      draws.publicKey.toList = some (pre++[0x00,0x33,0x00,0x24,0x00,0x1d,0x00,0x20]++
        draws.publicKey.toList++List.replicate k 0) :=
    write_next (by simp [hpos]) (by simp)
  simp only [fillExtension,if_true,if_pos hsize,Option.bind_eq_bind]
  rw [h0,Option.bind_some,h1,Option.bind_some,List.append_assoc pre]

theorem fillExtension_version {pre : Bytes} {pos k : ℕ} {responseSize : ℤ} (hpos : pre.length = 32+pos)
    (hsize : pos+5 ≤ responseSize) :
    fillExtension draws.publicKey responseSize (pre++List.replicate (6+k) 0,pos) 0x2b =
      some (pre++[0x00,0x2b,0x00,0x02,0x03,0x04]++List.replicate k 0,pos+6) := by
  have h0 : write (pre++List.replicate (6+k) 0) (32+pos) [0x00,0x2b,0x00,0x02,0x03,0x04] =
      some (pre++[0x00,0x2b,0x00,0x02,0x03,0x04]++List.replicate k 0) := write_next hpos (by simp)
  simp only [fillExtension,if_neg (show ¬ 0x2b = 0x33 by decide),if_pos hsize,Option.bind_eq_bind]
  rw [h0,Option.bind_some]

theorem fillExtensions_eq {pre : Bytes} {k : ℕ} {responseSize : ℤ} (hpre : pre.length = 113)
    (hsize : 127 ≤ responseSize) :
    (serverExtensions info).foldlM (fillExtension draws.publicKey responseSize)
        (pre++List.replicate (46+k) 0,81) =
      some (pre++extensionBytes info.reversed draws.publicKey.toList++List.replicate k 0,127) := by
  unfold serverExtensions extensionBytes
  cases info.reversed with
  | true =>
      have h0 : fillExtension draws.publicKey responseSize (pre++List.replicate (6+(40+k)) 0,81) 0x2b =
          some (pre++[0x00,0x2b,0x00,0x02,0x03,0x04]++List.replicate (40+k) 0,87) :=
        fillExtension_version (by omega) (by push_cast; omega)
      have h1 : fillExtension draws.publicKey responseSize
          (pre++[0x00,0x2b,0x00,0x02,0x03,0x04]++List.replicate (40+k) 0,87) 0x33 = some (_,127) :=
        fillExtension_keyShare (by simp [hpre]) (by push_cast; omega)
      simp only [if_true,List.foldlM_cons,List.foldlM_nil,Option.bind_eq_bind]
      rw [show 46+k = 6+(40+k) by omega,h0,Option.bind_some,h1,Option.bind_some]
      simp only [List.append_assoc]
      rfl
  | false =>
      have h0 : fillExtension draws.publicKey responseSize (pre++List.replicate (40+(6+k)) 0,81) 0x33 =
          some (pre++([0x00,0x33,0x00,0x24,0x00,0x1d,0x00,0x20]++draws.publicKey.toList)++
            List.replicate (6+k) 0,121) :=
        fillExtension_keyShare (by omega) (by push_cast; omega)
      have h1 : fillExtension draws.publicKey responseSize
          (pre++([0x00,0x33,0x00,0x24,0x00,0x1d,0x00,0x20]++draws.publicKey.toList)++
            List.replicate (6+k) 0,121) 0x2b = some (_,127) :=
        fillExtension_version (by simp [hpre]) (by push_cast; omega)
      simp only [Bool.false_eq_true,if_false,List.foldlM_cons,List.foldlM_nil,Option.bind_eq_bind]
      rw [show 46+k = 40+(6+k) by omega,h0,Option.bind_some,h1,Option.bind_some]
      simp only [List.append_assoc]
      rfl

theorem fillRecord_eq {pre : Bytes} {n : ℕ} (hpre : pre.length = 159) :
    fillRecord draws n (138+n) (pre++List.replicate (11+n) 0,127) =
      some (pre++changeCipherSpec++(applicationData++[UInt8.ofNat (n/256),UInt8.ofNat n]++
        encryptedBytes draws n)) := by
  have h0 : write (pre++List.replicate (11+n) 0) (32+127)
      [0x14,0x03,0x03,0x00,0x01,0x01,0x17,0x03,0x03] = some
        (pre++[0x14,0x03,0x03,0x00,0x01,0x01,0x17,0x03,0x03]++List.replicate (2+n) 0) :=
    write_next hpre (by simp; omega)
  have h1 : write (pre++[0x14,0x03,0x03,0x00,0x01,0x01,0x17,0x03,0x03]++List.replicate (2+n) 0)
      (32+(127+9)) [UInt8.ofNat (n/256)] = some (pre++[0x14,0x03,0x03,0x00,0x01,0x01,0x17,0x03,0x03]++
        [UInt8.ofNat (n/256)]++List.replicate (1+n) 0) :=
    write_next (by simp [hpre]) (by simp; omega)
  have h2 : write (pre++[0x14,0x03,0x03,0x00,0x01,0x01,0x17,0x03,0x03]++[UInt8.ofNat (n/256)]++
      List.replicate (1+n) 0) (32+(127+9+1)) [UInt8.ofNat n] = some
        (pre++[0x14,0x03,0x03,0x00,0x01,0x01,0x17,0x03,0x03]++[UInt8.ofNat (n/256)]++[UInt8.ofNat n]++
          List.replicate n 0) :=
    write_next (by simp [hpre]) (by simp)
  have h3 : write (pre++[0x14,0x03,0x03,0x00,0x01,0x01,0x17,0x03,0x03]++[UInt8.ofNat (n/256)]++
      [UInt8.ofNat n]++List.replicate n 0) (32+(127+9+2)) (encryptedBytes draws n) = some
        (pre++[0x14,0x03,0x03,0x00,0x01,0x01,0x17,0x03,0x03]++[UInt8.ofNat (n/256)]++[UInt8.ofNat n]++
          encryptedBytes draws n++List.replicate 0 0) :=
    write_next (by simp [hpre]) (by simp [encryptedBytes])
  simp only [fillRecord,if_true,Option.bind_eq_bind]
  rw [h0,Option.bind_some,ofInt_tdiv,h1,Option.bind_some,ofInt_tmod,h2,Option.bind_some,if_pos (by push_cast; omega),
    Int.toNat_natCast]
  refine h3.trans ?_
  simp [changeCipherSpec,applicationData]

/-- The response around the random bytes of the ServerHello. -/
theorem responseBytes_split (info : DomainInfo) (draws : Draws) (client : Client) (n : ℕ) : ∃ rest,
    ∀ random, responseBytes random info draws client n =
      [0x16,0x03,0x03,0x00,0x7a,0x02,0x00,0x00,0x76,0x03,0x03]++random++rest := by
  refine ⟨[0x20]++client.sessionId.toList++[0x13,client.cipherSuiteId,0x00,0x00,0x2e]++
    extensionBytes info.reversed draws.publicKey.toList++changeCipherSpec++
    (applicationData++[UInt8.ofNat (n/256),UInt8.ofNat n]++encryptedBytes draws n),fun random => ?_⟩
  simp [responseBytes,helloRecord]

/-- With a size that is not negative everything is written inside the block. -/
theorem answerHello_eq {sha256Hmac : Bytes → Vector UInt8 32} {n : ℕ}
    (hsize : getDomainServerHelloEncryptedSize info draws.rand = n) :
    answerHello sha256Hmac info draws client = some (responseBytes
      (sha256Hmac (client.random.toList++
        responseBytes (List.replicate 32 0) info draws client n)).toList info draws client n) := by
  have hexts : (extensionBytes info.reversed draws.publicKey.toList).length = 46 := by
    unfold extensionBytes
    cases info.reversed <;> simp
  have htotal : (32+(127+6+5+(n : ℤ))).toNat = 113+(46+(11+n)) := by omega
  have hrecord : fillRecord draws n (127+6+5+n) (startBytes client++
      extensionBytes info.reversed draws.publicKey.toList++List.replicate (11+n) 0,127) = some _ :=
    fillRecord_eq (by rw [List.length_append,length_startBytes,hexts])
  have hdraft : startBytes client++extensionBytes info.reversed draws.publicKey.toList++
      changeCipherSpec++(applicationData++[UInt8.ofNat (n/256),UInt8.ofNat n]++encryptedBytes draws n) =
      client.random.toList++responseBytes (List.replicate 32 0) info draws client n := by
    simp [startBytes,responseBytes,helloRecord]
  rw [hdraft] at hrecord
  have hfinal : ∀ r : Vector UInt8 32,
      write (client.random.toList++responseBytes (List.replicate 32 0) info draws client n) (32+11) r.toList =
        some (client.random.toList++responseBytes r.toList info draws client n) := by
    intro r
    obtain ⟨rest,hrest⟩ := responseBytes_split info draws client n
    have hover : write (client.random.toList++[0x16,0x03,0x03,0x00,0x7a,0x02,0x00,0x00,0x76,0x03,0x03]++
        List.replicate 32 0++rest) (32+11) r.toList = some _ := write_over (by simp) (by simp)
    rw [hrest,hrest]
    simpa only [List.append_assoc] using hover
  simp only [answerHello,hsize,Option.bind_eq_bind]
  rw [if_neg (by omega),htotal,fillStart_eq,Option.bind_some,
    fillExtensions_eq length_startBytes (by omega),Option.bind_some,hrecord,Option.bind_some,hfinal,
    Option.bind_some,List.drop_left' (by simp)]

theorem length_fillStart (h : fillStart client buffer = some buffer') : buffer'.length = buffer.length := by
  simp only [fillStart,Option.bind_eq_bind,Option.bind_eq_some_iff] at h
  obtain ⟨b0,h0,b1,h1,b2,h2,b3,h3,b4,h4,b5,h5,h6⟩ := h
  rw [length_write h6,length_write h5,length_write h4,length_write h3,length_write h2,length_write h1,
    length_write h0]

theorem length_fillExtension {publicKey : Vector UInt8 32} {responseSize : ℤ} {s s' : Bytes × ℕ} {id : ℕ}
    (h : fillExtension publicKey responseSize s id = some s') : s'.1.length = s.1.length := by
  unfold fillExtension at h
  dsimp only at h
  split at h
  · split at h
    · simp only [Option.bind_eq_bind,Option.bind_eq_some_iff] at h
      obtain ⟨b0,h0,b1,h1,h2⟩ := h
      cases h2
      rw [length_write h1,length_write h0]
    · cases h
  · split at h
    · simp only [Option.bind_eq_bind,Option.bind_eq_some_iff] at h
      obtain ⟨b0,h0,h1⟩ := h
      cases h1
      rw [length_write h0]
    · cases h

theorem length_fillExtensions {publicKey : Vector UInt8 32} {responseSize : ℤ} {ids : List ℕ}
    {s s' : Bytes × ℕ} (h : ids.foldlM (fillExtension publicKey responseSize) s = some s') :
    s'.1.length = s.1.length := by
  induction ids generalizing s with
  | nil =>
      cases h
      rfl
  | cons id ids ih =>
      rw [List.foldlM_cons,Option.bind_eq_bind,Option.bind_eq_some_iff] at h
      obtain ⟨s'',hfirst,hrest⟩ := h
      rw [ih hrest,length_fillExtension hfirst]

/-- The length field of the record is at the end of 170 bytes. -/
theorem fillRecord_fits {encryptedSize responseSize : ℤ} {s : Bytes × ℕ}
    (h : fillRecord draws encryptedSize responseSize s = some buffer') : 170 ≤ s.1.length := by
  unfold fillRecord at h
  dsimp only at h
  by_cases hpos : s.2 = 127
  · rw [if_pos hpos] at h
    simp only [Option.bind_eq_bind,Option.bind_eq_some_iff] at h
    obtain ⟨b0,h0,b1,h1,b2,h2,-⟩ := h
    have hfits := fits_of_write h2
    rw [length_write h1,length_write h0,hpos] at hfits
    exact hfits
  · rw [if_neg hpos] at h
    cases h

/-- A negative size is too small for the block. -/
theorem answerHello_negative {sha256Hmac : Bytes → Vector UInt8 32}
    (hsize : getDomainServerHelloEncryptedSize info draws.rand < 0) :
    answerHello sha256Hmac info draws client = none := by
  rw [Option.eq_none_iff_forall_ne_some]
  intro response h
  unfold answerHello at h
  dsimp only at h
  split_ifs at h
  simp only [Option.bind_eq_bind,Option.bind_eq_some_iff] at h
  obtain ⟨b0,h0,s,hs,b1,h1,-⟩ := h
  have hfits := fillRecord_fits h1
  rw [length_fillExtensions hs,length_fillStart h0,List.length_replicate] at hfits
  omega

end Fill

section Greeting
variable {random sessionId publicKey rest : Bytes} {reversed : Bool}

theorem length_extensionBytes (hkey : publicKey.length = 32) (reversed : Bool) :
    (extensionBytes reversed publicKey).length = 46 := by
  unfold extensionBytes
  cases reversed <;> simp [hkey]

theorem extensionBytes_at {pre : Bytes} (hpre : pre.length = 81) (hkey : publicKey.length = 32)
    (reversed : Bool) (rest : Bytes) :
    HasExtensions (pre++(extensionBytes reversed publicKey++rest)) reversed := by
  have hpart : ∀ p n, part (pre++(extensionBytes reversed publicKey++rest)) (81+p) n =
      part (extensionBytes reversed publicKey++rest) p n := by
    intro p n
    rw [← hpre]
    exact part_append _ _ p n
  cases reversed with
  | false =>
      have hsecond : ∀ p n, part (extensionBytes false publicKey++rest) (40+p) n =
          part ([0x00,0x2b,0x00,0x02,0x03,0x04]++rest) p n := by
        intro p n
        have hsplit : extensionBytes false publicKey++rest =
            ([0x00,0x33,0x00,0x24,0x00,0x1d,0x00,0x20]++publicKey)++([0x00,0x2b,0x00,0x02,0x03,0x04]++rest) := by
          simp [extensionBytes]
        rw [hsplit]
        have happend := part_append ([0x00,0x33,0x00,0x24,0x00,0x1d,0x00,0x20]++publicKey)
          ([0x00,0x2b,0x00,0x02,0x03,0x04]++rest) p n
        rw [List.length_append,hkey] at happend
        exact happend
      have hid : part (extensionBytes false publicKey++rest) 0 2 = [0x00,0x33] := rfl
      have hsize : part (extensionBytes false publicKey++rest) 2 2 = [0x00,0x24] := rfl
      have hid' : part (extensionBytes false publicKey++rest) 40 2 = [0x00,0x2b] := hsecond 0 2
      have hsize' : part (extensionBytes false publicKey++rest) 42 2 = [0x00,0x02] := hsecond 2 2
      refine ⟨⟨?_,by decide,by decide,?_⟩,⟨?_,by decide,by decide,?_⟩⟩
      · exact (congrArg word ((hpart 0 2).trans hid)).trans (by decide)
      · exact (congrArg word ((hpart 2 2).trans hsize)).trans (by decide)
      · exact (congrArg word ((hpart 40 2).trans hid')).trans (by decide)
      · exact (congrArg word ((hpart 42 2).trans hsize')).trans (by decide)
  | true =>
      have hid : part (extensionBytes true publicKey++rest) 0 2 = [0x00,0x2b] := rfl
      have hsize : part (extensionBytes true publicKey++rest) 2 2 = [0x00,0x02] := rfl
      have hid' : part (extensionBytes true publicKey++rest) 6 2 = [0x00,0x33] := rfl
      have hsize' : part (extensionBytes true publicKey++rest) 8 2 = [0x00,0x24] := rfl
      refine ⟨⟨?_,by decide,by decide,?_⟩,⟨?_,by decide,by decide,?_⟩⟩
      · exact (congrArg word ((hpart 0 2).trans hid)).trans (by decide)
      · exact (congrArg word ((hpart 2 2).trans hsize)).trans (by decide)
      · exact (congrArg word ((hpart 6 2).trans hid')).trans (by decide)
      · exact (congrArg word ((hpart 8 2).trans hsize')).trans (by decide)

theorem greeting_greets (hrandom : random.length = 32) (hne : random ≠ helloRetryRequest)
    (hid : sessionId.length = 32) (hkey : publicKey.length = 32) :
    Greets (helloRecord random sessionId 0x01 (extensionBytes reversed publicKey)++
      (changeCipherSpec++rest)) sessionId reversed := by
  let start : Bytes := [0x16,0x03,0x03,0x00,0x7a,0x02,0x00,0x00,0x76,0x03,0x03]
  let exts := extensionBytes reversed publicKey
  have hexts : exts.length = 46 := length_extensionBytes hkey reversed
  have hbuf : helloRecord random sessionId 0x01 exts++(changeCipherSpec++rest) =
      start++(random++([0x20]++(sessionId++([0x13,0x01,0x00,0x00,0x2e]++(exts++(changeCipherSpec++rest)))))) := by
    simp [helloRecord,start]
  have hcipher : ∀ p n, part (helloRecord random sessionId 0x01 exts++(changeCipherSpec++rest)) (76+p) n =
      part ([0x13,0x01,0x00,0x00,0x2e]++(exts++(changeCipherSpec++rest))) p n := by
    intro p n
    have happend := part_append (start++random++[0x20]++sessionId)
      ([0x13,0x01,0x00,0x00,0x2e]++(exts++(changeCipherSpec++rest))) p n
    have hlen : (start++random++[0x20]++sessionId).length = 76 := by simp [start,hrandom,hid]
    rw [hlen] at happend
    rw [hbuf]
    simpa only [List.append_assoc] using happend
  have hlength : part (helloRecord random sessionId 0x01 exts++(changeCipherSpec++rest)) 3 2 = [0x00,0x7a] :=
    rfl
  have hextsLength : part (helloRecord random sessionId 0x01 exts++(changeCipherSpec++rest)) 79 2 =
      [0x00,0x2e] := hcipher 3 2
  refine ⟨⟨rfl,?_,?_,rfl,rfl,?_,?_,?_,hcipher 0 3,?_⟩,?_,?_⟩
  · rw [hlength]
    decide
  · rw [hbuf]
    simp [start,hrandom,hid,hexts]
    omega
  · rw [hbuf,part_mid (show start.length = 11 from rfl) hrandom]
    exact hne
  · rw [hbuf,← List.append_assoc start]
    exact part_mid (by simp [start,hrandom]) rfl
  · rw [hbuf,← List.append_assoc start,← List.append_assoc (start++random)]
    exact part_mid (by simp [start,hrandom]) hid
  · rw [hextsLength]
    decide
  · have hpre : (start++random++[0x20]++sessionId++[0x13,0x01,0x00,0x00,0x2e]).length = 81 := by
      simp [start,hrandom,hid]
    have hat := extensionBytes_at hpre hkey reversed (changeCipherSpec++rest)
    simpa only [List.append_assoc,helloRecord] using hat
  · have hpre : (helloRecord random sessionId 0x01 exts).length = 127 := by
      simp [helloRecord,hrandom,hid,hexts]
    exact part_mid hpre rfl

end Greeting

/-- The element that is left is one of them and not behind any of them. -/
theorem fold_least {α : Type} [LinearOrder α] (xs : List α) (m : α) :
    xs.foldl (fun m x => if x < m then x else m) m ∈ m::xs ∧
      ∀ x ∈ m::xs, xs.foldl (fun m x => if x < m then x else m) m ≤ x := by
  induction xs generalizing m with
  | nil => simp
  | cons y ys ih =>
      obtain ⟨hmem,hall⟩ := ih (if y < m then y else m)
      rw [List.foldl_cons]
      constructor
      · grind
      · intro x hx
        have hle := hall _ List.mem_cons_self
        grind

theorem smallest_spec {xs : List ℤ} (hne : xs ≠ []) : smallest xs ∈ xs ∧ ∀ x ∈ xs, smallest xs ≤ x := by
  cases xs with
  | nil => exact absurd rfl hne
  | cons x xs => exact fold_least xs x

theorem largest_spec {xs : List ℤ} (hne : xs ≠ []) : largest xs ∈ xs ∧ ∀ x ∈ xs, x ≤ largest xs := by
  cases xs with
  | nil => exact absurd rfl hne
  | cons x xs => exact @fold_least ℤᵒᵈ _ xs x

/-- The probes do not agree, or on a size that is a positive `short` when it is stored. -/
def SizeKept (probes : Vector Probe tries) : Prop :=
  ∀ total, (∀ p ∈ probes.toList, totalEncrypted p.report = total) →
    1 ≤ total%65536 ∧ total%65536 < 32768

section Size
variable (probes : Vector Probe tries) (rand : ℕ)

theorem totals_ne_nil : probes.toList.map (fun p => totalEncrypted p.report) ≠ [] := by
  intro hnil
  have hlen := congrArg List.length hnil
  rw [List.length_map,Vector.length_toList] at hlen
  cases hlen

theorem agree_iff : smallest (probes.toList.map fun p => totalEncrypted p.report) =
      largest (probes.toList.map fun p => totalEncrypted p.report) ↔
    ∃ total, ∀ p ∈ probes.toList, totalEncrypted p.report = total := by
  obtain ⟨hsmall,hleast⟩ := smallest_spec (totals_ne_nil probes)
  obtain ⟨hlarge,hmost⟩ := largest_spec (totals_ne_nil probes)
  constructor
  · intro heq
    refine ⟨_,fun p hp => le_antisymm ?_ (hleast _ (List.mem_map_of_mem hp))⟩
    rw [heq]
    exact hmost _ (List.mem_map_of_mem hp)
  · intro ⟨total,htotal⟩
    have hall : ∀ x ∈ probes.toList.map (fun p => totalEncrypted p.report), x = total := by
      simpa using htotal
    rw [hall _ hsmall,hall _ hlarge]

/-- The size is not varied if the probes agree. -/
theorem updateDomainInfo_agree {total : ℤ} (h : ∀ p ∈ probes.toList, totalEncrypted p.report = total) :
    (updateDomainInfo probes).serverHelloEncryptedSize = .ofInt 16 total ∧
      (updateDomainInfo probes).useRandomEncryptedSize = false := by
  have hsmall := (smallest_spec (totals_ne_nil probes)).1
  have htotal : smallest (probes.toList.map fun p => totalEncrypted p.report) = total := by
    obtain ⟨p,hp,heq⟩ := List.mem_map.mp hsmall
    rw [← heq,h p hp]
  rw [updateDomainInfo,if_pos ((agree_iff probes).mpr ⟨total,h⟩),htotal]
  exact ⟨rfl,rfl⟩

theorem updateDomainInfo_differ (h : ¬ ∃ total, ∀ p ∈ probes.toList, totalEncrypted p.report = total) :
    (updateDomainInfo probes).useRandomEncryptedSize = true := by
  rw [updateDomainInfo,if_neg fun heq => h ((agree_iff probes).mp heq)]
  split_ifs <;> rfl

theorem size_random {info : DomainInfo} (h : info.useRandomEncryptedSize = true) :
    1000 ≤ getDomainServerHelloEncryptedSize info rand ∧
      getDomainServerHelloEncryptedSize info rand < 32800 := by
  have hhigh := BitVec.toInt_lt (x := info.serverHelloEncryptedSize)
  simp only [getDomainServerHelloEncryptedSize,h,if_true,encryptedMinSize,noiseOffset,noiseRange]
  split_ifs <;> omega

theorem size_lt (info : DomainInfo) : getDomainServerHelloEncryptedSize info rand < 32800 := by
  cases h : info.useRandomEncryptedSize with
  | true => exact (size_random rand h).2
  | false =>
      have hhigh := BitVec.toInt_lt (x := info.serverHelloEncryptedSize)
      simp only [getDomainServerHelloEncryptedSize,h,Bool.false_eq_true,if_false]
      omega

/-- The size that is drawn is positive exactly if it has been kept. -/
theorem size_pos_iff : 0 < getDomainServerHelloEncryptedSize (updateDomainInfo probes) rand ↔
    SizeKept probes := by
  by_cases hagree : ∃ total, ∀ p ∈ probes.toList, totalEncrypted p.report = total
  · obtain ⟨total,htotal⟩ := hagree
    obtain ⟨hsize,hrandom⟩ := updateDomainInfo_agree probes htotal
    have hvalue : getDomainServerHelloEncryptedSize (updateDomainInfo probes) rand = total.bmod 65536 := by
      simp only [getDomainServerHelloEncryptedSize,hrandom,Bool.false_eq_true,if_false]
      rw [hsize,BitVec.toInt_ofInt]
    have hbmod : 0 < total.bmod 65536 ↔ 1 ≤ total%65536 ∧ total%65536 < 32768 := by
      rw [Int.bmod_def]
      split <;> omega
    rw [hvalue,hbmod]
    constructor
    · intro hkept other hother
      have hmem : probes[0] ∈ probes.toList := by simp
      rw [← hother _ hmem,htotal _ hmem]
      exact hkept
    · intro hkept
      exact hkept total htotal
  · have hrange := size_random rand (updateDomainInfo_differ probes hagree)
    constructor
    · intro _ total htotal
      exact absurd ⟨total,htotal⟩ hagree
    · intro _
      omega

/-- The flag of a successful probe. -/
theorem Probe.order (p : Probe) :
    p.report.isReversedExtensionOrder = 0 ∨ p.report.isReversedExtensionOrder = 1 := by
  obtain ⟨buf,fuel,sessionId,out,hfuel,hok⟩ := p.reported
  by_cases hfits : RecordsFit buf.bytes sessionId
  · obtain ⟨reversed,payloads,-,hreport⟩ := ((check_fits buf.length_lt hfits hfuel).2 _).mp hok
    rw [hreport]
    cases reversed
    · exact .inl rfl
    · exact .inr rfl
  · rw [check_misled buf.length_lt hfits hfuel] at hok
    cases hok

theorem configured_order : (updateDomainInfo probes).isReversedExtensionOrder.toInt =
    if (updateDomainInfo probes).reversed then 1 else 0 := by
  have hne : probes.toList.map (fun p => p.report.isReversedExtensionOrder) ≠ [] := by
    intro hnil
    exact totals_ne_nil probes (by rw [List.map_eq_nil_iff.mp hnil]; rfl)
  have hflag : (updateDomainInfo probes).isReversedExtensionOrder =
      .ofInt 8 (smallest (probes.toList.map fun p => p.report.isReversedExtensionOrder)) := by
    unfold updateDomainInfo
    dsimp only
    split_ifs <;> rfl
  obtain ⟨p,-,hp⟩ := List.mem_map.mp (smallest_spec hne).1
  rw [DomainInfo.reversed,hflag,← hp]
  rcases p.order with h | h
  · rw [h]
    decide
  · rw [h]
    decide

end Size

/-- A record of any type. -/
def tlsRecord (type : UInt8) (body : Bytes) : Bytes :=
  [type,0x03,0x03]++[UInt8.ofNat (body.length/256),UInt8.ofNat body.length]++body

/-- Three records with the right lengths, of which the first is sent on its own. With the
cipher suite that `tls_check_server_hello` wants it takes them. -/
structure Mimics (info : DomainInfo) (client : Client) (size : ℤ) (response : Bytes) : Prop where
  framed : ∃ hello data, hello.length = 122 ∧ data.length < 65536 ∧ (data.length : ℤ) = size ∧
    response = tlsRecord 0x16 hello++tlsRecord 0x14 [0x01]++tlsRecord 0x17 data
  accepted : client.cipherSuiteId = 0x01 → ∀ fuel out, response.length < fuel → ∃ r,
    tlsCheckServerHello response fuel client.sessionId.toList out = .ok r ∧
      r.isReversedExtensionOrder = info.isReversedExtensionOrder.toInt ∧
      r.encryptedRecordCount = 1 ∧ r.encryptedRecordSizes[0] = size

section Mimics
variable {info : DomainInfo} {draws : Draws} {client : Client} {random : Bytes} {n : ℕ}

theorem responseBytes_framed (hrandom : random.length = 32) :
    ∃ hello, hello.length = 122 ∧ responseBytes random info draws client n =
      tlsRecord 0x16 hello++tlsRecord 0x14 [0x01]++tlsRecord 0x17 (encryptedBytes draws n) := by
  have hlen : (encryptedBytes draws n).length = n := by simp [encryptedBytes]
  have hexts := length_extensionBytes draws.publicKey.length_toList info.reversed
  refine ⟨[0x02,0x00,0x00,0x76,0x03,0x03]++random++[0x20]++client.sessionId.toList++
    [0x13,client.cipherSuiteId,0x00,0x00,0x2e]++
    extensionBytes info.reversed draws.publicKey.toList,?_,?_⟩
  · simp [hrandom,hexts]
  · rw [tlsRecord,tlsRecord,tlsRecord,hlen]
    simp [hrandom,hexts,responseBytes,helloRecord,changeCipherSpec,applicationData]

theorem length_responseBytes (hrandom : random.length = 32) :
    (responseBytes random info draws client n).length = 138+n := by
  have hexts := length_extensionBytes draws.publicKey.length_toList info.reversed
  simp [responseBytes,helloRecord,changeCipherSpec,applicationData,encryptedBytes,hrandom,hexts]
  omega

/-- The answer is the flight of one record, unless it looks like a HelloRetryRequest. -/
theorem responseBytes_flight (hrandom : random.length = 32) (hne : random ≠ helloRetryRequest)
    (hid : client.cipherSuiteId = 0x01) (hpos : 0 < n) (hlt : n < 65536) :
    Flight (responseBytes random info draws client n) client.sessionId.toList info.reversed
      [encryptedBytes draws n] := by
  have hlen : (encryptedBytes draws n).length = n := by simp [encryptedBytes]
  have hdata : record (encryptedBytes draws n) = applicationData++
      [UInt8.ofNat (n/256),UInt8.ofNat n]++encryptedBytes draws n := by rw [record,hlen]
  have hgreets : Greets (helloRecord random client.sessionId.toList 0x01
      (extensionBytes info.reversed draws.publicKey.toList)++
      (changeCipherSpec++record (encryptedBytes draws n))) client.sessionId.toList info.reversed :=
    greeting_greets hrandom hne client.sessionId.length_toList draws.publicKey.length_toList
  have hexts := length_extensionBytes draws.publicKey.length_toList info.reversed
  have hbuf : responseBytes random info draws client n =
      helloRecord random client.sessionId.toList 0x01 (extensionBytes info.reversed draws.publicKey.toList)++
        (changeCipherSpec++record (encryptedBytes draws n)) := by
    rw [responseBytes,hid,hdata,List.append_assoc]
  have hpre : (helloRecord random client.sessionId.toList 0x01
      (extensionBytes info.reversed draws.publicKey.toList)++changeCipherSpec).length = 133 := by
    simp [helloRecord,changeCipherSpec,hrandom,hexts]
  refine ⟨by rw [hbuf]; exact hgreets,List.cons_ne_nil _ _,?_,[],?_,ended_nil⟩
  · intro data hmem
    rw [List.mem_singleton.mp hmem]
    refine ⟨?_,by rw [hlen]; exact hlt⟩
    intro hnil
    rw [hnil,List.length_nil] at hlen
    omega
  · rw [hbuf,← List.append_assoc,List.drop_left' hpre]
    simp [records,concat]

/-- The parser's answer to the response, whatever the cipher suite and the size are. -/
theorem check_responseBytes (hrandom : random.length = 32) (hlt : n < 65536) {fuel : ℕ} {out : Report}
    (hfuel : (responseBytes random info draws client n).length < fuel) :
    Decides (tlsCheckServerHello (responseBytes random info draws client n) fuel
      client.sessionId.toList out) fun r => ∃ reversed payloads,
        Flight (responseBytes random info draws client n) client.sessionId.toList reversed payloads ∧
          r = reportOf out reversed payloads := by
  have hlen : (responseBytes random info draws client n).length = 138+n := length_responseBytes hrandom
  exact check_fits (by omega) (recordsFit_of_lt (by omega)) hfuel

theorem reportOf_single (out : Report) (reversed : Bool) (data : Bytes) :
    (reportOf out reversed [data]).encryptedRecordSizes[0] = (data.length : ℤ) := by
  simp only [reportOf,keepSizes,keepSize]
  exact Vector.getElem_set_self _

theorem responseBytes_mimics (hrandom : random.length = 32)
    (hne : client.cipherSuiteId = 0x01 → random ≠ helloRetryRequest) (hpos : 0 < n)
    (hlt : n < 65536) (horder : info.isReversedExtensionOrder.toInt = if info.reversed then 1 else 0) :
    Mimics info client n (responseBytes random info draws client n) := by
  have hlen : (encryptedBytes draws n).length = n := by simp [encryptedBytes]
  constructor
  · obtain ⟨hello,hhello,hresponse⟩ : ∃ hello : Bytes, hello.length = 122 ∧
        responseBytes random info draws client n = _ := responseBytes_framed hrandom
    exact ⟨hello,encryptedBytes draws n,hhello,by omega,by omega,hresponse⟩
  · intro hid fuel out hfuel
    have hflight : Flight (responseBytes random info draws client n) _ _ _ :=
      responseBytes_flight hrandom (hne hid) hid hpos hlt
    refine ⟨_,((check_responseBytes hrandom hlt hfuel).2 _).mpr ⟨_,_,hflight,rfl⟩,?_,rfl,?_⟩
    · rw [horder]
      rfl
    · rw [reportOf_single,hlen]

/-- What is accepted has data in its record and no HelloRetryRequest. -/
theorem Mimics.accepted_only (hrandom : random.length = 32) (hid : client.cipherSuiteId = 0x01)
    (hlt : n < 65536) (h : Mimics info client n (responseBytes random info draws client n)) :
    0 < n ∧ random ≠ helloRetryRequest := by
  obtain ⟨r,hok,-,hcount,hsize⟩ := h.accepted hid _ ⟨0,Vector.replicate _ 0,0⟩ (Nat.lt_succ_self _)
  obtain ⟨reversed,payloads,hflight,rfl⟩ := ((check_responseBytes hrandom hlt (Nat.lt_succ_self _)).2 _).mp hok
  obtain ⟨data,rfl⟩ := List.length_eq_one_iff.mp hcount
  constructor
  · rw [reportOf_single] at hsize
    have hne := (hflight.complete data (List.mem_singleton_self data)).1
    have hpos := List.length_pos_iff.mpr hne
    omega
  · intro heq
    have hpart : part (responseBytes random info draws client n) 11 32 = random := by
      obtain ⟨rest,hrest⟩ := responseBytes_split info draws client n
      rw [hrest,List.append_assoc]
      exact part_mid rfl hrandom
    exact hflight.greets.hello.random (hpart.trans heq)

end Mimics

/-- What the HMAC is taken of. -/
def draft (info : DomainInfo) (draws : Draws) (client : Client) : Bytes :=
  client.random.toList++responseBytes (List.replicate 32 0) info draws client
    (getDomainServerHelloEncryptedSize info draws.rand).toNat

/-- Every assertion holds and a good response is sent. -/
def Answers (sha256Hmac : Bytes → Vector UInt8 32) (info : DomainInfo) (draws : Draws)
    (client : Client) : Prop :=
  ∃ response, answerHello sha256Hmac info draws client = some response ∧
    Mimics info client (getDomainServerHelloEncryptedSize info draws.rand) response

/-- With each of the cipher suites of TLS 1.3 a ClientHello is answered as it should be,
unless the probes agree on a size that the `short` cannot keep. An HMAC that is a
HelloRetryRequest is the other exception. -/
theorem mimicked_hello_iff (sha256Hmac : Bytes → Vector UInt8 32) (probes : Vector Probe tries)
    (draws : Draws) (random sessionId : Vector UInt8 32) :
    (∀ id : UInt8, 0x01 ≤ id → id ≤ 0x03 →
      Answers sha256Hmac (updateDomainInfo probes) draws ⟨random,sessionId,id⟩) ↔
    SizeKept probes ∧
      (sha256Hmac (draft (updateDomainInfo probes) draws ⟨random,sessionId,0x01⟩)).toList ≠
        helloRetryRequest := by
  have hless := size_lt draws.rand (updateDomainInfo probes)
  constructor
  · intro hall
    obtain ⟨response,hsome,hmimics⟩ := hall 0x01 (by decide) (by decide)
    have hsign : ¬ getDomainServerHelloEncryptedSize (updateDomainInfo probes) draws.rand < 0 := by
      intro hneg
      rw [answerHello_negative hneg] at hsome
      cases hsome
    obtain ⟨n,hn⟩ := Int.eq_ofNat_of_zero_le (not_lt.mp hsign)
    rw [answerHello_eq hn] at hsome
    cases hsome
    rw [hn] at hmimics
    obtain ⟨hpos,hne⟩ := hmimics.accepted_only Vector.length_toList rfl (by omega)
    rw [← size_pos_iff probes draws.rand,draft,hn]
    exact ⟨by omega,hne⟩
  · intro ⟨hkept,hne⟩ id _ _
    have hsize := (size_pos_iff probes draws.rand).mpr hkept
    obtain ⟨n,hn⟩ := Int.eq_ofNat_of_zero_le hsize.le
    rw [draft,hn] at hne
    refine ⟨_,answerHello_eq hn,?_⟩
    rw [hn]
    refine responseBytes_mimics Vector.length_toList ?_ (by omega) (by omega) (configured_order probes)
    intro hid
    cases hid
    exact hne

/-- As much as a record may hold. -/
def fullPayload : Bytes := List.replicate 16384 0

theorem length_fullPayload : fullPayload.length = 16384 := List.length_replicate

def fullRecords : List Bytes := List.replicate 3 fullPayload

def fullFlight : Input where
  bytes := sampleGreeting++records fullRecords
  length_lt := by
    rw [List.length_append,length_sampleGreeting,fullRecords,length_concat_replicate,
      length_fullPayload]
    decide

def fullProbe : Probe where
  report := reportOf ⟨-1,Vector.replicate _ 0,0⟩ false fullRecords
  reported := by
    have hlen : fullFlight.bytes.length < 2147418100 := by
      rw [fullFlight,List.length_append,length_sampleGreeting,fullRecords,length_concat_replicate,
        length_fullPayload]
      decide
    have hgreets : Greets fullFlight.bytes (List.replicate 32 1) false :=
      sampleGreeting_greets.extend (records fullRecords)
    have hrest : fullFlight.bytes.drop 133 = records fullRecords++[] := by
      rw [fullFlight,List.append_nil,← length_sampleGreeting,List.drop_left]
    refine ⟨fullFlight,fullFlight.bytes.length+1,List.replicate 32 1,_,Nat.lt_add_one _,
      ((check_fits fullFlight.length_lt (recordsFit_of_lt hlen) (Nat.lt_add_one _)).2 _).mpr
        ⟨false,fullRecords,⟨hgreets,?_,?_,[],hrest,ended_nil⟩,rfl⟩⟩
    · exact List.cons_ne_nil _ _
    · intro data hdata
      rw [(List.mem_replicate.mp hdata).2]
      exact ⟨List.ne_nil_of_length_pos (by rw [length_fullPayload]; decide),
        by rw [length_fullPayload]; decide⟩

/-- The sum of the sizes is stored as a negative number, with which no answer can be built. -/
theorem negative_encrypted_size : totalEncrypted fullProbe.report = 49152 ∧
    (updateDomainInfo (Vector.replicate tries fullProbe)).serverHelloEncryptedSize.toInt = -16384 ∧
    ∀ sha256Hmac draws client,
      answerHello sha256Hmac (updateDomainInfo (Vector.replicate tries fullProbe)) draws client = none ∧
        ¬ Answers sha256Hmac (updateDomainInfo (Vector.replicate tries fullProbe)) draws client := by
  have htotal : totalEncrypted fullProbe.report = 49152 := by
    have hsizes := toList_keepSizes fullRecords (Vector.replicate maxEncryptedRecords 0) 0
    unfold totalEncrypted fullProbe reportOf
    dsimp only
    rw [hsizes,fullRecords]
    simp [maxEncryptedRecords,length_fullPayload]
  have hall : ∀ p ∈ (Vector.replicate tries fullProbe).toList, totalEncrypted p.report = 49152 := by
    intro p hp
    rw [Vector.toList_replicate] at hp
    rw [(List.mem_replicate.mp hp).2]
    exact htotal
  obtain ⟨hsize,hrandom⟩ := updateDomainInfo_agree _ hall
  have hstored : (updateDomainInfo (Vector.replicate tries fullProbe)).serverHelloEncryptedSize.toInt =
      -16384 := by
    rw [hsize]
    decide
  refine ⟨htotal,hstored,fun sha256Hmac draws client => ?_⟩
  have hnone : answerHello sha256Hmac (updateDomainInfo (Vector.replicate tries fullProbe)) draws
      client = none := by
    apply answerHello_negative
    simp only [getDomainServerHelloEncryptedSize,hrandom,Bool.false_eq_true,if_false,hstored]
    decide
  refine ⟨hnone,?_⟩
  intro ⟨response,hsome,_⟩
  rw [hnone] at hsome
  cases hsome

end Teleproxy.MimickedHello
