import Mathlib.Data.List.GetD
import Teleproxy.TlsParse

/-!
# Fingerprints of TLS clients

`ja4_compute` walks through a ClientHello and collects its cipher suites, the types
of its extensions, its version, its signature algorithms and its first ALPN protocol
without the GREASE values. Cipher suites and extensions are collected in tables of 64
entries and sorted before they are hashed.

A buffer is either refused or is a `Hello`, and `Hello.parsed` is what the walk stores
then. The positions of `ja4_parse` are sums of lengths of at most two bytes and stay
far below the largest `int`.
-/
namespace Teleproxy.Ja4Fingerprint
open ClientInput (Bytes)
open Loop (Pass)
open Buffer
open TlsParse (word word_pair pair_word word_lt)

/-- What is returned, or -1. -/
abbrev Ja4Run := Except (Stop Unit)

def isGreaseU16 (v : ℕ) : Bool := v&&&0x0F0F = 0x0A0A && (v>>>8)&&&0xFF = v&&&0xFF

def u16Be (ch : Bytes) (p : ℕ) : Ja4Run ℕ := do
  let bs ← read ch p 2
  pure (word bs)

def byteAt (ch : Bytes) (p : ℕ) : Ja4Run UInt8 := do
  let bs ← read ch p 1
  pure (bs.getD 0 0)

def hex (n : ℕ) : UInt8 := if n < 10 then UInt8.ofNat (48+n) else UInt8.ofNat (87+n)

/-- The format `%04x` of a value of 16 bits, with the null byte behind it. -/
def hex4 (v : ℕ) : Bytes := [hex (v/4096%16),hex (v/256%16),hex (v/16%16),hex (v%16),0]

/-- `MAX_CIPHERS`, `MAX_EXTS` and `MAX_SIGALGS` -/
def tableMax : ℕ := 64

/-- A table of strings of five bytes and the number that goes with it. -/
structure Table where
  cells : List Bytes
  count : ℕ
  deriving DecidableEq

/-- A table in memory that is not initialised; zeros stand for what it holds. -/
def newTable : Table := ⟨List.replicate tableMax [0,0,0,0,0],0⟩

/-- A value is printed into the next cell, if there is one, and counted. -/
def keep (t : Table) (v : ℕ) : Ja4Run Table :=
  if t.count < tableMax then
    match write t.cells t.count [hex4 v] with
    | none => .error .outOfBounds
    | some cells => pure ⟨cells,t.count+1⟩
  else pure {t with count := t.count+1}

def Table.capped (t : Table) : Table := {t with count := min t.count tableMax}

section
variable (ch : Bytes) {S : Type}

/-- One pass of a loop over values of two bytes up to `e`. -/
def wordPass (e : ℕ) (use : S → ℕ → Ja4Run S) (s : ℕ × S) : Ja4Run (Pass (ℕ × S) S) :=
  if s.1+2 ≤ e then do
    let v ← u16Be ch s.1
    let x ← use s.2 v
    pure (.again (s.1+2,x))
  else pure (.leave s.2)

/-- A cipher suite. -/
def useCipher (t : Table) (v : ℕ) : Ja4Run Table := if isGreaseU16 v then pure t else keep t v

/-- `best_minor` -/
def highest (best : ℤ) (v : ℕ) : ℤ :=
  if isGreaseU16 v then best
  else if v>>>8 = 3 ∧ 1 ≤ v&&&0xFF ∧ v&&&0xFF ≤ 4 then
    if best < (v&&&0xFF : ℕ) then (v&&&0xFF : ℕ) else best
  else best

/-- The two digits of a version from 1.0 to 1.3. -/
def versionChars (minor : ℕ) : Bytes := [49,UInt8.ofNat (48+(minor-1))]

/-- What the extensions add. -/
structure Found where
  tlsVer : Bytes
  hasSni : Bool
  extCountTotal : ℕ
  exts : Table
  sigalgs : Table
  alpnFirst : UInt8
  alpnLast : UInt8
  deriving DecidableEq

def supportedVersions (fuel extLen pos : ℕ) (f : Found) : Ja4Run Found := do
  let svListLen ← byteAt ch pos
  let n := svListLen.toNat
  if 0 < n ∧ n+1 ≤ extLen ∧ n%2 = 0 then do
    let best ← run (wordPass ch (pos+1+n) fun best v => pure (highest best v)) fuel (pos+1,-1)
    if 1 ≤ best then pure {f with tlsVer := versionChars best.toNat} else pure f
  else pure f

def signatureAlgorithms (fuel extLen pos : ℕ) (f : Found) : Ja4Run Found := do
  let n ← u16Be ch pos
  if 0 < n ∧ n+2 ≤ extLen ∧ n%2 = 0 then do
    let sigalgs ← run (wordPass ch (pos+2+n) keep) fuel (pos+2,f.sigalgs)
    pure {f with sigalgs := sigalgs}
  else pure f

/-- The first protocol may go on up to the end of all extensions. -/
def alpn (extEnd extLen pos : ℕ) (f : Found) : Ja4Run Found := do
  let alpnListLen ← u16Be ch pos
  if 0 < alpnListLen ∧ alpnListLen+2 ≤ extLen then do
    let firstLen ← byteAt ch (pos+2)
    let n := firstLen.toNat
    if 0 < n ∧ pos+3+n ≤ extEnd then do
      let first ← byteAt ch (pos+3)
      let last ← byteAt ch (pos+3+n-1)
      pure {f with alpnFirst := first, alpnLast := last}
    else pure f
  else pure f

/-- What depends on the type of an extension. -/
def extensionField (fuel extEnd extType extLen pos : ℕ) (f : Found) : Ja4Run Found :=
  if extType = 0x0000 then pure {f with hasSni := true}
  else if extType = 0x002b ∧ 1 ≤ extLen then supportedVersions ch fuel extLen pos f
  else if extType = 0x000d ∧ 2 ≤ extLen then signatureAlgorithms ch fuel extLen pos f
  else if extType = 0x0010 ∧ 3 ≤ extLen then alpn ch extEnd extLen pos f
  else pure f

/-- An extension that is not GREASE. -/
def seeExtension (fuel extEnd extType extLen pos : ℕ) (f : Found) : Ja4Run Found := do
  let f ← extensionField ch fuel extEnd extType extLen pos
    {f with extCountTotal := f.extCountTotal+1}
  if extType ≠ 0x0000 ∧ extType ≠ 0x0010 then do
    let exts ← keep f.exts extType
    pure {f with exts := exts}
  else pure f

def extensionPass (fuel extEnd : ℕ) (s : ℕ × Found) : Ja4Run (Pass (ℕ × Found) Found) :=
  if s.1+4 ≤ extEnd then do
    let extType ← u16Be ch s.1
    let extLen ← u16Be ch (s.1+2)
    let pos := s.1+4
    expect (pos+extLen ≤ extEnd) ()
    let f ← if isGreaseU16 extType then pure s.2
      else seeExtension ch fuel extEnd extType extLen pos s.2
    pure (.again (pos+extLen,f))
  else pure (.leave s.2)

/-- What `ja4_parse` stores. -/
structure Parsed where
  ciphers : Table
  found : Found
  deriving DecidableEq

/-- The cipher suites and the compression methods, with the position behind them. -/
def ja4Ciphers (fuel pos : ℕ) : Ja4Run (ℕ × Table) := do
  let len := ch.length
  expect (pos+2 ≤ len) ()
  let csLen ← u16Be ch pos
  let pos := pos+2
  expect (csLen%2 = 0 ∧ pos+csLen ≤ len) ()
  let ciphers ← run (wordPass ch (pos+csLen) useCipher) fuel (pos,newTable)
  let pos := pos+csLen
  expect (pos+1 ≤ len) ()
  let compLen ← byteAt ch pos
  let pos := pos+1
  expect (pos+compLen.toNat ≤ len) ()
  pure (pos+compLen.toNat,ciphers.capped)

/-- The block of extensions, if there is one. -/
def ja4Block (fuel pos : ℕ) (none : Found) : Ja4Run Found := do
  let len := ch.length
  if len < pos+2 then pure none
  else do
    let extTotalLen ← u16Be ch pos
    let pos := pos+2
    expect (pos+extTotalLen ≤ len) ()
    let found ← run (extensionPass ch fuel (pos+extTotalLen)) fuel (pos,none)
    pure {found with exts := found.exts.capped, sigalgs := found.sigalgs.capped}

/-- The version in front of the extensions. -/
def legacyVersion (version : Bytes) : Bytes :=
  let minor := (version.getD 1 0).toNat
  if version.getD 0 0 = 3 ∧ 1 ≤ minor ∧ minor ≤ 4 then versionChars minor else [48,48]

def ja4Parse : Ja4Run Parsed := do
  let len := ch.length
  let fuel := len+1
  expect (44 ≤ len) ()
  let sidLen ← byteAt ch 43
  let pos := 44
  expect (pos+sidLen.toNat ≤ len) ()
  let pos := pos+sidLen.toNat
  let version ← read ch 9 2
  let (pos,ciphers) ← ja4Ciphers ch fuel pos
  let found ← ja4Block ch fuel pos ⟨legacyVersion version,false,0,newTable,newTable,0,0⟩
  pure ⟨ciphers,found⟩

end

/-- `hex4_cmp`, as an order. -/
def hex4Le (a b : Bytes) : Bool :=
  decide ((a.take 4).map UInt8.toNat ≤ (b.take 4).map UInt8.toNat)

/-- `qsort` of the cells that are used. -/
def Table.sorted (t : Table) : Table :=
  {t with cells := (t.cells.take t.count).mergeSort hex4Le++t.cells.drop t.count}

/-- Bytes are put behind what a buffer of `size` bytes holds. -/
def put (size : ℕ) (buf bs : Bytes) : Ja4Run Bytes :=
  if buf.length+bs.length ≤ size then pure (buf++bs) else .error .outOfBounds

/-- The loop that joins cells with commas, from the cell `i` on. -/
def join (size : ℕ) : List Bytes → ℕ → Bytes → Ja4Run Bytes
  | [], _, buf => pure buf
  | cell::cells, i, buf => do
      let buf ← if i ≠ 0 then put size buf [44] else pure buf
      let buf ← put size buf (cell.take 4)
      join size cells (i+1) buf

section
variable (sha256 : Bytes → Bytes)

/-- The first six bytes of the digest. -/
def sha256Hex12 (input : Bytes) : Bytes :=
  (List.range 6).flatMap fun i =>
    let d := ((sha256 input).getD i 0).toNat
    [hex (d/16),hex (d%16)]

def zeros12 : Bytes := List.replicate 12 48

def ja4B (ciphers : Table) : Ja4Run Bytes :=
  if ciphers.count = 0 then pure zeros12
  else do
    let buf ← join (tableMax*5+1) (ciphers.cells.take ciphers.count) 0 []
    pure (sha256Hex12 sha256 buf)

def ja4C (exts sigalgs : Table) : Ja4Run Bytes :=
  if exts.count = 0 ∧ sigalgs.count = 0 then pure zeros12
  else do
    let size := (tableMax+tableMax)*5+2
    let buf ← join size (exts.cells.take exts.count) 0 []
    let buf ←
      if 0 < sigalgs.count then do
        let buf ← put size buf [95]
        join size (sigalgs.cells.take sigalgs.count) 0 buf
      else pure buf
    pure (sha256Hex12 sha256 buf)

/-- Printable bytes as they are, otherwise the first one in hexadecimal. -/
def alpnChars (first last : UInt8) : Bytes :=
  if first = 0 ∧ last = 0 then [48,48]
  else if (0x20 ≤ first ∧ first < 0x7f) ∧ 0x20 ≤ last ∧ last < 0x7f then [first,last]
  else [hex (first.toNat/16),hex (first.toNat%16)]

/-- The format `%02d` of a number that is cut at 99. -/
def count2 (n : ℕ) : Bytes :=
  let n := if 99 < n then 99 else n
  [UInt8.ofNat (48+n/10),UInt8.ofNat (48+n%10)]

/-- The tables are sorted. -/
def Parsed.sorted (p : Parsed) : Parsed :=
  {p with ciphers := p.ciphers.sorted, found := {p.found with exts := p.found.exts.sorted}}

/-- What `ja4_compute` prints then; the buffer takes 36 bytes and a null byte. -/
def ja4Print (p : Parsed) : Ja4Run Bytes := do
  let b ← ja4B sha256 p.ciphers
  let c ← ja4C sha256 p.found.exts p.found.sigalgs
  pure (([116]++p.found.tlsVer++[if p.found.hasSni then 100 else 105]++count2 p.ciphers.count++
    count2 p.found.extCountTotal++alpnChars p.found.alpnFirst p.found.alpnLast++[95]++b++[95]++
    c).take 36)

def ja4Compute (ch : Bytes) : Ja4Run Bytes := do
  let p ← ja4Parse ch
  ja4Print sha256 p.sorted

end

structure Ext where
  type : ℕ
  body : Bytes
  deriving DecidableEq

/-- A number of two bytes. -/
def pair (n : ℕ) : Bytes := [UInt8.ofNat (n/256),UInt8.ofNat n]

def encodeExt (e : Ext) : Bytes := pair e.type++(pair e.body.length++e.body)

structure Ext.Valid (e : Ext) : Prop where
  type : e.type < 65536
  body : e.body.length < 65536

/-- A ClientHello, from the headers of the record and of the handshake up to what
follows in the buffer. The block of extensions may end with up to three bytes that are
none, or be missing. -/
structure Hello where
  headers : Bytes
  version : Bytes
  random : Bytes
  sessionId : Bytes
  ciphers : List ℕ
  compression : Bytes
  block : Option (List Ext × Bytes)
  trailing : Bytes

def Hello.exts (h : Hello) : List Ext :=
  match h.block with
  | none => []
  | some (exts,_) => exts

/-- The bytes of the block of extensions. -/
def encodeBlock (exts : List Ext) (rest : Bytes) : Bytes := concat encodeExt exts++rest

/-- What follows the compression methods. -/
def Hello.encodeTail (h : Hello) : Bytes :=
  match h.block with
  | none => h.trailing
  | some (exts,rest) => pair (encodeBlock exts rest).length++(encodeBlock exts rest++h.trailing)

def Hello.encode (h : Hello) : Bytes :=
  h.headers++(h.version++(h.random++(UInt8.ofNat h.sessionId.length::(h.sessionId++
    (pair (2*h.ciphers.length)++(concat pair h.ciphers++
      (UInt8.ofNat h.compression.length::(h.compression++h.encodeTail))))))))

/-- The extensions and what follows them can be written with their length. -/
structure BlockValid (exts : List Ext) (rest : Bytes) : Prop where
  valid : ∀ e ∈ exts, e.Valid
  few : rest.length < 4
  length : (encodeBlock exts rest).length < 65536

structure Hello.Valid (h : Hello) : Prop where
  headers : h.headers.length = 9
  version : h.version.length = 2
  random : h.random.length = 32
  sessionId : h.sessionId.length < 256
  ciphers : ∀ c ∈ h.ciphers, c < 65536
  ciphersLength : 2*h.ciphers.length < 65536
  compression : h.compression.length < 256
  block : match h.block with
    | none => h.trailing.length < 2
    | some (exts,rest) => BlockValid exts rest

/-- The values of two bytes in a row. -/
def words : Bytes → List ℕ
  | a::b::bs => word [a,b]::words bs
  | _ => []

/-- The digit of the highest version of a `supported_versions` extension. -/
def versionOf (body : Bytes) : Option ℕ :=
  let n := (body.getD 0 0).toNat
  if 1 ≤ body.length ∧ 0 < n ∧ n+1 ≤ body.length ∧ n%2 = 0 then
    let best := (words ((body.drop 1).take n)).foldl highest (-1)
    if 1 ≤ best then some best.toNat else none
  else none

def sigalgsOf (body : Bytes) : List ℕ :=
  let n := word (body.take 2)
  if 2 ≤ body.length ∧ 0 < n ∧ n+2 ≤ body.length ∧ n%2 = 0 then words ((body.drop 2).take n)
  else []

/-- The first and the last byte of the first protocol, which may end in what follows
the extension. -/
def alpnOf (body after : Bytes) : Option (UInt8 × UInt8) :=
  let n := word (body.take 2)
  if 3 ≤ body.length ∧ 0 < n ∧ n+2 ≤ body.length then
    let k := (body.getD 2 0).toNat
    if 0 < k ∧ 3+k ≤ (body++after).length then
      some ((body++after).getD 3 0,(body++after).getD (2+k) 0)
    else none
  else none

/-- The first protocol ends in its extension. -/
def AlpnInside (body : Bytes) : Prop :=
  3 ≤ body.length → 0 < word (body.take 2) → word (body.take 2)+2 ≤ body.length →
    3+(body.getD 2 0).toNat ≤ body.length

structure Facts where
  type : ℕ
  minor : Option ℕ
  sigalgs : List ℕ
  alpn : Option (UInt8 × UInt8)

/-- What an extension says, with the bytes that follow it in the block. -/
def Ext.facts (e : Ext) (after : Bytes) : Facts where
  type := e.type
  minor := if e.type = 0x002b then versionOf e.body else none
  sigalgs := if e.type = 0x000d then sigalgsOf e.body else []
  alpn := if e.type = 0x0010 then alpnOf e.body after else none

/-- What was seen of the extensions. -/
structure Seen where
  tlsVer : Bytes
  hasSni : Bool
  count : ℕ
  types : List ℕ
  sigalgs : List ℕ
  alpn : UInt8 × UInt8

def Seen.add (s : Seen) (w : Facts) : Seen :=
  if isGreaseU16 w.type then s
  else
    {tlsVer := (w.minor.map versionChars).getD s.tlsVer
     hasSni := s.hasSni || w.type = 0x0000
     count := s.count+1
     types := if w.type ≠ 0x0000 ∧ w.type ≠ 0x0010 then s.types++[w.type] else s.types
     sigalgs := s.sigalgs++w.sigalgs
     alpn := w.alpn.getD s.alpn}

/-- All extensions of a block, in their order. -/
def Seen.walk (s : Seen) : List Ext → Bytes → Seen
  | [], _ => s
  | e::exts, rest => (s.add (e.facts (encodeBlock exts rest))).walk exts rest

/-- The table after values were kept. -/
def tableOf (vs : List ℕ) : Table :=
  ⟨(vs.take tableMax).map hex4++List.replicate (tableMax-vs.length) [0,0,0,0,0],vs.length⟩

theorem keep_tableOf (vs : List ℕ) (v : ℕ) : keep (tableOf vs) v = .ok (tableOf (vs++[v])) := by
  unfold keep tableOf
  dsimp only
  split
  · next hroom =>
      have htake : vs.take tableMax = vs := List.take_of_length_le (by omega)
      have htake' : (vs++[v]).take tableMax = vs++[v] := by
        apply List.take_of_length_le
        rw [List.length_append,List.length_singleton]
        omega
      have hwrite := @write_next Bytes (vs.map hex4) [hex4 v] vs.length (tableMax-vs.length)
        [0,0,0,0,0] (tableMax-(vs++[v]).length) (by rw [List.length_map])
        (by rw [List.length_append,List.length_singleton,List.length_singleton]; omega)
      rw [htake,htake',hwrite,List.map_append]
      dsimp only
      rw [List.length_append]
      rfl
  · next hfull =>
      have htake : (vs++[v]).take tableMax = vs.take tableMax :=
        List.take_append_of_le_length (by omega)
      have hnone : tableMax-(vs++[v]).length = tableMax-vs.length := by
        rw [List.length_append,List.length_singleton]
        omega
      rw [htake,hnone,List.length_append]
      rfl

section
variable {ch X : Bytes} {p n : ℕ}

theorem read_drop (h : ch.drop p = X) (hn : n ≤ X.length) (hpos : 0 < n) :
    read ch (p : ℤ) n = (.ok (X.take n) : Ja4Run Bytes) := by
  have hlength := congrArg List.length h
  rw [List.length_drop] at hlength
  rw [read_eq (by omega),h]

theorem u16Be_drop {a b : UInt8} (h : ch.drop p = a::b::X) : u16Be ch p = .ok (word [a,b]) := by
  unfold u16Be
  rw [read_drop h (by simp) (by decide)]
  rfl

theorem u16Be_pair {v : ℕ} (hv : v < 65536) (h : ch.drop p = pair v++X) : u16Be ch p = .ok v := by
  have hword := word_pair hv
  rw [u16Be_drop h,hword]

theorem byteAt_drop {a : UInt8} (h : ch.drop p = a::X) : byteAt ch p = .ok a := by
  unfold byteAt
  rw [read_drop h (by simp) (by decide)]
  rfl

theorem drop_next {Y : Bytes} (h : ch.drop p = Y++X) : ch.drop (p+Y.length) = X := by
  rw [← List.drop_drop,h,List.drop_left]

theorem byteAt_getD (h : ch.drop p = X) (hn : n < X.length) :
    byteAt ch (p+n) = .ok (X.getD n 0) := by
  have hdrop : ch.drop (p+n) = X[n]::X.drop (n+1) := by
    rw [← List.drop_drop,h,List.drop_eq_getElem_cons hn]
  rw [byteAt_drop hdrop,List.getD_eq_getElem _ _ hn]

/-- A loop over values of two bytes. -/
theorem wordLoop_eq {S T : Type} {use : S → ℕ → Ja4Run S} {emb : T → S} {g : T → ℕ → T}
    (huse : ∀ t v, use (emb t) v = .ok (emb (g t v))) {W : Bytes} {fuel : ℕ}
    (h : ch.drop p = W++X) (hW : W.length = 2*n) (hfuel : n < fuel) (t : T) :
    run (wordPass ch (p+2*n) use) fuel (p,emb t) = .ok (emb ((words W).foldl g t)) := by
  induction n generalizing p W fuel t with
  | zero =>
      rw [List.length_eq_zero_iff.mp hW]
      have hpass : wordPass ch (p+2*0) use (p,emb t) = .ok (.leave (emb t)) := by
        unfold wordPass
        rw [if_neg (by dsimp only; omega)]
        rfl
      cases fuel with
      | zero => omega
      | succ fuel => exact run_leave hpass fuel
  | succ n ih =>
      cases W with
      | nil => cases hW
      | cons a W =>
          cases W with
          | nil => simp only [List.length_singleton] at hW; omega
          | cons b W =>
              rw [List.length_cons,List.length_cons] at hW
              have hpass : wordPass ch (p+2*(n+1)) use (p,emb t) =
                  .ok (.again (p+2,emb (g t (word [a,b])))) := by
                unfold wordPass
                rw [if_pos (by dsimp only; omega),u16Be_drop h,ok_bind,huse,ok_bind]
                rfl
              have hrest : ch.drop (p+2) = W++X := drop_next (Y := [a,b]) h
              cases fuel with
              | zero => omega
              | succ fuel =>
                  have hend : p+2*(n+1) = p+2+2*n := by omega
                  rw [run_again hpass,hend]
                  exact ih hrest (by omega) (by omega) _

end

/-- The tables and fields of what was seen. -/
def foundOf (s : Seen) : Found :=
  ⟨s.tlsVer,s.hasSni,s.count,tableOf s.types,tableOf s.sigalgs,s.alpn.1,s.alpn.2⟩

theorem foldl_concat (l vs : List ℕ) : vs.foldl (fun l v => l++[v]) l = l++vs := by
  induction vs generalizing l with
  | nil => exact (List.append_nil l).symm
  | cons v vs ih => rw [List.foldl_cons,ih,List.append_assoc]; rfl

section
variable {ch X body after : Bytes} {pos fuel : ℕ}

theorem u16Be_body (h : ch.drop pos = body++X) (hbody : 2 ≤ body.length) :
    u16Be ch pos = .ok (word (body.take 2)) := by
  cases body with
  | nil => simp at hbody
  | cons a body =>
      cases body with
      | nil => simp at hbody
      | cons b body => exact u16Be_drop h

theorem supportedVersions_eq (h : ch.drop pos = body++X) (hbody : 1 ≤ body.length)
    (hfuel : body.length < fuel) (f : Found) :
    supportedVersions ch fuel body.length pos f =
      .ok {f with tlsVer := ((versionOf body).map versionChars).getD f.tlsVer} := by
  have hbyte := @byteAt_getD ch (body++X) pos 0 h (by rw [List.length_append]; omega)
  rw [List.getD_append _ _ _ _ (by omega)] at hbyte
  unfold supportedVersions versionOf
  rw [Nat.add_zero] at hbyte
  rw [hbyte,ok_bind]
  dsimp only
  generalize (body.getD 0 0).toNat = n
  by_cases hcond : 0 < n ∧ n+1 ≤ body.length ∧ n%2 = 0
  · have hlist : ch.drop (pos+1) = (body.drop 1).take n++((body.drop 1).drop n++X) := by
      rw [← List.append_assoc,List.take_append_drop,← List.drop_drop,h,
        List.drop_append_of_le_length hbody]
    have hlength : ((body.drop 1).take n).length = 2*(n/2) := by
      rw [List.length_take,List.length_drop]
      omega
    have hrun : run (wordPass ch (pos+1+n) fun best v => pure (highest best v)) fuel (pos+1,-1) =
        .ok ((words ((body.drop 1).take n)).foldl highest (-1)) := by
      have hend : pos+1+n = pos+1+2*(n/2) := by omega
      rw [hend]
      exact @wordLoop_eq ch _ _ _ ℤ ℤ _ id highest (fun _ _ => rfl) _ _ hlist hlength (by omega) (-1)
    rw [if_pos hcond,if_pos ⟨hbody,hcond⟩,hrun,ok_bind]
    split
    · rfl
    · rfl
  · rw [if_neg hcond,if_neg fun h => hcond h.2]
    rfl

theorem signatureAlgorithms_eq (h : ch.drop pos = body++X) (hbody : 2 ≤ body.length)
    (hfuel : body.length < fuel) (f : Found) {l : List ℕ} (hl : f.sigalgs = tableOf l) :
    signatureAlgorithms ch fuel body.length pos f =
      .ok {f with sigalgs := tableOf (l++sigalgsOf body)} := by
  have hword : u16Be ch pos = .ok (word (body.take 2)) := u16Be_body h (by omega)
  unfold signatureAlgorithms sigalgsOf
  rw [hword,ok_bind]
  dsimp only
  generalize word (body.take 2) = n
  by_cases hcond : 0 < n ∧ n+2 ≤ body.length ∧ n%2 = 0
  · have hlist : ch.drop (pos+2) = (body.drop 2).take n++((body.drop 2).drop n++X) := by
      rw [← List.append_assoc,List.take_append_drop,← List.drop_drop,h,
        List.drop_append_of_le_length hbody]
    have hlength : ((body.drop 2).take n).length = 2*(n/2) := by
      rw [List.length_take,List.length_drop]
      omega
    have hrun : run (wordPass ch (pos+2+n) keep) fuel (pos+2,f.sigalgs) =
        .ok (tableOf (l++words ((body.drop 2).take n))) := by
      have hend : pos+2+n = pos+2+2*(n/2) := by omega
      rw [hend,hl,← foldl_concat]
      exact wordLoop_eq keep_tableOf hlist hlength (by omega) l
    rw [if_pos hcond,if_pos ⟨hbody,hcond⟩,hrun,ok_bind]
    rfl
  · rw [if_neg hcond,if_neg fun h => hcond h.2,List.append_nil,← hl]
    rfl

theorem alpn_eq (h : ch.drop pos = body++(after++X)) (hbody : 3 ≤ body.length) (f : Found) :
    alpn ch (pos+(body++after).length) body.length pos f =
      .ok {f with
        alpnFirst := ((alpnOf body after).getD (f.alpnFirst,f.alpnLast)).1
        alpnLast := ((alpnOf body after).getD (f.alpnFirst,f.alpnLast)).2} := by
  have hword : u16Be ch pos = .ok (word (body.take 2)) := u16Be_body h (by omega)
  have hbytes : ch.drop pos = (body++after)++X := by rw [h,List.append_assoc]
  have hat : ∀ n, n < (body++after).length → byteAt ch (pos+n) = .ok ((body++after).getD n 0) := by
    intro n hn
    rw [byteAt_getD hbytes (by rw [List.length_append]; omega),List.getD_append _ _ _ _ hn]
  have hlen : (body++after).length = body.length+after.length := List.length_append
  have hthird := hat 2 (by omega)
  rw [List.getD_append _ _ _ _ (by omega)] at hthird
  unfold alpn alpnOf
  rw [hword,ok_bind]
  dsimp only
  by_cases hcond : 0 < word (body.take 2) ∧ word (body.take 2)+2 ≤ body.length
  · rw [if_pos hcond,if_pos ⟨hbody,hcond⟩,hthird,ok_bind]
    generalize hk : (body.getD 2 0).toNat = k
    by_cases hfits : 0 < k ∧ 3+k ≤ (body++after).length
    · have hlast : pos+3+k-1 = pos+(2+k) := by omega
      have hinside : 0 < k ∧ pos+3+k ≤ pos+(body++after).length := ⟨hfits.1,by omega⟩
      rw [if_pos hinside,if_pos hfits,hat 3 (by omega),ok_bind,hlast,hat (2+k) (by omega),ok_bind]
      rfl
    · have hinside : ¬(0 < k ∧ pos+3+k ≤ pos+(body++after).length) := fun h =>
        hfits ⟨h.1,by omega⟩
      rw [if_neg hinside,if_neg hfits]
      rfl
  · rw [if_neg hcond,if_neg fun h => hcond h.2]
    rfl

/-- What an extension changes apart from the table of types. -/
def Seen.field (s : Seen) (w : Facts) : Seen :=
  {s with
    tlsVer := (w.minor.map versionChars).getD s.tlsVer
    hasSni := s.hasSni || w.type = 0x0000
    sigalgs := s.sigalgs++w.sigalgs
    alpn := w.alpn.getD s.alpn}

theorem extensionField_eq {e : Ext} (h : ch.drop pos = e.body++(after++X))
    (hfuel : e.body.length < fuel) (s : Seen) :
    extensionField ch fuel (pos+(e.body++after).length) e.type e.body.length pos (foundOf s) =
      .ok (foundOf (s.field (e.facts after))) := by
  unfold extensionField
  by_cases hsni : e.type = 0x0000
  · rw [if_pos hsni]
    simp [foundOf,Seen.field,Ext.facts,hsni,pure,Except.pure]
  rw [if_neg hsni]
  by_cases hversions : e.type = 0x002b
  · by_cases hlength : 1 ≤ e.body.length
    · rw [if_pos ⟨hversions,hlength⟩,supportedVersions_eq h hlength hfuel]
      simp [foundOf,Seen.field,Ext.facts,hversions]
    · have hnone : versionOf e.body = none := if_neg fun h => hlength h.1
      rw [if_neg fun h => hlength h.2,if_neg (by omega),if_neg (by omega)]
      simp [foundOf,Seen.field,Ext.facts,hversions,hnone,pure,Except.pure]
  rw [if_neg fun h => hversions h.1]
  by_cases hsigalgs : e.type = 0x000d
  · by_cases hlength : 2 ≤ e.body.length
    · rw [if_pos ⟨hsigalgs,hlength⟩,signatureAlgorithms_eq h hlength hfuel _ rfl]
      simp [foundOf,Seen.field,Ext.facts,hsigalgs]
    · have hnone : sigalgsOf e.body = [] := if_neg fun h => hlength h.1
      rw [if_neg fun h => hlength h.2,if_neg (by omega)]
      simp [foundOf,Seen.field,Ext.facts,hsigalgs,hnone,pure,Except.pure]
  rw [if_neg fun h => hsigalgs h.1]
  by_cases halpn : e.type = 0x0010
  · by_cases hlength : 3 ≤ e.body.length
    · rw [if_pos ⟨halpn,hlength⟩,alpn_eq h hlength]
      simp [foundOf,Seen.field,Ext.facts,halpn]
    · have hnone : alpnOf e.body after = none := if_neg fun h => hlength h.1
      rw [if_neg fun h => hlength h.2]
      simp [foundOf,Seen.field,Ext.facts,halpn,hnone,pure,Except.pure]
  rw [if_neg fun h => halpn h.1]
  simp [foundOf,Seen.field,Ext.facts,hsni,hversions,hsigalgs,halpn,pure,Except.pure]

theorem seeExtension_eq {e : Ext} (h : ch.drop pos = e.body++(after++X))
    (hfuel : e.body.length < fuel) (hgrease : isGreaseU16 e.type = false) (s : Seen) :
    seeExtension ch fuel (pos+(e.body++after).length) e.type e.body.length pos (foundOf s) =
      .ok (foundOf (s.add (e.facts after))) := by
  have hfield := extensionField_eq h hfuel {s with count := s.count+1}
  have hnot : ¬isGreaseU16 (e.facts after).type = true := by
    rw [Bool.not_eq_true]
    exact hgrease
  have htype : (e.facts after).type = e.type := rfl
  unfold seeExtension
  rw [Seen.add,if_neg hnot,show {foundOf s with extCountTotal := (foundOf s).extCountTotal+1} =
    foundOf {s with count := s.count+1} from rfl,hfield,ok_bind,htype]
  split
  · next hcounted =>
      have hkeep : keep (foundOf (({s with count := s.count+1} : Seen).field (e.facts after))).exts
          e.type = .ok (tableOf (s.types++[e.type])) := keep_tableOf s.types e.type
      rw [hkeep]
      rfl
  · rfl

end

theorem length_pair_append (n : ℕ) (bs : Bytes) : (pair n++bs).length = 2+bs.length :=
  List.length_append

theorem length_encodeExt (e : Ext) : (encodeExt e).length = e.body.length+4 := by
  rw [encodeExt,length_pair_append,length_pair_append]
  omega

section
variable {ch X after rest : Bytes} {pos fuel : ℕ} {exts : List Ext}

theorem extensionPass_eq {e : Ext} (hvalid : e.Valid) (h : ch.drop pos = encodeExt e++(after++X))
    (hfuel : e.body.length < fuel) (s : Seen) :
    extensionPass ch fuel (pos+(encodeExt e++after).length) (pos,foundOf s) =
      .ok (.again (pos+(encodeExt e).length,foundOf (s.add (e.facts after)))) := by
  have hbytes : ch.drop pos = pair e.type++(pair e.body.length++(e.body++(after++X))) := by
    rw [h,encodeExt,List.append_assoc,List.append_assoc]
  have hsecond : ch.drop (pos+2) = pair e.body.length++(e.body++(after++X)) := drop_next hbytes
  have hbody : ch.drop (pos+4) = e.body++(after++X) := drop_next hsecond
  have hlength : (encodeExt e++after).length = 4+(e.body++after).length := by
    rw [List.length_append,List.length_append,length_encodeExt]
    omega
  have hbodyLength : (e.body++after).length = e.body.length+after.length := List.length_append
  have hnext : pos+4+e.body.length = pos+(encodeExt e).length := by
    rw [length_encodeExt]
    omega
  unfold extensionPass
  dsimp only
  rw [hlength,← Nat.add_assoc,if_pos (by omega),u16Be_pair hvalid.type hbytes,ok_bind,
    u16Be_pair hvalid.body hsecond,ok_bind,expect_bind (by omega),hnext]
  by_cases hgrease : isGreaseU16 e.type = true
  · have hadd : s.add (e.facts after) = s := if_pos hgrease
    rw [if_pos hgrease,hadd]
    rfl
  · rw [if_neg hgrease,seeExtension_eq hbody hfuel (Bool.eq_false_of_not_eq_true hgrease),ok_bind]
    rfl

theorem extensions_run (hvalid : ∀ e ∈ exts, e.Valid)
    (h : ch.drop pos = concat encodeExt exts++(rest++X))
    (hfuel : (concat encodeExt exts).length < fuel) (n : ℕ) (s : Seen) :
    run (extensionPass ch fuel (pos+(encodeBlock exts rest).length)) (exts.length+n) (pos,foundOf s) =
      run (extensionPass ch fuel (pos+(encodeBlock exts rest).length)) n
        (pos+(concat encodeExt exts).length,foundOf (s.walk exts rest)) := by
  induction exts generalizing pos s with
  | nil =>
      have hnone : concat encodeExt [] = [] := rfl
      rw [List.length_nil,Nat.zero_add,hnone]
      rfl
  | cons e exts ih =>
      have hblock : encodeBlock (e::exts) rest = encodeExt e++encodeBlock exts rest := by
        rw [encodeBlock,concat_cons,List.append_assoc]
        rfl
      have hfirst : ch.drop pos = encodeExt e++(encodeBlock exts rest++X) := by
        rw [h,concat_cons,encodeBlock,List.append_assoc,List.append_assoc]
      have hrest : ch.drop (pos+(encodeExt e).length) = concat encodeExt exts++(rest++X) := by
        have hnext := drop_next hfirst
        rw [hnext,encodeBlock,List.append_assoc]
      rw [concat_cons,List.length_append,length_encodeExt] at hfuel
      have hend : pos+(encodeBlock (e::exts) rest).length =
          pos+(encodeExt e).length+(encodeBlock exts rest).length := by
        rw [hblock,List.length_append,Nat.add_assoc]
      have hbody : e.body.length < fuel := by omega
      have hpass := extensionPass_eq (hvalid e List.mem_cons_self) hfirst hbody s
      rw [← hblock,hend] at hpass
      have hall : ∀ e' ∈ exts, e'.Valid := fun e' he' => hvalid e' (List.mem_cons_of_mem e he')
      have hnext : pos+(concat encodeExt (e::exts)).length =
          pos+(encodeExt e).length+(concat encodeExt exts).length := by
        rw [concat_cons,List.length_append,Nat.add_assoc]
      rw [List.length_cons,Nat.add_right_comm,hnext,hend,run_again hpass]
      exact ih hall hrest (by omega) _

/-- The loop comes to what is left of the block. -/
theorem extensions_end (hvalid : ∀ e ∈ exts, e.Valid) (h : ch.drop pos = encodeBlock exts rest++X)
    (hfuel : (encodeBlock exts rest).length < fuel) (s : Seen) :
    ∃ k, run (extensionPass ch fuel (pos+(encodeBlock exts rest).length)) fuel (pos,foundOf s) =
      run (extensionPass ch fuel (pos+(encodeBlock exts rest).length)) (k+1)
        (pos+(concat encodeExt exts).length,foundOf (s.walk exts rest)) := by
  have hlength : (encodeBlock exts rest).length = (concat encodeExt exts).length+rest.length :=
    List.length_append
  have hcount : exts.length ≤ (concat encodeExt exts).length := by
    apply length_le_concat
    intro e
    apply List.ne_nil_of_length_pos
    rw [length_encodeExt]
    omega
  have hbytes : ch.drop pos = concat encodeExt exts++(rest++X) := by
    rw [h,encodeBlock,List.append_assoc]
  have hrun := extensions_run hvalid hbytes (show _ < fuel by omega) (fuel-exts.length-1+1) s
  have hadd : exts.length+(fuel-exts.length-1+1) = fuel := by omega
  rw [hadd] at hrun
  exact ⟨_,hrun⟩

theorem extensions_stored (hvalid : ∀ e ∈ exts, e.Valid) (hfew : rest.length < 4)
    (h : ch.drop pos = encodeBlock exts rest++X)
    (hfuel : (encodeBlock exts rest).length < fuel) (s : Seen) :
    run (extensionPass ch fuel (pos+(encodeBlock exts rest).length)) fuel (pos,foundOf s) =
      .ok (foundOf (s.walk exts rest)) := by
  have ⟨k,hend⟩ := extensions_end hvalid h hfuel s
  have hlength : (encodeBlock exts rest).length = (concat encodeExt exts).length+rest.length :=
    List.length_append
  have hlast : extensionPass ch fuel (pos+(encodeBlock exts rest).length)
      (pos+(concat encodeExt exts).length,foundOf (s.walk exts rest)) =
        .ok (.leave (foundOf (s.walk exts rest))) := by
    unfold extensionPass
    rw [if_neg (by dsimp only; omega)]
    rfl
  rw [hend]
  exact run_leave hlast k

/-- Two bytes are a number. -/
theorem exists_pair {bs : Bytes} (h : 2 ≤ bs.length) : ∃ n Y, n < 65536 ∧ bs = pair n++Y := by
  have hpair : pair (word (bs.take 2)) = bs.take 2 := pair_word (List.length_take_of_le h)
  refine ⟨word (bs.take 2),bs.drop 2,word_lt _,?_⟩
  rw [hpair,List.take_append_drop]

/-- Four bytes are the start of an extension, if the rest is as long as they say. -/
theorem exists_header (hlong : 4 ≤ rest.length) :
    ∃ t n tail, t < 65536 ∧ n < 65536 ∧ rest = pair t++(pair n++tail) := by
  have ⟨t,Y,ht,hY⟩ := exists_pair (show 2 ≤ rest.length by omega)
  have hlength : rest.length = 2+Y.length := by rw [hY,length_pair_append]
  have ⟨n,tail,hn,htail⟩ := exists_pair (show 2 ≤ Y.length by omega)
  exact ⟨t,n,tail,ht,hn,htail ▸ hY⟩

/-- What is left of the block is at least as long as the start of an extension and is none. -/
theorem extensions_refused (hvalid : ∀ e ∈ exts, e.Valid) (hlong : 4 ≤ rest.length)
    (hnone : ¬∃ e after, e.Valid ∧ rest = encodeExt e++after)
    (h : ch.drop pos = encodeBlock exts rest++X)
    (hfuel : (encodeBlock exts rest).length < fuel) (s : Seen) :
    run (extensionPass ch fuel (pos+(encodeBlock exts rest).length)) fuel (pos,foundOf s) =
      .error (.fail ()) := by
  have ⟨k,hend⟩ := extensions_end hvalid h hfuel s
  have ⟨t,n,tail,ht,hn,hrest⟩ := exists_header hlong
  have hlength : (encodeBlock exts rest).length = (concat encodeExt exts).length+rest.length :=
    List.length_append
  have hrestLength : rest.length = 4+tail.length := by
    rw [hrest,length_pair_append,length_pair_append]
    omega
  have hshort : tail.length < n := by
    by_contra hle
    have htail : tail = tail.take n++tail.drop n := (List.take_append_drop n tail).symm
    have htake : (tail.take n).length = n := List.length_take_of_le (by omega)
    refine hnone ⟨⟨t,tail.take n⟩,tail.drop n,⟨ht,by rw [htake]; exact hn⟩,?_⟩
    rw [encodeExt,htake,List.append_assoc,List.append_assoc,← htail]
    exact hrest
  have hbytes : ch.drop (pos+(concat encodeExt exts).length) = rest++X := by
    apply drop_next
    rw [h,encodeBlock,List.append_assoc]
  rw [hrest,List.append_assoc,List.append_assoc] at hbytes
  have hsecond : ch.drop (pos+(concat encodeExt exts).length+2) = pair n++(tail++X) :=
    drop_next hbytes
  have hpass : extensionPass ch fuel (pos+(encodeBlock exts rest).length)
      (pos+(concat encodeExt exts).length,foundOf (s.walk exts rest)) = .error (.fail ()) := by
    unfold extensionPass
    dsimp only
    rw [if_pos (by omega),u16Be_pair ht hbytes,ok_bind,u16Be_pair hn hsecond,ok_bind,expect,
      if_neg (by omega)]
    rfl
  rw [hend]
  exact run_error hpass k

end

/-- The cipher suites that are not GREASE. -/
def kept (cs : List ℕ) : List ℕ := cs.filter fun c => !isGreaseU16 c

def Hello.start (h : Hello) : Seen := ⟨legacyVersion h.version,false,0,[],[],(0,0)⟩

def Hello.seen (h : Hello) : Seen :=
  match h.block with
  | none => h.start
  | some (exts,rest) => h.start.walk exts rest

/-- What the walk stores, with the numbers cut to the size of the tables. -/
def storedOf (s : Seen) : Found :=
  {foundOf s with exts := (tableOf s.types).capped, sigalgs := (tableOf s.sigalgs).capped}

def Hello.parsed (h : Hello) : Parsed := ⟨(tableOf (kept h.ciphers)).capped,storedOf h.seen⟩

theorem words_map (cs : List ℕ) : words (concat pair cs) = cs.map fun c => word (pair c) := by
  induction cs with
  | nil => rfl
  | cons c cs ih =>
      rw [concat_cons,List.map_cons,← ih]
      rfl

theorem words_concat {cs : List ℕ} (h : ∀ c ∈ cs, c < 65536) : words (concat pair cs) = cs := by
  have hsame : cs.map (fun c => word (pair c)) = cs.map id :=
    List.map_congr_left fun c hc => word_pair (h c hc)
  rw [words_map,hsame,List.map_id]

theorem concat_words {n : ℕ} {bs : Bytes} (h : bs.length = 2*n) : concat pair (words bs) = bs := by
  induction n generalizing bs with
  | zero =>
      rw [List.length_eq_zero_iff.mp h]
      rfl
  | succ n ih =>
      cases bs with
      | nil => rfl
      | cons a bs =>
          cases bs with
          | nil => simp only [List.length_singleton] at h; omega
          | cons b bs =>
              have hpair : pair (word [a,b]) = [a,b] := pair_word rfl
              rw [List.length_cons,List.length_cons] at h
              rw [words,concat_cons,hpair,ih (by omega)]
              rfl

theorem words_lt (bs : Bytes) : ∀ c ∈ words bs, c < 65536 := by
  fun_induction words bs with
  | case1 a b bs ih =>
      intro c hc
      rcases List.mem_cons.mp hc with rfl | hc
      · exact word_lt _
      · exact ih c hc
  | case2 => nofun

theorem length_concat_pair (cs : List ℕ) : (concat pair cs).length = 2*cs.length := by
  induction cs with
  | nil => rfl
  | cons c cs ih =>
      rw [concat_cons,length_pair_append,ih,List.length_cons]
      omega

theorem foldl_kept (l cs : List ℕ) :
    cs.foldl (fun l v => if isGreaseU16 v then l else l++[v]) l = l++kept cs := by
  induction cs generalizing l with
  | nil => exact (List.append_nil l).symm
  | cons c cs ih =>
      rw [List.foldl_cons,ih,kept,kept,List.filter_cons]
      by_cases hgrease : isGreaseU16 c = true
      · rw [if_pos hgrease,if_neg (by rw [hgrease]; decide)]
      · rw [if_neg hgrease,if_pos (by rw [Bool.eq_false_of_not_eq_true hgrease]; rfl),
          List.append_assoc]
        rfl

theorem useCipher_tableOf (l : List ℕ) (v : ℕ) :
    useCipher (tableOf l) v = .ok (tableOf (if isGreaseU16 v then l else l++[v])) := by
  unfold useCipher
  split
  · rfl
  · exact keep_tableOf l v

section
variable {ch X : Bytes} {pos fuel : ℕ} {cs : List ℕ} {compression : Bytes}

theorem length_of_drop {Y : Bytes} (h : ch.drop pos = Y) (hpos : 0 < Y.length) :
    ch.length = pos+Y.length := by
  have hlength := congrArg List.length h
  rw [List.length_drop] at hlength
  omega

theorem ja4Ciphers_eq (hcs : ∀ c ∈ cs, c < 65536) (hlength : 2*cs.length < 65536)
    (hcompression : compression.length < 256) (hfuel : cs.length < fuel)
    (h : ch.drop pos = pair (2*cs.length)++(concat pair cs++
      (UInt8.ofNat compression.length::(compression++X)))) :
    ja4Ciphers ch fuel pos =
      .ok (pos+2+2*cs.length+1+compression.length,(tableOf (kept cs)).capped) := by
  have hlist : ch.drop (pos+2) = concat pair cs++
      (UInt8.ofNat compression.length::(compression++X)) := drop_next h
  have hcount := length_concat_pair cs
  have hmethods : ch.drop (pos+2+2*cs.length) =
      UInt8.ofNat compression.length::(compression++X) := by
    rw [← hcount]
    exact drop_next hlist
  have htotal := length_of_drop hmethods (Nat.succ_pos _)
  rw [List.length_cons,List.length_append] at htotal
  have hrun : run (wordPass ch (pos+2+2*cs.length) useCipher) fuel (pos+2,newTable) =
      .ok (tableOf (kept cs)) := by
    have hwords := wordLoop_eq useCipher_tableOf hlist hcount hfuel []
    rw [words_concat hcs,foldl_kept] at hwords
    exact hwords
  have hbyte : (UInt8.ofNat compression.length).toNat = compression.length := by
    rw [UInt8.toNat_ofNat']
    omega
  unfold ja4Ciphers
  dsimp only
  rw [expect_bind (by omega),u16Be_pair hlength h,ok_bind,expect_bind ⟨by omega,by omega⟩,hrun,
    ok_bind,expect_bind (by omega),byteAt_drop hmethods,ok_bind,hbyte,expect_bind (by omega)]
  rfl

end

theorem split_at {X : Bytes} {n : ℕ} (h : n ≤ X.length) : ∃ F Y, F.length = n ∧ X = F++Y :=
  ⟨X.take n,X.drop n,List.length_take_of_le h,(List.take_append_drop n X).symm⟩

/-- A test is passed, or the buffer is refused. -/
theorem expect_cases {α : Type} {p Q : Prop} [Decidable p] {f : Unit → Ja4Run α}
    (h : p → Q ∨ f () = .error (.fail ())) : Q ∨ (expect p () >>= f) = .error (.fail ()) := by
  by_cases hp : p
  · rw [expect_bind hp]
    exact h hp
  · rw [expect,if_neg hp]
    exact .inr rfl

section
variable {ch : Bytes} {pos fuel : ℕ}

theorem ja4Ciphers_cases (hfuel : ch.length < fuel) :
    (∃ cs compression X, (∀ c ∈ cs, c < 65536) ∧ 2*cs.length < 65536 ∧ compression.length < 256 ∧
      ch.drop pos = pair (2*cs.length)++(concat pair cs++
        (UInt8.ofNat compression.length::(compression++X)))) ∨
    ja4Ciphers ch fuel pos = .error (.fail ()) := by
  have hrest : (ch.drop pos).length = ch.length-pos := List.length_drop
  unfold ja4Ciphers
  dsimp only
  refine expect_cases fun htwo => ?_
  have ⟨n,Y,hlt,hY⟩ := exists_pair (show 2 ≤ (ch.drop pos).length by omega)
  have hlist : ch.drop (pos+2) = Y := drop_next hY
  have htotal := congrArg List.length hY
  rw [length_pair_append,hrest] at htotal
  rw [u16Be_pair hlt hY,ok_bind]
  refine expect_cases fun hroom => ?_
  have ⟨C,Z,hC,hZ⟩ := split_at (show n ≤ Y.length by omega)
  rw [hZ] at hlist
  have hhalf : n = 2*(n/2) := by omega
  have hrun := wordLoop_eq useCipher_tableOf hlist (hC.trans hhalf) (show n/2 < fuel by omega) []
  rw [← hhalf] at hrun
  have hnew : newTable = tableOf [] := rfl
  rw [hnew,hrun,ok_bind]
  have hmethods : ch.drop (pos+2+n) = Z := by
    rw [← hC]
    exact drop_next hlist
  have hZlength : Y.length = n+Z.length := by rw [hZ,List.length_append,hC]
  refine expect_cases fun hone => ?_
  cases Z with
  | nil =>
      rw [List.length_nil] at hZlength
      omega
  | cons c Z =>
      rw [List.length_cons] at hZlength
      rw [byteAt_drop hmethods,ok_bind]
      refine expect_cases fun hcomp => ?_
      have ⟨compression,X,hcompression,hX⟩ := split_at (show c.toNat ≤ Z.length by omega)
      have hcount : 2*(words C).length = n := by
        rw [← length_concat_pair,concat_words (hC.trans hhalf),hC]
      have hlen : UInt8.ofNat compression.length = c := by rw [hcompression,UInt8.ofNat_toNat]
      refine .inl ⟨words C,compression,X,words_lt C,by omega,?_,?_⟩
      · rw [hcompression]
        exact c.toNat_lt
      · rw [hcount,concat_words (hC.trans hhalf),hlen,hY,hZ,hX]

theorem ja4Block_none (h : (ch.drop pos).length < 2) (f : Found) :
    ja4Block ch fuel pos f = .ok f := by
  rw [List.length_drop] at h
  unfold ja4Block
  rw [if_pos (by omega)]
  rfl

theorem ja4Block_eq {exts : List Ext} {rest X : Bytes} (hvalid : BlockValid exts rest)
    (hfuel : ch.length < fuel)
    (h : ch.drop pos = pair (encodeBlock exts rest).length++(encodeBlock exts rest++X)) (s : Seen) :
    ja4Block ch fuel pos (foundOf s) = .ok (storedOf (s.walk exts rest)) := by
  have hblock : ch.drop (pos+2) = encodeBlock exts rest++X := drop_next h
  have htotal := length_of_drop h (Nat.succ_pos _)
  rw [length_pair_append,List.length_append] at htotal
  unfold ja4Block
  dsimp only
  rw [if_neg (by omega),u16Be_pair hvalid.length h,ok_bind,expect_bind (by omega),
    extensions_stored hvalid.valid hvalid.few hblock (by omega),ok_bind]
  rfl

theorem ja4Block_cases (hfuel : ch.length < fuel) (s : Seen) :
    ((ch.drop pos).length < 2 ∨ ∃ exts rest X, BlockValid exts rest ∧
      ch.drop pos = pair (encodeBlock exts rest).length++(encodeBlock exts rest++X)) ∨
    ja4Block ch fuel pos (foundOf s) = .error (.fail ()) := by
  have hrest : (ch.drop pos).length = ch.length-pos := List.length_drop
  by_cases hshort : (ch.drop pos).length < 2
  · exact .inl (.inl hshort)
  have ⟨n,Y,hlt,hY⟩ := exists_pair (show 2 ≤ (ch.drop pos).length by omega)
  have hblock : ch.drop (pos+2) = Y := drop_next hY
  have htotal := congrArg List.length hY
  rw [length_pair_append,hrest] at htotal
  unfold ja4Block
  dsimp only
  rw [if_neg (by omega),u16Be_pair hlt hY,ok_bind]
  refine expect_cases fun hroom => ?_
  have ⟨B,X,hB,hX⟩ := split_at (show n ≤ Y.length by omega)
  have hne : ∀ e : Ext, e.Valid → encodeExt e ≠ [] := by
    intro e _
    apply List.ne_nil_of_length_pos
    rw [length_encodeExt]
    omega
  have ⟨exts,rest,hunits,hvalid,hnone⟩ := exists_units hne B
  have hencode : B = encodeBlock exts rest := hunits
  rw [hX,hencode] at hblock
  rw [hencode] at hB
  by_cases hfew : rest.length < 4
  · refine .inl (.inr ⟨exts,rest,X,⟨hvalid,hfew,by omega⟩,?_⟩)
    rw [hB,hY,hX,hencode]
  · right
    rw [← hB,extensions_refused hvalid (by omega) hnone hblock (by omega)]
    rfl

end

section
variable {headers version random X ch : Bytes} {b : UInt8}

/-- The bytes up to the length of the session id. -/
theorem start_drop (hheaders : headers.length = 9) (hversion : version.length = 2)
    (hrandom : random.length = 32) (h : headers++(version++(random++(b::X))) = ch) :
    ch.drop 9 = version++(random++(b::X)) ∧ ch.drop 43 = b::X ∧ ch.drop 44 = X ∧
      ch.length = 44+X.length := by
  have hnine : ch.drop 9 = version++(random++(b::X)) := by
    rw [← h,← hheaders,List.drop_left]
  have heleven : ch.drop 11 = random++(b::X) := by
    have hnext := drop_next hnine
    rw [hversion] at hnext
    exact hnext
  have hbyte : ch.drop 43 = b::X := by
    have hnext := drop_next heleven
    rw [hrandom] at hnext
    exact hnext
  have htotal := length_of_drop hbyte (Nat.succ_pos _)
  rw [List.length_cons] at htotal
  exact ⟨hnine,hbyte,drop_next (Y := [b]) hbyte,by omega⟩

theorem read_version (hversion : version.length = 2) (h : ch.drop 9 = version++X) :
    read ch (9 : ℤ) 2 = (.ok version : Ja4Run Bytes) := by
  have hdrop : read ch ((9 : ℕ) : ℤ) 2 = (.ok ((version++X).take 2) : Ja4Run Bytes) :=
    read_drop h (by rw [List.length_append]; omega) (by decide)
  rw [List.take_left' hversion] at hdrop
  exact hdrop

end

theorem parse_encode {h : Hello} (hvalid : h.Valid) : ja4Parse h.encode = .ok h.parsed := by
  generalize hch : h.encode = ch
  have ⟨hnine,hsid,hsession,htotal⟩ :=
    start_drop hvalid.headers hvalid.version hvalid.random hch
  have hciphers := drop_next hsession
  have htail : ch.drop (44+h.sessionId.length+2+2*h.ciphers.length+1+h.compression.length) =
      h.encodeTail := by
    have hlist := drop_next hciphers
    have hmethods := drop_next hlist
    rw [length_concat_pair] at hmethods
    have hcompression : ch.drop (44+h.sessionId.length+2+2*h.ciphers.length+1) =
      h.compression++h.encodeTail := drop_next (Y := [UInt8.ofNat h.compression.length]) hmethods
    exact drop_next hcompression
  have hcount := length_of_drop hciphers (Nat.succ_pos _)
  rw [List.length_append,List.length_append,length_concat_pair] at hcount
  rw [List.length_append] at htotal
  have hbyte : (UInt8.ofNat h.sessionId.length).toNat = h.sessionId.length := by
    rw [UInt8.toNat_ofNat']
    have hlt := hvalid.sessionId
    omega
  have hblock : ja4Block ch (ch.length+1)
      (44+h.sessionId.length+2+2*h.ciphers.length+1+h.compression.length) (foundOf h.start) =
        .ok (storedOf h.seen) := by
    have hrest := hvalid.block
    rw [Hello.encodeTail] at htail
    rw [Hello.seen]
    cases hcase : h.block with
    | none =>
        rw [hcase] at hrest htail
        rw [ja4Block_none (by rw [htail]; exact hrest)]
        rfl
    | some block =>
        rw [hcase] at hrest htail
        exact ja4Block_eq hrest (Nat.lt_succ_self _) htail h.start
  have hnone : (⟨legacyVersion h.version,false,0,newTable,newTable,0,0⟩ : Found) =
    foundOf h.start := rfl
  unfold ja4Parse
  dsimp only
  rw [expect_bind (by omega),byteAt_drop hsid,ok_bind,hbyte,expect_bind (by omega),
    read_version hvalid.version hnine,ok_bind,
    ja4Ciphers_eq hvalid.ciphers hvalid.ciphersLength hvalid.compression (by omega) hciphers,ok_bind]
  dsimp only
  rw [hnone,hblock]
  rfl

/-- A buffer that is not refused is a ClientHello. -/
theorem parse_cases (ch : Bytes) :
    (∃ h : Hello, h.Valid ∧ h.encode = ch) ∨ ja4Parse ch = .error (.fail ()) := by
  unfold ja4Parse
  dsimp only
  refine expect_cases fun hlong => ?_
  have ⟨headers,A,hheaders,hA⟩ := split_at (show 9 ≤ ch.length by omega)
  have hAlength : ch.length = 9+A.length := by rw [hA,List.length_append,hheaders]
  have ⟨version,B,hversion,hB⟩ := split_at (show 2 ≤ A.length by omega)
  have hBlength : A.length = 2+B.length := by rw [hB,List.length_append,hversion]
  have ⟨random,C,hrandom,hC⟩ := split_at (show 32 ≤ B.length by omega)
  have hClength : B.length = 32+C.length := by rw [hC,List.length_append,hrandom]
  cases C with
  | nil =>
      rw [List.length_nil] at hClength
      omega
  | cons b X =>
      have hstart : headers++(version++(random++(b::X))) = ch := by rw [hA,hB,hC]
      have ⟨hnine,hsid,hsession,htotal⟩ := start_drop hheaders hversion hrandom hstart
      rw [byteAt_drop hsid,ok_bind]
      refine expect_cases fun hroom => ?_
      have ⟨sessionId,Y,hsessionId,hY⟩ := split_at (show b.toNat ≤ X.length by omega)
      rw [read_version hversion hnine,ok_bind]
      rcases @ja4Ciphers_cases ch (44+b.toNat) (ch.length+1) (Nat.lt_succ_self _) with
        ⟨cs,compression,Z,hcs,hlength,hcompression,hciphers⟩ | hfail
      · have hdrop : ch.drop (44+b.toNat) = Y := by
          rw [hY] at hsession
          rw [← hsessionId]
          exact drop_next hsession
        have hencode : UInt8.ofNat sessionId.length = b := by rw [hsessionId,UInt8.ofNat_toNat]
        have hbytes : headers++(version++(random++(UInt8.ofNat sessionId.length::(sessionId++
            (pair (2*cs.length)++(concat pair cs++
              (UInt8.ofNat compression.length::(compression++Z)))))))) = ch := by
          rw [hencode,← hciphers,hdrop,← hY]
          exact hstart
        have hlt : sessionId.length < 256 := by
          rw [hsessionId]
          exact b.toNat_lt
        have hlist := drop_next hciphers
        have hmethods := drop_next hlist
        rw [length_concat_pair] at hmethods
        have hcompressionDrop : ch.drop (44+b.toNat+2+2*cs.length+1) = compression++Z :=
          drop_next (Y := [UInt8.ofNat compression.length]) hmethods
        have htail := drop_next hcompressionDrop
        have hcount := length_of_drop hciphers (Nat.succ_pos _)
        rw [List.length_append,List.length_append,length_concat_pair] at hcount
        rw [ja4Ciphers_eq hcs hlength hcompression (by omega) hciphers,ok_bind]
        dsimp only
        rcases @ja4Block_cases ch (44+b.toNat+2+2*cs.length+1+compression.length) (ch.length+1)
          (Nat.lt_succ_self _) ⟨legacyVersion version,false,0,[],[],(0,0)⟩ with
          (hnone | ⟨exts,rest,T,hvalid,hblock⟩) | hfail
        · rw [htail] at hnone
          exact .inl ⟨⟨headers,version,random,sessionId,cs,compression,none,Z⟩,
            ⟨hheaders,hversion,hrandom,hlt,hcs,hlength,hcompression,hnone⟩,hbytes⟩
        · rw [htail] at hblock
          rw [hblock] at hbytes
          exact .inl ⟨⟨headers,version,random,sessionId,cs,compression,some (exts,rest),T⟩,
            ⟨hheaders,hversion,hrandom,hlt,hcs,hlength,hcompression,hvalid⟩,hbytes⟩
        · right
          have hnone : (⟨legacyVersion version,false,0,newTable,newTable,0,0⟩ : Found) =
            foundOf ⟨legacyVersion version,false,0,[],[],(0,0)⟩ := rfl
          rw [hnone,hfail]
          rfl
      · right
        rw [hfail]
        rfl

end Teleproxy.Ja4Fingerprint
