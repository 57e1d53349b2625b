import Teleproxy.ClientInput
import Teleproxy.Lib.Scan

/-!
# The incremental HTTP parser

`http_parse_data` reads the header of an HTTP query from the bytes of one block. It can
stop at every byte and goes on from the state in `struct hts_data` with the next block.
The body of its loop is one `switch` over the state, with loops over the block inside;
several cases fall through into the next. One call of `iter` here is one pass of that
body.

A failed assertion is the state `aborted`. The fields of `struct hts_data` that the parser
only clears are left out. Its counters are natural numbers. They grow by at most the length
of a block before the next test of their size, except for `header_size` in a run of digits,
where it is not tested; 2^31 digits are left out.
-/
namespace Teleproxy.HttpParse
open ClientInput (Bytes bytesOf)
open Scan (runWhile)

inductive ParseState where
  | start | readtospace | readtocolon | readint | skipspc | skiptoeoln | skipspctoeoln | eoln
  | wantlf | wantlastlf | linestart | fatal | done | aborted
  deriving DecidableEq, Repr

inductive QueryType where
  | none | head | get | post | options | error
  deriving DecidableEq, Repr

/-- The bits of `query_flags`. -/
structure Flags where
  error : Bool := false
  host : Bool := false
  dataSize : Bool := false
  connection : Bool := false
  keepAlive : Bool := false
  deriving DecidableEq, Repr

structure HtsData where
  queryType : QueryType := .none
  queryFlags : Flags := {}
  queryWords : ℕ := 0
  headerSize : ℕ := 0
  firstLineSize : ℕ := 0
  dataSize : ℤ := 0
  hostOffset : ℕ := 0
  hostSize : ℕ := 0
  uriOffset : ℕ := 0
  uriSize : ℕ := 0
  httpVer : ℕ := 0
  wlen : ℕ := 0
  word : Bytes := List.replicate 16 0
  parseState : ParseState := .start
  querySeqno : ℕ := 0
  deriving DecidableEq, Repr

def maxHttpHeaderSize : ℕ := 16384

def httpV09 : ℕ := 9
def httpV10 : ℕ := 0x100
def httpV11 : ℕ := 0x101

/-- `QF_ERROR` together with a new state. -/
def HtsData.fail (d : HtsData) (s : ParseState) : HtsData :=
  {d with queryFlags := {d.queryFlags with error := true}, parseState := s}

def HtsData.storeChar (d : HtsData) (b : UInt8) : HtsData :=
  {d with word := if d.wlen < 15 then d.word.set d.wlen b else d.word, wlen := d.wlen+1}

def HtsData.addByte (d : HtsData) (_ : UInt8) : HtsData := {d with headerSize := d.headerSize+1}

/-- `!memcmp (D->word, s, n)` with `n` the length of `s`, where `D->wlen` is `n`. -/
def HtsData.wordIs (d : HtsData) (s : Bytes) : Bool := d.wlen = s.length ∧ d.word.take s.length = s

def toLower (b : UInt8) : UInt8 := if 0x41 ≤ b ∧ b ≤ 0x5a then b+0x20 else b

/-- The same with `strncasecmp`; `s` is in small letters. -/
def HtsData.wordIsCase (d : HtsData) (s : Bytes) : Bool :=
  d.wlen = s.length ∧ (d.word.take s.length).map toLower = s

def firstWord (d : HtsData) : HtsData :=
  if d.wordIs (bytesOf "GET") then {d with queryType := .get}
  else if d.wordIs (bytesOf "HEAD") then {d with queryType := .head}
  else if d.wordIs (bytesOf "POST") then {d with queryType := .post}
  else if d.wordIs (bytesOf "OPTIONS") then {d with queryType := .options}
  else {d with queryType := .error}.fail .skiptoeoln

def secondWord (d : HtsData) : HtsData :=
  let d := {d with uriOffset := d.headerSize, uriSize := d.wlen}
  if d.wlen = 0 then d.fail .skiptoeoln else d

def thirdWord (d : HtsData) : HtsData :=
  let d := {d with parseState := .skipspctoeoln}
  if d.wlen ≠ 0 then
    if d.wlen ≠ 8 then d.fail .skiptoeoln
    else if d.wordIs (bytesOf "HTTP/1.0") then {d with httpVer := httpV10}
    else if d.wordIs (bytesOf "HTTP/1.1") then {d with httpVer := httpV11}
    else d.fail .skiptoeoln
  else {d with httpVer := httpV09}

/-- The value of a `Host` or `Connection` line. -/
def laterWord (d : HtsData) : HtsData :=
  if d.queryFlags.host = false ∧ d.queryFlags.connection = false then {d with parseState := .aborted}
  else
    let d :=
      if d.wlen ≠ 0 then
        if d.queryFlags.host then {d with hostOffset := d.headerSize, hostSize := d.wlen}
        else if d.wordIsCase (bytesOf "keep-alive") then
          {d with queryFlags := {d.queryFlags with keepAlive := true}}
        else d
      else d
    {d with queryFlags := {d.queryFlags with host := false, connection := false},
            parseState := .skipspctoeoln}

def endWord (d : HtsData) : HtsData :=
  let d := {d with parseState := .skipspc, queryWords := d.queryWords+1}
  let d :=
    if d.queryWords = 1 then firstWord d
    else if d.queryWords = 2 then secondWord d
    else if d.queryWords = 3 then thirdWord d
    else laterWord d
  {d with headerSize := d.headerSize+d.wlen}

/-- Behind the loop over a word. -/
def afterWord (d : HtsData) (rest : Bytes) : HtsData × Bytes :=
  if 4096 < d.wlen then ({d with parseState := .fatal},rest)
  else if rest = [] then (d,rest)
  else (endWord d,rest)

/-- The case `htqp_readtospace`. -/
def readToSpace (d : HtsData) (data : Bytes) : HtsData × Bytes :=
  let r := runWhile (fun _ b => 0x20 < b) HtsData.storeChar d data
  afterWord r.1 r.2

def endSpaces (d : HtsData) : HtsData :=
  if d.parseState = .skipspctoeoln then {d with parseState := .eoln}
  else if d.queryWords < 3 then {d with wlen := 0, parseState := .readtospace}
  else if d.queryWords < 4 then {d with parseState := .aborted}
  else if d.queryFlags.dataSize then
    if d.dataSize ≠ -1 then d.fail .skiptoeoln
    else {d with parseState := .readint, dataSize := 0}
  else if d.queryFlags.host ∨ d.queryFlags.connection then
    {d with wlen := 0, parseState := .readtospace}
  else {d with parseState := .skiptoeoln}

def afterSpaces (d : HtsData) (rest : Bytes) : HtsData × Bytes :=
  if maxHttpHeaderSize ≤ d.headerSize then ({d with parseState := .fatal},rest)
  else if rest = [] then (d,rest)
  else (endSpaces d,rest)

def isSpace (d : HtsData) (b : UInt8) : Bool :=
  d.headerSize < maxHttpHeaderSize ∧ (b = 0x20 ∨ (b = 0x09 ∧ 8 ≤ d.queryWords))

/-- The cases `htqp_skipspc` and `htqp_skipspctoeoln`. -/
def skipSpc (d : HtsData) (data : Bytes) : HtsData × Bytes :=
  let r := runWhile isSpace HtsData.addByte d data
  afterSpaces r.1 r.2

def endName (d : HtsData) : HtsData :=
  let flags :=
    if d.wordIsCase (bytesOf "host") then {d.queryFlags with host := true}
    else if d.wordIsCase (bytesOf "connection") then {d.queryFlags with connection := true}
    else if d.wordIsCase (bytesOf "content-length") then {d.queryFlags with dataSize := true}
    else {d.queryFlags with host := false, dataSize := false, connection := false}
  {d with queryFlags := flags, headerSize := d.headerSize+d.wlen+1, parseState := .skipspc}

def afterName (d : HtsData) : Bytes → HtsData × Bytes
  | [] => (if 4096 < d.wlen then {d with parseState := .fatal} else d,[])
  | b::r =>
      if 4096 < d.wlen then ({d with parseState := .fatal},b::r)
      else if b ≠ 0x3a then ({d with headerSize := d.headerSize+d.wlen}.fail .skiptoeoln,b::r)
      else (endName d,r)

/-- `*ptr > ' '` compares as a signed `char` here. -/
def isName (_ : HtsData) (b : UInt8) : Bool := b ≠ 0x3a ∧ 0x20 < b ∧ b < 0x80

/-- The case `htqp_readtocolon`. -/
def readToColon (d : HtsData) (data : Bytes) : HtsData × Bytes :=
  let r := runWhile isName HtsData.storeChar d data
  afterName r.1 r.2

def isDigit (b : UInt8) : Bool := 0x30 ≤ b ∧ b ≤ 0x39

def HtsData.addDigit (d : HtsData) (b : UInt8) : HtsData :=
  {d with dataSize := d.dataSize*10+(b.toNat-0x30 : ℤ), headerSize := d.headerSize+1,
          queryFlags := {d.queryFlags with dataSize := false}}

/-- Behind the digits. The state that a number which is too large sets is overwritten. -/
def endInt (d : HtsData) (b : UInt8) : HtsData :=
  let d := if isDigit b then d.fail .skiptoeoln else d
  if d.queryFlags.dataSize then d.fail .skiptoeoln else {d with parseState := .skipspctoeoln}

def afterInt (d : HtsData) : Bytes → HtsData × Bytes
  | [] => (d,[])
  | b::r => (endInt d b,b::r)

def inNumber (d : HtsData) (b : UInt8) : Bool := isDigit b ∧ d.dataSize < 0x7fffffff/10

/-- The case `htqp_readint`. -/
def readInt (d : HtsData) (data : Bytes) : HtsData × Bytes :=
  let r := runWhile inNumber HtsData.addDigit d data
  afterInt r.1 r.2

/-- The first line ends where the header has got to, unless its end is known. -/
def HtsData.endFirstLine (d : HtsData) : HtsData :=
  if d.firstLineSize = 0 then {d with firstLineSize := d.headerSize} else d

/-- The case `htqp_linestart`. -/
def lineStart (d : HtsData) : Bytes → HtsData × Bytes
  | [] => (d,[])
  | b::r =>
      let d := d.endFirstLine
      if b = 0x0d then ({d with headerSize := d.headerSize+1, parseState := .wantlastlf},r)
      else if b = 0x0a then ({d with parseState := .wantlastlf},b::r)
      else if d.queryFlags.error then ({d with parseState := .skiptoeoln},b::r)
      else ({d with wlen := 0, parseState := .readtocolon},b::r)

/-- The words of a line behind the first are counted from 8 on. -/
def HtsData.countLine (d : HtsData) : HtsData :=
  {d with queryWords := if d.queryWords+1 < 8 then 8 else d.queryWords+1}

/-- The case `htqp_wantlf`, which falls through into `htqp_linestart`. -/
def wantLf (d : HtsData) : Bytes → HtsData × Bytes
  | [] => (d,[])
  | b::r =>
      if d.queryWords+1 < 8 ∧ d.queryFlags.error then ({d.countLine with parseState := .fatal},b::r)
      else
        let d := d.countLine
        if d.httpVer ≤ httpV09 then ({d with parseState := .wantlastlf},b::r)
        else if b ≠ 0x0a then (d.fail .skiptoeoln,b::r)
        else lineStart {d with headerSize := d.headerSize+1, parseState := .linestart} r

/-- The case `htqp_eoln`, which falls through into `htqp_wantlf`. -/
def eoln (d : HtsData) : Bytes → HtsData × Bytes
  | [] => (d,[])
  | b::r =>
      if b = 0x0d then wantLf {d with headerSize := d.headerSize+1, parseState := .wantlf} r
      else wantLf {d with parseState := .wantlf} (b::r)

def afterLine (d : HtsData) (rest : Bytes) : HtsData × Bytes :=
  if maxHttpHeaderSize ≤ d.headerSize then ({d with parseState := .fatal},rest)
  else if rest = [] then (d,rest)
  else eoln {d with parseState := .eoln} rest

def inLine (d : HtsData) (b : UInt8) : Bool :=
  d.headerSize < maxHttpHeaderSize ∧ b ≠ 0x0d ∧ b ≠ 0x0a

/-- The case `htqp_skiptoeoln`, which falls through into `htqp_eoln`. -/
def skipToEoln (d : HtsData) (data : Bytes) : HtsData × Bytes :=
  let r := runWhile inLine HtsData.addByte d data
  afterLine r.1 r.2

/-- The case `htqp_wantlastlf`. -/
def wantLastLf (d : HtsData) : Bytes → HtsData × Bytes
  | [] => (d,[])
  | b::r =>
      if b ≠ 0x0a then ({d with parseState := .fatal},b::r)
      else ({{d with headerSize := d.headerSize+1}.endFirstLine with parseState := .done},r)

/-- `htqp_start` up to the point where it falls through. -/
def restart (d : HtsData) : HtsData :=
  {querySeqno := d.querySeqno+1, dataSize := -1, parseState := .readtospace}

/-- One pass through the `switch`. -/
def iter (d : HtsData) (data : Bytes) : HtsData × Bytes :=
  match d.parseState with
  | .start => readToSpace (restart d) data
  | .readtospace => readToSpace d data
  | .skipspc => skipSpc d data
  | .skipspctoeoln => skipSpc d data
  | .readtocolon => readToColon d data
  | .readint => readInt d data
  | .skiptoeoln => skipToEoln d data
  | .eoln => eoln d data
  | .wantlf => wantLf d data
  | .linestart => lineStart d data
  | .wantlastlf => wantLastLf d data
  | .fatal => (d.fail .done,data)
  | .done => (d,data)
  | .aborted => (d,data)

def Stopped (d : HtsData) : Prop := d.parseState = .done ∨ d.parseState = .aborted

instance (d : HtsData) : Decidable (Stopped d) := inferInstanceAs (Decidable (_ ∨ _))

/-- A pass that takes no byte leads to a state of lower rank. -/
def rank (d : HtsData) : ℕ :=
  match d.parseState with
  | .start => 7
  | .readtospace => if d.wlen = 0 then 7 else 9
  | .skipspc => 8
  | .readint => 6
  | .skipspctoeoln | .linestart => 5
  | .eoln | .wantlf | .readtocolon => 4
  | .skiptoeoln => 3
  | .wantlastlf => 2
  | .fatal => 1
  | .done | .aborted => 0

def Shrinks (d : HtsData) (data : Bytes) (r : HtsData × Bytes) : Prop :=
  r.2.length < data.length ∨ (r.2 = data ∧ rank r.1 < rank d)

variable {d : HtsData} {data : Bytes}

theorem rank_le (d : HtsData) : rank d ≤ 9 := by
  rw [rank]
  cases d.parseState <;> dsimp only <;> first | omega | split_ifs <;> omega

theorem firstWord_cases (d : HtsData) : (firstWord d).parseState = .skiptoeoln ∨
    (firstWord d).parseState = d.parseState ∧ d.wlen ≠ 0 := by
  have hlen (s : Bytes) (h : d.wordIs s = true) (hs : s ≠ []) : d.wlen ≠ 0 := by
    have h := of_decide_eq_true h
    rw [h.1]
    exact List.length_pos_iff.mpr hs |>.ne'
  rw [firstWord]
  split_ifs with h1 h2 h3 h4
  · exact .inr ⟨rfl,hlen _ h1 (by decide)⟩
  · exact .inr ⟨rfl,hlen _ h2 (by decide)⟩
  · exact .inr ⟨rfl,hlen _ h3 (by decide)⟩
  · exact .inr ⟨rfl,hlen _ h4 (by decide)⟩
  · exact .inl rfl

theorem secondWord_cases (d : HtsData) : (secondWord d).parseState = .skiptoeoln ∨
    (secondWord d).parseState = d.parseState ∧ d.wlen ≠ 0 := by
  rw [secondWord]
  dsimp only
  split_ifs with h
  · exact .inl rfl
  · exact .inr ⟨rfl,h⟩

theorem thirdWord_cases (d : HtsData) : (thirdWord d).parseState = .skiptoeoln ∨
    (thirdWord d).parseState = .skipspctoeoln := by
  rw [thirdWord]
  dsimp only
  split_ifs
  · exact .inl rfl
  · exact .inr rfl
  · exact .inr rfl
  · exact .inl rfl
  · exact .inr rfl

theorem laterWord_cases (d : HtsData) : (laterWord d).parseState = .aborted ∨
    (laterWord d).parseState = .skipspctoeoln := by
  rw [laterWord]
  by_cases h : d.queryFlags.host = false ∧ d.queryFlags.connection = false
  · rw [if_pos h]
    exact .inl rfl
  · rw [if_neg h]
    exact .inr rfl

/-- The state behind a word. -/
theorem endWord_cases (d : HtsData) : (endWord d).parseState = .skiptoeoln ∨
    (endWord d).parseState = .skipspctoeoln ∨ (endWord d).parseState = .aborted ∨
    ((endWord d).parseState = .skipspc ∧ d.wlen ≠ 0) := by
  rw [endWord]
  dsimp only
  split_ifs
  · rcases firstWord_cases {d with parseState := .skipspc, queryWords := d.queryWords+1} with h | h
    · exact .inl h
    · exact .inr (.inr (.inr h))
  · rcases secondWord_cases {d with parseState := .skipspc, queryWords := d.queryWords+1} with h | h
    · exact .inl h
    · exact .inr (.inr (.inr h))
  · rcases thirdWord_cases {d with parseState := .skipspc, queryWords := d.queryWords+1} with h | h
    · exact .inl h
    · exact .inr (.inl h)
  · rcases laterWord_cases {d with parseState := .skipspc, queryWords := d.queryWords+1} with h | h
    · exact .inr (.inr (.inl h))
    · exact .inr (.inl h)

theorem rank_endWord (d : HtsData) : rank (endWord d) < if d.wlen = 0 then 7 else 9 := by
  rcases endWord_cases d with h | h | h | ⟨h,hw⟩
  · rw [rank,h]
    dsimp only
    split_ifs <;> omega
  · rw [rank,h]
    dsimp only
    split_ifs <;> omega
  · rw [rank,h]
    dsimp only
    split_ifs <;> omega
  · rw [rank,h,if_neg hw]
    dsimp only
    omega

theorem rank_readToSpace (h : d.parseState = .readtospace) :
    rank d = if d.wlen = 0 then 7 else 9 := by
  rw [rank,h]

/-- Either the loop at the front of a pass takes a byte, or it does nothing. -/
theorem runWhile_shrinks {p : HtsData → UInt8 → Bool} {f : HtsData → UInt8 → HtsData}
    {after : HtsData → Bytes → HtsData × Bytes}
    (hle : ∀ e rest, (after e rest).2.length ≤ rest.length)
    (hstay : runWhile p f d data = (d,data) → Shrinks d data (after d data)) :
    Shrinks d data (after (runWhile p f d data).1 (runWhile p f d data).2) := by
  rcases (Scan.length_runWhile p f d data).lt_or_eq with h | h
  · exact .inl ((hle _ _).trans_lt h)
  · have hrun := Scan.runWhile_eq_of_length h
    rw [hrun]
    exact hstay hrun

theorem readToSpace_shrinks (h : d.parseState = .readtospace) (hdata : data ≠ []) :
    Shrinks d data (readToSpace d data) := by
  apply runWhile_shrinks
  · intro e rest
    rw [afterWord]
    split_ifs <;> exact Nat.le_refl _
  · intro _
    rw [afterWord,if_neg hdata]
    refine .inr ⟨?_,?_⟩
    · split_ifs <;> rfl
    · rw [rank_readToSpace h]
      split_ifs with h1 h2 h2
      · exact (by decide : 1 < 7)
      · exact (by decide : 1 < 9)
      · simpa only [if_pos h2] using rank_endWord d
      · simpa only [if_neg h2] using rank_endWord d

theorem rank_endSpaces (h : d.parseState = .skipspc ∨ d.parseState = .skipspctoeoln) :
    rank (endSpaces d) < rank d := by
  rcases h with h | h
  · have hd : rank d = 8 := by rw [rank,h]
    rw [hd,endSpaces,if_neg (by rw [h]; decide)]
    split_ifs <;> simp [rank,HtsData.fail]
  · simp [endSpaces,rank,h]

theorem skipSpc_shrinks (h : d.parseState = .skipspc ∨ d.parseState = .skipspctoeoln)
    (hdata : data ≠ []) : Shrinks d data (skipSpc d data) := by
  apply runWhile_shrinks
  · intro e rest
    rw [afterSpaces]
    split_ifs <;> exact Nat.le_refl _
  · intro _
    rw [afterSpaces,if_neg hdata]
    split_ifs
    · refine .inr ⟨rfl,?_⟩
      rcases h with h | h <;> simp [rank,h]
    · exact .inr ⟨rfl,rank_endSpaces h⟩

theorem readToColon_shrinks (h : d.parseState = .readtocolon) (hdata : data ≠ []) :
    Shrinks d data (readToColon d data) := by
  have hd : rank d = 4 := by rw [rank,h]
  apply runWhile_shrinks
  · intro e rest
    cases rest with
    | nil => exact Nat.le_refl _
    | cons b r =>
        rw [afterName]
        split_ifs <;> simp
  · intro _
    cases data with
    | nil => exact absurd rfl hdata
    | cons b r =>
        rw [afterName]
        split_ifs
        · exact .inr ⟨rfl,by rw [hd]; exact (by decide : 1 < 4)⟩
        · exact .inr ⟨rfl,by rw [hd]; exact (by decide : 3 < 4)⟩
        · exact .inl (Nat.lt_succ_self _)

theorem readInt_shrinks (h : d.parseState = .readint) (hdata : data ≠ []) :
    Shrinks d data (readInt d data) := by
  have hd : rank d = 6 := by rw [rank,h]
  apply runWhile_shrinks
  · intro e rest
    cases rest <;> exact Nat.le_refl _
  · intro _
    cases data with
    | nil => exact absurd rfl hdata
    | cons b r =>
        refine .inr ⟨rfl,?_⟩
        rw [hd,afterInt]
        simp only [endInt]
        split_ifs <;> simp [rank,HtsData.fail]

theorem lineStart_shrinks (h : d.parseState = .linestart) (hdata : data ≠ []) :
    Shrinks d data (lineStart d data) := by
  have hd : rank d = 5 := by rw [rank,h]
  cases data with
  | nil => exact absurd rfl hdata
  | cons b r =>
      rw [lineStart]
      by_cases hcr : b = 0x0d
      · rw [if_pos hcr]
        exact .inl (Nat.lt_succ_self _)
      · rw [if_neg hcr]
        refine .inr ?_
        rw [hd]
        split_ifs <;> simp [rank]

theorem length_lineStart (d : HtsData) (data : Bytes) : (lineStart d data).2.length ≤ data.length := by
  cases data with
  | nil => exact Nat.le_refl _
  | cons b r =>
      rw [lineStart]
      split_ifs <;> simp

/-- Without a byte, `wantLf` leaves for a state of rank at most 3, and for one of rank at
most 2 in front of a line feed. -/
theorem wantLf_shrinks (d : HtsData) (b : UInt8) (r : Bytes) :
    (wantLf d (b::r)).2.length < r.length+1 ∨ ((wantLf d (b::r)).2 = b::r ∧
      rank (wantLf d (b::r)).1 ≤ 3 ∧ (b = 0x0a → rank (wantLf d (b::r)).1 ≤ 2)) := by
  rw [wantLf]
  dsimp only
  split_ifs with h1 h2 h3
  · exact .inr ⟨rfl,by simp [rank],by simp [rank]⟩
  · exact .inr ⟨rfl,by simp [rank],by simp [rank]⟩
  · exact .inr ⟨rfl,by simp [rank,HtsData.fail],fun h => absurd h h3⟩
  · exact .inl (Nat.lt_succ_of_le (length_lineStart _ r))

theorem length_wantLf (d : HtsData) (data : Bytes) : (wantLf d data).2.length ≤ data.length := by
  cases data with
  | nil => exact Nat.le_refl _
  | cons b r =>
      rcases wantLf_shrinks d b r with h | ⟨h,-⟩
      · exact h.le
      · rw [h]

theorem eoln_shrinks (d : HtsData) (b : UInt8) (r : Bytes) :
    (eoln d (b::r)).2.length < r.length+1 ∨ ((eoln d (b::r)).2 = b::r ∧
      rank (eoln d (b::r)).1 ≤ 3 ∧ (b = 0x0a → rank (eoln d (b::r)).1 ≤ 2)) := by
  rw [eoln]
  split_ifs
  · exact .inl (Nat.lt_succ_of_le (length_wantLf _ r))
  · exact wantLf_shrinks _ b r

theorem length_eoln (d : HtsData) (data : Bytes) : (eoln d data).2.length ≤ data.length := by
  cases data with
  | nil => exact Nat.le_refl _
  | cons b r =>
      rcases eoln_shrinks d b r with h | ⟨h,-⟩
      · exact h.le
      · rw [h]

theorem skipToEoln_shrinks (h : d.parseState = .skiptoeoln) (hdata : data ≠ []) :
    Shrinks d data (skipToEoln d data) := by
  have hd : rank d = 3 := by rw [rank,h]
  apply runWhile_shrinks
  · intro e rest
    rw [afterLine]
    split_ifs
    · exact Nat.le_refl _
    · exact Nat.le_refl _
    · exact length_eoln _ rest
  · intro hrun
    rw [afterLine,if_neg hdata]
    split_ifs with h1
    · exact .inr ⟨rfl,by rw [hd]; exact (by decide : 1 < 3)⟩
    · cases data with
      | nil => exact absurd rfl hdata
      | cons b r =>
          have hstop : inLine d b = false := by
            have hrest := congrArg Prod.snd hrun
            have h := Scan.runWhile_head hrest
            rwa [hrun] at h
          have hb : b = 0x0d ∨ b = 0x0a := by
            have h := of_decide_eq_false hstop
            by_contra hne
            push Not at hne
            exact h ⟨Nat.lt_of_not_le h1,hne⟩
          rcases hb with rfl | rfl
          · exact .inl (Nat.lt_succ_of_le (length_wantLf _ r))
          · rcases eoln_shrinks {d with parseState := .eoln} 0x0a r with hlt | ⟨heq,-,hrank⟩
            · exact .inl hlt
            · exact .inr ⟨heq,by rw [hd]; exact Nat.lt_succ_of_le (hrank rfl)⟩

theorem wantLastLf_shrinks (h : d.parseState = .wantlastlf) (hdata : data ≠ []) :
    Shrinks d data (wantLastLf d data) := by
  have hd : rank d = 2 := by rw [rank,h]
  cases data with
  | nil => exact absurd rfl hdata
  | cons b r =>
      rw [wantLastLf]
      split_ifs
      · exact .inr ⟨rfl,by rw [hd]; exact (by decide : 1 < 2)⟩
      · exact .inl (Nat.lt_succ_self _)

theorem shrinks_of_eoln {r : HtsData × Bytes} {b : UInt8} {bs : Bytes} (hd : rank d = 4)
    (h : r.2.length < bs.length+1 ∨ (r.2 = b::bs ∧ rank r.1 ≤ 3 ∧ (b = 0x0a → rank r.1 ≤ 2))) :
    Shrinks d (b::bs) r := by
  rcases h with h | ⟨heq,hrank,-⟩
  · exact .inl h
  · exact .inr ⟨heq,by omega⟩

theorem iter_shrinks (hdata : data ≠ []) (hd : ¬Stopped d) : Shrinks d data (iter d data) := by
  rw [iter]
  cases h : d.parseState with
  | start =>
      have hrank : rank d = rank (restart d) := by rw [rank,h]; rfl
      have hread := readToSpace_shrinks (d := restart d) rfl hdata
      rwa [Shrinks,← hrank] at hread
  | readtospace => exact readToSpace_shrinks h hdata
  | skipspc => exact skipSpc_shrinks (.inl h) hdata
  | skipspctoeoln => exact skipSpc_shrinks (.inr h) hdata
  | readtocolon => exact readToColon_shrinks h hdata
  | readint => exact readInt_shrinks h hdata
  | skiptoeoln => exact skipToEoln_shrinks h hdata
  | eoln =>
      obtain ⟨b,r,rfl⟩ := List.exists_cons_of_ne_nil hdata
      exact shrinks_of_eoln (by rw [rank,h]) (eoln_shrinks d b r)
  | wantlf =>
      obtain ⟨b,r,rfl⟩ := List.exists_cons_of_ne_nil hdata
      exact shrinks_of_eoln (by rw [rank,h]) (wantLf_shrinks d b r)
  | linestart => exact lineStart_shrinks h hdata
  | wantlastlf => exact wantLastLf_shrinks h hdata
  | fatal => exact .inr ⟨rfl,by rw [rank,rank,h]; exact Nat.zero_lt_one⟩
  | done => exact absurd (.inl h) hd
  | aborted => exact absurd (.inr h) hd

def size (d : HtsData) (data : Bytes) : ℕ := 10*data.length+rank d

theorem size_iter (hdata : data ≠ []) (hd : ¬Stopped d) :
    size (iter d data).1 (iter d data).2 < size d data := by
  have hle := rank_le (iter d data).1
  unfold size
  rcases iter_shrinks hdata hd with h | ⟨h,hrank⟩
  · omega
  · rw [h]
    omega

/-- The state behind a block, and what is left of the block. -/
def httpParseData (d : HtsData) (data : Bytes) : HtsData × Bytes :=
  if _h : data ≠ [] ∧ ¬Stopped d then httpParseData (iter d data).1 (iter d data).2
  else (d,data)
termination_by size d data
decreasing_by exact size_iter _h.1 _h.2

end Teleproxy.HttpParse
