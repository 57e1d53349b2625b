import Teleproxy.HttpOffsets

/-!
# Queries on one HTTP connection

`cpu_tcp_server_reader` puts what has come into `c->in` and calls `hts_parse_execute`,
which parses one query after another and hands each to the `execute` callback. They speak
through numbers: a positive one asks for so many bytes more, a negative one for bytes to be
skipped. A query leaves `c->in` when it is done.

`c->in` may lie in any number of buffers; `cut` says how. Nothing is pending here, the
connection has no encryption, and the sizes are natural numbers. The state `-1` of the
parser, in which a connection that closes is left, is not told apart from the one before.
-/
namespace Teleproxy.HttpPipelining
open ClientInput (Bytes bytesOf)
open HttpParse
open Scan (runWhile runWhile_map)

/-- A completed call of the callback. -/
structure Executed where
  queryType : QueryType
  message : Bytes
  deriving DecidableEq, Repr

structure Conn where
  input : Bytes := []
  skipBytes : ℤ := 0
  hts : HtsData := {}
  /-- `C_STOPREAD`, with the status `conn_write_close` -/
  stopRead : Bool := false
  executed : List Executed := []
  /-- The codes of `write_http_error` -/
  errors : List ℤ := []
  deriving DecidableEq, Repr

def needMoreBytes : ℤ := 0x7fffffff
def skipAllBytes : ℤ := -0x80000000

/-- The bytes of a query: its header, and its body if it is a `POST`. -/
def queryBytes (d : HtsData) : ℕ :=
  d.headerSize+(if d.queryType = .post then d.dataSize.toNat else 0)

section
variable (execute : HtsData → Bytes → ℤ) (cut : Bytes → List Bytes)

/-- The end of a pass over a query that is done: an error is answered, and a connection
that is not to be kept is closed. -/
def endQuery (c : Conn) (d : HtsData) : Conn × Option ℤ :=
  let c := if d.queryFlags.error then {c with errors := c.errors++[400]} else c
  let d := if d.queryFlags.error then {d with queryFlags := {d.queryFlags with keepAlive := false}}
    else d
  if d.queryFlags.keepAlive = false then ({c with hts := d, stopRead := true},some 0)
  else ({c with hts := {d with parseState := .start}},none)

/-- A query with a good header. -/
def runQuery (c : Conn) (d : HtsData) : Conn × Option ℤ :=
  let message := c.input.take (queryBytes d)
  let called := ¬(d.queryType = .post ∧ d.dataSize < 0) ∧ ¬(d.queryType ≠ .post ∧ 0 < d.dataSize)
  let res :=
    if d.queryType = .post ∧ d.dataSize < 0 then -411
    else if d.queryType ≠ .post ∧ 0 < d.dataSize then -413
    else execute d message
  if 0 < res then ({c with hts := d},some res)
  else
    let c := if called then {c with executed := c.executed++[⟨d.queryType,message⟩]} else c
    let c := {c with input := c.input.drop d.headerSize}
    if res = skipAllBytes ∨ res = 0 then
      if 0 < d.dataSize then
        let x := c.input.length
        let y := min x d.dataSize.toNat
        let c := {c with input := c.input.drop y}
        if y < x then ({c with hts := {d with parseState := .start}},some (y-x))
        else endQuery c d
      else endQuery c d
    else
      let keepAlive := d.queryFlags.keepAlive && res != -413
      endQuery {c with errors := c.errors++[-res]}
        {d with queryFlags := {d.queryFlags with keepAlive, error := false}}

/-- The body of the `if` for a parser that is done. -/
def handleQuery (c : Conn) (d : HtsData) : Conn × Option ℤ :=
  let d := if maxHttpHeaderSize ≤ d.headerSize then
    {d with queryFlags := {d.queryFlags with error := true}} else d
  if d.queryFlags.error = false then runQuery execute c d
  else endQuery {c with input := c.input.drop d.headerSize} d

/-- The loop of `hts_parse_execute`. Each query that is done takes a byte at least. -/
def htsLoop : ℕ → Conn → Conn × ℤ
  | 0, c => (c,needMoreBytes)
  | fuel+1, c =>
      if c.stopRead ∨ c.input = [] then (c,needMoreBytes)
      else
        let d := (parseBlocks c.hts [] (cut c.input)).1
        if d.parseState = .done then
          match handleQuery execute c d with
          | (c,some res) => (c,res)
          | (c,none) => htsLoop fuel c
        else ({c with hts := d},needMoreBytes)

def htsParseExecute (c : Conn) : Conn × ℤ :=
  htsLoop execute cut (c.input.length+1) {c with hts := {c.hts with parseState := .start}}

/-- The loop of `cpu_tcp_server_reader`; `c->in_u` is empty. -/
def readerLoop : ℕ → Conn → Conn
  | 0, c => c
  | fuel+1, c =>
      if c.skipBytes ≠ 0 ∨ c.stopRead ∨ c.input = [] then c
      else
        let r := htsParseExecute execute cut c
        if r.2 = 0 then readerLoop fuel r.1
        else if r.2 ≠ needMoreBytes then {r.1 with skipBytes := r.2}
        else r.1

/-- `cpu_tcp_server_reader`, when `segment` has come. -/
def serverReader (c : Conn) (segment : Bytes) : Conn :=
  let c := {c with input := c.input++segment}
  let parse := fun c : Conn => readerLoop execute cut (c.input.length+1) c
  if c.stopRead then c
  else if c.skipBytes < 0 then
    let r1 := min c.input.length (-c.skipBytes).toNat
    let c := {c with input := c.input.drop r1, skipBytes := c.skipBytes+r1}
    if c.skipBytes ≠ 0 then c else parse c
  else if 0 < c.skipBytes then
    if c.skipBytes ≤ c.input.length then parse {c with skipBytes := 0} else c
  else parse c

/-- All that comes on a connection. -/
def serve (segments : List Bytes) : Conn := segments.foldl (serverReader execute cut) {}

end

/-- A callback that asks for the bytes that are missing, and is done when there are none. -/
structure Waits (execute : HtsData → Bytes → ℤ) : Prop where
  missing : ∀ d message, message.length < queryBytes d →
    execute d message = (queryBytes d : ℤ)-message.length
  complete : ∀ d message, message.length = queryBytes d →
    execute d message = 0 ∨ execute d message = skipAllBytes

/-- A query to keep the connection alive: a header that the parser takes without an error
to its end, and a body of the size that it gives. -/
structure Query where
  queryType : QueryType
  header : Bytes
  body : Bytes
  nonempty : header ≠ []
  short : header.length < maxHttpHeaderSize
  /-- The sizes of messages are `int`. -/
  lt : header.length+body.length < 2^31
  parses : (httpParseData {} header).2 = [] ∧
    (httpParseData {} header).1.parseState = .done ∧
    (httpParseData {} header).1.queryFlags.error = false ∧
    (httpParseData {} header).1.queryFlags.keepAlive = true ∧
    (httpParseData {} header).1.queryType = queryType ∧
    (if queryType = .post then (httpParseData {} header).1.dataSize = body.length
      else (httpParseData {} header).1.dataSize ≤ 0 ∧ body = [])

/-- The number of a query is not looked at. -/
def renumber (n : ℕ) (d : HtsData) : HtsData := {d with querySeqno := n}

section renumber
variable (n : ℕ) (d : HtsData) (data : Bytes)

theorem endWord_renumber : endWord (renumber n d) = renumber n (endWord d) := by
  have hfirst (e : HtsData) : firstWord (renumber n e) = renumber n (firstWord e) := by
    unfold firstWord
    simp only [apply_ite (renumber n)]
    rfl
  have hsecond (e : HtsData) : secondWord (renumber n e) = renumber n (secondWord e) := by
    unfold secondWord
    simp only [apply_ite (renumber n)]
    rfl
  have hthird (e : HtsData) : thirdWord (renumber n e) = renumber n (thirdWord e) := by
    unfold thirdWord
    simp only [apply_ite (renumber n)]
    rfl
  have hlater (e : HtsData) : laterWord (renumber n e) = renumber n (laterWord e) := by
    obtain ⟨value,hvalue,hform⟩ : ∃ value : HtsData → HtsData,
        (∀ e, value (renumber n e) = renumber n (value e)) ∧ ∀ e, laterWord e =
          if e.queryFlags.host = false ∧ e.queryFlags.connection = false then
            {e with parseState := .aborted}
          else {value e with queryFlags := {(value e).queryFlags with host := false, connection := false}
                             parseState := .skipspctoeoln} := by
      refine ⟨_,?_,fun _ => rfl⟩
      intro e
      simp only [apply_ite (renumber n)]
      rfl
    rw [hform,hform,hvalue,apply_ite (renumber n)]
    rfl
  obtain ⟨word,hword,hform⟩ : ∃ word : HtsData → HtsData,
      (∀ e, word (renumber n e) = renumber n (word e)) ∧
        ∀ e, endWord e = {word e with headerSize := (word e).headerSize+(word e).wlen} := by
    refine ⟨_,?_,fun _ => rfl⟩
    intro e
    simp only [apply_ite (renumber n),← hfirst,← hsecond,← hthird,← hlater]
    rfl
  rw [hform,hform,hword]
  rfl

theorem readToSpace_renumber :
    readToSpace (renumber n d) data = (readToSpace d data).map (renumber n) id := by
  unfold readToSpace
  rw [runWhile_map (renumber n) (fun _ _ => rfl) (fun _ _ => rfl)]
  generalize runWhile _ _ d data = r
  simp only [afterWord,apply_ite (Prod.map (renumber n) id),Prod.map_apply,← endWord_renumber]
  rfl

theorem skipSpc_renumber :
    skipSpc (renumber n d) data = (skipSpc d data).map (renumber n) id := by
  unfold skipSpc
  rw [runWhile_map (renumber n) (fun _ _ => rfl) (fun _ _ => rfl)]
  generalize runWhile _ _ d data = r
  unfold afterSpaces endSpaces
  simp only [apply_ite (Prod.map (renumber n) id),Prod.map_apply,apply_ite (renumber n)]
  rfl

theorem readToColon_renumber :
    readToColon (renumber n d) data = (readToColon d data).map (renumber n) id := by
  unfold readToColon
  rw [runWhile_map (renumber n) (fun _ _ => rfl) (fun _ _ => rfl)]
  generalize runWhile isName HtsData.storeChar d data = r
  obtain ⟨e,rest⟩ := r
  cases rest with
  | nil =>
      simp only [afterName,Prod.map_apply,apply_ite (renumber n)]
      rfl
  | cons b rest =>
      simp only [Prod.map_apply,afterName,apply_ite (Prod.map (renumber n) id)]
      rfl

theorem readInt_renumber :
    readInt (renumber n d) data = (readInt d data).map (renumber n) id := by
  unfold readInt
  rw [runWhile_map (renumber n) (fun _ _ => rfl) (fun _ _ => rfl)]
  generalize runWhile inNumber HtsData.addDigit d data = r
  obtain ⟨e,rest⟩ := r
  cases rest with
  | nil => rfl
  | cons b rest =>
      have hend : endInt (renumber n e) b = renumber n (endInt e b) := by
        rw [endInt,endInt]
        cases isDigit b with
        | true =>
            simp only [if_true,apply_ite (renumber n)]
            rfl
        | false =>
            simp only [Bool.false_eq_true,if_false,apply_ite (renumber n)]
            rfl
      rw [Prod.map_apply]
      exact congrArg (·,b::rest) hend

theorem endFirstLine_renumber : (renumber n d).endFirstLine = renumber n d.endFirstLine := by
  simp only [HtsData.endFirstLine,apply_ite (renumber n)]
  rfl

theorem lineStart_renumber :
    lineStart (renumber n d) data = (lineStart d data).map (renumber n) id := by
  cases data with
  | nil => rfl
  | cons b rest =>
      simp only [lineStart,endFirstLine_renumber,apply_ite (Prod.map (renumber n) id)]
      rfl

theorem wantLf_renumber :
    wantLf (renumber n d) data = (wantLf d data).map (renumber n) id := by
  cases data with
  | nil => rfl
  | cons b rest =>
      simp only [wantLf,apply_ite (Prod.map (renumber n) id),← lineStart_renumber]
      rfl

theorem eoln_renumber : eoln (renumber n d) data = (eoln d data).map (renumber n) id := by
  cases data with
  | nil => rfl
  | cons b rest =>
      simp only [eoln,apply_ite (Prod.map (renumber n) id),← wantLf_renumber]
      rfl

theorem skipToEoln_renumber :
    skipToEoln (renumber n d) data = (skipToEoln d data).map (renumber n) id := by
  unfold skipToEoln
  rw [runWhile_map (renumber n) (fun _ _ => rfl) (fun _ _ => rfl)]
  generalize runWhile _ _ d data = r
  simp only [afterLine,apply_ite (Prod.map (renumber n) id),← eoln_renumber]
  rfl

theorem wantLastLf_renumber :
    wantLastLf (renumber n d) data = (wantLastLf d data).map (renumber n) id := by
  cases data with
  | nil => rfl
  | cons b rest =>
      have hlast := endFirstLine_renumber n {d with headerSize := d.headerSize+1}
      by_cases hb : b ≠ 0x0a
      · rw [wantLastLf,wantLastLf,if_pos hb,if_pos hb]
        rfl
      · rw [wantLastLf,wantLastLf,if_neg hb,if_neg hb]
        exact congrArg (fun e : HtsData => ({e with parseState := .done},rest)) hlast

theorem iter_renumber : ∃ m, iter (renumber n d) data = (iter d data).map (renumber m) id := by
  have hstart (m : ℕ) : restart (renumber m d) = renumber (m+1) (restart d) := rfl
  have hstate : (renumber n d).parseState = d.parseState := rfl
  unfold iter
  rw [hstate]
  cases d.parseState with
  | start =>
      refine ⟨n+1,?_⟩
      dsimp only
      rw [hstart,readToSpace_renumber]
  | fatal => exact ⟨n,rfl⟩
  | done => exact ⟨n,rfl⟩
  | aborted => exact ⟨n,rfl⟩
  | _ =>
      refine ⟨n,?_⟩
      simp only [readToSpace_renumber,skipSpc_renumber,readToColon_renumber,readInt_renumber,
        skipToEoln_renumber,eoln_renumber,wantLf_renumber,lineStart_renumber,wantLastLf_renumber]

theorem httpParseData_renumber :
    ∃ m, httpParseData (renumber n d) data = (httpParseData d data).map (renumber m) id := by
  induction d, data using httpParseData.induct generalizing n with
  | case1 d data hgo ih =>
      obtain ⟨k,hk⟩ := iter_renumber n d data
      obtain ⟨m,hm⟩ := ih k
      refine ⟨m,?_⟩
      have hgo' : ¬Stopped (renumber n d) := hgo.2
      rw [httpParseData_iter hgo.1 hgo.2,httpParseData_iter hgo.1 hgo',hk]
      exact hm
  | case2 d data hstop =>
      refine ⟨n,?_⟩
      rw [httpParseData,dif_neg (show ¬(data ≠ [] ∧ ¬Stopped (renumber n d)) from hstop),
        httpParseData,dif_neg hstop]
      rfl

end renumber

section parse
variable {d : HtsData} {n : ℕ}

/-- The first pass forgets the query before, up to its number. -/
theorem httpParseData_start (hd : d.parseState = .start) {data : Bytes} (hdata : data ≠ []) :
    httpParseData d data = httpParseData {querySeqno := d.querySeqno} data := by
  have hgo : ¬Stopped d := by simp [Stopped,hd]
  have hiter : iter d data = iter {querySeqno := d.querySeqno} data := by
    rw [iter,hd]
    rfl
  rw [httpParseData_iter hdata hgo,httpParseData_iter hdata (by simp [Stopped]),hiter]

theorem isError_parseBlocks (hd : IsError d) (seen : Bytes) (blocks : List Bytes) :
    IsError (parseBlocks d seen blocks).1 := by
  induction blocks generalizing d seen with
  | nil => exact hd
  | cons block blocks ih =>
      rcases hd with hfatal | hdone
      · rw [parseBlocks,if_neg (by simp [Stopped,hfatal])]
        exact ih (isError_of_fatal hfatal block) _
      · rw [parseBlocks_of_stopped (.inl hdone.1)]
        exact .inr hdone

/-- The blocks are parsed like the bytes in them. -/
theorem parseBlocks_flatten (hd : ¬Stopped d) (hfatal : d.parseState ≠ .fatal) (seen : Bytes)
    (blocks : List Bytes) :
    (parseBlocks d seen blocks).1 = (httpParseData d blocks.flatten).1 ∨
      (IsError (parseBlocks d seen blocks).1 ∧ IsError (httpParseData d blocks.flatten).1) := by
  induction blocks generalizing d seen with
  | nil => exact .inl (by rw [List.flatten_nil,httpParseData_nil]; rfl)
  | cons block blocks ih =>
      rw [parseBlocks,if_neg hd,List.flatten_cons]
      rcases httpParseData_append d block blocks.flatten with ⟨hstop,hw⟩ | ⟨hrun,hgo,_,hw⟩ | ⟨hg,hw⟩
      · rw [hw,parseBlocks_of_stopped hstop]
        exact .inl rfl
      · rw [hw]
        exact ih hrun hgo _
      · exact .inr ⟨isError_parseBlocks hg _ _,hw⟩

end parse

namespace Query

def bytes (q : Query) : Bytes := q.header++q.body

def size (q : Query) : ℕ := q.header.length+q.body.length

@[simp] theorem length_bytes (q : Query) : q.bytes.length = q.size := List.length_append

theorem size_pos (q : Query) : 0 < q.size := by
  have := List.length_pos_of_ne_nil q.nonempty
  unfold size
  omega

/-- The header as the parser describes it. -/
structure Parsed (q : Query) (d : HtsData) : Prop where
  done : d.parseState = .done
  good : d.queryFlags.error = false
  keepAlive : d.queryFlags.keepAlive = true
  queryType : d.queryType = q.queryType
  headerSize : d.headerSize = q.header.length
  dataSize : if q.queryType = .post then d.dataSize = q.body.length else d.dataSize ≤ 0 ∧ q.body = []

theorem parse_numbered (q : Query) (n : ℕ) : ∃ m,
    httpParseData {querySeqno := n} q.header = (httpParseData {} q.header).map (renumber m) id :=
  httpParseData_renumber n {} q.header

theorem parse_all (q : Query) (n : ℕ) : (httpParseData {querySeqno := n} q.header).2 = [] := by
  obtain ⟨m,hm⟩ := q.parse_numbered n
  rw [hm]
  exact q.parses.1

theorem headerSize_parse (q : Query) : (httpParseData {} q.header).1.headerSize = q.header.length := by
  obtain ⟨hrest,hdone,hgood,-⟩ := q.parses
  have hne : [q.header].flatten ≠ [] := by simpa using q.nonempty
  obtain ⟨rest,htracks⟩ := tracks_blocks (d := {}) rfl hne
  have hblocks : parseBlocks {} [] [q.header] = ((httpParseData {} q.header).1,q.header) := by
    rw [parseBlocks,if_neg (by simp [Stopped]),parseBlocks,hrest]
    simp
  rw [hblocks] at htracks
  exact (describes_of_done htracks hdone hgood).size

theorem parsed (q : Query) (n : ℕ) : q.Parsed (httpParseData {querySeqno := n} q.header).1 := by
  obtain ⟨m,hm⟩ := q.parse_numbered n
  obtain ⟨-,hdone,hgood,hkeep,htype,hsize⟩ := q.parses
  rw [hm]
  exact ⟨hdone,hgood,hkeep,htype,q.headerSize_parse,hsize⟩

/-- Bytes behind the header do not matter. -/
theorem parse_header (q : Query) (n : ℕ) (more : Bytes) :
    (httpParseData {querySeqno := n} (q.header++more)).1 =
      (httpParseData {querySeqno := n} q.header).1 := by
  have hparsed := q.parsed n
  rcases httpParseData_append {querySeqno := n} q.header more with ⟨_,hw⟩ | ⟨hrun,_⟩ | ⟨herror,_⟩
  · rw [hw]
  · exact absurd (.inl hparsed.done) hrun
  · rcases herror with h | h
    · rw [hparsed.done] at h
      cases h
    · rw [hparsed.good] at h
      cases h.2

/-- A part of the header is not enough. -/
theorem parse_part (q : Query) (n : ℕ) {part more : Bytes} (hq : part++more = q.header)
    (hmore : more ≠ []) :
    ¬Stopped (httpParseData {querySeqno := n} part).1 ∧
      ¬IsError (httpParseData {querySeqno := n} part).1 := by
  have hparsed := q.parsed n
  have hrest := q.parse_all n
  rcases httpParseData_append {querySeqno := n} part more with ⟨_,hw⟩ | ⟨hrun,hfatal,_⟩ | ⟨_,herror⟩
  · rw [hq] at hw
    rw [hw] at hrest
    exact absurd (List.append_eq_nil_iff.mp hrest).2 hmore
  · refine ⟨hrun,?_⟩
    intro herror
    rcases herror with h | h
    · exact hfatal h
    · exact hrun (.inl h.1)
  · rw [hq] at herror
    rcases herror with h | h
    · rw [hparsed.done] at h
      cases h
    · rw [hparsed.good] at h
      cases h.2

variable {cut : Bytes → List Bytes} {d : HtsData}

/-- The same for a header in any number of blocks, and whatever was parsed before. -/
theorem parse_blocks (q : Query) (hcut : ∀ bs, (cut bs).flatten = bs) (hd : d.parseState = .start)
    (more : Bytes) : q.Parsed (parseBlocks d [] (cut (q.header++more))).1 := by
  have hne : q.header++more ≠ [] := List.append_ne_nil_of_left_ne_nil q.nonempty more
  have hblocks := parseBlocks_flatten (d := d) (by simp [Stopped,hd]) (by simp [hd]) []
    (cut (q.header++more))
  rw [hcut,httpParseData_start hd hne,q.parse_header] at hblocks
  rcases hblocks with h | ⟨_,herror⟩
  · rw [h]
    exact q.parsed _
  · have hparsed := q.parsed d.querySeqno
    rcases herror with h | h
    · rw [hparsed.done] at h
      cases h
    · rw [hparsed.good] at h
      cases h.2

theorem parse_blocks_part (q : Query) (hcut : ∀ bs, (cut bs).flatten = bs)
    (hd : d.parseState = .start) {part more : Bytes} (hq : part++more = q.header)
    (hpart : part ≠ []) (hmore : more ≠ []) : (parseBlocks d [] (cut part)).1.parseState ≠ .done := by
  obtain ⟨hrun,hgood⟩ := q.parse_part d.querySeqno hq hmore
  have hblocks := parseBlocks_flatten (d := d) (by simp [Stopped,hd]) (by simp [hd]) [] (cut part)
  rw [hcut,httpParseData_start hd hpart] at hblocks
  rcases hblocks with h | ⟨_,herror⟩
  · rw [h]
    exact fun hdone => hrun (.inl hdone)
  · exact absurd herror hgood

variable {q : Query} {execute : HtsData → Bytes → ℤ} {c : Conn}

theorem Parsed.queryBytes_eq (h : q.Parsed d) : queryBytes d = q.size := by
  have hdata := h.dataSize
  rw [queryBytes,h.queryType,h.headerSize,Query.size]
  split_ifs at hdata ⊢
  · rw [hdata,Int.toNat_natCast]
  · rw [hdata.2,List.length_nil]

/-- Only a body makes `data_size` positive. -/
theorem Parsed.dataSize_pos (h : q.Parsed d) : 0 < d.dataSize ↔ q.body ≠ [] := by
  have hdata := h.dataSize
  split_ifs at hdata
  · rw [hdata,← List.length_pos_iff]
    omega
  · simp [hdata.2,hdata.1]

theorem Parsed.runs (h : q.Parsed d) :
    ¬(d.queryType = .post ∧ d.dataSize < 0) ∧ ¬(d.queryType ≠ .post ∧ 0 < d.dataSize) := by
  have hdata := h.dataSize
  rw [h.queryType]
  split_ifs at hdata with htype
  · exact ⟨fun hneg => by omega,fun hother => hother.1 htype⟩
  · exact ⟨fun hpost => htype hpost.1,fun hpos => by omega⟩

theorem Parsed.handle (h : q.Parsed d) : handleQuery execute c d = runQuery execute c d := by
  have hshort : ¬maxHttpHeaderSize ≤ d.headerSize := by
    rw [h.headerSize]
    exact Nat.not_le.mpr q.short
  rw [handleQuery,if_neg hshort,if_pos h.good]

theorem Parsed.endQuery_eq (h : q.Parsed d) :
    endQuery c d = ({c with hts := {d with parseState := .start}},none) := by
  simp [endQuery,h.good,h.keepAlive]

/-- While the body is not complete, its missing bytes are asked for. -/
theorem Parsed.waits (h : q.Parsed d) (hwaits : Waits execute) (hlen : c.input.length < q.size) :
    handleQuery execute c d = ({c with hts := d},some ((q.size : ℤ)-c.input.length)) := by
  have htake : c.input.take q.size = c.input := List.take_of_length_le hlen.le
  have hres := hwaits.missing d c.input (by rwa [h.queryBytes_eq])
  rw [h.queryBytes_eq] at hres
  rw [h.handle,runQuery]
  simp only [h.queryBytes_eq,htake,if_neg h.runs.1,if_neg h.runs.2,hres]
  rw [if_pos (by omega)]

/-- What is logged of a query. -/
def log (q : Query) : Executed := ⟨q.queryType,q.bytes⟩

theorem Parsed.completes (h : q.Parsed d) (hwaits : Waits execute) {more : Bytes}
    (hinput : c.input = q.bytes++more) :
    handleQuery execute c d =
      if q.body ≠ [] ∧ more ≠ [] then
        ({c with executed := c.executed++[q.log], input := more, hts := {d with parseState := .start}},
          some (-(more.length : ℤ)))
      else
        ({c with executed := c.executed++[q.log], input := more, hts := {d with parseState := .start}},
          none) := by
  have htake : c.input.take q.size = q.bytes := by
    rw [hinput,← q.length_bytes,List.take_left]
  have hres := hwaits.complete d q.bytes (by rw [h.queryBytes_eq,q.length_bytes])
  have hle : ¬0 < execute d q.bytes := by
    rcases hres with hres | hres <;> rw [hres] <;> decide
  have hdrop : c.input.drop d.headerSize = q.body++more := by
    rw [hinput,h.headerSize,bytes,List.append_assoc,List.drop_left]
  have hlog : (⟨d.queryType,q.bytes⟩ : Executed) = q.log := by
    rw [h.queryType]
    rfl
  rw [h.handle,runQuery]
  simp only [h.queryBytes_eq,htake,if_neg h.runs.1,if_neg h.runs.2,if_neg hle,if_pos h.runs,
    if_pos hres.symm,hdrop,hlog]
  by_cases hbody : q.body = []
  · have hnone : ¬0 < d.dataSize := fun hpos => h.dataSize_pos.mp hpos hbody
    rw [if_neg hnone,h.endQuery_eq,if_neg (fun hboth => hboth.1 hbody),hbody]
    rfl
  · have hpos := h.dataSize_pos.mpr hbody
    have hsize : d.dataSize.toNat = q.body.length := by
      have hdata := h.dataSize
      split_ifs at hdata
      · rw [hdata,Int.toNat_natCast]
      · exact absurd hdata.2 hbody
    have hmin : min (q.body++more).length d.dataSize.toNat = q.body.length := by
      rw [hsize,List.length_append]
      omega
    rw [if_pos hpos,hmin,List.drop_left,List.length_append]
    by_cases hmore : more = []
    · rw [if_neg (by simp [hmore]),if_neg (fun hboth => hboth.2 hmore),h.endQuery_eq]
    · have hlt := List.length_pos_of_ne_nil hmore
      rw [if_pos (by omega),if_pos ⟨hbody,hmore⟩]
      congr 2
      push_cast
      omega

end Query

/-- The bytes of some queries. -/
def stream (qs : List Query) : Bytes := qs.flatMap Query.bytes

/-- What a call makes of the buffer. -/
structure Advance where
  completed : List Query
  todo : List Query
  input : Bytes
  /-- Whether the bytes that are left will be skipped. -/
  lossy : Bool

/-- The queries in the buffer are executed up to the first that is not complete, or that
has a body and something behind it. -/
def advance : List Query → Bytes → Advance
  | [], buf => ⟨[],[],buf,false⟩
  | q::qs, buf =>
      if buf.length < q.size then ⟨[],q::qs,buf,false⟩
      else if q.body ≠ [] ∧ buf.drop q.size ≠ [] then ⟨[q],qs,buf.drop q.size,true⟩
      else
        let r := advance qs (buf.drop q.size)
        {r with completed := q::r.completed}

section advance
variable {execute : HtsData → Bytes → ℤ} {cut : Bytes → List Bytes} {c : Conn}

theorem stream_cons (q : Query) (qs : List Query) : stream (q::qs) = q.bytes++stream qs := rfl

/-- A buffer that holds the next query. -/
theorem exists_more {q : Query} {qs : List Query} {buf rest : Bytes}
    (hbuf : buf++rest = stream (q::qs)) (hlen : ¬buf.length < q.size) :
    ∃ more, buf = q.bytes++more ∧ buf.drop q.size = more ∧ more++rest = stream qs := by
  rw [stream_cons] at hbuf
  obtain ⟨more,hmore⟩ : q.bytes <+: buf :=
    List.prefix_of_prefix_length_le ⟨_,hbuf.symm⟩ ⟨_,rfl⟩ (by rw [q.length_bytes]; omega)
  subst hmore
  refine ⟨more,rfl,?_,?_⟩
  · rw [← q.length_bytes,List.drop_left]
  · rw [List.append_assoc] at hbuf
    exact List.append_cancel_left hbuf

/-- One pass over a buffer that does not hold the next query. -/
theorem htsLoop_waits (hwaits : Waits execute) (hcut : ∀ bs, (cut bs).flatten = bs) {q : Query}
    {qs : List Query} {rest : Bytes} (hread : c.stopRead = false) (hstart : c.hts.parseState = .start)
    (hbuf : c.input++rest = stream (q::qs)) (hlen : c.input.length < q.size) (fuel : ℕ) :
    ∃ d res, htsLoop execute cut (fuel+1) c = ({c with hts := d},res) ∧
      (res = needMoreBytes ∨ 0 < res ∧ res ≤ q.size) := by
  rw [htsLoop]
  by_cases hempty : c.input = []
  · rw [if_pos (.inr hempty)]
    exact ⟨c.hts,needMoreBytes,rfl,.inl rfl⟩
  rw [if_neg (by simp [hread,hempty])]
  dsimp only
  rw [stream_cons,Query.bytes,List.append_assoc] at hbuf
  by_cases hheader : c.input.length < q.header.length
  · obtain ⟨more,hmore⟩ : c.input <+: q.header :=
      List.prefix_of_prefix_length_le ⟨_,hbuf⟩ ⟨_,rfl⟩ hheader.le
    have hne : more ≠ [] := by
      rintro rfl
      rw [List.append_nil] at hmore
      rw [hmore] at hheader
      omega
    rw [if_neg (q.parse_blocks_part hcut hstart hmore hempty hne)]
    exact ⟨_,needMoreBytes,rfl,.inl rfl⟩
  · obtain ⟨more,hmore⟩ : q.header <+: c.input :=
      List.prefix_of_prefix_length_le ⟨_,hbuf.symm⟩ ⟨_,rfl⟩ (by omega)
    have hparsed := q.parse_blocks hcut hstart more
    rw [hmore] at hparsed
    rw [if_pos hparsed.done,hparsed.waits hwaits hlen]
    exact ⟨_,_,rfl,.inr ⟨by omega,by omega⟩⟩

/-- One pass over a buffer that holds it. -/
theorem htsLoop_completes (hwaits : Waits execute) (hcut : ∀ bs, (cut bs).flatten = bs) {q : Query}
    {more : Bytes} (hread : c.stopRead = false) (hstart : c.hts.parseState = .start)
    (hinput : c.input = q.bytes++more) (fuel : ℕ) :
    ∃ d : HtsData, d.parseState = .start ∧ htsLoop execute cut (fuel+1) c =
      if q.body ≠ [] ∧ more ≠ [] then
        ({c with executed := c.executed++[q.log], input := more, hts := d},-(more.length : ℤ))
      else htsLoop execute cut fuel
        {c with executed := c.executed++[q.log], input := more, hts := d} := by
  have hempty : c.input ≠ [] := by
    rw [hinput,Query.bytes,List.append_assoc]
    exact List.append_ne_nil_of_left_ne_nil q.nonempty _
  have hparsed := q.parse_blocks hcut hstart (q.body++more)
  rw [← List.append_assoc] at hparsed
  change q.Parsed (parseBlocks c.hts [] (cut (q.bytes++more))).1 at hparsed
  rw [← hinput] at hparsed
  refine ⟨{(parseBlocks c.hts [] (cut c.input)).1 with parseState := .start},rfl,?_⟩
  rw [htsLoop,if_neg (by simp [hread,hempty])]
  dsimp only
  rw [if_pos hparsed.done,hparsed.completes hwaits hinput]
  by_cases hskip : q.body ≠ [] ∧ more ≠ []
  · rw [if_pos hskip,if_pos hskip]
  · rw [if_neg hskip,if_neg hskip]

/-- How a call ends. -/
def Ends (r : Advance) (res : ℤ) : Prop :=
  if r.lossy then res = -(r.input.length : ℤ)
  else res = needMoreBytes ∨ ∃ q qs, r.todo = q::qs ∧ 0 < res ∧ res ≤ q.size

/-- A whole run of the loop over the buffer. -/
theorem htsLoop_advance (hwaits : Waits execute) (hcut : ∀ bs, (cut bs).flatten = bs)
    {qs : List Query} {rest : Bytes} (hread : c.stopRead = false)
    (hstart : c.hts.parseState = .start) (hbuf : c.input++rest = stream qs) {fuel : ℕ}
    (hfuel : c.input.length < fuel) :
    ∃ d res, htsLoop execute cut fuel c =
      ({c with executed := c.executed++(advance qs c.input).completed.map Query.log
               input := (advance qs c.input).input, hts := d},res) ∧
      Ends (advance qs c.input) res := by
  induction qs generalizing c fuel with
  | nil =>
      have hempty : c.input = [] := (List.append_eq_nil_iff.mp hbuf).1
      obtain ⟨fuel,rfl⟩ := Nat.exists_eq_succ_of_ne_zero (show fuel ≠ 0 by omega)
      refine ⟨c.hts,needMoreBytes,?_,.inl rfl⟩
      rw [htsLoop,if_pos (.inr hempty)]
      simp [advance]
  | cons q qs ih =>
      obtain ⟨fuel,rfl⟩ := Nat.exists_eq_succ_of_ne_zero (show fuel ≠ 0 by omega)
      by_cases hlen : c.input.length < q.size
      · obtain ⟨d,res,hloop,hres⟩ := htsLoop_waits hwaits hcut hread hstart hbuf hlen fuel
        refine ⟨d,res,?_,?_⟩
        · rw [hloop,advance,if_pos hlen]
          simp
        · rw [advance,if_pos hlen]
          exact hres.imp_right fun hpos => ⟨q,qs,rfl,hpos⟩
      · obtain ⟨more,hinput,hdrop,hmore⟩ := exists_more hbuf hlen
        obtain ⟨d,hd,hloop⟩ := htsLoop_completes hwaits hcut hread hstart hinput fuel
        rw [advance,if_neg hlen,hdrop,hloop]
        by_cases hskip : q.body ≠ [] ∧ more ≠ []
        · rw [if_pos hskip,if_pos hskip]
          exact ⟨d,_,rfl,rfl⟩
        · rw [if_neg hskip,if_neg hskip]
          have hshort : more.length < fuel := by
            have := q.size_pos
            rw [hinput,List.length_append,q.length_bytes] at hfuel
            omega
          obtain ⟨d',res,hrest,hend⟩ := ih
            (c := {c with executed := c.executed++[q.log], input := more, hts := d}) hread hd hmore
            hshort
          refine ⟨d',res,?_,hend⟩
          rw [hrest]
          simp

end advance

section split
variable {qs : List Query} {buf rest : Bytes}

theorem stream_append (as bs : List Query) : stream (as++bs) = stream as++stream bs :=
  List.flatMap_append

@[simp] theorem advance_nil (qs : List Query) : advance qs [] = ⟨[],qs,[],false⟩ := by
  cases qs with
  | nil => rfl
  | cons q qs => rw [advance,if_pos (by simpa using q.size_pos)]

/-- Nothing is lost in a call: the buffer is the completed queries and what is left. -/
theorem advance_split (hbuf : buf++rest = stream qs) :
    qs = (advance qs buf).completed++(advance qs buf).todo ∧
      buf = stream (advance qs buf).completed++(advance qs buf).input := by
  induction qs generalizing buf with
  | nil => exact ⟨rfl,rfl⟩
  | cons q qs ih =>
      rw [advance]
      split_ifs with hlen hskip
      · exact ⟨rfl,rfl⟩
      · obtain ⟨more,hinput,hdrop,-⟩ := exists_more hbuf hlen
        refine ⟨rfl,?_⟩
        rw [hdrop]
        simpa [stream] using hinput
      · obtain ⟨more,hinput,hdrop,hmore⟩ := exists_more hbuf hlen
        obtain ⟨hqs,hsplit⟩ := ih hmore
        rw [hdrop]
        refine ⟨congrArg (q::·) hqs,?_⟩
        rw [stream_cons,List.append_assoc,← hsplit]
        exact hinput

theorem advance_rest (hbuf : buf++rest = stream qs) :
    (advance qs buf).input++rest = stream (advance qs buf).todo := by
  obtain ⟨hqs,hsplit⟩ := advance_split hbuf
  have hstream := hbuf
  rw [hsplit,List.append_assoc] at hstream
  conv_rhs at hstream => rw [hqs,stream_append]
  exact List.append_cancel_left hstream

/-- What is left is not a whole query. -/
theorem advance_short (hbuf : buf++rest = stream qs) (hgood : (advance qs buf).lossy = false)
    {q : Query} {qs' : List Query} (htodo : (advance qs buf).todo = q::qs') :
    (advance qs buf).input.length < q.size := by
  induction qs generalizing buf with
  | nil => cases htodo
  | cons p qs ih =>
      rw [advance] at hgood htodo ⊢
      split_ifs at hgood htodo ⊢ with hlen hskip
      · cases htodo
        exact hlen
      · obtain ⟨more,-,hdrop,hmore⟩ := exists_more hbuf hlen
        rw [hdrop] at hgood htodo ⊢
        exact ih hmore hgood htodo

/-- Where bytes will be skipped, they stand behind a query with a body. -/
theorem advance_lossy (hbad : (advance qs buf).lossy = true) :
    (advance qs buf).input ≠ [] ∧
      ∃ before q, (advance qs buf).completed = before++[q] ∧ q.body ≠ [] := by
  induction qs generalizing buf with
  | nil => cases hbad
  | cons p qs ih =>
      rw [advance] at hbad ⊢
      split_ifs at hbad ⊢ with hlen hskip
      · exact ⟨hskip.2,[],p,rfl,hskip.1⟩
      · obtain ⟨hinput,before,q,hcompleted,hbody⟩ := ih hbad
        exact ⟨hinput,p::before,q,congrArg (p::·) hcompleted,hbody⟩

/-- Otherwise nothing stands behind it. -/
theorem advance_body (hgood : (advance qs buf).lossy = false) {before after : List Query} {q : Query}
    (hcompleted : (advance qs buf).completed = before++q::after) (hbody : q.body ≠ []) :
    after = [] ∧ (advance qs buf).input = [] := by
  induction qs generalizing buf before with
  | nil =>
      cases before <;> cases hcompleted
  | cons p qs ih =>
      rw [advance] at hgood hcompleted ⊢
      split_ifs at hgood hcompleted ⊢ with hlen hskip
      · cases before <;> cases hcompleted
      · cases before with
        | nil =>
            obtain ⟨rfl,hafter⟩ := List.cons.inj hcompleted
            have hempty : buf.drop p.size = [] := by
              by_contra hne
              exact hskip ⟨hbody,hne⟩
            rw [hempty,advance_nil] at hafter ⊢
            exact ⟨hafter.symm,rfl⟩
        | cons p' before => exact ih hgood (List.cons.inj hcompleted).2

end split

/-- The connection waits for the rest of the next query. -/
structure Clean (c : Conn) (todo : List Query) : Prop where
  read : c.stopRead = false
  skip : 0 ≤ c.skipBytes
  skip_le : 0 < c.skipBytes → ∃ q qs, todo = q::qs ∧ c.skipBytes ≤ q.size
  short : ∀ q qs, todo = q::qs → c.input.length < q.size

section reader
variable {execute : HtsData → Bytes → ℤ} {cut : Bytes → List Bytes} {c : Conn} {todo : List Query}
  {rest : Bytes}

/-- What a call leaves behind. -/
structure Reads (c c' : Conn) (r : Advance) : Prop where
  executed : c'.executed = c.executed++r.completed.map Query.log
  input : c'.input = r.input
  clean : r.lossy = false → Clean c' r.todo
  lossy : r.lossy = true → c'.stopRead = false ∧ c'.skipBytes = -(c'.input.length : ℤ)

/-- The loop of the reader, when nothing is to be skipped. -/
theorem readerLoop_reads (hwaits : Waits execute) (hcut : ∀ bs, (cut bs).flatten = bs)
    (hread : c.stopRead = false) (hskip : c.skipBytes = 0) (hbuf : c.input++rest = stream todo)
    (fuel : ℕ) : Reads c (readerLoop execute cut (fuel+1) c) (advance todo c.input) := by
  rw [readerLoop]
  by_cases hempty : c.input = []
  · rw [if_pos (.inr (.inr hempty)),hempty,advance_nil]
    refine ⟨by simp,hempty,fun _ => ⟨hread,hskip.ge,fun hpos => ?_,fun q qs _ => ?_⟩,fun h => by cases h⟩
    · omega
    · rw [hempty]
      exact q.size_pos
  rw [if_neg (by simp [hread,hskip,hempty])]
  obtain ⟨d,res,hloop,hend⟩ := htsLoop_advance hwaits hcut
    (c := {c with hts := {c.hts with parseState := .start}}) hread rfl hbuf
    (Nat.lt_succ_self c.input.length)
  dsimp only at hloop hend
  rw [htsParseExecute,hloop]
  dsimp only
  cases hlossy : (advance todo c.input).lossy with
  | true =>
      have hres : res = -((advance todo c.input).input.length : ℤ) := by
        rwa [Ends,if_pos hlossy] at hend
      have hpos := List.length_pos_of_ne_nil (advance_lossy hlossy).1
      rw [if_neg (by omega),if_pos (by rw [needMoreBytes]; omega)]
      exact ⟨rfl,rfl,fun h => absurd (hlossy.symm.trans h) (by decide),fun _ => ⟨hread,hres⟩⟩
  | false =>
      have hshort : ∀ q qs, (advance todo c.input).todo = q::qs →
          (advance todo c.input).input.length < q.size := fun q qs hq =>
        advance_short hbuf hlossy hq
      rw [Ends,if_neg (by rw [hlossy]; decide)] at hend
      by_cases hmore : res = needMoreBytes
      · rw [if_neg (by rw [hmore]; decide),if_neg (not_not.mpr hmore)]
        refine ⟨rfl,rfl,fun _ => ⟨hread,hskip.ge,fun hpos => ?_,hshort⟩,fun h => ?_⟩
        · dsimp only at hpos
          omega
        · rw [hlossy] at h
          cases h
      · obtain ⟨q,qs,hq,hpos,hle⟩ := hend.resolve_left hmore
        rw [if_neg hpos.ne',if_pos hmore]
        refine ⟨rfl,rfl,fun _ => ⟨hread,hpos.le,fun _ => ⟨q,qs,hq,hle⟩,hshort⟩,fun h => ?_⟩
        rw [hlossy] at h
        cases h

theorem serverReader_reads (hwaits : Waits execute) (hcut : ∀ bs, (cut bs).flatten = bs)
    (hclean : Clean c todo) {segment : Bytes} (hbuf : c.input++segment++rest = stream todo) :
    Reads c (serverReader execute cut c segment) (advance todo (c.input++segment)) := by
  have hnonneg : ¬c.skipBytes < 0 := not_lt.mpr hclean.skip
  rw [serverReader]
  dsimp only
  rw [if_neg (by simp [hclean.read]),if_neg hnonneg]
  split_ifs with hpos hle
  · have hreads := readerLoop_reads hwaits hcut
      (c := {c with input := c.input++segment, skipBytes := 0}) hclean.read rfl hbuf
      (c.input++segment).length
    exact ⟨hreads.executed,hreads.input,hreads.clean,hreads.lossy⟩
  · obtain ⟨q,qs,rfl,hsize⟩ := hclean.skip_le hpos
    have hlen : (c.input++segment).length < q.size := by omega
    rw [advance,if_pos hlen]
    refine ⟨by simp,rfl,fun _ => ?_,fun h => by cases h⟩
    refine ⟨hclean.read,hclean.skip,hclean.skip_le,fun q' qs' heq => ?_⟩
    cases heq
    exact hlen
  · have hzero : c.skipBytes = 0 := by omega
    have hreads := readerLoop_reads hwaits hcut (c := {c with input := c.input++segment})
      hclean.read hzero hbuf (c.input++segment).length
    exact ⟨hreads.executed,hreads.input,hreads.clean,hreads.lossy⟩

end reader

namespace Conn

/-- The bytes of the messages that were executed. -/
def executedBytes (c : Conn) : ℕ := (c.executed.map fun e => e.message.length).sum

/-- What was executed or is in the buffer. -/
def held (c : Conn) : ℕ := c.executedBytes+c.input.length

/-- What was executed or still can be. -/
def weight (c : Conn) : ℕ := c.executedBytes+(c.input.length-(-c.skipBytes).toNat)

theorem weight_le_held (c : Conn) : c.weight ≤ c.held :=
  Nat.add_le_add_left (Nat.sub_le ..) _

theorem executedBytes_append (c : Conn) (e : Executed) :
    ({c with executed := c.executed++[e]} : Conn).executedBytes =
      c.executedBytes+e.message.length := by
  simp [executedBytes]

end Conn

section weight
variable {execute : HtsData → Bytes → ℤ} {cut : Bytes → List Bytes} {c : Conn} {d : HtsData}

theorem held_endQuery (c : Conn) (d : HtsData) : (endQuery c d).1.held = c.held := by
  rw [endQuery]
  dsimp only
  split_ifs <;> rfl

/-- A query that was executed was in the buffer as a whole, and leaves it. -/
theorem held_runQuery (hwaits : Waits execute) (c : Conn) (d : HtsData) :
    (runQuery execute c d).1.held ≤ c.held := by
  have hdropped (c : Conn) (n : ℕ) : ({c with input := c.input.drop n} : Conn).held ≤ c.held :=
    Nat.add_le_add_left (by simp) _
  rw [runQuery]
  dsimp only
  by_cases hpost : d.queryType = .post ∧ d.dataSize < 0
  · rw [if_pos hpost,if_neg (by decide),if_neg (by decide),held_endQuery,if_neg (fun h => h.1 hpost)]
    exact hdropped ..
  by_cases hother : d.queryType ≠ .post ∧ 0 < d.dataSize
  · rw [if_neg hpost,if_pos hother,if_neg (by decide),if_neg (by decide),held_endQuery,
      if_neg (fun h => h.2 hother)]
    exact hdropped ..
  rw [if_neg hpost,if_neg hother]
  by_cases hres : 0 < execute d (c.input.take (queryBytes d))
  · rw [if_pos hres]
    exact Nat.le_refl _
  have hwhole : (c.input.take (queryBytes d)).length = queryBytes d := by
    by_contra hne
    have hlt : (c.input.take (queryBytes d)).length < queryBytes d := by
      rw [List.length_take] at hne ⊢
      omega
    rw [hwaits.missing d _ hlt] at hres
    omega
  have hdone := hwaits.complete d _ hwhole
  have hexecuted (bs : Bytes) (hts : HtsData) :
      ({c with executed := c.executed++[⟨d.queryType,c.input.take (queryBytes d)⟩]
               input := bs, hts} : Conn).held = c.executedBytes+queryBytes d+bs.length := by
    have happend := c.executedBytes_append ⟨d.queryType,c.input.take (queryBytes d)⟩
    rw [hwhole] at happend
    exact congrArg (·+bs.length) happend
  have hle : queryBytes d ≤ c.input.length := by
    rw [List.length_take] at hwhole
    omega
  simp only [if_neg hres,if_pos (And.intro hpost hother),if_pos hdone.symm]
  have hheld : c.held = c.executedBytes+c.input.length := rfl
  by_cases hdata : 0 < d.dataSize
  · have htype : d.queryType = .post := by
      by_contra hne
      exact hother ⟨hne,hdata⟩
    have hbytes : queryBytes d = d.headerSize+d.dataSize.toNat := by rw [queryBytes,if_pos htype]
    rw [if_pos hdata]
    split_ifs
    · rw [hexecuted,List.length_drop,List.length_drop]
      omega
    · rw [held_endQuery]
      refine (hexecuted _ c.hts).trans_le ?_
      rw [List.length_drop,List.length_drop]
      omega
  · have hbytes : queryBytes d = d.headerSize := by
      rw [queryBytes,show d.dataSize.toNat = 0 by omega]
      simp
    rw [if_neg hdata,held_endQuery]
    refine (hexecuted _ c.hts).trans_le ?_
    rw [List.length_drop]
    omega

theorem held_handleQuery (hwaits : Waits execute) (c : Conn) (d : HtsData) :
    (handleQuery execute c d).1.held ≤ c.held := by
  have hdropped : ({c with input := c.input.drop d.headerSize} : Conn).held ≤ c.held :=
    Nat.add_le_add_left (by simp) _
  rw [handleQuery]
  dsimp only
  split_ifs
  · exact held_runQuery hwaits ..
  · exact (held_endQuery ..).trans_le hdropped
  · exact held_runQuery hwaits ..
  · exact (held_endQuery ..).trans_le hdropped

theorem held_htsLoop (hwaits : Waits execute) (fuel : ℕ) (c : Conn) :
    (htsLoop execute cut fuel c).1.held ≤ c.held := by
  induction fuel generalizing c with
  | zero => exact Nat.le_refl _
  | succ fuel ih =>
      rw [htsLoop]
      dsimp only
      split_ifs
      · exact Nat.le_refl _
      · have hquery := held_handleQuery hwaits c (parseBlocks c.hts [] (cut c.input)).1
        split
        · rename_i hcase
          rw [hcase] at hquery
          exact hquery
        · rename_i hcase
          rw [hcase] at hquery
          exact (ih _).trans hquery
      · exact Nat.le_refl _

theorem weight_readerLoop (hwaits : Waits execute) (fuel : ℕ) (c : Conn) :
    (readerLoop execute cut fuel c).weight ≤ c.held := by
  induction fuel generalizing c with
  | zero => exact c.weight_le_held
  | succ fuel ih =>
      have hcall : (htsParseExecute execute cut c).1.held ≤ c.held := held_htsLoop hwaits ..
      rw [readerLoop]
      dsimp only
      split_ifs
      · exact c.weight_le_held
      · exact (ih _).trans hcall
      · exact (Conn.weight_le_held _).trans hcall
      · exact (Conn.weight_le_held _).trans hcall

/-- A call of the reader gains no more than the bytes that have come. -/
theorem weight_serverReader (hwaits : Waits execute) (c : Conn) (segment : Bytes) :
    (serverReader execute cut c segment).weight ≤ c.weight+segment.length := by
  have hloop (bs : Bytes) (skip : ℤ) (fuel : ℕ)
      (hbs : bs.length ≤ c.input.length-(-c.skipBytes).toNat+segment.length) :
      (readerLoop execute cut fuel {c with input := bs, skipBytes := skip}).weight ≤
        c.weight+segment.length := by
    refine (weight_readerLoop hwaits ..).trans ?_
    rw [Conn.weight,Nat.add_assoc]
    exact Nat.add_le_add_left hbs _
  rw [serverReader]
  dsimp only
  split_ifs with hstop hneg hmore hpos hle
  · simp only [Conn.weight,Conn.executedBytes,List.length_append]
    omega
  · simp only [Conn.weight,Conn.executedBytes,List.length_append,List.length_drop]
    omega
  · apply hloop
    rw [List.length_drop]
    rw [List.length_append] at hmore ⊢
    omega
  · apply hloop
    rw [List.length_append]
    omega
  · simp only [Conn.weight,Conn.executedBytes,List.length_append]
    omega
  · apply hloop
    rw [List.length_append]
    omega

end weight

/-- Every body ends where a segment ends; `buf` is there before them. -/
def Aligned (buf : Bytes) (queries : List Query) (segments : List Bytes) : Prop :=
  ∀ before q after, queries = before++q::after → q.body ≠ [] →
    ∃ k, buf++(segments.take k).flatten = stream (before++[q])

section segments
variable {execute : HtsData → Bytes → ℤ} {cut : Bytes → List Bytes} {c : Conn}
  {todo : List Query} {segment : Bytes} {segments : List Bytes}

theorem weight_segments (hwaits : Waits execute) (c : Conn) (segments : List Bytes) :
    (segments.foldl (serverReader execute cut) c).weight ≤ c.weight+segments.flatten.length := by
  induction segments generalizing c with
  | nil => exact Nat.le_refl _
  | cons segment segments ih =>
      have hfirst := @weight_serverReader _ cut hwaits c segment
      rw [List.foldl_cons,List.flatten_cons,List.length_append]
      exact (ih _).trans (by omega)

theorem executedBytes_log (qs : List Query) :
    ((qs.map Query.log).map fun e => e.message.length).sum = (stream qs).length := by
  induction qs with
  | nil => rfl
  | cons q qs ih =>
      rw [List.map_cons,List.map_cons,List.sum_cons,ih,stream_cons,List.length_append]
      rfl

/-- A connection that waits has no whole query. -/
theorem Clean.not_whole (h : Clean c todo) {before after : List Query} {q : Query}
    (htodo : todo = before++q::after) : c.input ≠ stream (before++[q]) := by
  intro hinput
  cases before with
  | nil =>
      have hshort := h.short q after htodo
      rw [hinput,List.nil_append,stream_cons,List.length_append,q.length_bytes] at hshort
      omega
  | cons p before =>
      have hshort := h.short p (before++q::after) htodo
      rw [hinput,List.cons_append,stream_cons,List.length_append,p.length_bytes] at hshort
      omega

/-- Where a body ends with a segment, that is not before the next one. -/
theorem Clean.aligned_segment (h : Clean c todo) {before after : List Query} {q : Query}
    (htodo : todo = before++q::after) {k : ℕ}
    (hk : c.input++((segment::segments).take k).flatten = stream (before++[q])) :
    ∃ k, c.input++segment++(segments.take k).flatten = stream (before++[q]) := by
  cases k with
  | zero =>
      rw [List.take_zero,List.flatten_nil,List.append_nil] at hk
      exact absurd hk (h.not_whole htodo)
  | succ k =>
      rw [List.take_succ_cons,List.flatten_cons,← List.append_assoc] at hk
      exact ⟨k,hk⟩

/-- A segment behind which no byte will be skipped. -/
theorem Clean.aligned_iff (h : Clean c todo)
    (hbuf : c.input++segment++segments.flatten = stream todo)
    (hgood : (advance todo (c.input++segment)).lossy = false) :
    Aligned c.input todo (segment::segments) ↔
      Aligned (advance todo (c.input++segment)).input (advance todo (c.input++segment)).todo
        segments := by
  obtain ⟨htodo,hsplit⟩ := advance_split hbuf
  have hbody : ∀ before q after, (advance todo (c.input++segment)).completed = before++q::after →
      q.body ≠ [] → after = [] ∧ (advance todo (c.input++segment)).input = [] :=
    fun _ _ _ hcompleted hne => advance_body hgood hcompleted hne
  generalize advance todo (c.input++segment) = r at htodo hsplit hbody
  constructor
  · intro haligned before q after hq hne
    have hall : todo = (r.completed++before)++q::after := by rw [htodo,hq,List.append_assoc]
    obtain ⟨k,hk⟩ := haligned _ q after hall hne
    obtain ⟨k,hk⟩ := h.aligned_segment hall hk
    rw [hsplit,List.append_assoc,List.append_assoc r.completed,stream_append] at hk
    exact ⟨k,List.append_cancel_left hk⟩
  · intro haligned before q after hq hne
    rw [htodo] at hq
    rcases List.append_eq_append_iff.mp hq with ⟨before',hbefore,htail⟩ | ⟨tail,hcompleted,htail⟩
    · obtain ⟨k,hk⟩ := haligned before' q after htail hne
      refine ⟨k+1,?_⟩
      rw [List.take_succ_cons,List.flatten_cons,← List.append_assoc,hsplit,hbefore,List.append_assoc,
        List.append_assoc r.completed,stream_append,hk]
    · cases tail with
      | nil =>
          rw [List.append_nil] at hcompleted
          obtain ⟨k,hk⟩ := haligned [] q after htail.symm hne
          refine ⟨k+1,?_⟩
          rw [List.take_succ_cons,List.flatten_cons,← List.append_assoc,hsplit,hcompleted,
            List.append_assoc,stream_append,hk]
          rfl
      | cons p tail =>
          obtain ⟨rfl,-⟩ := List.cons.inj htail
          obtain ⟨rfl,hempty⟩ := hbody before q tail hcompleted hne
          refine ⟨1,?_⟩
          rw [List.take_succ_cons,List.take_zero,List.flatten_singleton,hsplit,hempty,hcompleted,
            List.append_nil]

/-- A segment behind which bytes will be skipped. -/
theorem Clean.not_aligned (h : Clean c todo)
    (hbuf : c.input++segment++segments.flatten = stream todo)
    (hbad : (advance todo (c.input++segment)).lossy = true) :
    ¬Aligned c.input todo (segment::segments) := by
  obtain ⟨htodo,hsplit⟩ := advance_split hbuf
  obtain ⟨hleft,before,q,hcompleted,hne⟩ := advance_lossy hbad
  intro haligned
  have hall : todo = before++q::(advance todo (c.input++segment)).todo := by
    conv_lhs => rw [htodo,hcompleted,List.append_assoc]
    rfl
  obtain ⟨k,hk⟩ := haligned before q _ hall hne
  obtain ⟨k,hk⟩ := h.aligned_segment hall hk
  rw [← hcompleted] at hk
  have hlen := congrArg List.length hk
  have hsum := (congrArg List.length hsplit).trans List.length_append
  have hpos := List.length_pos_of_ne_nil hleft
  rw [List.length_append] at hlen
  omega

/-- Then the queries behind cannot all be executed: too few bytes are left. -/
theorem Reads.not_all (hwaits : Waits execute) (hreads : Reads c (serverReader execute cut c segment)
      (advance todo (c.input++segment)))
    (hbuf : c.input++segment++segments.flatten = stream todo)
    (hbad : (advance todo (c.input++segment)).lossy = true) :
    (segments.foldl (serverReader execute cut) (serverReader execute cut c segment)).executed ≠
      c.executed++todo.map Query.log := by
  intro hall
  have hsum := (congrArg List.length (advance_split hbuf).2).trans List.length_append
  have hpos := List.length_pos_of_ne_nil (advance_lossy hbad).1
  have htotal := congrArg List.length hbuf
  have hweight := @weight_segments _ cut hwaits (serverReader execute cut c segment) segments
  have hafter : (serverReader execute cut c segment).weight =
      c.executedBytes+(stream (advance todo (c.input++segment)).completed).length := by
    rw [Conn.weight,Conn.executedBytes,(hreads.lossy hbad).2,hreads.executed,List.map_append,
      List.sum_append,executedBytes_log,Int.neg_neg,Int.toNat_natCast,Nat.sub_self]
    rfl
  have hfinal : c.executedBytes+(stream todo).length ≤
      (segments.foldl (serverReader execute cut) (serverReader execute cut c segment)).weight := by
    rw [Conn.weight,Conn.executedBytes,Conn.executedBytes,hall,List.map_append,List.sum_append,
      executedBytes_log]
    omega
  rw [List.length_append] at htotal
  omega

/-- All queries are executed just when every body ends with a segment. -/
theorem Clean.executed_iff (hwaits : Waits execute) (hcut : ∀ bs, (cut bs).flatten = bs)
    (h : Clean c todo) (hbuf : c.input++segments.flatten = stream todo) :
    (segments.foldl (serverReader execute cut) c).executed = c.executed++todo.map Query.log ↔
      Aligned c.input todo segments := by
  induction segments generalizing c todo with
  | nil =>
      rw [List.flatten_nil,List.append_nil] at hbuf
      have hnone : todo = [] := by
        cases todo with
        | nil => rfl
        | cons q qs =>
            have hshort := h.short q qs rfl
            rw [hbuf,stream_cons,List.length_append,q.length_bytes] at hshort
            omega
      subst hnone
      constructor
      · intro _ before q after hq
        cases before <;> cases hq
      · intro _
        simp
  | cons segment segments ih =>
      rw [List.flatten_cons,← List.append_assoc] at hbuf
      have hreads := serverReader_reads hwaits hcut h hbuf
      cases hlossy : (advance todo (c.input++segment)).lossy with
      | true =>
          have hnot := h.not_aligned hbuf hlossy
          have hexecuted := hreads.not_all hwaits hbuf hlossy
          exact iff_of_false hexecuted hnot
      | false =>
          have hrest := advance_rest hbuf
          rw [← hreads.input] at hrest
          have hnext := ih (hreads.clean hlossy) hrest
          rw [hreads.executed,List.append_assoc,← List.map_append,← (advance_split hbuf).1,
            hreads.input] at hnext
          rw [h.aligned_iff hbuf hlossy]
          exact hnext

end segments

theorem clean_start (queries : List Query) : Clean {} queries where
  read := rfl
  skip := Int.le_refl _
  skip_le := fun hpos => absurd hpos (by decide)
  short := fun q _ _ => q.size_pos

/-- Queries sent back to back, in any segments: they are executed one after another, each
with its own bytes, just when every body ends where a segment ends. -/
theorem pipelining_iff (execute : HtsData → Bytes → ℤ) (hwaits : Waits execute)
    (cut : Bytes → List Bytes) (hcut : ∀ bs, (cut bs).flatten = bs) (queries : List Query)
    (segments : List Bytes) (hsent : segments.flatten = stream queries) :
    (serve execute cut segments).executed = queries.map Query.log ↔ Aligned [] queries segments :=
  (clean_start queries).executed_iff hwaits hcut hsent

/-- A callback that collects the body. -/
def collect (d : HtsData) (message : Bytes) : ℤ := (queryBytes d : ℤ)-message.length

theorem waits_collect : Waits collect where
  missing := fun _ _ _ => rfl
  complete := by
    intro d message hlen
    left
    rw [collect,hlen,Int.sub_self]

def postQuery : Query where
  queryType := .post
  header := bytesOf "POST / HTTP/1.1\r\nConnection: keep-alive\r\nContent-Length: 2\r\n\r\n"
  body := bytesOf "ab"
  nonempty := by decide
  short := by decide
  lt := by decide
  parses := by decide +kernel

def getQuery : Query where
  queryType := .get
  header := bytesOf "GET / HTTP/1.1\r\nConnection: keep-alive\r\n\r\n"
  body := []
  nonempty := by decide
  short := by decide
  lt := by decide
  parses := by decide +kernel

/-- The body in a segment of its own, and two queries in the next. -/
theorem pipelining_three :
    (serve collect (fun bs => [bs]) [postQuery.header,postQuery.body,
        getQuery.header++getQuery.header]).executed = [postQuery,getQuery,getQuery].map Query.log := by
  refine (pipelining_iff collect waits_collect _ (fun bs => List.flatten_singleton)
    [postQuery,getQuery,getQuery] _ (by decide +kernel)).mpr ?_
  intro before q after hqueries hbody
  cases before with
  | nil =>
      obtain ⟨rfl,-⟩ := List.cons.inj hqueries
      exact ⟨2,rfl⟩
  | cons p before =>
      have hmem : q ∈ [getQuery,getQuery] := by
        rw [(List.cons.inj hqueries).2]
        simp
      have hget : q = getQuery := by simpa using hmem
      exact absurd (congrArg Query.body hget) hbody

/-- With the next query in the segment of the body, its bytes are skipped when more come. -/
theorem next_query_skipped :
    [postQuery.bytes++getQuery.bytes,getQuery.bytes].flatten =
        stream [postQuery,getQuery,getQuery] ∧
      (serve collect (fun bs => [bs]) [postQuery.bytes++getQuery.bytes,getQuery.bytes]).executed =
        [postQuery.log,getQuery.log] ∧
      [postQuery.log,getQuery.log] ≠ [postQuery,getQuery,getQuery].map Query.log := by
  decide +kernel

end Teleproxy.HttpPipelining
