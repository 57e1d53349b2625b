import Teleproxy.PacketParser
import Teleproxy.Lib.Loop

/-!
# The headers of TL queries and answers

A query begins with `RPC_INVOKE_REQ` and its number, and any number of wrappers with an
actor or with flags may follow; an answer begins with `RPC_REQ_RESULT` or
`RPC_REQ_ERROR`. Both readers look at the next constructor in an endless loop, take what
belongs to it and leave at the first one that they do not know.

The input is what the methods of a stream make of it, a string or a message: the bytes
that are still unread and a position. A failed assertion is `aborted`.
-/
namespace Teleproxy.TlQueryHeader
open ClientInput (Bytes)
open PacketParser (lookup4 store4)
open Loop

structure TlError where
  errnum : ℤ
  text : String
  deriving DecidableEq, Repr

def tlErrorHeader : ℤ := -1002
def tlErrorNotEnoughData : ℤ := -1004

/-- `struct tl_in_state`; `in_remaining` is the number of unread bytes. -/
structure TlIn where
  unread : Bytes
  pos : ℕ
  error : Option TlError
  deriving DecidableEq, Repr

/-- `__tl_fetch_init` -/
def tlFetchInit (bytes : Bytes) : TlIn := ⟨bytes,0,none⟩

/-- `tlf_set_error`: only the first error is kept. -/
def TlIn.setError (s : TlIn) (errnum : ℤ) (text : String) : TlIn :=
  match s.error with
  | some _ => s
  | none => {s with error := some ⟨errnum,text⟩}

def notEnough (nbytes pos size : ℕ) : String :=
  s!"Trying to read {nbytes} bytes at position {pos} (size = {size})"

def tlfCheck (s : TlIn) (nbytes : ℕ) : Bool × TlIn :=
  if s.unread.length < nbytes then
    (false,s.setError tlErrorNotEnoughData (notEnough nbytes s.pos (s.pos+s.unread.length)))
  else (s.error.isNone,s)

/-- `__tlf_raw_data` and `__tlf_skip_raw_data` -/
def TlIn.advance (s : TlIn) (size : ℕ) : TlIn :=
  {s with unread := s.unread.drop size, pos := s.pos+size}

def lookup8 (bytes : Bytes) : BitVec 64 := lookup4 (bytes.drop 4) ++ lookup4 bytes

def tlfLookupInt (s : TlIn) : BitVec 32 × TlIn :=
  let c := tlfCheck s 4
  if c.1 then (lookup4 c.2.unread,c.2) else (-1#32,c.2)

def tlfInt (s : TlIn) : BitVec 32 × TlIn :=
  let c := tlfCheck s 4
  if c.1 then (lookup4 c.2.unread,c.2.advance 4) else (-1#32,c.2)

def tlfLong (s : TlIn) : BitVec 64 × TlIn :=
  let c := tlfCheck s 8
  if c.1 then (lookup8 c.2.unread,c.2.advance 8) else (-1#64,c.2)

/-- `assert (tl_fetch_int () == op)` -/
def tlfExpect (s : TlIn) (op : BitVec 32) : Option TlIn :=
  let x := tlfInt s
  if x.1 = op then some x.2 else none

def rpcInvokeReq : BitVec 32 := 0x2374df3d#32
def rpcInvokeKphpReq : BitVec 32 := 0x99a37fda#32
def rpcReqError : BitVec 32 := 0x7ae432f5#32
def rpcReqErrorWrapped : BitVec 32 := rpcReqError+1#32
def rpcReqResult : BitVec 32 := 0x63aeda4e#32
def rpcDestActor : BitVec 32 := 0x7568aabd#32
def rpcDestActorFlags : BitVec 32 := 0xf0a5acf7#32
def rpcDestFlags : BitVec 32 := 0xe352035e#32
def rpcReqResultFlags : BitVec 32 := 0x8cc84ce1#32

/-- `struct tl_query_header`, without the parameters that the engine adds. -/
structure QueryHeader where
  qid : BitVec 64 := 0#64
  actorId : BitVec 64 := 0#64
  flags : BitVec 32 := 0#32
  op : BitVec 32 := 0#32
  realOp : BitVec 32 := 0#32
  refCnt : ℕ := 0
  deriving DecidableEq, Repr

structure Stats where
  rpcQueriesReceived : ℕ := 0
  rpcAnswersError : ℕ := 0
  rpcAnswersReceived : ℕ := 0
  deriving DecidableEq, Repr

/-- What a reader works on; `t` is `tl_fetch_unread ()` at its start. -/
structure State where
  input : TlIn
  header : QueryHeader
  stats : Stats
  t : ℕ
  deriving DecidableEq, Repr

inductive Outcome where
  | aborted
  | returned (code : ℤ) (state : State)
  deriving DecidableEq, Repr

/-- `tl_fetch_set_error (TL_ERROR_HEADER, text)` -/
def State.setError (s : State) (text : String) : State :=
  {s with input := s.input.setError tlErrorHeader text}

def tlfQueryFlags (s : State) : State :=
  let x := tlfInt s.input
  let s := {s with input := x.2}
  if x.2.error.isSome then s
  else if s.header.flags &&& x.1 ≠ 0#32 then
    s.setError ("Duplicate flags in header 0x"++(s.header.flags &&& x.1).toHex)
  else if x.1 ≠ 0#32 then s.setError ("Unsupported flags in header 0x"++x.1.toHex)
  else {s with header := {s.header with flags := s.header.flags ||| x.1}}

/-- The source has its body a second time. -/
def tlfQueryAnswerFlags (s : State) : State := tlfQueryFlags s

/-- `return t - tl_fetch_unread ()` -/
def State.finish (s : State) : Outcome :=
  .returned ((s.t : ℤ)-s.input.unread.length) s

/-- What both readers do with the first constructor. -/
def start (stats : Stats) (bytes : Bytes) : State :=
  let x := tlfInt (tlFetchInit bytes)
  ⟨x.2,{op := x.1, realOp := x.1, refCnt := 1},stats,bytes.length⟩

def State.fetchQid (s : State) : State :=
  let x := tlfLong s.input
  {s with input := x.2, header := {s.header with qid := x.1}}

def State.countQuery (s : State) : State :=
  {s with stats := {s.stats with rpcQueriesReceived := s.stats.rpcQueriesReceived+1}}

/-- `tlf_query_header` up to its loop. -/
def queryStart (stats : Stats) (bytes : Bytes) : Pass State Outcome :=
  let s := start stats bytes
  if s.header.op ≠ rpcInvokeReq ∧ s.header.op ≠ rpcInvokeKphpReq then
    .leave (.returned (-1) (s.setError "Expected RPC_INVOKE_REQ or RPC_INVOKE_KPHP_REQ"))
  else
    let s := s.fetchQid
    if s.header.op = rpcInvokeKphpReq then
      if s.input.error.isSome then .leave (.returned (-1) s) else .leave s.countQuery.finish
    else .again s

def State.fetchActor (s : State) : State :=
  let x := tlfLong s.input
  {s with input := x.2, header := {s.header with actorId := x.1}}

/-- The end of a pass of `tlf_query_header`. -/
def queryNext (s : State) : Pass State Outcome :=
  if s.input.error.isSome then .leave (.returned (-1) s) else .again s

def queryPass (s : State) : Pass State Outcome :=
  let x := tlfLookupInt s.input
  let s := {s with input := x.2}
  if x.1 = rpcDestActor then
    match tlfExpect s.input rpcDestActor with
    | none => .leave .aborted
    | some input => queryNext {s with input}.fetchActor
  else if x.1 = rpcDestActorFlags then
    match tlfExpect s.input rpcDestActorFlags with
    | none => .leave .aborted
    | some input => queryNext (tlfQueryFlags {s with input}.fetchActor)
  else if x.1 = rpcDestFlags then
    match tlfExpect s.input rpcDestFlags with
    | none => .leave .aborted
    | some input => queryNext (tlfQueryFlags {s with input})
  else if s.input.error.isSome then .leave (.returned (-1) s)
  else .leave s.countQuery.finish

/-- `tlf_query_answer_header` up to its loop. -/
def answerStart (stats : Stats) (bytes : Bytes) : Pass State Outcome :=
  let s := start stats bytes
  if s.header.op ≠ rpcReqError ∧ s.header.op ≠ rpcReqResult then
    .leave (.returned (-1) (s.setError "Expected RPC_REQ_ERROR or RPC_REQ_RESULT"))
  else .again s.fetchQid

def State.countAnswer (s : State) : State :=
  if s.header.op = rpcReqError ∨ s.header.op = rpcReqErrorWrapped then
    {s with stats := {s.stats with rpcAnswersError := s.stats.rpcAnswersError+1}}
  else {s with stats := {s.stats with rpcAnswersReceived := s.stats.rpcAnswersReceived+1}}

/-- The end of a pass of `tlf_query_answer_header`. -/
def answerNext (s : State) (ok : Bool) : Pass State Outcome :=
  if s.input.error.isSome then .leave (.returned (-1) s)
  else if ok then .again s
  else .leave s.countAnswer.finish

def State.wrapError (s : State) : State :=
  {s with header := {s.header with op := rpcReqErrorWrapped}}

def answerPass (s : State) : Pass State Outcome :=
  if s.header.op = rpcReqError then answerNext s false
  else
    let x := tlfLookupInt s.input
    let s := {s with input := x.2}
    if x.1 = rpcReqError then
      match tlfExpect s.input rpcReqError with
      | none => .leave .aborted
      | some input => answerNext {s with input := (tlfLong input).2}.wrapError true
    else if x.1 = rpcReqErrorWrapped then answerNext s.wrapError true
    else if x.1 = rpcReqResultFlags then
      match tlfExpect s.input rpcReqResultFlags with
      | none => .leave .aborted
      | some input => answerNext (tlfQueryAnswerFlags {s with input}) true
    else answerNext s false

/-- A reader, for at most so many passes of its loop. -/
def runReader (body : State → Pass State Outcome) (fuel : ℕ) : Pass State Outcome → Option Outcome
  | .leave r => some r
  | .again s => loop body fuel s

def tlfQueryHeader (fuel : ℕ) (stats : Stats) (bytes : Bytes) : Option Outcome :=
  runReader queryPass fuel (queryStart stats bytes)

def tlfQueryAnswerHeader (fuel : ℕ) (stats : Stats) (bytes : Bytes) : Option Outcome :=
  runReader answerPass fuel (answerStart stats bytes)

@[simp] theorem setError_unread (s : TlIn) (errnum : ℤ) (text : String) :
    (s.setError errnum text).unread = s.unread := by
  unfold TlIn.setError
  split <;> rfl

@[simp] theorem setError_isSome (s : TlIn) (errnum : ℤ) (text : String) :
    (s.setError errnum text).error.isSome = true := by
  unfold TlIn.setError
  split
  · simp_all
  · rfl

@[simp] theorem advance_unread (s : TlIn) (size : ℕ) :
    (s.advance size).unread = s.unread.drop size := rfl

@[simp] theorem advance_error (s : TlIn) (size : ℕ) : (s.advance size).error = s.error := rfl

@[simp] theorem tlFetchInit_unread (bytes : Bytes) : (tlFetchInit bytes).unread = bytes := rfl

@[simp] theorem tlFetchInit_error (bytes : Bytes) : (tlFetchInit bytes).error = none := rfl

/-- A check passes, or it leaves an error behind. -/
theorem tlfCheck_cases (s : TlIn) (nbytes : ℕ) :
    (nbytes ≤ s.unread.length ∧ s.error = none ∧ tlfCheck s nbytes = (true,s)) ∨
      ((tlfCheck s nbytes).1 = false ∧ (tlfCheck s nbytes).2.error.isSome = true ∧
        (tlfCheck s nbytes).2.unread = s.unread) := by
  unfold tlfCheck
  by_cases hlen : s.unread.length < nbytes
  · rw [if_pos hlen]
    exact .inr ⟨rfl,setError_isSome ..,setError_unread ..⟩
  · rw [if_neg hlen]
    cases he : s.error with
    | none => exact .inl ⟨by omega,rfl,by simp⟩
    | some e => exact .inr ⟨rfl,rfl,rfl⟩

theorem tlfInt_cases (s : TlIn) :
    (4 ≤ s.unread.length ∧ s.error = none ∧ tlfInt s = (lookup4 s.unread,s.advance 4)) ∨
      ((tlfInt s).2.error.isSome = true ∧ (tlfInt s).2.unread = s.unread) := by
  unfold tlfInt
  obtain ⟨hlen,he,hc⟩ | ⟨hf,he,hu⟩ := tlfCheck_cases s 4
  · exact .inl ⟨hlen,he,by simp [hc]⟩
  · exact .inr ⟨by simp [hf, he],by simp [hf, hu]⟩

theorem tlfLong_cases (s : TlIn) :
    (8 ≤ s.unread.length ∧ s.error = none ∧ tlfLong s = (lookup8 s.unread,s.advance 8)) ∨
      ((tlfLong s).2.error.isSome = true ∧ (tlfLong s).2.unread = s.unread) := by
  unfold tlfLong
  obtain ⟨hlen,he,hc⟩ | ⟨hf,he,hu⟩ := tlfCheck_cases s 8
  · exact .inl ⟨hlen,he,by simp [hc]⟩
  · exact .inr ⟨by simp [hf, he],by simp [hf, hu]⟩

/-- A lookup that fails returns a number that is no constructor. -/
theorem tlfLookupInt_cases (s : TlIn) :
    (4 ≤ s.unread.length ∧ s.error = none ∧ tlfLookupInt s = (lookup4 s.unread,s)) ∨
      ((tlfLookupInt s).1 = -1#32 ∧ (tlfLookupInt s).2.error.isSome = true) := by
  unfold tlfLookupInt
  obtain ⟨hlen,he,hc⟩ | ⟨hf,he,hu⟩ := tlfCheck_cases s 4
  · exact .inl ⟨hlen,he,by simp [hc]⟩
  · exact .inr ⟨by simp [hf],by simp [hf, he]⟩

theorem tlfLong_unread_le (s : TlIn) : (tlfLong s).2.unread.length ≤ s.unread.length := by
  obtain ⟨_,_,h⟩ | ⟨_,h⟩ := tlfLong_cases s
  · simp [h]
  · rw [h]

/-- A constructor that was looked up can be taken. -/
theorem tlfExpect_of_lookup {s : TlIn} {op : BitVec 32} (hop : op ≠ -1#32)
    (h : (tlfLookupInt s).1 = op) :
    (tlfLookupInt s).2 = s ∧ 4 ≤ s.unread.length ∧ s.error = none ∧ lookup4 s.unread = op ∧
      tlfExpect s op = some (s.advance 4) := by
  obtain ⟨hlen,he,hc⟩ | ⟨hf,_⟩ := tlfLookupInt_cases s
  · rw [hc] at h
    refine ⟨by rw [hc],hlen,he,h,?_⟩
    have hint : tlfInt s = (lookup4 s.unread,s.advance 4) := by
      obtain ⟨_,_,hi⟩ | ⟨hi,_⟩ := tlfInt_cases s
      · exact hi
      · unfold tlfInt tlfCheck at hi ⊢
        simp [he, Nat.not_lt.mpr hlen]
    rw [tlfExpect, hint, if_pos h]
  · exact (hop (h.symm.trans hf)).elim

/-- Flags pass only when they are all zero. -/
theorem tlfQueryFlags_cases (s : State) :
    (4 ≤ s.input.unread.length ∧ s.input.error = none ∧ lookup4 s.input.unread = 0#32 ∧
        tlfQueryFlags s = {s with input := s.input.advance 4}) ∨
      ((tlfQueryFlags s).input.error.isSome = true ∧
        (tlfQueryFlags s).input.unread.length ≤ s.input.unread.length) := by
  unfold tlfQueryFlags
  obtain ⟨hlen,he,h⟩ | ⟨he,h⟩ := tlfInt_cases s.input
  · by_cases hz : lookup4 s.input.unread = 0#32
    · exact .inl ⟨hlen,he,hz,by simp [h, he, hz]⟩
    · refine .inr ?_
      rw [h]
      by_cases hd : s.header.flags &&& lookup4 s.input.unread = 0#32
      · simp [he, hz, hd, State.setError]
      · simp [he, hd, State.setError]
  · simp [he, h]

theorem tlfQueryFlags_unread_le (s : State) :
    (tlfQueryFlags s).input.unread.length ≤ s.input.unread.length := by
  obtain ⟨_,_,_,h⟩ | ⟨_,h⟩ := tlfQueryFlags_cases s
  · simp [h]
  · exact h

/-- The measure of both loops. -/
def State.unread (s : State) : ℕ := s.input.unread.length

theorem queryNext_again {s s' : State} (h : queryNext s = .again s') : s' = s := by
  unfold queryNext at h
  split at h
  · cases h
  · exact (Pass.again.inj h).symm

theorem fetchActor_unread_le (s : State) : s.fetchActor.unread ≤ s.unread :=
  tlfLong_unread_le s.input

/-- Every wrapper of a query takes the four bytes of its constructor. -/
theorem queryPass_consumes {s s' : State} (h : queryPass s = .again s') :
    s'.unread+4 ≤ s.unread := by
  unfold queryPass at h
  simp only at h
  by_cases hactor : (tlfLookupInt s.input).1 = rpcDestActor
  · obtain ⟨hs,hlen,_,_,hx⟩ := tlfExpect_of_lookup (by decide) hactor
    rw [if_pos hactor, hs, hx] at h
    have hle := fetchActor_unread_le {s with input := s.input.advance 4}
    rw [queryNext_again h]
    simp only [State.unread, advance_unread, List.length_drop] at hle ⊢
    omega
  rw [if_neg hactor] at h
  by_cases hboth : (tlfLookupInt s.input).1 = rpcDestActorFlags
  · obtain ⟨hs,hlen,_,_,hx⟩ := tlfExpect_of_lookup (by decide) hboth
    rw [if_pos hboth, hs, hx] at h
    have hle := fetchActor_unread_le {s with input := s.input.advance 4}
    have hflags := tlfQueryFlags_unread_le {s with input := s.input.advance 4}.fetchActor
    rw [queryNext_again h]
    simp only [State.unread, advance_unread, List.length_drop] at hle hflags ⊢
    omega
  rw [if_neg hboth] at h
  by_cases hflag : (tlfLookupInt s.input).1 = rpcDestFlags
  · obtain ⟨hs,hlen,_,_,hx⟩ := tlfExpect_of_lookup (by decide) hflag
    rw [if_pos hflag, hs, hx] at h
    have hflags := tlfQueryFlags_unread_le {s with input := s.input.advance 4}
    rw [queryNext_again h]
    simp only [State.unread, advance_unread, List.length_drop] at hflags ⊢
    omega
  rw [if_neg hflag] at h
  split at h <;> cases h

theorem answerNext_again {s s' : State} {ok : Bool} (h : answerNext s ok = .again s') :
    s.input.error = none ∧ ok = true ∧ s' = s := by
  unfold answerNext at h
  split at h
  · cases h
  next he =>
    split at h
    · exact ⟨by simpa using he,‹_›,(Pass.again.inj h).symm⟩
    · cases h

theorem answerNext_of_none {s : State} (h : s.input.error = none) :
    answerNext s true = .again s := by
  simp [answerNext, h]

/-- The passes of `tlf_query_answer_header` that do not leave its loop. -/
inductive AnswerStep (s : State) : State → Prop
  | error (hlen : 12 ≤ s.input.unread.length) (hop : lookup4 s.input.unread = rpcReqError) :
      AnswerStep s {s with input := (s.input.advance 4).advance 8}.wrapError
  | wrapped (hlen : 4 ≤ s.input.unread.length)
      (hop : lookup4 s.input.unread = rpcReqErrorWrapped) : AnswerStep s s.wrapError
  | flags (hlen : 8 ≤ s.input.unread.length)
      (hop : lookup4 s.input.unread = rpcReqResultFlags)
      (hz : lookup4 (s.input.unread.drop 4) = 0#32) :
      AnswerStep s {s with input := (s.input.advance 4).advance 4}

theorem answerPass_again {s s' : State} (h : answerPass s = .again s') :
    s.header.op ≠ rpcReqError ∧ s.input.error = none ∧ AnswerStep s s' := by
  unfold answerPass tlfQueryAnswerFlags at h
  by_cases hop : s.header.op = rpcReqError
  · rw [if_pos hop] at h
    cases (answerNext_again h).2.1
  rw [if_neg hop] at h
  refine ⟨hop,?_⟩
  simp only at h
  by_cases herr : (tlfLookupInt s.input).1 = rpcReqError
  · obtain ⟨hs,hlen,he,hc,hx⟩ := tlfExpect_of_lookup (by decide) herr
    rw [if_pos herr, hs, hx] at h
    obtain ⟨hne,_,rfl⟩ := answerNext_again h
    refine ⟨he,?_⟩
    obtain ⟨h8,_,hl⟩ | ⟨hl,_⟩ := tlfLong_cases (s.input.advance 4)
    · rw [hl]
      simp only [advance_unread, List.length_drop] at h8
      exact .error (by omega) hc
    · change (tlfLong (s.input.advance 4)).2.error = none at hne
      rw [hne] at hl
      cases hl
  rw [if_neg herr] at h
  by_cases hwrap : (tlfLookupInt s.input).1 = rpcReqErrorWrapped
  · obtain ⟨hs,hlen,he,hc,_⟩ := tlfExpect_of_lookup (by decide) hwrap
    rw [if_pos hwrap, hs] at h
    obtain ⟨_,_,rfl⟩ := answerNext_again h
    exact ⟨he,.wrapped hlen hc⟩
  rw [if_neg hwrap] at h
  by_cases hflag : (tlfLookupInt s.input).1 = rpcReqResultFlags
  · obtain ⟨hs,hlen,he,hc,hx⟩ := tlfExpect_of_lookup (by decide) hflag
    rw [if_pos hflag, hs, hx] at h
    obtain ⟨hne,_,rfl⟩ := answerNext_again h
    refine ⟨he,?_⟩
    obtain ⟨h4,_,hz,hf⟩ | ⟨hf,_⟩ := tlfQueryFlags_cases {s with input := s.input.advance 4}
    · rw [hf]
      simp only [advance_unread, List.length_drop] at h4
      exact .flags (by omega) hc hz
    · rw [hne] at hf
      cases hf
  rw [if_neg hflag] at h
  cases (answerNext_again h).2.1

theorem tlfLookupInt_of_none {s : TlIn} (hlen : 4 ≤ s.unread.length) (he : s.error = none) :
    tlfLookupInt s = (lookup4 s.unread,s) := by
  simp [tlfLookupInt, tlfCheck, he, Nat.not_lt.mpr hlen]

theorem tlfLong_of_none {s : TlIn} (hlen : 8 ≤ s.unread.length) (he : s.error = none) :
    tlfLong s = (lookup8 s.unread,s.advance 8) := by
  simp [tlfLong, tlfCheck, he, Nat.not_lt.mpr hlen]

/-- Each of these passes is made. -/
theorem answerPass_of_step {s s' : State} (hop : s.header.op ≠ rpcReqError)
    (he : s.input.error = none) (h : AnswerStep s s') : answerPass s = .again s' := by
  have hlen : 4 ≤ s.input.unread.length := by
    cases h with
    | error hlen => omega
    | wrapped hlen => exact hlen
    | flags hlen => omega
  have hlook := tlfLookupInt_of_none hlen he
  unfold answerPass tlfQueryAnswerFlags
  rw [if_neg hop]
  simp only [hlook]
  cases h with
  | error hlen hc =>
      obtain ⟨_,_,_,_,hx⟩ := tlfExpect_of_lookup (by decide)
        ((congrArg Prod.fst hlook).trans hc)
      rw [if_pos hc, hx]
      have hl := tlfLong_of_none (s := s.input.advance 4)
        (by simp only [advance_unread, List.length_drop]; omega) he
      dsimp only
      rw [hl]
      exact answerNext_of_none he
  | wrapped hlen hc =>
      rw [if_neg (by rw [hc]; decide), if_pos hc]
      exact answerNext_of_none he
  | flags hlen hc hz =>
      obtain ⟨_,_,_,_,hx⟩ := tlfExpect_of_lookup (by decide)
        ((congrArg Prod.fst hlook).trans hc)
      rw [if_neg (by rw [hc]; decide), if_neg (by rw [hc]; decide), if_pos hc, hx]
      obtain ⟨_,_,_,hf⟩ | ⟨hf,_⟩ := tlfQueryFlags_cases {s with input := s.input.advance 4}
      · dsimp only
        rw [hf]
        exact answerNext_of_none he
      · exfalso
        have h4 : ¬ s.input.unread.length-4 < 4 := by omega
        simp [tlfQueryFlags, tlfInt, tlfCheck, he, hz, h4] at hf

/-- Each pass of a reader's loop leaves it or takes four bytes at least. -/
def Consumes (body : State → Pass State Outcome) : Pass State Outcome → Prop
  | .leave _ => True
  | .again s => Descends body State.unread 4 s

theorem returns_of_consumes {body : State → Pass State Outcome} {p : Pass State Outcome}
    (h : Consumes body p) : ∃ fuel r, runReader body fuel p = some r := by
  cases p with
  | leave r => exact ⟨0,r,rfl⟩
  | again s => exact ends_of_descends (by decide) h

theorem query_consumes (stats : Stats) (bytes : Bytes) :
    Consumes queryPass (queryStart stats bytes) := by
  cases queryStart stats bytes with
  | leave r => trivial
  | again s => exact fun _ _ _ h => queryPass_consumes h

/-- Errors and empty flags, with `RPC_REQ_ERROR_WRAPPED` behind them. -/
inductive WrappedAhead : Bytes → Prop
  | here {bs : Bytes} (hlen : 4 ≤ bs.length) (hop : lookup4 bs = rpcReqErrorWrapped) :
      WrappedAhead bs
  | error {bs : Bytes} (hlen : 12 ≤ bs.length) (hop : lookup4 bs = rpcReqError) :
      WrappedAhead (bs.drop 12) → WrappedAhead bs
  | flags {bs : Bytes} (hlen : 8 ≤ bs.length) (hop : lookup4 bs = rpcReqResultFlags)
      (hz : lookup4 (bs.drop 4) = 0#32) : WrappedAhead (bs.drop 8) → WrappedAhead bs

/-- A result in whose header `RPC_REQ_ERROR_WRAPPED` is reached. -/
def AnswerWrapped (bytes : Bytes) : Prop :=
  12 ≤ bytes.length ∧ lookup4 bytes = rpcReqResult ∧ WrappedAhead (bytes.drop 12)

theorem errorWrapped_ne : rpcReqErrorWrapped ≠ rpcReqError := by decide

theorem answer_never_ends {bs : Bytes} (h : WrappedAhead bs) {s : State}
    (hs : s.input.unread = bs) (hop : s.header.op ≠ rpcReqError) (he : s.input.error = none) :
    ¬ Ends answerPass s := by
  induction h generalizing s with
  | here hlen hc =>
      subst hs
      rw [ends_iff_of_again (answerPass_of_step hop he (.wrapped hlen hc))]
      -- the second pass finds the same bytes, and now it changes nothing
      have hagain := answerPass_of_step (s := s.wrapError) errorWrapped_ne he (.wrapped hlen hc)
      exact not_ends_of_stuck hagain
  | error hlen hc _ ih =>
      subst hs
      rw [ends_iff_of_again (answerPass_of_step hop he (.error hlen hc))]
      exact ih (by simp [State.wrapError]) errorWrapped_ne he
  | flags hlen hc hz _ ih =>
      subst hs
      rw [ends_iff_of_again (answerPass_of_step hop he (.flags hlen hc hz))]
      exact ih (by simp) hop he

theorem WrappedAhead.of_step {s s' : State} (h : AnswerStep s s')
    (hw : WrappedAhead s'.input.unread) : WrappedAhead s.input.unread := by
  cases h with
  | error hlen hc => exact .error hlen hc (by simpa [State.wrapError] using hw)
  | wrapped hlen hc => exact .here hlen hc
  | flags hlen hc hz => exact .flags hlen hc hz (by simpa using hw)

theorem not_wrapped_of_visits {s x : State} (h : ¬ WrappedAhead s.input.unread)
    (hx : Visits answerPass s x) : ¬ WrappedAhead x.input.unread := by
  induction hx with
  | start => exact h
  | again _ hpass ih => exact fun hw => ih (.of_step (answerPass_again hpass).2.2 hw)

theorem answer_descends {s : State} (h : ¬ WrappedAhead s.input.unread) :
    Descends answerPass State.unread 4 s := by
  intro x y hx hxy
  have hfree := not_wrapped_of_visits h hx
  cases (answerPass_again hxy).2.2 with
  | error hlen hc =>
      simp only [State.unread, State.wrapError, advance_unread, List.length_drop]
      omega
  | wrapped hlen hc => exact (hfree (.here hlen hc)).elim
  | flags hlen hc hz =>
      simp only [State.unread, advance_unread, List.length_drop]
      omega

/-- The state in which the loop over an answer begins, when its number is there. -/
theorem answerStart_result (stats : Stats) {bytes : Bytes} (hlen : 12 ≤ bytes.length)
    (hop : lookup4 bytes = rpcReqResult) :
    ∃ s, answerStart stats bytes = .again s ∧ s.header.op = rpcReqResult ∧
      s.input.error = none ∧ s.input.unread = bytes.drop 12 := by
  have hint : tlfInt (tlFetchInit bytes) = (rpcReqResult,(tlFetchInit bytes).advance 4) := by
    have h4 : ¬ bytes.length < 4 := by omega
    simp [tlfInt, tlfCheck, h4, hop]
  have hlong := tlfLong_of_none (s := (tlFetchInit bytes).advance 4)
    (by simp only [advance_unread, List.length_drop, tlFetchInit_unread]; omega) rfl
  refine ⟨(start stats bytes).fetchQid,?_,?_⟩
  · simp [answerStart, start, hint]
  · simp [start, State.fetchQid, hint, hlong]

/-- A loop that begins with an error, or over an error, is left at once. -/
theorem answerPass_leaves {s : State}
    (h : s.header.op = rpcReqError ∨ s.input.error.isSome = true) (s' : State) :
    answerPass s ≠ .again s' := by
  intro hs
  obtain ⟨hop,he,_⟩ := answerPass_again hs
  cases h with
  | inl h => exact hop h
  | inr h => rw [he] at h; cases h

theorem answerStart_other {stats : Stats} {bytes : Bytes} {s : State}
    (h : ¬ (12 ≤ bytes.length ∧ lookup4 bytes = rpcReqResult))
    (hs : answerStart stats bytes = .again s) :
    s.header.op = rpcReqError ∨ s.input.error.isSome = true := by
  unfold answerStart at hs
  simp only at hs
  split at hs
  · cases hs
  next hop =>
    obtain rfl := Pass.again.inj hs
    by_contra hno
    obtain ⟨herr,hnone⟩ := not_or.mp hno
    obtain ⟨h8,hn,_⟩ | ⟨hl,_⟩ := tlfLong_cases (tlfInt (tlFetchInit bytes)).2
    · obtain ⟨_,_,hi⟩ | ⟨hi,_⟩ := tlfInt_cases (tlFetchInit bytes)
      · have hresult : lookup4 bytes = rpcReqResult := by
          by_contra hr
          refine hop ⟨herr,?_⟩
          simpa [start, hi] using hr
        refine h ⟨?_,hresult⟩
        simp only [hi, advance_unread, List.length_drop, tlFetchInit_unread] at h8
        omega
      · rw [hn] at hi
        cases hi
    · exact hnone hl

theorem answer_consumes (stats : Stats) {bytes : Bytes} (h : ¬ AnswerWrapped bytes) :
    Consumes answerPass (answerStart stats bytes) := by
  by_cases hresult : 12 ≤ bytes.length ∧ lookup4 bytes = rpcReqResult
  · obtain ⟨s,hs,_,_,hu⟩ := answerStart_result stats hresult.1 hresult.2
    rw [hs]
    refine answer_descends ?_
    rw [hu]
    exact fun hw => h ⟨hresult.1,hresult.2,hw⟩
  · cases hs : answerStart stats bytes with
    | leave r => trivial
    | again s =>
        exact descends_of_leaves (answerPass_leaves (answerStart_other hresult hs))

/-- Both readers return and take four bytes in each pass, exactly when the header of a
result does not come to `RPC_REQ_ERROR_WRAPPED`. -/
theorem readers_terminate_iff (stats : Stats) (bytes : Bytes) :
    ((∃ fuel r, tlfQueryHeader fuel stats bytes = some r) ∧
        Consumes queryPass (queryStart stats bytes) ∧
        (∃ fuel r, tlfQueryAnswerHeader fuel stats bytes = some r) ∧
        Consumes answerPass (answerStart stats bytes)) ↔
      ¬ AnswerWrapped bytes := by
  constructor
  · intro ⟨_,_,⟨fuel,r,hr⟩,_⟩ ⟨hlen,hop,hw⟩
    obtain ⟨s,hs,hsop,he,hu⟩ := answerStart_result stats hlen hop
    rw [tlfQueryAnswerHeader, hs] at hr
    exact answer_never_ends hw hu (by rw [hsop]; decide) he ⟨fuel,r,hr⟩
  · intro h
    have hquery := query_consumes stats bytes
    have hanswer := answer_consumes stats h
    exact ⟨returns_of_consumes hquery,hquery,returns_of_consumes hanswer,hanswer⟩

/-- A result with a number and `RPC_REQ_ERROR_WRAPPED` -/
def wrappedResult : Bytes := store4 rpcReqResult ++ List.replicate 8 0 ++ store4 rpcReqErrorWrapped

theorem wrapped_answer_never_returns :
    ¬ ∃ fuel r, tlfQueryAnswerHeader fuel {} wrappedResult = some r := by
  intro ⟨fuel,r,hr⟩
  obtain ⟨s,hs,hop,he,hu⟩ := answerStart_result {}
    (show 12 ≤ wrappedResult.length by decide) (by decide)
  rw [tlfQueryAnswerHeader, hs] at hr
  have hwrapped : WrappedAhead (wrappedResult.drop 12) := .here (by decide) (by decide)
  exact answer_never_ends hwrapped hu (by rw [hop]; decide) he ⟨fuel,r,hr⟩

end Teleproxy.TlQueryHeader
