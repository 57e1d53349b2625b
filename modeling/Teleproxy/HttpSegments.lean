import Teleproxy.HttpParse

/-!
# A query cut into segments

The parser is fed the blocks of a message one after another until it is done or has given
up. A pass over a block that is continued either stays inside the block, or takes the
whole of it and goes on as the next pass would at the state it reached, or ends with a
word that is too long either way. So where the bytes are cut does not matter, except for
the place at which a query that is in error is given up.
-/
namespace Teleproxy.HttpParse
open ClientInput (Bytes bytesOf)
open Scan (runWhile)
variable {d : HtsData} {xs ys : Bytes}

/-- How a pass `w` over `xs++ys` compares with the pass `r` over `xs`. -/
def Resumes (r w : HtsData × Bytes) (ys : Bytes) : Prop :=
  w = (r.1,r.2++ys) ∨
  (r.2 = [] ∧ r.1.parseState ≠ .fatal ∧ ¬Stopped r.1 ∧ w = iter r.1 ys) ∨
  (r.1.parseState = .fatal ∧ w.1.parseState = .fatal)

theorem resumes_of_empty {e : HtsData} {w : HtsData × Bytes} (state : ParseState)
    (he : e.parseState = state) (hgo : state ≠ .fatal ∧ state ≠ .done ∧ state ≠ .aborted)
    (hw : w = iter e ys) : Resumes (e,[]) w ys := by
  subst he
  exact .inr (.inl ⟨rfl,hgo.1,not_or.mpr hgo.2,hw⟩)

theorem parseState_storeChar (d : HtsData) (b : UInt8) :
    (d.storeChar b).parseState = d.parseState := rfl

theorem parseState_addByte (d : HtsData) (b : UInt8) :
    (d.addByte b).parseState = d.parseState := rfl

theorem parseState_addDigit (d : HtsData) (b : UInt8) :
    (d.addDigit b).parseState = d.parseState := rfl

section scans
variable {p : HtsData → UInt8 → Bool} {f : HtsData → UInt8 → HtsData}

theorem parseState_runWhile (hstate : ∀ e b, (f e b).parseState = e.parseState) (d : HtsData)
    (xs : Bytes) : (runWhile p f d xs).1.parseState = d.parseState :=
  Scan.runWhile_preserves (P := fun e => e.parseState = d.parseState)
    (fun e b _ h => (hstate e b).trans h) rfl xs

/-- A pass that begins with a loop over the block resumes if what follows the loop does,
at the end of the block and inside it. -/
theorem scan_resumes (after : HtsData → Bytes → HtsData × Bytes)
    (hstate : ∀ e b, (f e b).parseState = e.parseState)
    (hend : ∀ e, e.parseState = d.parseState →
      Resumes (after e []) (after (runWhile p f e ys).1 (runWhile p f e ys).2) ys)
    (hinside : ∀ e b r, Resumes (after e (b::r)) (after e (b::(r++ys))) ys) (xs : Bytes) :
    Resumes (after (runWhile p f d xs).1 (runWhile p f d xs).2)
      (after (runWhile p f d (xs++ys)).1 (runWhile p f d (xs++ys)).2) ys := by
  cases hrest : (runWhile p f d xs).2 with
  | nil =>
      rw [Scan.runWhile_append_of_nil hrest]
      exact hend _ (parseState_runWhile hstate d xs)
  | cons b r =>
      have hne : (runWhile p f d xs).2 ≠ [] := by simp [hrest]
      rw [Scan.runWhile_append_of_ne hne,hrest]
      exact hinside _ b r

theorem le_wlen (p : HtsData → UInt8 → Bool) (d : HtsData) (xs : Bytes) :
    d.wlen ≤ (runWhile p HtsData.storeChar d xs).1.wlen :=
  Scan.runWhile_preserves (P := fun e : HtsData => d.wlen ≤ e.wlen)
    (fun _ _ _ h => Nat.le_succ_of_le h) (Nat.le_refl _) xs

end scans

theorem readToSpace_resumes (hd : d.parseState = .readtospace) (xs ys : Bytes) :
    Resumes (readToSpace d xs) (readToSpace d (xs++ys)) ys := by
  apply scan_resumes afterWord parseState_storeChar
  · intro e he
    rw [hd] at he
    by_cases hlen : 4096 < e.wlen
    · have hlong := hlen.trans_le (le_wlen (fun _ b => 0x20 < b) e ys)
      rw [afterWord,afterWord,if_pos hlen,if_pos hlong]
      exact .inr (.inr ⟨rfl,rfl⟩)
    · rw [afterWord,if_neg hlen,if_pos rfl]
      apply resumes_of_empty _ he (by decide)
      rw [iter,he]
      rfl
  · intro e b r
    rw [afterWord,afterWord,if_neg (List.cons_ne_nil _ _),if_neg (List.cons_ne_nil _ _)]
    split_ifs
    · exact .inl rfl
    · exact .inl rfl

theorem readToColon_resumes (hd : d.parseState = .readtocolon) (xs ys : Bytes) :
    Resumes (readToColon d xs) (readToColon d (xs++ys)) ys := by
  apply scan_resumes afterName parseState_storeChar
  · intro e he
    rw [hd] at he
    by_cases hlen : 4096 < e.wlen
    · have hlong := hlen.trans_le (le_wlen isName e ys)
      rw [afterName,if_pos hlen]
      refine .inr (.inr ⟨rfl,?_⟩)
      cases (runWhile isName HtsData.storeChar e ys).2 with
      | nil => rw [afterName,if_pos hlong]
      | cons b r => rw [afterName,if_pos hlong]
    · rw [afterName,if_neg hlen]
      apply resumes_of_empty _ he (by decide)
      rw [iter,he]
      rfl
  · intro e b r
    rw [afterName,afterName]
    split_ifs
    · exact .inl rfl
    · exact .inl rfl
    · exact .inl rfl

theorem readInt_resumes (hd : d.parseState = .readint) (xs ys : Bytes) :
    Resumes (readInt d xs) (readInt d (xs++ys)) ys := by
  apply scan_resumes afterInt parseState_addDigit
  · intro e he
    rw [hd] at he
    apply resumes_of_empty _ he (by decide)
    rw [iter,he]
    rfl
  · intro e b r
    exact .inl rfl

/-- A loop that stops at the largest header takes nothing there. -/
theorem runWhile_full {p : HtsData → UInt8 → Bool} {f : HtsData → UInt8 → HtsData}
    (hp : ∀ e b, p e b = true → e.headerSize < maxHttpHeaderSize)
    (hd : maxHttpHeaderSize ≤ d.headerSize) (xs : Bytes) : runWhile p f d xs = (d,xs) := by
  apply Scan.runWhile_stopped
  intro b
  by_contra h
  have := hp d b (by simpa using h)
  omega

theorem isSpace_lt {d : HtsData} {b : UInt8} (h : isSpace d b = true) :
    d.headerSize < maxHttpHeaderSize := (of_decide_eq_true h).1

theorem inLine_lt {d : HtsData} {b : UInt8} (h : inLine d b = true) :
    d.headerSize < maxHttpHeaderSize := (of_decide_eq_true h).1

theorem skipSpc_resumes (hd : d.parseState = .skipspc ∨ d.parseState = .skipspctoeoln)
    (xs ys : Bytes) : Resumes (skipSpc d xs) (skipSpc d (xs++ys)) ys := by
  apply scan_resumes afterSpaces parseState_addByte
  · intro e he
    rw [← he] at hd
    by_cases hfull : maxHttpHeaderSize ≤ e.headerSize
    · rw [runWhile_full (fun _ _ => isSpace_lt) hfull,afterSpaces,afterSpaces,if_pos hfull,if_pos hfull]
      exact .inl rfl
    · rw [afterSpaces,if_neg hfull,if_pos rfl]
      rcases hd with h | h
      · apply resumes_of_empty _ h (by decide)
        rw [iter,h]
        rfl
      · apply resumes_of_empty _ h (by decide)
        rw [iter,h]
        rfl
  · intro e b r
    rw [afterSpaces,afterSpaces,if_neg (List.cons_ne_nil _ _),if_neg (List.cons_ne_nil _ _)]
    split_ifs
    · exact .inl rfl
    · exact .inl rfl

theorem lineStart_resumes (d : HtsData) (b : UInt8) (r ys : Bytes) :
    Resumes (lineStart d (b::r)) (lineStart d (b::(r++ys))) ys := by
  rw [lineStart,lineStart]
  split_ifs
  · exact .inl rfl
  · exact .inl rfl
  · exact .inl rfl
  · exact .inl rfl

theorem wantLf_resumes (d : HtsData) (b : UInt8) (r ys : Bytes) :
    Resumes (wantLf d (b::r)) (wantLf d (b::(r++ys))) ys := by
  rw [wantLf,wantLf]
  dsimp only
  split_ifs
  · exact .inl rfl
  · exact .inl rfl
  · exact .inl rfl
  · cases r with
    | nil =>
        exact resumes_of_empty .linestart rfl (by decide) rfl
    | cons c r => exact lineStart_resumes _ c r ys

theorem eoln_resumes (d : HtsData) (b : UInt8) (r ys : Bytes) :
    Resumes (eoln d (b::r)) (eoln d (b::(r++ys))) ys := by
  rw [eoln,eoln]
  split_ifs
  · cases r with
    | nil =>
        exact resumes_of_empty .wantlf rfl (by decide) rfl
    | cons c r => exact wantLf_resumes _ c r ys
  · exact wantLf_resumes _ b r ys

theorem skipToEoln_resumes (hd : d.parseState = .skiptoeoln) (xs ys : Bytes) :
    Resumes (skipToEoln d xs) (skipToEoln d (xs++ys)) ys := by
  apply scan_resumes afterLine parseState_addByte
  · intro e he
    rw [hd] at he
    by_cases hfull : maxHttpHeaderSize ≤ e.headerSize
    · rw [runWhile_full (fun _ _ => inLine_lt) hfull,afterLine,afterLine,if_pos hfull,if_pos hfull]
      exact .inl rfl
    · rw [afterLine,if_neg hfull,if_pos rfl]
      apply resumes_of_empty _ he (by decide)
      rw [iter,he]
      rfl
  · intro e b r
    rw [afterLine,afterLine,if_neg (List.cons_ne_nil _ _),if_neg (List.cons_ne_nil _ _)]
    split_ifs
    · exact .inl rfl
    · exact eoln_resumes _ b r ys

theorem wantLastLf_resumes (d : HtsData) (b : UInt8) (r ys : Bytes) :
    Resumes (wantLastLf d (b::r)) (wantLastLf d (b::(r++ys))) ys := by
  rw [wantLastLf,wantLastLf]
  split_ifs
  · exact .inl rfl
  · exact .inl rfl

theorem iter_resumes (hxs : xs ≠ []) (hd : ¬Stopped d) (ys : Bytes) :
    Resumes (iter d xs) (iter d (xs++ys)) ys := by
  obtain ⟨b,r,rfl⟩ := List.exists_cons_of_ne_nil hxs
  rw [iter,iter]
  cases h : d.parseState with
  | start => exact readToSpace_resumes (d := restart d) rfl _ ys
  | readtospace => exact readToSpace_resumes h _ ys
  | skipspc => exact skipSpc_resumes (.inl h) _ ys
  | skipspctoeoln => exact skipSpc_resumes (.inr h) _ ys
  | readtocolon => exact readToColon_resumes h _ ys
  | readint => exact readInt_resumes h _ ys
  | skiptoeoln => exact skipToEoln_resumes h _ ys
  | eoln => exact eoln_resumes d b r ys
  | wantlf => exact wantLf_resumes d b r ys
  | linestart => exact lineStart_resumes d b r ys
  | wantlastlf => exact wantLastLf_resumes d b r ys
  | fatal => exact .inl rfl
  | done => exact absurd (.inl h) hd
  | aborted => exact absurd (.inr h) hd

/-- Given up, or done with an error. -/
def IsError (d : HtsData) : Prop :=
  d.parseState = .fatal ∨ (d.parseState = .done ∧ d.queryFlags.error = true)

theorem httpParseData_nil (d : HtsData) : httpParseData d [] = (d,[]) := by
  rw [httpParseData,dif_neg (fun h => h.1 rfl)]

theorem httpParseData_of_stopped (hd : Stopped d) (xs : Bytes) : httpParseData d xs = (d,xs) := by
  rw [httpParseData,dif_neg (fun h => h.2 hd)]

theorem httpParseData_iter (hxs : xs ≠ []) (hd : ¬Stopped d) :
    httpParseData d xs = httpParseData (iter d xs).1 (iter d xs).2 := by
  rw [httpParseData,dif_pos ⟨hxs,hd⟩]

theorem isError_of_fatal (hd : d.parseState = .fatal) (xs : Bytes) :
    IsError (httpParseData d xs).1 := by
  by_cases hxs : xs = []
  · rw [hxs,httpParseData_nil]
    exact .inl hd
  · have hiter : iter d xs = (d.fail .done,xs) := by rw [iter,hd]
    rw [httpParseData_iter hxs (by simp [Stopped,hd]),hiter,httpParseData_of_stopped (.inl rfl)]
    exact .inr ⟨rfl,rfl⟩

/-- How the parse `w` of `xs++ys` compares with the parse `g` of `xs`. -/
def Continues (g w : HtsData × Bytes) (ys : Bytes) : Prop :=
  (Stopped g.1 ∧ w = (g.1,g.2++ys)) ∨
  (¬Stopped g.1 ∧ g.1.parseState ≠ .fatal ∧ g.2 = [] ∧ w = httpParseData g.1 ys) ∨
  (IsError g.1 ∧ IsError w.1)

theorem continues_of_nil (d : HtsData) (ys : Bytes) : Continues (d,[]) (httpParseData d ys) ys := by
  by_cases hd : Stopped d
  · exact .inl ⟨hd,httpParseData_of_stopped hd ys⟩
  · by_cases hfatal : d.parseState = .fatal
    · exact .inr (.inr ⟨.inl hfatal,isError_of_fatal hfatal ys⟩)
    · exact .inr (.inl ⟨hd,hfatal,rfl,rfl⟩)

/-- A parser that goes on has taken the whole block. -/
theorem httpParseData_rest (h : ¬Stopped (httpParseData d xs).1) : (httpParseData d xs).2 = [] := by
  induction d, xs using httpParseData.induct with
  | case1 d xs hgo ih =>
      rw [httpParseData_iter hgo.1 hgo.2] at h ⊢
      exact ih h
  | case2 d xs hend =>
      rw [httpParseData,dif_neg hend] at h ⊢
      by_contra hne
      exact hend ⟨hne,h⟩

theorem continues_self (d : HtsData) (xs : Bytes) :
    Continues (httpParseData d xs) (httpParseData d xs) [] := by
  by_cases hstop : Stopped (httpParseData d xs).1
  · refine .inl ⟨hstop,?_⟩
    rw [List.append_nil]
  · have hrest := httpParseData_rest hstop
    have hall : httpParseData d xs = ((httpParseData d xs).1,[]) := Prod.ext rfl hrest
    have hnil := continues_of_nil (httpParseData d xs).1 []
    rwa [httpParseData_nil,← hall] at hnil

/-- A block that is continued is read like the block, and then what continues it. -/
theorem httpParseData_append (d : HtsData) (xs ys : Bytes) :
    Continues (httpParseData d xs) (httpParseData d (xs++ys)) ys := by
  by_cases hys : ys = []
  · rw [hys,List.append_nil]
    exact continues_self d xs
  induction h : size d xs using Nat.strong_induction_on generalizing d xs with
  | h n ih =>
      by_cases hxs : xs = []
      · rw [hxs,httpParseData_nil]
        exact continues_of_nil d ys
      by_cases hd : Stopped d
      · rw [httpParseData_of_stopped hd,httpParseData_of_stopped hd]
        exact .inl ⟨hd,rfl⟩
      have hsize := size_iter hxs hd
      have hxsys : xs++ys ≠ [] := List.append_ne_nil_of_left_ne_nil hxs ys
      rw [httpParseData_iter hxs hd,httpParseData_iter hxsys hd]
      rcases iter_resumes hxs hd ys with hw | ⟨hnil,hfatal,hrun,hw⟩ | ⟨hr,hw⟩
      · rw [hw]
        exact ih _ (h ▸ hsize) _ _ rfl
      · rw [hnil,httpParseData_nil]
        rw [hw,← httpParseData_iter hys hrun]
        exact continues_of_nil _ ys
      · exact .inr (.inr ⟨isError_of_fatal hr _,isError_of_fatal hw _⟩)

/-- What the two assertions of the parser ask for, and the states that lead to them. -/
def Ready (d : HtsData) : Prop :=
  match d.parseState with
  | .readtospace => d.queryWords < 3 ∨ d.queryFlags.host = true ∨ d.queryFlags.connection = true
  | .skipspc => d.queryWords ≠ 3
  | .readtocolon | .linestart => 8 ≤ d.queryWords
  | .aborted => False
  | _ => True

theorem ready_endWord (hd : d.parseState = .readtospace) (h : Ready d) : Ready (endWord d) := by
  have hready : d.queryWords < 3 ∨ d.queryFlags.host = true ∨ d.queryFlags.connection = true := by
    rwa [Ready,hd] at h
  rw [endWord]
  dsimp only
  split_ifs with h1 h2 h3
  · rw [firstWord]
    split_ifs <;> simp [Ready,HtsData.fail,h1]
  · rw [secondWord]
    dsimp only
    split_ifs <;> simp [Ready,HtsData.fail,h2]
  · rw [thirdWord]
    dsimp only
    split_ifs <;> simp [Ready,HtsData.fail]
  · rw [laterWord,if_neg]
    · simp [Ready]
    · rintro ⟨hhost,hconn⟩
      dsimp only at h1 h2 h3 hhost hconn
      rw [hhost,hconn] at hready
      simp at hready
      omega

theorem ready_endSpaces (hd : d.parseState = .skipspc ∨ d.parseState = .skipspctoeoln)
    (h : Ready d) : Ready (endSpaces d) := by
  rw [endSpaces]
  split_ifs with h1 h2 h3 h4 h5 h6
  · simp [Ready]
  · exact .inl h2
  · rw [Ready,hd.resolve_right h1] at h
    exact absurd (by omega) h
  · simp [Ready,HtsData.fail]
  · simp [Ready]
  · exact .inr h6
  · simp [Ready]

theorem ready_runWhile {p : HtsData → UInt8 → Bool} {f : HtsData → UInt8 → HtsData}
    (hstep : ∀ e b, Ready e → Ready (f e b)) (h : Ready d) (xs : Bytes) :
    Ready (runWhile p f d xs).1 :=
  Scan.runWhile_preserves (fun e b _ he => hstep e b he) h xs

theorem ready_lineStart (h : 8 ≤ d.queryWords) (hd : d.parseState = .linestart) (xs : Bytes) :
    Ready (lineStart d xs).1 := by
  have hwords : 8 ≤ d.endFirstLine.queryWords := by
    rw [HtsData.endFirstLine]
    split_ifs <;> exact h
  cases xs with
  | nil => rwa [lineStart,Ready,hd]
  | cons b r =>
      rw [lineStart]
      split_ifs
      · simp [Ready]
      · simp [Ready]
      · simp [Ready]
      · simpa [Ready] using hwords

theorem ready_wantLf (hd : d.parseState = .wantlf) (xs : Bytes) : Ready (wantLf d xs).1 := by
  cases xs with
  | nil => simp [wantLf,Ready,hd]
  | cons b r =>
      rw [wantLf]
      dsimp only
      split_ifs
      · simp [Ready]
      · simp [Ready]
      · simp [Ready,HtsData.fail]
      · apply ready_lineStart
        · dsimp only [HtsData.countLine]
          split_ifs <;> omega
        · rfl

theorem ready_eoln (hd : d.parseState = .eoln) (xs : Bytes) : Ready (eoln d xs).1 := by
  cases xs with
  | nil => simp [eoln,Ready,hd]
  | cons b r =>
      rw [eoln]
      split_ifs
      · exact ready_wantLf rfl r
      · exact ready_wantLf rfl (b::r)

theorem ready_readToSpace (hd : d.parseState = .readtospace) (h : Ready d) (xs : Bytes) :
    Ready (readToSpace d xs).1 := by
  have hscan := ready_runWhile (p := fun _ b => 0x20 < b) (f := HtsData.storeChar)
    (fun _ _ h => h) h xs
  have hstate := (parseState_runWhile (p := fun _ b => 0x20 < b) parseState_storeChar d xs).trans hd
  rw [readToSpace,afterWord]
  split_ifs
  · simp [Ready]
  · exact hscan
  · exact ready_endWord hstate hscan

theorem ready_skipSpc (hd : d.parseState = .skipspc ∨ d.parseState = .skipspctoeoln) (h : Ready d)
    (xs : Bytes) : Ready (skipSpc d xs).1 := by
  have hscan := ready_runWhile (p := isSpace) (f := HtsData.addByte) (fun _ _ h => h) h xs
  rw [← parseState_runWhile (p := isSpace) parseState_addByte d xs] at hd
  rw [skipSpc,afterSpaces]
  split_ifs
  · simp [Ready]
  · exact hscan
  · exact ready_endSpaces hd hscan

theorem ready_readToColon (hd : d.parseState = .readtocolon) (h : Ready d) (xs : Bytes) :
    Ready (readToColon d xs).1 := by
  have hscan := ready_runWhile (p := isName) (f := HtsData.storeChar) (fun _ _ h => h) h xs
  have hstate := (parseState_runWhile (p := isName) parseState_storeChar d xs).trans hd
  rw [readToColon]
  cases (runWhile isName HtsData.storeChar d xs).2 with
  | nil =>
      rw [afterName]
      split_ifs
      · simp [Ready]
      · exact hscan
  | cons b r =>
      rw [afterName]
      split_ifs
      · simp [Ready]
      · simp [Ready,HtsData.fail]
      · rw [Ready,hstate] at hscan
        show _ ≠ 3
        dsimp only [endName] at hscan ⊢
        omega

theorem ready_readInt (hd : d.parseState = .readint) (xs : Bytes) : Ready (readInt d xs).1 := by
  have hstate := (parseState_runWhile (p := inNumber) parseState_addDigit d xs).trans hd
  rw [readInt]
  cases (runWhile inNumber HtsData.addDigit d xs).2 with
  | nil => simp [afterInt,Ready,hstate]
  | cons b r =>
      simp only [afterInt,endInt]
      split_ifs <;> simp [Ready,HtsData.fail]

theorem ready_skipToEoln (hd : d.parseState = .skiptoeoln) (xs : Bytes) :
    Ready (skipToEoln d xs).1 := by
  have hstate := (parseState_runWhile (p := inLine) parseState_addByte d xs).trans hd
  rw [skipToEoln,afterLine]
  split_ifs
  · simp [Ready]
  · simp [Ready,hstate]
  · exact ready_eoln rfl _

theorem ready_wantLastLf (hd : d.parseState = .wantlastlf) (xs : Bytes) :
    Ready (wantLastLf d xs).1 := by
  cases xs with
  | nil => simp [wantLastLf,Ready,hd]
  | cons b r =>
      rw [wantLastLf]
      split_ifs <;> simp [Ready]

theorem ready_iter (h : Ready d) (xs : Bytes) : Ready (iter d xs).1 := by
  rw [iter]
  cases hd : d.parseState with
  | start => exact ready_readToSpace (d := restart d) rfl (.inl (by decide : 0 < 3)) xs
  | readtospace => exact ready_readToSpace hd h xs
  | skipspc => exact ready_skipSpc (.inl hd) h xs
  | skipspctoeoln => exact ready_skipSpc (.inr hd) h xs
  | readtocolon => exact ready_readToColon hd h xs
  | readint => exact ready_readInt hd xs
  | skiptoeoln => exact ready_skipToEoln hd xs
  | eoln => exact ready_eoln hd xs
  | wantlf => exact ready_wantLf hd xs
  | linestart =>
      rw [Ready,hd] at h
      exact ready_lineStart h hd xs
  | wantlastlf => exact ready_wantLastLf hd xs
  | fatal => simp [Ready,HtsData.fail]
  | done => exact h
  | aborted => exact h

theorem ready_httpParseData (h : Ready d) (xs : Bytes) : Ready (httpParseData d xs).1 := by
  induction d, xs using httpParseData.induct with
  | case1 d xs hgo ih =>
      rw [httpParseData_iter hgo.1 hgo.2]
      exact ih (ready_iter h xs)
  | case2 d xs hend => rwa [httpParseData,dif_neg hend]

/-- The blocks one after another, until the parser is done or has given up; with the
number of bytes it has taken. -/
def feed (d : HtsData) (taken : ℕ) : List Bytes → HtsData × ℕ
  | [] => (d,taken)
  | seg::segs =>
      if Stopped d ∨ d.parseState = .fatal then (d,taken)
      else
        let r := httpParseData d seg
        feed r.1 (taken+(seg.length-r.2.length)) segs

theorem feed_of_halted (hd : Stopped d ∨ d.parseState = .fatal) (taken : ℕ) (segs : List Bytes) :
    feed d taken segs = (d,taken) := by
  cases segs with
  | nil => rfl
  | cons seg segs => rw [feed,if_pos hd]

theorem halted_of_isError (hd : IsError d) : Stopped d ∨ d.parseState = .fatal := by
  rcases hd with h | ⟨h,-⟩
  · exact .inr h
  · exact .inl (.inl h)

theorem length_httpParseData (d : HtsData) (xs : Bytes) :
    (httpParseData d xs).2.length ≤ xs.length := by
  induction d, xs using httpParseData.induct with
  | case1 d xs hgo ih =>
      rw [httpParseData_iter hgo.1 hgo.2]
      rcases iter_shrinks hgo.1 hgo.2 with h | ⟨h,-⟩
      · omega
      · rwa [h] at ih ⊢
  | case2 d xs hend =>
      rw [httpParseData,dif_neg hend]

/-- Segments are read like the bytes in one block, up to the place where a query in error
is given up. -/
theorem feed_flatten (hd : ¬Stopped d) (hfatal : d.parseState ≠ .fatal) (taken : ℕ)
    (segs : List Bytes) :
    feed d taken segs = ((httpParseData d segs.flatten).1,
      taken+(segs.flatten.length-(httpParseData d segs.flatten).2.length)) ∨
    (IsError (feed d taken segs).1 ∧ IsError (httpParseData d segs.flatten).1) := by
  induction segs generalizing d taken with
  | nil =>
      rw [List.flatten_nil,httpParseData_nil]
      exact .inl rfl
  | cons seg segs ih =>
      have hle := length_httpParseData d seg
      have hle' := length_httpParseData (httpParseData d seg).1 segs.flatten
      rw [feed,if_neg (not_or.mpr ⟨hd,hfatal⟩),List.flatten_cons,List.length_append]
      dsimp only
      rcases httpParseData_append d seg segs.flatten with ⟨hstop,hw⟩ | ⟨hrun,hgo,hnil,hw⟩ | ⟨hg,hw⟩
      · left
        rw [hw,feed_of_halted (.inl hstop),List.length_append]
        congr 1
        omega
      · rw [hw,hnil]
        rcases ih hrun hgo (taken+seg.length) with h | h
        · left
          rw [List.length_nil,Nat.sub_zero,h]
          congr 1
          omega
        · exact .inr h
      · right
        rw [feed_of_halted (halted_of_isError hg)]
        exact ⟨hg,hw⟩

theorem ready_feed (h : Ready d) (taken : ℕ) (segs : List Bytes) : Ready (feed d taken segs).1 := by
  induction segs generalizing d taken with
  | nil => exact h
  | cons seg segs ih =>
      rw [feed]
      split_ifs
      · exact h
      · exact ih (ready_httpParseData h seg) _

/-- What the caller learns: an error, that more bytes are wanted, or the query with the
number of bytes it has taken. -/
inductive Outcome where
  | error | needMore | done (query : HtsData) (taken : ℕ) | aborted
  deriving DecidableEq, Repr

def outcome (r : HtsData × ℕ) : Outcome :=
  match r.1.parseState with
  | .fatal => .error
  | .done => if r.1.queryFlags.error then .error else .done r.1 r.2
  | .aborted => .aborted
  | _ => .needMore

theorem outcome_of_isError {r : HtsData × ℕ} (h : IsError r.1) : outcome r = .error := by
  rcases h with h | ⟨h,herror⟩
  · rw [outcome,h]
  · simp [outcome,h,herror]

theorem outcome_ne_aborted {r : HtsData × ℕ} (h : Ready r.1) : outcome r ≠ .aborted := by
  intro habort
  rw [outcome] at habort
  split at habort
  · cases habort
  · split_ifs at habort
  · next hstate => rwa [Ready,hstate] at h
  · cases habort

theorem outcome_feed (hd : d.parseState = .start) (segs : List Bytes) :
    outcome (feed d 0 segs) = outcome ((httpParseData d segs.flatten).1,
      segs.flatten.length-(httpParseData d segs.flatten).2.length) := by
  rcases feed_flatten (d := d) (by simp [Stopped,hd]) (by simp [hd]) 0 segs with h | ⟨hfeed,hflat⟩
  · rw [h,Nat.zero_add]
  · rw [outcome_of_isError hfeed,outcome_of_isError hflat]

/-- However a stream of bytes is cut into segments, the parser ends alike: with an error,
wanting more, or with the same query and the same number of bytes taken. No assertion
fails on the way. -/
theorem segmentation_irrelevant (d : HtsData) (hd : d.parseState = .start) (segs segs' : List Bytes)
    (h : segs.flatten = segs'.flatten) :
    outcome (feed d 0 segs) = outcome (feed d 0 segs') ∧ outcome (feed d 0 segs) ≠ .aborted := by
  refine ⟨?_,outcome_ne_aborted (ready_feed (by simp [Ready,hd]) 0 segs)⟩
  rw [outcome_feed hd,outcome_feed hd,h]

/-- A query that is cut in the middle of `\r\n` and one that is cut in a name, followed by
two more bytes. -/
theorem segmentation_irrelevant_sample :
    (feed {} 0 [bytesOf "GET / HTTP/1.1\r",bytesOf "\nHost: a\r\n\r\nxx"]).1.parseState = .done ∧
    (feed {} 0 [bytesOf "GET / HTTP/1.1\r",bytesOf "\nHost: a\r\n\r\nxx"]).2 = 27 ∧
    outcome (feed {} 0 [bytesOf "GET / HTTP/1.1\r",bytesOf "\nHost: a\r\n\r\nxx"]) =
      outcome (feed {} 0 [bytesOf "GET / HTTP/1.1\r\nHo",bytesOf "st: a\r\n\r\nxx"]) ∧
    outcome (feed {} 0 [bytesOf "GET / HTTP/1.1\r",bytesOf "\nHost: a\r\n\r\nxx"]) ≠ .aborted :=
  ⟨by decide +kernel,by decide +kernel,segmentation_irrelevant {} rfl _ _ (by decide)⟩

end Teleproxy.HttpParse
