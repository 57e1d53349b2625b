import Teleproxy.HttpSegments
import Teleproxy.Lib.Loop

/-!
# Where the parts of an HTTP header are

The executors of an HTTP query copy its URI and its host out of the message, at the
offsets that `http_parse_data` leaves in `struct hts_data`. `header_size` counts bytes at
different moments: most of them one by one, those of a word when the word ends. Here the
counters are compared with the bytes that the parser has taken, and the offsets with the
words that stand in them.
-/
namespace Teleproxy.HttpParse
open ClientInput (Bytes bytesOf)
open Scan (runWhile runWhile_traces)
variable {d : HtsData}

/-- A pass over `data` that begins with `P` behind the bytes `seen` ends so behind some
more of them; `later` is what comes behind the block. -/
def Moves (P : HtsData → Bytes → Bytes → Prop) (later seen data : Bytes) (r : HtsData × Bytes) :
    Prop := ∃ used, data = used++r.2 ∧ P r.1 (seen++used) (r.2++later)

section moves
variable {P : HtsData → Bytes → Bytes → Prop} {later seen data : Bytes} {r : HtsData × Bytes}

theorem moves_none (h : P d seen (data++later)) : Moves P later seen data (d,data) :=
  ⟨[],rfl,by rwa [List.append_nil]⟩

theorem moves_one {b : UInt8} (h : P d (seen++[b]) (data++later)) :
    Moves P later seen (b::data) (d,data) := ⟨[b],rfl,h⟩

theorem Moves.cons {b : UInt8} (h : Moves P later (seen++[b]) data r) :
    Moves P later seen (b::data) r := by
  obtain ⟨used,rfl,hr⟩ := h
  exact ⟨b::used,rfl,by rwa [List.append_assoc] at hr⟩

/-- A pass that begins with a loop over the block. -/
theorem moves_scan {p : HtsData → UInt8 → Bool} {f : HtsData → UInt8 → HtsData}
    {Q : HtsData → Bytes → Bytes → Prop} {after : HtsData → Bytes → HtsData × Bytes}
    (hstep : ∀ e seen b rest, p e b = true → Q e seen (b::rest) → Q (f e b) (seen++[b]) rest)
    (hafter : ∀ e seen rest, Q e seen (rest++later) → (∀ b r, rest = b::r → p e b = false) →
      Moves P later seen rest (after e rest))
    (hd : Q d seen (data++later)) :
    Moves P later seen data (after (runWhile p f d data).1 (runWhile p f d data).2) := by
  obtain ⟨used,hused,hQ⟩ := runWhile_traces (P := fun e seen rest => Q e seen (rest++later))
    (fun e seen b rest hp hQ => hstep e seen b (rest++later) hp hQ) (p := p) (f := f) hd
  obtain ⟨more,hmore,hP⟩ := hafter _ _ _ hQ fun b r hr => Scan.runWhile_head hr
  refine ⟨used++more,?_,by rwa [← List.append_assoc]⟩
  rw [List.append_assoc,← hmore,← hused]

end moves

/-- How `header_size` stands to the number of bytes taken since the start. -/
def Sized (d : HtsData) (n : ℕ) : Prop :=
  match d.parseState with
  | .start => n = 0
  | .readtospace | .readtocolon => d.headerSize+d.wlen = n
  | .fatal => d.headerSize ≤ n
  | .done => d.headerSize ≤ n ∧ (d.queryFlags.error = false → d.headerSize = n)
  | _ => d.headerSize = n

section sized
variable {later seen data : Bytes}

/-- The invariant, as one of the state and the bytes. -/
def SizedAt (d : HtsData) (seen _rest : Bytes) : Prop := Sized d seen.length

/-- A word is counted when it ends. -/
theorem headerSize_endWord (d : HtsData) : (endWord d).headerSize = d.headerSize+d.wlen := by
  have hfirst (e : HtsData) : (firstWord e).headerSize = e.headerSize ∧ (firstWord e).wlen = e.wlen := by
    rw [firstWord]
    split_ifs <;> exact ⟨rfl,rfl⟩
  have hsecond (e : HtsData) : (secondWord e).headerSize = e.headerSize ∧
      (secondWord e).wlen = e.wlen := by
    rw [secondWord]
    dsimp only
    split_ifs <;> exact ⟨rfl,rfl⟩
  have hthird (e : HtsData) : (thirdWord e).headerSize = e.headerSize ∧ (thirdWord e).wlen = e.wlen := by
    rw [thirdWord]
    dsimp only
    split_ifs <;> exact ⟨rfl,rfl⟩
  have hlater (e : HtsData) : (laterWord e).headerSize = e.headerSize ∧ (laterWord e).wlen = e.wlen := by
    rw [laterWord]
    dsimp only
    split_ifs <;> exact ⟨rfl,rfl⟩
  rw [endWord]
  dsimp only
  split_ifs
  · rw [(hfirst _).1,(hfirst _).2]
  · rw [(hsecond _).1,(hsecond _).2]
  · rw [(hthird _).1,(hthird _).2]
  · rw [(hlater _).1,(hlater _).2]

theorem sized_endWord {n : ℕ} (h : d.headerSize+d.wlen = n) : Sized (endWord d) n := by
  have hsize := (headerSize_endWord d).trans h
  rcases endWord_cases d with hs | hs | hs | ⟨hs,-⟩
  · rwa [Sized,hs]
  · rwa [Sized,hs]
  · rwa [Sized,hs]
  · rwa [Sized,hs]

/-- Inside a word its bytes are not counted yet. -/
def InWord (d : HtsData) (seen _rest : Bytes) : Prop :=
  d.headerSize+d.wlen = seen.length

theorem inWord_storeChar {b : UInt8} {rest : Bytes} (h : InWord d seen rest) :
    InWord (d.storeChar b) (seen++[b]) data := by
  simp only [InWord,HtsData.storeChar,List.length_append,List.length_singleton] at h ⊢
  omega

theorem sized_readToSpace (hd : d.parseState = .readtospace) (h : InWord d seen data) :
    Moves SizedAt later seen data (readToSpace d data) := by
  apply moves_scan (Q := fun e seen rest => e.parseState = .readtospace ∧ InWord e seen rest)
  · intro e seen b rest _ he
    exact ⟨he.1,inWord_storeChar he.2⟩
  · intro e seen rest he _
    rw [afterWord]
    split_ifs
    · exact moves_none (Nat.le_of_add_right_le he.2.le)
    · apply moves_none
      rw [SizedAt,Sized,he.1]
      exact he.2
    · exact moves_none (sized_endWord he.2)
  · exact ⟨hd,h⟩

theorem sized_endSpaces {n : ℕ} (h : d.headerSize = n) : Sized (endSpaces d) n := by
  rw [endSpaces]
  split_ifs
  · exact h
  · exact h
  · exact h
  · exact h
  · exact h
  · exact h
  · exact h

/-- Elsewhere a byte is counted when it is taken. -/
def InStep (d : HtsData) (seen _rest : Bytes) : Prop := d.headerSize = seen.length

theorem inStep_succ {rest : Bytes} (h : InStep d seen rest) (b : UInt8) :
    d.headerSize+1 = (seen++[b]).length := by
  rw [List.length_append,List.length_singleton]
  exact congrArg (·+1) h

theorem sized_skipSpc (hd : d.parseState = .skipspc ∨ d.parseState = .skipspctoeoln)
    (h : InStep d seen data) : Moves SizedAt later seen data (skipSpc d data) := by
  apply moves_scan (Q := fun e seen rest =>
    (e.parseState = .skipspc ∨ e.parseState = .skipspctoeoln) ∧ InStep e seen rest)
  · intro e seen b rest _ he
    exact ⟨he.1,inStep_succ he.2 b⟩
  · intro e seen rest he _
    rw [afterSpaces]
    split_ifs
    · exact moves_none he.2.le
    · apply moves_none
      rw [SizedAt,Sized]
      rcases he.1 with hs | hs
      · rw [hs]
        exact he.2
      · rw [hs]
        exact he.2
    · exact moves_none (sized_endSpaces he.2)
  · exact ⟨hd,h⟩

theorem sized_readToColon (hd : d.parseState = .readtocolon) (h : InWord d seen data) :
    Moves SizedAt later seen data (readToColon d data) := by
  apply moves_scan (Q := fun e seen rest => e.parseState = .readtocolon ∧ InWord e seen rest)
  · intro e seen b rest _ he
    exact ⟨he.1,inWord_storeChar he.2⟩
  · intro e seen rest he _
    have hle : e.headerSize ≤ seen.length := Nat.le_of_add_right_le he.2.le
    cases rest with
    | nil =>
        apply moves_none
        split_ifs
        · exact hle
        · rw [SizedAt,Sized,he.1]
          exact he.2
    | cons b r =>
        rw [afterName]
        split_ifs
        · exact moves_none hle
        · exact moves_none he.2
        · apply moves_one
          have hsize := he.2
          simp only [InWord] at hsize
          simp only [SizedAt,Sized,endName,List.length_append,List.length_singleton]
          omega
  · exact ⟨hd,h⟩

theorem sized_readInt (hd : d.parseState = .readint) (h : InStep d seen data) :
    Moves SizedAt later seen data (readInt d data) := by
  apply moves_scan (Q := fun e seen rest => e.parseState = .readint ∧ InStep e seen rest)
  · intro e seen b rest _ he
    exact ⟨he.1,inStep_succ he.2 b⟩
  · intro e seen rest he _
    cases rest with
    | nil =>
        apply moves_none
        rw [SizedAt,Sized,he.1]
        exact he.2
    | cons b r =>
        apply moves_none
        simp only [endInt]
        split_ifs <;> exact he.2
  · exact ⟨hd,h⟩

theorem headerSize_endFirstLine (d : HtsData) : d.endFirstLine.headerSize = d.headerSize := by
  rw [HtsData.endFirstLine]
  split_ifs <;> rfl

theorem sized_lineStart (hd : d.parseState = .linestart) (h : InStep d seen data) :
    Moves SizedAt later seen data (lineStart d data) := by
  cases data with
  | nil =>
      apply moves_none
      rw [SizedAt,Sized,hd]
      exact h
  | cons b r =>
      have hsize : d.endFirstLine.headerSize = seen.length := (headerSize_endFirstLine d).trans h
      rw [lineStart]
      split_ifs
      · apply moves_one
        simp [SizedAt,Sized,hsize]
      · exact moves_none hsize
      · exact moves_none hsize
      · exact moves_none hsize

theorem sized_wantLf (hd : d.parseState = .wantlf) (h : InStep d seen data) :
    Moves SizedAt later seen data (wantLf d data) := by
  cases data with
  | nil =>
      apply moves_none
      rw [SizedAt,Sized,hd]
      exact h
  | cons b r =>
      rw [wantLf]
      dsimp only
      split_ifs
      · exact moves_none h.le
      · exact moves_none h
      · exact moves_none h
      · apply Moves.cons
        exact sized_lineStart rfl (inStep_succ h b)

theorem sized_eoln (hd : d.parseState = .eoln) (h : InStep d seen data) :
    Moves SizedAt later seen data (eoln d data) := by
  cases data with
  | nil =>
      apply moves_none
      rw [SizedAt,Sized,hd]
      exact h
  | cons b r =>
      rw [eoln]
      split_ifs
      · apply Moves.cons
        exact sized_wantLf rfl (inStep_succ h b)
      · exact sized_wantLf rfl h

theorem sized_skipToEoln (hd : d.parseState = .skiptoeoln) (h : InStep d seen data) :
    Moves SizedAt later seen data (skipToEoln d data) := by
  apply moves_scan (Q := fun e seen rest => e.parseState = .skiptoeoln ∧ InStep e seen rest)
  · intro e seen b rest _ he
    exact ⟨he.1,inStep_succ he.2 b⟩
  · intro e seen rest he _
    rw [afterLine]
    split_ifs
    · exact moves_none he.2.le
    · apply moves_none
      rw [SizedAt,Sized,he.1]
      exact he.2
    · exact sized_eoln rfl he.2
  · exact ⟨hd,h⟩

theorem sized_wantLastLf (hd : d.parseState = .wantlastlf) (h : InStep d seen data) :
    Moves SizedAt later seen data (wantLastLf d data) := by
  cases data with
  | nil =>
      apply moves_none
      rw [SizedAt,Sized,hd]
      exact h
  | cons b r =>
      rw [wantLastLf]
      split_ifs
      · exact moves_none h.le
      · apply moves_one
        have hsize : ({d with headerSize := d.headerSize+1}.endFirstLine).headerSize =
            (seen++[b]).length := (headerSize_endFirstLine _).trans (inStep_succ h b)
        exact ⟨hsize.le,fun _ => hsize⟩

theorem sized_iter (h : SizedAt d seen data) : Moves SizedAt later seen data (iter d data) := by
  rw [SizedAt,Sized] at h
  rw [iter]
  cases hd : d.parseState with
  | start =>
      rw [hd] at h
      exact sized_readToSpace (d := restart d) rfl h.symm
  | readtospace =>
      rw [hd] at h
      exact sized_readToSpace hd h
  | skipspc =>
      rw [hd] at h
      exact sized_skipSpc (.inl hd) h
  | skipspctoeoln =>
      rw [hd] at h
      exact sized_skipSpc (.inr hd) h
  | readtocolon =>
      rw [hd] at h
      exact sized_readToColon hd h
  | readint =>
      rw [hd] at h
      exact sized_readInt hd h
  | skiptoeoln =>
      rw [hd] at h
      exact sized_skipToEoln hd h
  | eoln =>
      rw [hd] at h
      exact sized_eoln hd h
  | wantlf =>
      rw [hd] at h
      exact sized_wantLf hd h
  | linestart =>
      rw [hd] at h
      exact sized_lineStart hd h
  | wantlastlf =>
      rw [hd] at h
      exact sized_wantLastLf hd h
  | fatal =>
      rw [hd] at h
      apply moves_none
      exact ⟨h,fun herror => absurd herror (by simp [HtsData.fail])⟩
  | done =>
      rw [hd] at h
      apply moves_none
      rwa [SizedAt,Sized,hd]
  | aborted =>
      rw [hd] at h
      apply moves_none
      rwa [SizedAt,Sized,hd]

end sized

def isWord (b : UInt8) : Bool := 0x20 < b

def isBlank (b : UInt8) : Bool := b = 0x20 ∨ b = 0x09

/-- The first line, without the line feed. -/
def firstLine (header : Bytes) : Bytes := header.takeWhile (· ≠ 0x0a)

/-- Where the second word of a line begins, and its size. -/
def secondWordOf (line : Bytes) : ℕ × ℕ :=
  let first := (line.takeWhile isWord).length
  let offset := first+((line.drop first).takeWhile (!isWord ·)).length
  (offset,((line.drop offset).takeWhile isWord).length)

/-- Where the first word behind `Host:` begins, and its size, for a line that begins so
and has such a word. -/
def hostValue (line : Bytes) : Option (ℕ × ℕ) :=
  if (line.take 5).map toLower = bytesOf "host:" then
    let offset := 5+((line.drop 5).takeWhile isBlank).length
    let size := ((line.drop offset).takeWhile isWord).length
    if size = 0 then none else some (offset,size)
  else none

/-- The last value of a `Host` line, among the lines that begin behind one of the first
`n` bytes. -/
def hostField (header : Bytes) : ℕ → ℕ × ℕ
  | 0 => (0,0)
  | n+1 =>
      if header[n]? = some 0x0a then
        ((hostValue (header.drop (n+1))).map fun v => (n+1+v.1,v.2)).getD (hostField header n)
      else hostField header n

/-- `ys` does not go on with an element of the kind. -/
def Breaks (p : UInt8 → Bool) (ys : Bytes) : Prop := ∀ b r, ys = b::r → p b = false

theorem takeWhile_of_breaks {p : UInt8 → Bool} {ys : Bytes} (h : Breaks p ys) : ys.takeWhile p = [] := by
  cases ys with
  | nil => rfl
  | cons b r => rw [List.takeWhile_cons,h b r rfl,if_neg (by decide)]

theorem takeWhile_append_breaks {p : UInt8 → Bool} {xs ys : Bytes} (hxs : ∀ b ∈ xs, p b = true)
    (hys : Breaks p ys) : (xs++ys).takeWhile p = xs := by
  rw [List.takeWhile_append_of_pos hxs,takeWhile_of_breaks hys,List.append_nil]

theorem secondWordOf_eq {first gap word tail : Bytes} (hfirst : ∀ b ∈ first, isWord b = true)
    (hgap : ∀ b ∈ gap, isWord b = false) (hne : gap ≠ []) (hword : ∀ b ∈ word, isWord b = true)
    (hsome : word ≠ []) (htail : Breaks isWord tail) :
    secondWordOf (first++(gap++(word++tail))) = (first.length+gap.length,word.length) := by
  have hgapBreaks : Breaks isWord (gap++(word++tail)) := by
    intro b r hb
    obtain ⟨c,gap',rfl⟩ := List.exists_cons_of_ne_nil hne
    rw [List.cons_append] at hb
    exact (List.cons.inj hb).1 ▸ hgap c (List.mem_cons_self ..)
  have hwordBreaks : Breaks (!isWord ·) (word++tail) := by
    intro b r hb
    obtain ⟨c,word',rfl⟩ := List.exists_cons_of_ne_nil hsome
    rw [List.cons_append] at hb
    have := hword c (List.mem_cons_self ..)
    simp [← (List.cons.inj hb).1,this]
  have hdrop : (first++(gap++(word++tail))).drop (first.length+gap.length) = word++tail := by
    rw [← List.append_assoc,← List.length_append,List.drop_left]
  rw [secondWordOf]
  rw [takeWhile_append_breaks hfirst hgapBreaks,List.drop_left,
    takeWhile_append_breaks (by simpa using hgap) hwordBreaks,hdrop,takeWhile_append_breaks hword htail]

theorem hostField_succ_of_ne {header : Bytes} {n : ℕ} (h : header[n]? ≠ some 0x0a) :
    hostField header (n+1) = hostField header n := by
  rw [hostField,if_neg h]

theorem hostField_succ_of_lf {header : Bytes} {n : ℕ} (h : header[n]? = some 0x0a) :
    hostField header (n+1) =
      ((hostValue (header.drop (n+1))).map fun v => (n+1+v.1,v.2)).getD (hostField header n) := by
  rw [hostField,if_pos h]

/-- Bytes without a line feed begin no line. -/
theorem hostField_append (seen line rest : Bytes) (h : 0x0a ∉ line) :
    hostField (seen++(line++rest)) (seen.length+line.length) =
      hostField (seen++(line++rest)) seen.length := by
  induction line generalizing seen with
  | nil => rfl
  | cons b line ih =>
      rw [List.mem_cons,not_or] at h
      have hrest := ih (seen++[b]) h.2
      simp only [List.append_assoc,List.cons_append,List.nil_append,List.length_append,
        List.length_singleton] at hrest
      rw [List.length_cons,show seen.length+(line.length+1) = seen.length+1+line.length by omega]
      rw [List.cons_append,hrest,hostField_succ_of_ne]
      simpa using Ne.symm h.1

/-- The value of a `Host` line that is taken apart. -/
theorem hostValue_eq {name blanks word tail : Bytes} (hname : name.map toLower = bytesOf "host")
    (hblanks : ∀ b ∈ blanks, isBlank b = true) (hword : ∀ b ∈ word, isWord b = true)
    (hstart : Breaks isBlank (word++tail)) (htail : Breaks isWord tail) :
    hostValue (name++0x3a::(blanks++(word++tail))) =
      if word.length = 0 then none else some (5+blanks.length,word.length) := by
  have hlen : name.length = 4 := by
    have hmap := congrArg List.length hname
    rwa [List.length_map] at hmap
  have htake : (name++0x3a::(blanks++(word++tail))).take 5 = name++[0x3a] := by
    rw [List.take_append,hlen,List.take_of_length_le (by omega)]
    rfl
  have hdrop : (name++0x3a::(blanks++(word++tail))).drop 5 = blanks++(word++tail) := by
    rw [List.drop_append,hlen,List.drop_of_length_le (by omega)]
    rfl
  have hlater : (name++0x3a::(blanks++(word++tail))).drop (5+blanks.length) = word++tail := by
    rw [← List.drop_drop,hdrop,List.drop_left]
  rw [hostValue,htake,List.map_append,hname,if_pos (by decide),hdrop,
    takeWhile_append_breaks hblanks hstart]
  dsimp only
  rw [hlater,takeWhile_append_breaks hword htail]

theorem eq_colon_of_toLower {b : UInt8} (h : toLower b = 0x3a) : b = 0x3a := by
  rw [toLower] at h
  split_ifs at h with hb
  · exfalso
    have hnat := congrArg UInt8.toNat h
    have hlow := UInt8.le_iff_toNat_le.mp hb.1
    have hhigh := UInt8.le_iff_toNat_le.mp hb.2
    rw [UInt8.toNat_add] at hnat
    simp only [UInt8.reduceToNat] at hnat hlow hhigh
    omega
  · exact h

/-- Other names make no `Host` line. -/
theorem hostValue_of_name {name tail : Bytes} (hcolon : 0x3a ∉ name)
    (hname : name.map toLower ≠ bytesOf "host") : hostValue (name++0x3a::tail) = none := by
  have hhost : bytesOf "host:" = [0x68,0x6f,0x73,0x74,0x3a] := by decide
  have hshort : bytesOf "host" = [0x68,0x6f,0x73,0x74] := by decide
  rw [hostValue,if_neg]
  rw [hshort] at hname
  rw [hhost]
  intro h
  match name, hcolon with
  | [], _ => simp [toLower] at h
  | [a], _ => simp [toLower] at h
  | [a,b], _ => simp [toLower] at h
  | [a,b,c], _ => simp [toLower] at h
  | [a,b,c,e], _ => exact hname (by simpa [toLower] using h)
  | a::b::c::e::f::name, hcolon =>
      have hf : toLower f = 0x3a := by
        simp only [List.cons_append,List.take_succ_cons,List.map_cons,List.cons.injEq] at h
        exact h.2.2.2.2.1
      exact hcolon (by simp [eq_colon_of_toLower hf])

/-- An empty line is none. -/
theorem hostValue_of_break {b : UInt8} (hb : b = 0x0d ∨ b = 0x0a) (tail : Bytes) :
    hostValue (b::tail) = none := by
  have hhost : bytesOf "host:" = [0x68,0x6f,0x73,0x74,0x3a] := by decide
  rw [hostValue,if_neg]
  rw [hhost,List.take_succ_cons,List.map_cons,List.cons.injEq]
  intro h
  rcases hb with rfl | rfl
  · exact absurd h.1 (by decide)
  · exact absurd h.1 (by decide)

/-- The bytes of a word, as far as they are kept. -/
structure Stored (d : HtsData) (w : Bytes) : Prop where
  wlen : d.wlen = w.length
  kept : d.word.take (min w.length 15) = w.take 15

theorem take_succ_set {l : Bytes} {n : ℕ} (hn : n < l.length) (b : UInt8) :
    (l.set n b).take (n+1) = l.take n++[b] := by
  rw [List.set_eq_take_append_cons_drop,if_pos hn,List.take_append,List.length_take_of_le hn.le,
    List.take_take,Nat.min_eq_right (Nat.le_succ n),Nat.add_sub_cancel_left]
  rfl

theorem Stored.storeChar {w : Bytes} (hlen : d.word.length = 16) (h : Stored d w) (b : UInt8) :
    Stored (d.storeChar b) (w++[b]) := by
  refine ⟨by simp [HtsData.storeChar,h.wlen],?_⟩
  have hkept := h.kept
  simp only [HtsData.storeChar,h.wlen,List.length_append,List.length_singleton]
  by_cases hw : w.length < 15
  · have htake : w.take 15 = w := List.take_of_length_le hw.le
    have htake' : (w++[b]).take 15 = w++[b] := List.take_of_length_le (by
      rw [List.length_append,List.length_singleton]
      omega)
    rw [Nat.min_eq_left hw.le,htake] at hkept
    rw [if_pos hw,Nat.min_eq_left hw,htake',take_succ_set (by omega),hkept]
  · rw [if_neg hw,Nat.min_eq_right (by omega)]
    rw [Nat.min_eq_right (by omega)] at hkept
    rw [List.take_append_of_le_length (by omega),hkept]

/-- A short word is kept whole. -/
theorem Stored.word_eq {w : Bytes} (h : Stored d w) (hw : w.length ≤ 15) :
    d.word.take w.length = w := by
  have hkept := h.kept
  have htake : w.take 15 = w := List.take_of_length_le hw
  rwa [Nat.min_eq_left hw,htake] at hkept

theorem Stored.wordIsCase {w name : Bytes} (h : Stored d w) (hname : name.length ≤ 15) :
    d.wordIsCase name = true ↔ w.map toLower = name := by
  rw [HtsData.wordIsCase,decide_eq_true_iff,h.wlen]
  constructor
  · intro ⟨hlen,hmap⟩
    rwa [← hlen,h.word_eq (by omega)] at hmap
  · intro hmap
    have hlen : w.length = name.length := by rw [← hmap,List.length_map]
    rw [← hlen,h.word_eq (by omega)]
    exact ⟨rfl,hmap⟩

/-- What the host fields hold: the last value among the lines behind the first `n` bytes. -/
def HostKnown (s : Bytes) (d : HtsData) (n : ℕ) : Prop :=
  (d.hostOffset,d.hostSize) = hostField s n ∧ d.hostOffset+d.hostSize ≤ d.headerSize

def UriKnown (s : Bytes) (d : HtsData) : Prop :=
  (d.uriOffset,d.uriSize) = secondWordOf (firstLine s) ∧ d.uriOffset+d.uriSize ≤ d.headerSize

/-- The states in the rest of a line that is no `Host` line, or behind its value. -/
def InLine (d : HtsData) : Prop :=
  match d.parseState with
  | .readtospace | .skipspc | .readint | .skipspctoeoln | .skiptoeoln | .eoln | .wantlf
  | .wantlastlf => True
  | _ => False

/-- Where the parser of a stream is, behind the bytes `seen` and in front of `rest`. -/
inductive Place (s : Bytes) (d : HtsData) (seen rest : Bytes) : Prop
  | method (hstate : d.parseState = .readtospace) (hwords : d.queryWords = 0)
      (hhost : d.queryFlags.host = false) (hknown : HostKnown s d seen.length)
      (hword : ∀ b ∈ seen, isWord b = true)
  | gap (first spaces : Bytes) (hstate : d.parseState = .skipspc) (hwords : d.queryWords = 1)
      (hhost : d.queryFlags.host = false) (hknown : HostKnown s d seen.length)
      (hseen : seen = first++spaces) (hfirst : ∀ b ∈ first, isWord b = true)
      (hspaces : ∀ b ∈ spaces, b = 0x20) (hbreak : Breaks isWord (spaces++rest))
  | uri (first spaces word : Bytes) (hstate : d.parseState = .readtospace)
      (hwords : d.queryWords = 1) (hhost : d.queryFlags.host = false)
      (hknown : HostKnown s d seen.length) (hseen : seen = first++(spaces++word))
      (hfirst : ∀ b ∈ first, isWord b = true) (hspaces : ∀ b ∈ spaces, b = 0x20)
      (hbreak : Breaks isWord (spaces++(word++rest))) (hword : ∀ b ∈ word, isWord b = true)
      (hlen : d.wlen = word.length)
  | line (hstate : InLine d) (hwords : 2 ≤ d.queryWords) (hhost : d.queryFlags.host = false)
      (hknown : HostKnown s d seen.length)
  | newline (before : Bytes) (hstate : d.parseState = .linestart) (hwords : 8 ≤ d.queryWords)
      (hhost : d.queryFlags.host = false) (hknown : HostKnown s d before.length)
      (hseen : seen = before++[0x0a])
  | name (before name : Bytes) (hstate : d.parseState = .readtocolon) (hwords : 8 ≤ d.queryWords)
      (hhost : d.queryFlags.host = false) (hknown : HostKnown s d before.length)
      (hseen : seen = before++0x0a::name) (hname : ∀ b ∈ name, isName d b = true)
      (hstored : Stored d name)
  | hostGap (before name blanks : Bytes) (hstate : d.parseState = .skipspc)
      (hwords : 8 ≤ d.queryWords) (hhost : d.queryFlags.host = true)
      (hsize : d.queryFlags.dataSize = false) (hknown : HostKnown s d before.length)
      (hseen : seen = before++0x0a::(name++0x3a::blanks))
      (hname : name.map toLower = bytesOf "host") (hblanks : ∀ b ∈ blanks, isBlank b = true)
  | hostWord (before name blanks word : Bytes) (hstate : d.parseState = .readtospace)
      (hwords : 8 ≤ d.queryWords) (hhost : d.queryFlags.host = true)
      (hknown : HostKnown s d before.length)
      (hseen : seen = before++0x0a::(name++0x3a::(blanks++word)))
      (hname : name.map toLower = bytesOf "host") (hblanks : ∀ b ∈ blanks, isBlank b = true)
      (hbreak : Breaks isBlank (word++rest)) (hword : ∀ b ∈ word, isWord b = true)
      (hlen : d.wlen = word.length)
  | done (before : Bytes) (hstate : d.parseState = .done) (hwords : 2 ≤ d.queryWords)
      (hknown : HostKnown s d before.length) (hseen : seen = before++[0x0a])

/-- Given up, or on the way to it. -/
def Lost (d : HtsData) : Prop :=
  d.queryFlags.error = true ∨ d.parseState = .fatal ∨ d.parseState = .aborted

/-- What the fields of a query that is still good say about the stream. -/
structure Located (s : Bytes) (d : HtsData) (seen rest : Bytes) : Prop where
  split : seen++rest = s
  word : d.word.length = 16
  size : d.queryFlags.dataSize = true →
    8 ≤ d.queryWords ∧ (d.parseState = .skipspc ∨ d.parseState = .readint)
  uri : 2 ≤ d.queryWords → UriKnown s d
  place : Place s d seen rest

theorem Located.dataSize_ne {s seen rest : Bytes} (h : Located s d seen rest)
    (hspace : d.parseState ≠ .skipspc) (hint : d.parseState ≠ .readint) :
    d.queryFlags.dataSize ≠ true := by
  intro htrue
  cases (h.size htrue).2 with
  | inl hstate => exact hspace hstate
  | inr hstate => exact hint hstate

def Good (s : Bytes) (d : HtsData) (seen rest : Bytes) : Prop := Lost d ∨ Located s d seen rest

section located
variable {s later seen data rest : Bytes} {e : HtsData}

/-- A byte that is no line feed begins no line. -/
theorem HostKnown.step {b : UInt8} (h : HostKnown s d seen.length) (hs : seen++b::rest = s)
    (hb : b ≠ 0x0a) : HostKnown s d (seen++[b]).length := by
  refine ⟨?_,h.2⟩
  rw [List.length_append,List.length_singleton,hostField_succ_of_ne,h.1]
  rw [← hs]
  simpa using hb

/-- The header grows. -/
theorem HostKnown.grow {n k : ℕ} (h : HostKnown s d n) (hk : d.headerSize ≤ k) :
    HostKnown s {d with headerSize := k} n := ⟨h.1,h.2.trans hk⟩

theorem UriKnown.grow {k : ℕ} (h : UriKnown s d) (hk : d.headerSize ≤ k) :
    UriKnown s {d with headerSize := k} := ⟨h.1,h.2.trans hk⟩

theorem split_step {b : UInt8} (h : seen++b::rest = s) : seen++[b]++rest = s := by
  rw [← h,List.append_assoc]
  rfl

theorem word_ne_lf {b : UInt8} (hb : isWord b = true) : b ≠ 0x0a := by
  rintro rfl
  cases hb

theorem forall_mem_concat {p : UInt8 → Prop} {xs : Bytes} {b : UInt8} (hxs : ∀ c ∈ xs, p c)
    (hb : p b) : ∀ c ∈ xs++[b], p c := by
  intro c hc
  rcases List.mem_append.mp hc with hc | hc
  · exact hxs c hc
  · rwa [List.mem_singleton.mp hc]

theorem located_storeChar {b : UInt8} (hd : d.parseState = .readtospace) (hb : isWord b = true)
    (h : Located s d seen (b::rest)) : Located s (d.storeChar b) (seen++[b]) rest := by
  refine ⟨split_step h.split,?_,h.size,h.uri,?_⟩
  · rw [HtsData.storeChar]
    dsimp only
    split_ifs
    · rw [List.length_set,h.word]
    · exact h.word
  have hlf := word_ne_lf hb
  cases h.place with
  | method hstate hwords hhost hknown hword =>
      exact .method hstate hwords hhost (hknown.step h.split hlf) (forall_mem_concat hword hb)
  | uri first spaces word hstate hwords hhost hknown hseen hfirst hspaces hbreak hword hlen =>
      refine .uri first spaces (word++[b]) hstate hwords hhost (hknown.step h.split hlf) ?_ hfirst
        hspaces ?_ (forall_mem_concat hword hb) ?_
      · simp [hseen]
      · simpa using hbreak
      · simp [HtsData.storeChar,hlen]
  | line hstate hwords hhost hknown => exact .line hstate hwords hhost (hknown.step h.split hlf)
  | hostWord before name blanks word hstate hwords hhost hknown hseen hname hblanks hbreak hword
      hlen =>
      refine .hostWord before name blanks (word++[b]) hstate hwords hhost hknown ?_ hname hblanks ?_
        (forall_mem_concat hword hb) ?_
      · simp [hseen]
      · simpa using hbreak
      · simp [HtsData.storeChar,hlen]
  | gap _ _ hstate => rw [hd] at hstate; cases hstate
  | newline _ hstate => rw [hd] at hstate; cases hstate
  | name _ _ hstate => rw [hd] at hstate; cases hstate
  | hostGap _ _ _ hstate => rw [hd] at hstate; cases hstate
  | done _ hstate => rw [hd] at hstate; cases hstate

theorem firstWord_eq (d : HtsData) : (firstWord d).queryFlags.error = true ∨
    ∃ q, firstWord d = {d with queryType := q} := by
  rw [firstWord]
  split_ifs
  · exact .inr ⟨_,rfl⟩
  · exact .inr ⟨_,rfl⟩
  · exact .inr ⟨_,rfl⟩
  · exact .inr ⟨_,rfl⟩
  · exact .inl rfl

theorem secondWord_eq (d : HtsData) : (secondWord d).queryFlags.error = true ∨
    d.wlen ≠ 0 ∧ secondWord d = {d with uriOffset := d.headerSize, uriSize := d.wlen} := by
  rw [secondWord]
  dsimp only
  split_ifs with h
  · exact .inl rfl
  · exact .inr ⟨h,rfl⟩

theorem thirdWord_eq (d : HtsData) : (thirdWord d).queryFlags.error = true ∨
    ∃ v, thirdWord d = {d with parseState := .skipspctoeoln, httpVer := v} := by
  rw [thirdWord]
  dsimp only
  split_ifs
  · exact .inl rfl
  · exact .inr ⟨_,rfl⟩
  · exact .inr ⟨_,rfl⟩
  · exact .inl rfl
  · exact .inr ⟨_,rfl⟩

/-- The value of a `Connection` line leaves the host fields alone. -/
theorem laterWord_connection (hhost : d.queryFlags.host = false) :
    (laterWord d).parseState = .aborted ∨ ∃ k, laterWord d = {d with
      queryFlags := {d.queryFlags with keepAlive := k, host := false, connection := false}
      parseState := .skipspctoeoln} := by
  rw [laterWord]
  by_cases hconn : d.queryFlags.connection = false
  · rw [if_pos ⟨hhost,hconn⟩]
    exact .inl rfl
  · rw [if_neg (fun h => hconn h.2)]
    dsimp only
    split_ifs with _ hyes
    · rw [hhost] at hyes
      cases hyes
    · exact .inr ⟨true,rfl⟩
    · exact .inr ⟨d.queryFlags.keepAlive,rfl⟩
    · exact .inr ⟨d.queryFlags.keepAlive,rfl⟩

theorem laterWord_host (hhost : d.queryFlags.host = true) :
    laterWord d = {d with
      hostOffset := if d.wlen ≠ 0 then d.headerSize else d.hostOffset
      hostSize := if d.wlen ≠ 0 then d.wlen else d.hostSize
      queryFlags := {d.queryFlags with host := false, connection := false}
      parseState := .skipspctoeoln} := by
  rw [laterWord,if_neg (by simp [hhost])]
  dsimp only
  by_cases hw : d.wlen ≠ 0
  · rw [if_pos hw,if_pos hhost,if_pos hw,if_pos hw]
  · rw [if_neg hw,if_neg hw,if_neg hw]

theorem firstLine_append {line tail : Bytes} (h : ∀ b ∈ line, b ≠ 0x0a) :
    firstLine (line++tail) = line++firstLine tail :=
  List.takeWhile_append_of_pos (by simpa using h)

theorem breaks_firstLine {p : UInt8 → Bool} {tail : Bytes} (h : Breaks p tail) :
    Breaks p (firstLine tail) := by
  intro b r hb
  cases tail with
  | nil => cases hb
  | cons c tail =>
      rw [firstLine,List.takeWhile_cons] at hb
      split_ifs at hb
      exact (List.cons.inj hb).1 ▸ h c tail rfl

/-- The second word has ended. -/
theorem uri_known {first spaces word tail : Bytes} (hs : first++(spaces++(word++tail)) = s)
    (hfirst : ∀ b ∈ first, isWord b = true) (hspaces : ∀ b ∈ spaces, b = 0x20)
    (hbreak : Breaks isWord (spaces++(word++tail))) (hword : ∀ b ∈ word, isWord b = true)
    (hsome : word ≠ []) (htail : Breaks isWord tail) :
    (first.length+spaces.length,word.length) = secondWordOf (firstLine s) := by
  have hgap : spaces ≠ [] := by
    rintro rfl
    obtain ⟨b,w,rfl⟩ := List.exists_cons_of_ne_nil hsome
    have hb := hbreak b (w++tail) rfl
    rw [hword b (List.mem_cons_self ..)] at hb
    cases hb
  have hspace : ∀ b ∈ spaces, b ≠ 0x0a := by
    intro b hb
    rw [hspaces b hb]
    decide
  rw [← hs,firstLine_append fun b hb => word_ne_lf (hfirst b hb),firstLine_append hspace,
    firstLine_append fun b hb => word_ne_lf (hword b hb)]
  refine (secondWordOf_eq hfirst ?_ hgap hword hsome (breaks_firstLine htail)).symm
  intro b hb
  rw [hspaces b hb]
  rfl

theorem name_ne_lf {name : Bytes} (hname : name.map toLower = bytesOf "host") : 0x0a ∉ name := by
  intro h
  have hmem := List.mem_map_of_mem (f := toLower) h
  rw [hname] at hmem
  exact absurd hmem (by decide)

theorem hostField_behind {before line tail : Bytes} (hline : 0x0a ∉ line)
    (hs : before++0x0a::(line++tail) = s) :
    hostField s (before++0x0a::line).length =
      ((hostValue (line++tail)).map fun v => (before.length+1+v.1,v.2)).getD
        (hostField s before.length) := by
  have happend := hostField_append (before++[0x0a]) line tail hline
  simp only [List.append_assoc,List.cons_append,List.nil_append,List.length_append,
    List.length_singleton,hs] at happend
  have hlf : s[before.length]? = some 0x0a := by simp [← hs]
  have hdrop : s.drop (before.length+1) = line++tail := by
    rw [← hs,List.drop_append,List.drop_of_length_le (by omega)]
    simp
  rw [List.length_append,List.length_cons,show before.length+(line.length+1) =
    before.length+1+line.length by omega,happend,hostField_succ_of_lf hlf,hdrop]

/-- The value of a `Host` line has ended. -/
theorem host_known {before name blanks word tail : Bytes}
    (hs : before++0x0a::(name++0x3a::(blanks++(word++tail))) = s)
    (hname : name.map toLower = bytesOf "host") (hblanks : ∀ b ∈ blanks, isBlank b = true)
    (hbreak : Breaks isBlank (word++tail)) (hword : ∀ b ∈ word, isWord b = true)
    (htail : Breaks isWord tail) :
    hostField s (before++0x0a::(name++0x3a::(blanks++word))).length =
      if word.length = 0 then hostField s before.length
      else (before.length+6+blanks.length,word.length) := by
  have hline : 0x0a ∉ name++0x3a::(blanks++word) := by
    simp only [List.mem_append,List.mem_cons,not_or]
    refine ⟨name_ne_lf hname,by decide,fun h => ?_,fun h => word_ne_lf (hword _ h) rfl⟩
    exact absurd (hblanks _ h) (by decide)
  have hwhole : before++0x0a::((name++0x3a::(blanks++word))++tail) = s := by simpa using hs
  rw [hostField_behind hline hwhole]
  have hvalue := hostValue_eq hname hblanks hword hbreak htail
  simp only [List.append_assoc,List.cons_append] at hvalue ⊢
  rw [hvalue]
  split_ifs
  · rfl
  · simp only [Option.map_some,Option.getD_some]
    congr 1
    omega

/-- A word counts for the header, whichever it is. -/
def HtsData.countWord (d : HtsData) : HtsData := {d with headerSize := d.headerSize+d.wlen}

theorem endWord_zero (h : d.queryWords = 0) :
    endWord d = (firstWord {d with parseState := .skipspc, queryWords := 1}).countWord := by
  rw [endWord,h]
  rfl

theorem endWord_one (h : d.queryWords = 1) :
    endWord d = (secondWord {d with parseState := .skipspc, queryWords := 2}).countWord := by
  rw [endWord,h]
  rfl

theorem endWord_two (h : d.queryWords = 2) :
    endWord d = (thirdWord {d with parseState := .skipspc, queryWords := 3}).countWord := by
  rw [endWord,h]
  rfl

theorem endWord_later (h : 3 ≤ d.queryWords) :
    endWord d =
      (laterWord {d with parseState := .skipspc, queryWords := d.queryWords+1}).countWord := by
  rw [endWord]
  dsimp only
  rw [if_neg (by omega),if_neg (by omega),if_neg (by omega)]
  rfl

theorem located_endWord {b : UInt8} (hd : d.parseState = .readtospace) (hsize : InWord d seen rest)
    (hb : isWord b = false) (h : Located s d seen (b::rest)) :
    Good s (endWord d) seen (b::rest) := by
  have hends : Breaks isWord (b::rest) := by
    intro c r hc
    exact (List.cons.inj hc).1 ▸ hb
  have hdata := h.dataSize_ne (by rw [hd]; decide) (by rw [hd]; decide)
  have hgrow : d.headerSize ≤ d.headerSize+d.wlen := Nat.le_add_right ..
  cases h.place with
  | method hstate hwords hhost hknown hword =>
      rw [endWord_zero hwords]
      rcases firstWord_eq {d with parseState := .skipspc, queryWords := 1} with he | ⟨q,he⟩
      · exact .inl (.inl he)
      · rw [he]
        refine .inr ⟨h.split,h.word,fun htrue => absurd htrue hdata,fun htwo => ?_,?_⟩
        · exact absurd (show 2 ≤ 1 from htwo) (by decide)
        · exact .gap seen [] rfl rfl hhost (hknown.grow hgrow) (by simp) hword (by simp) hends
  | uri first spaces word hstate hwords hhost hknown hseen hfirst hspaces hbreak hword hlen =>
      rw [endWord_one hwords]
      rcases secondWord_eq {d with parseState := .skipspc, queryWords := 2} with he | ⟨hw,he⟩
      · exact .inl (.inl he)
      · rw [he]
        refine .inr ⟨h.split,h.word,fun htrue => absurd htrue hdata,fun _ => ⟨?_,Nat.le_refl _⟩,?_⟩
        · have hsplit : first++(spaces++(word++b::rest)) = s := by
            rw [← h.split,hseen]
            simp
          have hoffset : d.headerSize = first.length+spaces.length := by
            have hlength := hsize
            simp only [InWord,hlen,hseen,List.length_append] at hlength
            omega
          have hsome : word ≠ [] := by
            rintro rfl
            exact hw hlen
          have huri := uri_known hsplit hfirst hspaces hbreak hword hsome hends
          rw [← hoffset,← hlen] at huri
          exact huri
        · exact .line trivial (Nat.le_refl 2) hhost (hknown.grow hgrow)
  | line hstate hwords hhost hknown =>
      have huri := (h.uri hwords).grow hgrow
      rcases hwords.eq_or_lt with htwo | hmore
      · rw [endWord_two htwo.symm]
        rcases thirdWord_eq {d with parseState := .skipspc, queryWords := 3} with he | ⟨v,he⟩
        · exact .inl (.inl he)
        · rw [he]
          refine .inr ⟨h.split,h.word,fun htrue => absurd htrue hdata,fun _ => huri,?_⟩
          exact .line trivial (show 2 ≤ 3 by decide) hhost (hknown.grow hgrow)
      · rw [endWord_later hmore]
        have hlater := laterWord_connection
          (d := {d with parseState := .skipspc, queryWords := d.queryWords+1}) hhost
        rcases hlater with he | ⟨k,he⟩
        · exact .inl (.inr (.inr he))
        · rw [he]
          refine .inr ⟨h.split,h.word,fun htrue => absurd htrue hdata,fun _ => huri,?_⟩
          exact .line trivial (Nat.le_succ_of_le hwords) rfl (hknown.grow hgrow)
  | hostWord before name blanks word hstate hwords hhost hknown hseen hname hblanks hbreak hword
      hlen =>
      have hlater := laterWord_host
        (d := {d with parseState := .skipspc, queryWords := d.queryWords+1}) hhost
      rw [endWord_later (by omega),hlater]
      refine .inr ⟨h.split,h.word,fun htrue => absurd htrue hdata,fun _ => ?_,?_⟩
      · exact (h.uri (by omega)).grow hgrow
      · refine .line trivial (show 2 ≤ d.queryWords+1 by omega) rfl ⟨?_,?_⟩
        · have hsplit : before++0x0a::(name++0x3a::(blanks++(word++b::rest))) = s := by
            rw [← h.split,hseen]
            simp
          have hfield := host_known hsplit hname hblanks hbreak hword hends
          rw [← hseen,← hlen] at hfield
          show ((if d.wlen ≠ 0 then d.headerSize else d.hostOffset),
            (if d.wlen ≠ 0 then d.wlen else d.hostSize)) = hostField s seen.length
          by_cases hw : d.wlen = 0
          · rw [hfield,if_neg (not_not.mpr hw),if_neg (not_not.mpr hw),if_pos hw]
            exact hknown.1
          · have hoffset : d.headerSize = before.length+6+blanks.length := by
              have hname := congrArg List.length hname
              have hlength := hsize
              simp only [InWord,hlen,hseen,List.length_append,List.length_cons] at hlength
              rw [List.length_map] at hname
              change name.length = 4 at hname
              omega
            rw [hfield,if_pos hw,if_pos hw,if_neg hw,hoffset]
        · show (if d.wlen ≠ 0 then d.headerSize else d.hostOffset)+
            (if d.wlen ≠ 0 then d.wlen else d.hostSize) ≤ d.headerSize+d.wlen
          have hle := hknown.2
          split_ifs <;> omega
  | gap _ _ hstate => rw [hd] at hstate; cases hstate
  | newline _ hstate => rw [hd] at hstate; cases hstate
  | name _ _ hstate => rw [hd] at hstate; cases hstate
  | hostGap _ _ _ hstate => rw [hd] at hstate; cases hstate
  | done _ hstate => rw [hd] at hstate; cases hstate

theorem located_readToSpace (hd : d.parseState = .readtospace) (hsize : InWord d seen data)
    (h : Located s d seen (data++later)) : Moves (Good s) later seen data (readToSpace d data) := by
  apply moves_scan (Q := fun e seen rest =>
    e.parseState = .readtospace ∧ InWord e seen rest ∧ Located s e seen rest)
  · intro e seen b rest hb he
    exact ⟨he.1,inWord_storeChar he.2.1,located_storeChar he.1 hb he.2.2⟩
  · intro e seen rest he hstop
    rw [afterWord]
    split_ifs with hlong hnil
    · exact moves_none (.inl (.inr (.inl rfl)))
    · exact moves_none (.inr he.2.2)
    · obtain ⟨b,r,rfl⟩ := List.exists_cons_of_ne_nil hnil
      exact moves_none (located_endWord he.1 he.2.1 (hstop b r rfl) he.2.2)
  · exact ⟨hd,hsize,h⟩

theorem located_endSpaces {b : UInt8} (hd : d.parseState = .skipspc ∨ d.parseState = .skipspctoeoln)
    (hmax : d.headerSize < maxHttpHeaderSize) (hb : isSpace d b = false)
    (h : Located s d seen (b::rest)) : Good s (endSpaces d) seen (b::rest) := by
  cases h.place with
  | gap first spaces hstate hwords hhost hknown hseen hfirst hspaces hbreak =>
      have hdata : d.queryFlags.dataSize ≠ true := fun htrue => by have := (h.size htrue).1; omega
      rw [endSpaces,if_neg (by rw [hstate]; decide),if_pos (by omega)]
      refine .inr ⟨h.split,h.word,fun htrue => absurd htrue hdata,h.uri,?_⟩
      exact .uri first spaces [] rfl hwords hhost hknown (by simpa using hseen) hfirst hspaces hbreak
        (by simp) rfl
  | line hstate hwords hhost hknown =>
      rw [endSpaces]
      split_ifs with heoln hthree hfour hdata hsize hhosted
      · have hdata := h.dataSize_ne (by rw [heoln]; decide) (by rw [heoln]; decide)
        exact .inr ⟨h.split,h.word,fun htrue => absurd htrue hdata,h.uri,
          .line trivial hwords hhost hknown⟩
      · refine .inr ⟨h.split,h.word,fun htrue => ?_,h.uri,.line trivial hwords hhost hknown⟩
        have := (h.size htrue).1
        omega
      · exact .inl (.inr (.inr rfl))
      · exact .inl (.inl rfl)
      · exact .inr ⟨h.split,h.word,fun _ => ⟨(h.size hdata).1,.inr rfl⟩,h.uri,
          .line trivial hwords hhost hknown⟩
      · exact .inr ⟨h.split,h.word,fun htrue => absurd htrue hdata,h.uri,
          .line trivial hwords hhost hknown⟩
      · exact .inr ⟨h.split,h.word,fun htrue => absurd htrue hdata,h.uri,
          .line trivial hwords hhost hknown⟩
  | hostGap before name blanks hstate hwords hhost hsize hknown hseen hname hblanks =>
      rw [endSpaces,if_neg (by rw [hstate]; decide),if_neg (by omega),if_neg (by omega),
        if_neg (by simp [hsize]),if_pos (.inl hhost)]
      refine .inr ⟨h.split,h.word,fun htrue => ?_,h.uri,?_⟩
      · have htrue : d.queryFlags.dataSize = true := htrue
        rw [hsize] at htrue
        cases htrue
      · refine .hostWord before name blanks [] rfl hwords hhost hknown (by simpa using hseen) hname
          hblanks ?_ (by simp) rfl
        intro c r hc
        obtain ⟨rfl,_⟩ := List.cons.inj hc
        have hspace := of_decide_eq_false hb
        rw [isBlank,decide_eq_false_iff_not]
        exact fun hblank => hspace ⟨hmax,hblank.imp_right fun htab => ⟨htab,hwords⟩⟩
  | method hstate => rw [hstate] at hd; simp at hd
  | uri _ _ _ hstate => rw [hstate] at hd; simp at hd
  | newline _ hstate => rw [hstate] at hd; simp at hd
  | name _ _ hstate => rw [hstate] at hd; simp at hd
  | hostWord _ _ _ _ hstate => rw [hstate] at hd; simp at hd
  | done _ hstate => rw [hstate] at hd; simp at hd

theorem located_addByte {b : UInt8} (hd : d.parseState = .skipspc ∨ d.parseState = .skipspctoeoln)
    (hb : isSpace d b = true) (h : Located s d seen (b::rest)) :
    Located s (d.addByte b) (seen++[b]) rest := by
  have hgrow : d.headerSize ≤ d.headerSize+1 := Nat.le_succ _
  have hspace := (of_decide_eq_true hb).2
  have hlf : b ≠ 0x0a := by
    rintro rfl
    rcases hspace with h | h
    · exact absurd h (by decide)
    · exact absurd h.1 (by decide)
  refine ⟨split_step h.split,h.word,h.size,fun htwo => (h.uri htwo).grow hgrow,?_⟩
  cases h.place with
  | gap first spaces hstate hwords hhost hknown hseen hfirst hspaces hbreak =>
      have hblank : b = 0x20 := by
        rcases hspace with h | h
        · exact h
        · rw [hwords] at h
          exact absurd h.2 (by decide)
      refine .gap first (spaces++[b]) hstate hwords hhost ((hknown.step h.split hlf).grow hgrow) ?_
        hfirst (forall_mem_concat hspaces hblank) ?_
      · simp [hseen]
      · simpa using hbreak
  | line hstate hwords hhost hknown =>
      exact .line hstate hwords hhost ((hknown.step h.split hlf).grow hgrow)
  | hostGap before name blanks hstate hwords hhost hsize hknown hseen hname hblanks =>
      have hblank : isBlank b = true := by
        rcases hspace with h | h
        · simp [isBlank,h]
        · simp [isBlank,h.1]
      refine .hostGap before name (blanks++[b]) hstate hwords hhost hsize (hknown.grow hgrow) ?_ hname
        (forall_mem_concat hblanks hblank)
      simp [hseen]
  | method hstate => rw [hstate] at hd; simp at hd
  | uri _ _ _ hstate => rw [hstate] at hd; simp at hd
  | newline _ hstate => rw [hstate] at hd; simp at hd
  | name _ _ hstate => rw [hstate] at hd; simp at hd
  | hostWord _ _ _ _ hstate => rw [hstate] at hd; simp at hd
  | done _ hstate => rw [hstate] at hd; simp at hd

theorem located_skipSpc (hd : d.parseState = .skipspc ∨ d.parseState = .skipspctoeoln)
    (h : Located s d seen (data++later)) : Moves (Good s) later seen data (skipSpc d data) := by
  apply moves_scan (Q := fun e seen rest =>
    (e.parseState = .skipspc ∨ e.parseState = .skipspctoeoln) ∧ Located s e seen rest)
  · intro e seen b rest hb he
    exact ⟨he.1,located_addByte he.1 hb he.2⟩
  · intro e seen rest he hstop
    rw [afterSpaces]
    split_ifs with hfull hnil
    · exact moves_none (.inl (.inr (.inl rfl)))
    · exact moves_none (.inr he.2)
    · obtain ⟨b,r,rfl⟩ := List.exists_cons_of_ne_nil hnil
      exact moves_none (located_endSpaces he.1 (Nat.lt_of_not_le hfull) (hstop b r rfl) he.2)
  · exact ⟨hd,h⟩

theorem name_ne {b : UInt8} (hb : isName d b = true) : b ≠ 0x3a ∧ b ≠ 0x0a := by
  have hb := of_decide_eq_true hb
  refine ⟨hb.1,?_⟩
  rintro rfl
  exact absurd hb.2.1 (by decide)

/-- In a name the parser is in a line behind the first. -/
theorem Place.of_readtocolon (hd : d.parseState = .readtocolon) (h : Place s d seen rest) :
    ∃ before name, 8 ≤ d.queryWords ∧ d.queryFlags.host = false ∧ HostKnown s d before.length ∧
      seen = before++0x0a::name ∧ (∀ b ∈ name, isName d b = true) ∧ Stored d name := by
  cases h with
  | name before name hstate hwords hhost hknown hseen hname hstored =>
      exact ⟨before,name,hwords,hhost,hknown,hseen,hname,hstored⟩
  | line hstate => rw [InLine,hd] at hstate; cases hstate
  | method hstate => rw [hd] at hstate; cases hstate
  | gap _ _ hstate => rw [hd] at hstate; cases hstate
  | uri _ _ _ hstate => rw [hd] at hstate; cases hstate
  | newline _ hstate => rw [hd] at hstate; cases hstate
  | hostGap _ _ _ hstate => rw [hd] at hstate; cases hstate
  | hostWord _ _ _ _ hstate => rw [hd] at hstate; cases hstate
  | done _ hstate => rw [hd] at hstate; cases hstate

theorem located_nameChar {b : UInt8} (hd : d.parseState = .readtocolon) (hb : isName d b = true)
    (h : Located s d seen (b::rest)) : Located s (d.storeChar b) (seen++[b]) rest := by
  refine ⟨split_step h.split,?_,h.size,h.uri,?_⟩
  · rw [HtsData.storeChar]
    dsimp only
    split_ifs
    · rw [List.length_set,h.word]
    · exact h.word
  obtain ⟨before,name,hwords,hhost,hknown,hseen,hname,hstored⟩ := h.place.of_readtocolon hd
  refine .name before (name++[b]) hd hwords hhost hknown ?_ (forall_mem_concat hname hb)
    (hstored.storeChar h.word b)
  simp [hseen]

/-- Behind a name that is not `Host` the line has no value for the host fields. -/
theorem line_known {before name : Bytes} (hs : before++0x0a::(name++0x3a::rest) = s)
    (hchars : ∀ b ∈ name, isName d b = true) (hname : name.map toLower ≠ bytesOf "host")
    (hknown : HostKnown s d before.length) :
    HostKnown s d (before++0x0a::(name++[0x3a])).length := by
  refine ⟨?_,hknown.2⟩
  have hcolon : 0x3a ∉ name := fun h => (name_ne (hchars _ h)).1 rfl
  have hline : 0x0a ∉ name++[0x3a] := by
    simp only [List.mem_append,List.mem_singleton,not_or]
    exact ⟨fun h => (name_ne (hchars _ h)).2 rfl,by decide⟩
  have hwhole : before++0x0a::((name++[0x3a])++rest) = s := by simpa using hs
  rw [hostField_behind hline hwhole,List.append_assoc]
  change _ = ((hostValue (name++0x3a::rest)).map _).getD _
  rw [hostValue_of_name hcolon hname]
  exact hknown.1

theorem located_endName (hd : d.parseState = .readtocolon) (h : Located s d seen (0x3a::rest)) :
    Good s (endName d) (seen++[0x3a]) rest := by
  have hgrow : d.headerSize ≤ d.headerSize+d.wlen+1 := by omega
  have hdata := h.dataSize_ne (by rw [hd]; decide) (by rw [hd]; decide)
  obtain ⟨before,name,hwords,hhost,hknown,hseen,hname,hstored⟩ := h.place.of_readtocolon hd
  have huri := (h.uri (by omega)).grow hgrow
  have hsplit : before++0x0a::(name++0x3a::rest) = s := by
    rw [← h.split,hseen]
    simp
  have hcase := hstored.wordIsCase (show (bytesOf "host").length ≤ 15 by decide)
  refine .inr ⟨split_step h.split,h.word,fun _ => ⟨hwords,.inl rfl⟩,fun _ => huri,?_⟩
  by_cases hhosted : d.wordIsCase (bytesOf "host") = true
  · refine .hostGap before name [] rfl hwords ?_ ?_ (hknown.grow hgrow) ?_ (hcase.mp hhosted) (by simp)
    · simp [endName,hhosted]
    · simpa [endName,hhosted] using hdata
    · simp [hseen]
  · refine .line trivial (show 2 ≤ d.queryWords by omega) ?_ ?_
    · simp only [endName,if_neg hhosted]
      split_ifs
      · exact hhost
      · exact hhost
      · rfl
    · have hline := line_known hsplit hname (fun heq => hhosted (hcase.mpr heq)) hknown
      have hlength : seen++[0x3a] = before++0x0a::(name++[0x3a]) := by simp [hseen]
      rw [hlength]
      exact hline.grow hgrow

theorem located_readToColon (hd : d.parseState = .readtocolon)
    (h : Located s d seen (data++later)) : Moves (Good s) later seen data (readToColon d data) := by
  apply moves_scan (Q := fun e seen rest => e.parseState = .readtocolon ∧ Located s e seen rest)
  · intro e seen b rest hb he
    exact ⟨he.1,located_nameChar he.1 hb he.2⟩
  · intro e seen rest he _
    cases rest with
    | nil =>
        apply moves_none
        split_ifs
        · exact .inl (.inr (.inl rfl))
        · exact .inr he.2
    | cons b r =>
        rw [afterName]
        split_ifs with _ hcolon
        · exact moves_none (.inl (.inr (.inl rfl)))
        · exact moves_none (.inl (.inl rfl))
        · obtain rfl := not_not.mp hcolon
          exact moves_one (located_endName he.1 he.2)
  · exact ⟨hd,h⟩

/-- In the rest of a line. -/
theorem Place.of_line (hd : InLine d) (hword : d.parseState ≠ .readtospace)
    (hspace : d.parseState ≠ .skipspc) (h : Place s d seen rest) :
    2 ≤ d.queryWords ∧ d.queryFlags.host = false ∧ HostKnown s d seen.length := by
  cases h with
  | line _ hwords hhost hknown => exact ⟨hwords,hhost,hknown⟩
  | method hstate => exact absurd hstate hword
  | gap _ _ hstate => exact absurd hstate hspace
  | uri _ _ _ hstate => exact absurd hstate hword
  | newline _ hstate => rw [InLine,hstate] at hd; cases hd
  | name _ _ hstate => rw [InLine,hstate] at hd; cases hd
  | hostGap _ _ _ hstate => exact absurd hstate hspace
  | hostWord _ _ _ _ hstate => exact absurd hstate hword
  | done _ hstate => rw [InLine,hstate] at hd; cases hd

theorem digit_ne_lf {b : UInt8} (hb : isDigit b = true) : b ≠ 0x0a := by
  rintro rfl
  exact absurd hb (by decide)

theorem located_readInt (hd : d.parseState = .readint) (h : Located s d seen (data++later)) :
    Moves (Good s) later seen data (readInt d data) := by
  apply moves_scan (Q := fun e seen rest => e.parseState = .readint ∧ Located s e seen rest)
  · intro e seen b rest hb he
    have hlf := digit_ne_lf (of_decide_eq_true hb).1
    have hgrow : e.headerSize ≤ e.headerSize+1 := Nat.le_succ _
    obtain ⟨hwords,hhost,hknown⟩ := he.2.place.of_line (by rw [InLine,he.1]; trivial)
      (by rw [he.1]; decide) (by rw [he.1]; decide)
    refine ⟨he.1,split_step he.2.split,he.2.word,fun htrue => absurd (show false = true from htrue) (by decide),
      fun htwo => (he.2.uri htwo).grow hgrow,?_⟩
    refine .line ?_ hwords hhost ((hknown.step he.2.split hlf).grow hgrow)
    rw [InLine,parseState_addDigit,he.1]
    trivial
  · intro e seen rest he _
    obtain ⟨hwords,hhost,hknown⟩ := he.2.place.of_line (by rw [InLine,he.1]; trivial)
      (by rw [he.1]; decide) (by rw [he.1]; decide)
    cases rest with
    | nil => exact moves_none (.inr he.2)
    | cons b r =>
        apply moves_none
        simp only [endInt]
        split_ifs with hdigit hsize hsize
        · exact .inl (.inl rfl)
        · exact .inl (.inl rfl)
        · exact .inl (.inl rfl)
        · exact .inr ⟨he.2.split,he.2.word,fun htrue => absurd htrue hsize,he.2.uri,
            .line trivial hwords hhost hknown⟩
  · exact ⟨hd,h⟩

theorem Place.of_linestart (hd : d.parseState = .linestart) (h : Place s d seen rest) :
    ∃ before, 8 ≤ d.queryWords ∧ d.queryFlags.host = false ∧ HostKnown s d before.length ∧
      seen = before++[0x0a] := by
  cases h with
  | newline before hstate hwords hhost hknown hseen => exact ⟨before,hwords,hhost,hknown,hseen⟩
  | line hstate => rw [InLine,hd] at hstate; cases hstate
  | method hstate => rw [hd] at hstate; cases hstate
  | gap _ _ hstate => rw [hd] at hstate; cases hstate
  | uri _ _ _ hstate => rw [hd] at hstate; cases hstate
  | name _ _ hstate => rw [hd] at hstate; cases hstate
  | hostGap _ _ _ hstate => rw [hd] at hstate; cases hstate
  | hostWord _ _ _ _ hstate => rw [hd] at hstate; cases hstate
  | done _ hstate => rw [hd] at hstate; cases hstate

/-- In front of an empty line no value has come. -/
theorem break_known {before : Bytes} {b : UInt8} (hb : b = 0x0d ∨ b = 0x0a)
    (hs : before++[0x0a]++b::rest = s) (hknown : HostKnown s d before.length) :
    HostKnown s d (before++[0x0a]).length := by
  refine ⟨?_,hknown.2⟩
  have hempty : (0x0a : UInt8) ∉ ([] : Bytes) := by simp
  have hwhole : before++0x0a::([]++b::rest) = s := by simpa using hs
  have hbehind := hostField_behind hempty hwhole
  rw [List.nil_append,hostValue_of_break hb] at hbehind
  rw [hbehind]
  exact hknown.1

theorem endFirstLine_eq (d : HtsData) : ∃ n, d.endFirstLine = {d with firstLineSize := n} := by
  rw [HtsData.endFirstLine]
  split_ifs
  · exact ⟨_,rfl⟩
  · exact ⟨d.firstLineSize,rfl⟩

theorem located_lineStart (hd : d.parseState = .linestart) (h : Located s d seen (data++later)) :
    Moves (Good s) later seen data (lineStart d data) := by
  cases data with
  | nil => exact moves_none (.inr h)
  | cons b r =>
      obtain ⟨before,hwords,hhost,hknown,rfl⟩ := h.place.of_linestart hd
      obtain ⟨n,hn⟩ := endFirstLine_eq d
      have hgrow : d.headerSize ≤ d.headerSize+1 := Nat.le_succ _
      have htwo : 2 ≤ d.queryWords := by omega
      have hdata := h.dataSize_ne (by rw [hd]; decide) (by rw [hd]; decide)
      rw [lineStart,hn]
      split_ifs with hcr hlf herror
      · apply moves_one
        refine .inr ⟨split_step h.split,h.word,fun htrue => absurd htrue hdata,fun _ => (h.uri htwo).grow hgrow,?_⟩
        have hline := break_known (.inl hcr) h.split hknown
        exact .line trivial htwo hhost ((hline.step h.split (by rw [hcr]; decide)).grow hgrow)
      · apply moves_none
        refine .inr ⟨h.split,h.word,fun htrue => absurd htrue hdata,h.uri,?_⟩
        exact .line trivial htwo hhost (break_known (.inr hlf) h.split hknown)
      · exact moves_none (.inl (.inl herror))
      · apply moves_none
        refine .inr ⟨h.split,h.word,fun htrue => absurd htrue hdata,h.uri,?_⟩
        exact .name before [] rfl hwords hhost hknown rfl (by simp) ⟨rfl,by simp⟩

theorem located_wantLf (hd : d.parseState = .wantlf) (h : Located s d seen (data++later)) :
    Moves (Good s) later seen data (wantLf d data) := by
  cases data with
  | nil => exact moves_none (.inr h)
  | cons b r =>
      have hdata := h.dataSize_ne (by rw [hd]; decide) (by rw [hd]; decide)
      obtain ⟨hwords,hhost,hknown⟩ := h.place.of_line (by rw [InLine,hd]; trivial)
        (by rw [hd]; decide) (by rw [hd]; decide)
      have hcount : 8 ≤ d.countLine.queryWords := by
        dsimp only [HtsData.countLine]
        split_ifs <;> omega
      rw [wantLf]
      dsimp only
      split_ifs with hbad hold hlf
      · exact moves_none (.inl (.inr (.inl rfl)))
      · apply moves_none
        refine .inr ⟨h.split,h.word,fun htrue => absurd htrue hdata,fun _ => h.uri hwords,?_⟩
        exact .line trivial (show 2 ≤ d.countLine.queryWords by omega) hhost hknown
      · exact moves_none (.inl (.inl rfl))
      · obtain rfl := not_not.mp hlf
        have hgrow : d.headerSize ≤ d.headerSize+1 := Nat.le_succ _
        apply Moves.cons
        apply located_lineStart rfl
        refine ⟨split_step h.split,h.word,fun htrue => absurd htrue hdata,fun _ => (h.uri hwords).grow hgrow,?_⟩
        exact .newline seen rfl hcount hhost (hknown.grow hgrow) rfl

theorem located_eoln (hd : d.parseState = .eoln) (h : Located s d seen (data++later)) :
    Moves (Good s) later seen data (eoln d data) := by
  cases data with
  | nil => exact moves_none (.inr h)
  | cons b r =>
      have hdata := h.dataSize_ne (by rw [hd]; decide) (by rw [hd]; decide)
      obtain ⟨hwords,hhost,hknown⟩ := h.place.of_line (by rw [InLine,hd]; trivial)
        (by rw [hd]; decide) (by rw [hd]; decide)
      rw [eoln]
      split_ifs with hcr
      · have hgrow : d.headerSize ≤ d.headerSize+1 := Nat.le_succ _
        apply Moves.cons
        apply located_wantLf rfl
        refine ⟨split_step h.split,h.word,fun htrue => absurd htrue hdata,fun _ => (h.uri hwords).grow hgrow,?_⟩
        exact .line trivial hwords hhost
          ((hknown.step h.split (by rw [hcr]; decide)).grow hgrow)
      · apply located_wantLf rfl
        exact ⟨h.split,h.word,fun htrue => absurd htrue hdata,h.uri,.line trivial hwords hhost hknown⟩

theorem located_skipToEoln (hd : d.parseState = .skiptoeoln) (h : Located s d seen (data++later)) :
    Moves (Good s) later seen data (skipToEoln d data) := by
  apply moves_scan (Q := fun e seen rest => e.parseState = .skiptoeoln ∧ Located s e seen rest)
  · intro e seen b rest hb he
    have hgrow : e.headerSize ≤ e.headerSize+1 := Nat.le_succ _
    obtain ⟨hwords,hhost,hknown⟩ := he.2.place.of_line (by rw [InLine,he.1]; trivial)
      (by rw [he.1]; decide) (by rw [he.1]; decide)
    refine ⟨he.1,split_step he.2.split,he.2.word,he.2.size,
      fun htwo => (he.2.uri htwo).grow hgrow,?_⟩
    refine .line ?_ hwords hhost ((hknown.step he.2.split (of_decide_eq_true hb).2.2).grow hgrow)
    rw [InLine,parseState_addByte,he.1]
    trivial
  · intro e seen rest he _
    obtain ⟨hwords,hhost,hknown⟩ := he.2.place.of_line (by rw [InLine,he.1]; trivial)
      (by rw [he.1]; decide) (by rw [he.1]; decide)
    rw [afterLine]
    split_ifs
    · exact moves_none (.inl (.inr (.inl rfl)))
    · exact moves_none (.inr he.2)
    · apply located_eoln rfl
      have hdata := he.2.dataSize_ne (by rw [he.1]; decide) (by rw [he.1]; decide)
      exact ⟨he.2.split,he.2.word,fun htrue => absurd htrue hdata,he.2.uri,
        .line trivial hwords hhost hknown⟩
  · exact ⟨hd,h⟩

theorem located_wantLastLf (hd : d.parseState = .wantlastlf) (h : Located s d seen (data++later)) :
    Moves (Good s) later seen data (wantLastLf d data) := by
  cases data with
  | nil => exact moves_none (.inr h)
  | cons b r =>
      obtain ⟨hwords,hhost,hknown⟩ := h.place.of_line (by rw [InLine,hd]; trivial)
        (by rw [hd]; decide) (by rw [hd]; decide)
      obtain ⟨n,hn⟩ := endFirstLine_eq {d with headerSize := d.headerSize+1}
      have hgrow : d.headerSize ≤ d.headerSize+1 := Nat.le_succ _
      rw [wantLastLf,hn]
      split_ifs with hlf
      · exact moves_none (.inl (.inr (.inl rfl)))
      · obtain rfl := not_not.mp hlf
        apply moves_one
        have hdata := h.dataSize_ne (by rw [hd]; decide) (by rw [hd]; decide)
        exact .inr ⟨split_step h.split,h.word,fun htrue => absurd htrue hdata,
          fun _ => (h.uri hwords).grow hgrow,.done seen rfl hwords (hknown.grow hgrow) rfl⟩

theorem located_iter (hd : d.parseState ≠ .start) (hsize : Sized d seen.length)
    (h : Located s d seen (data++later)) : Moves (Good s) later seen data (iter d data) := by
  rw [Sized] at hsize
  rw [iter]
  cases hstate : d.parseState with
  | start => exact absurd hstate hd
  | readtospace =>
      rw [hstate] at hsize
      exact located_readToSpace hstate hsize h
  | skipspc => exact located_skipSpc (.inl hstate) h
  | skipspctoeoln => exact located_skipSpc (.inr hstate) h
  | readtocolon => exact located_readToColon hstate h
  | readint => exact located_readInt hstate h
  | skiptoeoln => exact located_skipToEoln hstate h
  | eoln => exact located_eoln hstate h
  | wantlf => exact located_wantLf hstate h
  | linestart => exact located_lineStart hstate h
  | wantlastlf => exact located_wantLastLf hstate h
  | fatal => exact moves_none (.inl (.inl rfl))
  | done => exact moves_none (.inr h)
  | aborted => exact moves_none (.inl (.inr (.inr hstate)))

/-- The first pass clears what the query before has left. -/
theorem located_restart (d : HtsData) (rest : Bytes) : Located rest (restart d) [] rest where
  split := rfl
  word := rfl
  size h := by cases h
  uri h := absurd (show 2 ≤ 0 from h) (by decide)
  place := .method rfl rfl rfl ⟨rfl,Nat.le_refl 0⟩ (by simp)

end located

theorem error_runWhile {p : HtsData → UInt8 → Bool} {f : HtsData → UInt8 → HtsData}
    (hf : ∀ e b, (f e b).queryFlags.error = e.queryFlags.error)
    (h : d.queryFlags.error = true) (xs : Bytes) : (runWhile p f d xs).1.queryFlags.error = true :=
  Scan.runWhile_preserves (P := fun e => e.queryFlags.error = true)
    (fun e b _ he => (hf e b).trans he) h xs

theorem error_firstWord (h : d.queryFlags.error = true) :
    (firstWord d).queryFlags.error = true := by
  unfold firstWord
  split_ifs
  · exact h
  · exact h
  · exact h
  · exact h
  · rfl

theorem error_secondWord (h : d.queryFlags.error = true) :
    (secondWord d).queryFlags.error = true := by
  unfold secondWord
  dsimp only
  split_ifs
  · rfl
  · exact h

theorem error_thirdWord (h : d.queryFlags.error = true) :
    (thirdWord d).queryFlags.error = true := by
  unfold thirdWord
  dsimp only
  split_ifs
  · rfl
  · exact h
  · exact h
  · rfl
  · exact h

theorem error_laterWord (h : d.queryFlags.error = true) :
    (laterWord d).queryFlags.error = true := by
  unfold laterWord
  dsimp only
  split_ifs <;> exact h

theorem error_endWord (h : d.queryFlags.error = true) : (endWord d).queryFlags.error = true := by
  unfold endWord
  dsimp only
  split_ifs
  · exact error_firstWord h
  · exact error_secondWord h
  · exact error_thirdWord h
  · exact error_laterWord h

theorem error_lineStart (h : d.queryFlags.error = true) (xs : Bytes) :
    (lineStart d xs).1.queryFlags.error = true := by
  obtain ⟨n,hn⟩ := endFirstLine_eq d
  cases xs with
  | nil => exact h
  | cons b r =>
      rw [lineStart,hn]
      split_ifs <;> exact h

theorem error_wantLf (h : d.queryFlags.error = true) (xs : Bytes) :
    (wantLf d xs).1.queryFlags.error = true := by
  cases xs with
  | nil => exact h
  | cons b r =>
      rw [wantLf]
      dsimp only
      split_ifs
      · exact h
      · exact h
      · rfl
      · apply error_lineStart
        exact h

theorem error_eoln (h : d.queryFlags.error = true) (xs : Bytes) :
    (eoln d xs).1.queryFlags.error = true := by
  cases xs with
  | nil => exact h
  | cons b r =>
      rw [eoln]
      split_ifs
      · apply error_wantLf
        exact h
      · apply error_wantLf
        exact h

theorem error_endSpaces (h : d.queryFlags.error = true) :
    (endSpaces d).queryFlags.error = true := by
  unfold endSpaces
  split_ifs
  · exact h
  · exact h
  · exact h
  · rfl
  · exact h
  · exact h
  · exact h

theorem error_skipSpc (h : d.queryFlags.error = true) (xs : Bytes) :
    (skipSpc d xs).1.queryFlags.error = true := by
  have hscan := error_runWhile (p := isSpace) (f := HtsData.addByte) (fun _ _ => rfl) h xs
  rw [skipSpc,afterSpaces]
  split_ifs
  · exact hscan
  · exact hscan
  · exact error_endSpaces hscan

theorem error_readToColon (h : d.queryFlags.error = true) (xs : Bytes) :
    (readToColon d xs).1.queryFlags.error = true := by
  have hscan := error_runWhile (p := isName) (f := HtsData.storeChar) (fun _ _ => rfl) h xs
  rw [readToColon]
  cases (runWhile isName HtsData.storeChar d xs).2 with
  | nil =>
      rw [afterName]
      split_ifs <;> exact hscan
  | cons b r =>
      simp only [afterName,endName]
      split_ifs <;> first | rfl | exact hscan

theorem error_readInt (h : d.queryFlags.error = true) (xs : Bytes) :
    (readInt d xs).1.queryFlags.error = true := by
  have hscan := error_runWhile (p := inNumber) (f := HtsData.addDigit) (fun _ _ => rfl) h xs
  rw [readInt]
  cases (runWhile inNumber HtsData.addDigit d xs).2 with
  | nil => exact hscan
  | cons b r =>
      simp only [afterInt,endInt]
      split_ifs <;> first | rfl | exact hscan

theorem error_skipToEoln (h : d.queryFlags.error = true) (xs : Bytes) :
    (skipToEoln d xs).1.queryFlags.error = true := by
  have hscan := error_runWhile (p := inLine) (f := HtsData.addByte) (fun _ _ => rfl) h xs
  rw [skipToEoln,afterLine]
  split_ifs
  · exact hscan
  · exact hscan
  · apply error_eoln
    exact hscan

theorem error_wantLastLf (h : d.queryFlags.error = true) (xs : Bytes) :
    (wantLastLf d xs).1.queryFlags.error = true := by
  obtain ⟨n,hn⟩ := endFirstLine_eq {d with headerSize := d.headerSize+1}
  cases xs with
  | nil => exact h
  | cons b r =>
      rw [wantLastLf,hn]
      split_ifs <;> exact h

theorem error_iter (hd : d.parseState ≠ .start) (h : d.queryFlags.error = true) (xs : Bytes) :
    (iter d xs).1.queryFlags.error = true := by
  rw [iter]
  cases hstate : d.parseState with
  | start => exact absurd hstate hd
  | readtospace =>
      have hscan := error_runWhile (p := fun _ b => 0x20 < b) (f := HtsData.storeChar)
        (fun _ _ => rfl) h xs
      simp only [readToSpace,afterWord]
      split_ifs
      · exact hscan
      · exact hscan
      · exact error_endWord hscan
  | skipspc => exact error_skipSpc h xs
  | skipspctoeoln => exact error_skipSpc h xs
  | readtocolon => exact error_readToColon h xs
  | readint => exact error_readInt h xs
  | skiptoeoln => exact error_skipToEoln h xs
  | eoln => exact error_eoln h xs
  | wantlf => exact error_wantLf h xs
  | linestart => exact error_lineStart h xs
  | wantlastlf => exact error_wantLastLf h xs
  | fatal => rfl
  | done => exact h
  | aborted => exact h

/-- The counters and the offsets of a query, behind `seen` and in front of `rest`. -/
structure Tracks (s : Bytes) (d : HtsData) (seen rest : Bytes) : Prop where
  started : d.parseState ≠ .start
  sized : Sized d seen.length
  split : seen++rest = s
  good : Good s d seen rest

theorem started_lineStart (hd : d.parseState ≠ .start) (xs : Bytes) :
    (lineStart d xs).1.parseState ≠ .start := by
  cases xs with
  | nil => exact hd
  | cons b r =>
      rw [lineStart]
      split_ifs <;> simp

theorem started_wantLf (hd : d.parseState ≠ .start) (xs : Bytes) :
    (wantLf d xs).1.parseState ≠ .start := by
  cases xs with
  | nil => exact hd
  | cons b r =>
      rw [wantLf]
      dsimp only
      split_ifs
      · simp
      · simp
      · simp [HtsData.fail]
      · exact started_lineStart (by simp) r

theorem started_eoln (hd : d.parseState ≠ .start) (xs : Bytes) :
    (eoln d xs).1.parseState ≠ .start := by
  cases xs with
  | nil => exact hd
  | cons b r =>
      rw [eoln]
      split_ifs
      · exact started_wantLf (by simp) r
      · exact started_wantLf (by simp) (b::r)

theorem started_readToSpace (hd : d.parseState ≠ .start) (xs : Bytes) :
    (readToSpace d xs).1.parseState ≠ .start := by
  have hscan := parseState_runWhile (p := fun _ b => 0x20 < b) parseState_storeChar d xs
  rw [readToSpace,afterWord]
  split_ifs
  · simp
  · rwa [hscan]
  · intro hstart
    rcases endWord_cases (runWhile (fun _ b => 0x20 < b) HtsData.storeChar d xs).1 with
      h | h | h | ⟨h,-⟩ <;> rw [hstart] at h <;> cases h

theorem started_endSpaces (d : HtsData) : (endSpaces d).parseState ≠ .start := by
  unfold endSpaces
  split_ifs <;> (intro h; cases h)

theorem started_skipSpc (hd : d.parseState ≠ .start) (xs : Bytes) :
    (skipSpc d xs).1.parseState ≠ .start := by
  have hscan := parseState_runWhile (p := isSpace) parseState_addByte d xs
  rw [skipSpc,afterSpaces]
  split_ifs
  · simp
  · rwa [hscan]
  · exact started_endSpaces _

theorem started_iter (hd : d.parseState ≠ .start) (xs : Bytes) :
    (iter d xs).1.parseState ≠ .start := by
  rw [iter]
  cases hstate : d.parseState with
  | start => exact absurd hstate hd
  | readtospace => exact started_readToSpace hd xs
  | skipspc => exact started_skipSpc hd xs
  | skipspctoeoln => exact started_skipSpc hd xs
  | readtocolon =>
      have hscan := parseState_runWhile (p := isName) parseState_storeChar d xs
      simp only [readToColon]
      cases (runWhile isName HtsData.storeChar d xs).2 with
      | nil =>
          rw [afterName]
          split_ifs
          · simp
          · rwa [hscan]
      | cons b r =>
          rw [afterName]
          split_ifs <;> simp [HtsData.fail,endName]
  | readint =>
      have hscan := parseState_runWhile (p := inNumber) parseState_addDigit d xs
      simp only [readInt]
      cases (runWhile inNumber HtsData.addDigit d xs).2 with
      | nil => rwa [afterInt,hscan]
      | cons b r =>
          simp only [afterInt,endInt]
          split_ifs <;> simp [HtsData.fail]
  | skiptoeoln =>
      have hscan := parseState_runWhile (p := inLine) parseState_addByte d xs
      simp only [skipToEoln,afterLine]
      split_ifs
      · simp
      · rwa [hscan]
      · exact started_eoln (by simp) _
  | eoln => exact started_eoln hd xs
  | wantlf => exact started_wantLf hd xs
  | linestart => exact started_lineStart hd xs
  | wantlastlf =>
      cases xs with
      | nil => exact hd
      | cons b r =>
          simp only [wantLastLf]
          split_ifs <;> simp
  | fatal => simp [HtsData.fail]
  | done => exact hd
  | aborted => exact hd

section streams
variable {s later seen data : Bytes}

theorem Moves.and {P Q : HtsData → Bytes → Bytes → Prop} {r : HtsData × Bytes}
    (hP : Moves P later seen data r) (hQ : Moves Q later seen data r) :
    Moves (fun e seen rest => P e seen rest ∧ Q e seen rest) later seen data r := by
  obtain ⟨used,hused,hp⟩ := hP
  obtain ⟨used',hused',hq⟩ := hQ
  obtain rfl : used = used' := List.append_cancel_right (hused.symm.trans hused')
  exact ⟨used,hused,hp,hq⟩

theorem lost_iter (hd : d.parseState ≠ .start) (h : Lost d) (data : Bytes) : Lost (iter d data).1 := by
  rcases h with h | h | h
  · exact .inl (error_iter hd h data)
  · rw [iter,h]
    exact .inl rfl
  · rw [iter,h]
    exact .inr (.inr h)

theorem tracks_of_moves {r : HtsData × Bytes} (hs : seen++(data++later) = s)
    (hstart : r.1.parseState ≠ .start) (hsized : Moves SizedAt later seen data r)
    (hgood : Lost r.1 ∨ Moves (Good s) later seen data r) : Moves (Tracks s) later seen data r := by
  have hsplit {used : Bytes} (hused : data = used++r.2) : seen++used++(r.2++later) = s := by
    rw [← hs,hused]
    simp
  rcases hgood with hlost | hmoves
  · obtain ⟨used,hused,hsize⟩ := hsized
    exact ⟨used,hused,hstart,hsize,hsplit hused,.inl hlost⟩
  · obtain ⟨used,hused,hsize,hgood⟩ := hsized.and hmoves
    exact ⟨used,hused,hstart,hsize,hsplit hused,hgood⟩

/-- What one pass keeps. -/
theorem tracks_iter (h : Tracks s d seen (data++later)) :
    Moves (Tracks s) later seen data (iter d data) := by
  apply tracks_of_moves h.split (started_iter h.started data) (sized_iter h.sized)
  rcases h.good with hlost | hlocated
  · exact .inl (lost_iter h.started hlost data)
  · exact .inr (located_iter h.started h.sized hlocated)

theorem tracks_start (hd : d.parseState = .start) (data later : Bytes) :
    Moves (Tracks (data++later)) later [] data (iter d data) := by
  have hiter : iter d data = readToSpace (restart d) data := by rw [iter,hd]
  rw [hiter]
  apply tracks_of_moves (List.nil_append _) (started_readToSpace (by simp [restart]) data)
  · exact sized_readToSpace rfl rfl
  · exact .inr (located_readToSpace rfl rfl (located_restart d _))

theorem tracks_httpParseData (h : Tracks s d seen (data++later)) :
    Moves (Tracks s) later seen data (httpParseData d data) := by
  induction d, data using httpParseData.induct generalizing seen with
  | case1 d data hgo ih =>
      rw [httpParseData_iter hgo.1 hgo.2]
      obtain ⟨used,hused,hnext⟩ := tracks_iter h
      obtain ⟨more,hmore,hend⟩ := ih hnext
      refine ⟨used++more,?_,by rwa [← List.append_assoc]⟩
      rw [List.append_assoc,← hmore,← hused]
  | case2 d data hend =>
      rw [httpParseData,dif_neg hend]
      exact moves_none h

end streams

section header
variable {before rest : Bytes}

theorem takeWhile_behind {p : UInt8 → Bool} (hp : p 0x0a = false) (before rest : Bytes) :
    (before++0x0a::rest).takeWhile p = before.takeWhile p := by
  rw [List.takeWhile_append]
  split_ifs with hall
  · rw [List.takeWhile_cons,hp,if_neg (by decide),List.append_nil]
    exact (List.takeWhile_prefix p).eq_of_length hall |>.symm
  · rfl

/-- Where a line ends, its value does too. -/
theorem hostValue_behind (before rest : Bytes) :
    hostValue (before++0x0a::rest) = hostValue (before++[0x0a]) := by
  by_cases hlen : 5 ≤ before.length
  · have htake (tail : Bytes) : (before++tail).take 5 = before.take 5 :=
      List.take_append_of_le_length hlen
    have hdrop (k : ℕ) (hk : k ≤ before.length) (tail : Bytes) :
        (before++tail).drop k = before.drop k++tail := List.drop_append_of_le_length hk
    have hblanks : ((before.drop 5).takeWhile isBlank).length ≤ (before.drop 5).length :=
      (List.takeWhile_prefix _).length_le
    rw [List.length_drop] at hblanks
    have hoffset : 5+((before.drop 5).takeWhile isBlank).length ≤ before.length := by omega
    simp only [hostValue,htake,hdrop 5 hlen,takeWhile_behind (p := isBlank) rfl,hdrop _ hoffset,
      takeWhile_behind (p := isWord) rfl]
  · have hno (tail : Bytes) : ((before++0x0a::tail).take 5).map toLower ≠ bytesOf "host:" := by
      intro h
      have hmem : (0x0a : UInt8) ∈ ((before++0x0a::tail).take 5).map toLower := by
        refine List.mem_map.mpr ⟨0x0a,?_,rfl⟩
        rw [List.take_append,List.mem_append]
        right
        rw [show 5-before.length = (4-before.length)+1 by omega,List.take_succ_cons]
        exact List.mem_cons_self ..
      rw [h] at hmem
      exact absurd hmem (by decide)
    rw [hostValue,hostValue,if_neg (hno rest),if_neg (hno [])]

theorem hostField_start (before rest : Bytes) {n : ℕ} (hn : n ≤ before.length) :
    hostField (before++0x0a::rest) n = hostField (before++[0x0a]) n := by
  induction n with
  | zero => rfl
  | succ n ih =>
      have hget (tail : Bytes) : (before++tail)[n]? = before[n]? := List.getElem?_append_left hn
      have hdrop (tail : Bytes) : (before++tail).drop (n+1) = before.drop (n+1)++tail :=
        List.drop_append_of_le_length hn
      rw [hostField,hostField,hget,hget,hdrop,hdrop,hostValue_behind,ih (Nat.le_of_succ_le hn)]

/-- The last line feed of a header begins no line of it. -/
theorem hostField_header (before rest : Bytes) :
    hostField (before++0x0a::rest) before.length =
      hostField (before++[0x0a]) (before++[0x0a]).length := by
  rw [hostField_start before rest (Nat.le_refl _),List.length_append,List.length_singleton]
  symm
  have hlf : (before++[0x0a])[before.length]? = some 0x0a := by simp
  have hdrop : (before++[0x0a]).drop (before.length+1) = [] := by
    apply List.drop_eq_nil_of_le
    simp
  rw [hostField_succ_of_lf hlf,hdrop]
  rfl

theorem firstLine_header (before rest : Bytes) :
    firstLine (before++0x0a::rest) = firstLine (before++[0x0a]) := by
  rw [firstLine,firstLine,takeWhile_behind (by decide),takeWhile_behind (by decide)]

end header

/-- The blocks of a message one after another, until the query is done; with the bytes
that were taken. -/
def parseBlocks (d : HtsData) (seen : Bytes) : List Bytes → HtsData × Bytes
  | [] => (d,seen)
  | block::blocks =>
      if Stopped d then (d,seen)
      else
        let r := httpParseData d block
        parseBlocks r.1 (seen++block.take (block.length-r.2.length)) blocks

theorem parseBlocks_of_stopped (hd : Stopped d) (seen : Bytes) (blocks : List Bytes) :
    parseBlocks d seen blocks = (d,seen) := by
  cases blocks with
  | nil => rfl
  | cons block blocks => rw [parseBlocks,if_pos hd]

theorem tracks_next {s seen block : Bytes} {r : HtsData × Bytes} {blocks : List Bytes}
    (hrest : ¬Stopped r.1 → r.2 = []) (h : Moves (Tracks s) blocks.flatten seen block r)
    (ih : ∀ {d seen}, Tracks s d seen blocks.flatten →
      ∃ rest, Tracks s (parseBlocks d seen blocks).1 (parseBlocks d seen blocks).2 rest) :
    ∃ rest, Tracks s
      (parseBlocks r.1 (seen++block.take (block.length-r.2.length)) blocks).1
      (parseBlocks r.1 (seen++block.take (block.length-r.2.length)) blocks).2 rest := by
  obtain ⟨used,hused,hnext⟩ := h
  have htake : block.take (block.length-r.2.length) = used := by
    rw [hused]
    simp
  rw [htake]
  by_cases hstop : Stopped r.1
  · rw [parseBlocks_of_stopped hstop]
    exact ⟨_,hnext⟩
  · rw [hrest hstop] at hnext
    exact ih hnext

theorem tracks_parseBlocks {s seen : Bytes} (blocks : List Bytes)
    (h : Tracks s d seen blocks.flatten) :
    ∃ rest, Tracks s (parseBlocks d seen blocks).1 (parseBlocks d seen blocks).2 rest := by
  induction blocks generalizing d seen with
  | nil => exact ⟨_,h⟩
  | cons block blocks ih =>
      rw [parseBlocks]
      split_ifs
      · exact ⟨_,h⟩
      · rw [List.flatten_cons] at h
        exact tracks_next httpParseData_rest (tracks_httpParseData h) ih

/-- From the start, over a stream with a byte at least. -/
theorem tracks_blocks (hd : d.parseState = .start) {blocks : List Bytes} (hne : blocks.flatten ≠ []) :
    ∃ rest, Tracks blocks.flatten (parseBlocks d [] blocks).1 (parseBlocks d [] blocks).2 rest := by
  have hgo : ¬Stopped d := by simp [Stopped,hd]
  induction blocks with
  | nil => exact absurd rfl hne
  | cons block blocks ih =>
      rw [parseBlocks,if_neg hgo]
      by_cases hblock : block = []
      · subst hblock
        rw [httpParseData_nil]
        exact ih hne
      · have hfirst : Moves (Tracks (block++blocks.flatten)) blocks.flatten [] block
            (httpParseData d block) := by
          rw [httpParseData_iter hblock hgo]
          obtain ⟨used,hused,hnext⟩ := tracks_start hd block blocks.flatten
          obtain ⟨more,hmore,hend⟩ := tracks_httpParseData hnext
          refine ⟨used++more,?_,by rwa [← List.append_assoc]⟩
          rw [List.append_assoc,← hmore,← hused]
        exact tracks_next httpParseData_rest hfirst (tracks_parseBlocks blocks)

/-- One test of the loop condition and one pass. -/
def pass (x : HtsData × Bytes) : Loop.Pass (HtsData × Bytes) (HtsData × Bytes) :=
  if x.2 ≠ [] ∧ ¬Stopped x.1 then .again (iter x.1 x.2) else .leave x

/-- The loop of `http_parse_data` ends. -/
theorem httpParseData_ends (d : HtsData) (data : Bytes) :
    ∃ fuel, Loop.loop pass fuel (d,data) = some (httpParseData d data) := by
  induction d, data using httpParseData.induct with
  | case1 d data hgo ih =>
      obtain ⟨fuel,hfuel⟩ := ih
      refine ⟨fuel+1,?_⟩
      rw [Loop.loop,pass,if_pos hgo,httpParseData_iter hgo.1 hgo.2]
      exact hfuel
  | case2 d data hend =>
      refine ⟨1,?_⟩
      rw [Loop.loop,pass,if_neg hend,httpParseData,dif_neg hend]

/-- What a parser says of a header when it is done with it. -/
structure Describes (d : HtsData) (header : Bytes) : Prop where
  size : d.headerSize = header.length
  uri : (d.uriOffset,d.uriSize) = secondWordOf (firstLine header)
  uri_le : d.uriOffset+d.uriSize ≤ d.headerSize
  host : (d.hostOffset,d.hostSize) = hostField header header.length
  host_le : d.hostOffset+d.hostSize ≤ d.headerSize

theorem describes_of_done {s header rest : Bytes} (h : Tracks s d header rest)
    (hdone : d.parseState = .done) (hgood : d.queryFlags.error = false) : Describes d header := by
  have hsized := h.sized
  rw [Sized,hdone] at hsized
  rcases h.good with hlost | hlocated
  · rw [Lost,hgood,hdone] at hlost
    simp at hlost
  · cases hlocated.place with
    | done before _ hwords hknown hseen =>
        subst hseen
        have hs : before++0x0a::rest = s := by simpa using h.split
        obtain ⟨huri,huriLe⟩ := hlocated.uri hwords
        obtain ⟨hhost,hhostLe⟩ := hknown
        rw [← hs,firstLine_header] at huri
        rw [← hs,hostField_header] at hhost
        exact ⟨hsized.2 hgood,huri,huriLe,hhost,hhostLe⟩
    | line hstate => rw [InLine,hdone] at hstate; cases hstate
    | method hstate => rw [hdone] at hstate; cases hstate
    | gap _ _ hstate => rw [hdone] at hstate; cases hstate
    | uri _ _ _ hstate => rw [hdone] at hstate; cases hstate
    | newline _ hstate => rw [hdone] at hstate; cases hstate
    | name _ _ hstate => rw [hdone] at hstate; cases hstate
    | hostGap _ _ _ hstate => rw [hdone] at hstate; cases hstate
    | hostWord _ _ _ _ hstate => rw [hdone] at hstate; cases hstate

theorem headerSize_le {s seen rest : Bytes} (h : Tracks s d seen rest) :
    d.headerSize ≤ seen.length := by
  have hsized := h.sized
  rw [Sized] at hsized
  split at hsized
  · exact absurd ‹_› h.started
  · omega
  · omega
  · exact hsized
  · exact hsized.1
  · omega

theorem ready_parseBlocks (h : Ready d) (seen : Bytes) (blocks : List Bytes) :
    Ready (parseBlocks d seen blocks).1 := by
  induction blocks generalizing d seen with
  | nil => exact h
  | cons block blocks ih =>
      rw [parseBlocks]
      split_ifs
      · exact h
      · exact ih (ready_httpParseData h block) _

/-- However a stream is cut into blocks, no assertion of the parser fails and every call
ends; the header is not counted beyond the bytes taken, and a query without an error is
described as it stands in them. -/
theorem offsets_exact (d : HtsData) (hd : d.parseState = .start) (blocks : List Bytes)
    (hne : blocks.flatten ≠ []) :
    (∀ e data, ∃ fuel, Loop.loop pass fuel (e,data) = some (httpParseData e data)) ∧
      (parseBlocks d [] blocks).1.parseState ≠ .aborted ∧
      (parseBlocks d [] blocks).2 <+: blocks.flatten ∧
      (parseBlocks d [] blocks).1.headerSize ≤ (parseBlocks d [] blocks).2.length ∧
      ((parseBlocks d [] blocks).1.parseState = .done →
        (parseBlocks d [] blocks).1.queryFlags.error = false →
        Describes (parseBlocks d [] blocks).1 (parseBlocks d [] blocks).2) := by
  obtain ⟨rest,htracks⟩ := tracks_blocks hd hne
  have hready : Ready (parseBlocks d [] blocks).1 :=
    ready_parseBlocks (by simp [Ready,hd]) [] blocks
  refine ⟨httpParseData_ends,?_,⟨rest,htracks.split⟩,headerSize_le htracks,describes_of_done htracks⟩
  intro haborted
  rwa [Ready,haborted] at hready

/-- A query with two `Host` lines and one without a value, cut in a name and in a word. -/
theorem offsets_exact_sample :
    (parseBlocks {} [] [bytesOf "GET /ab HTTP/1.1\r\nHost: x\r\nHo",bytesOf "st:\t yy",
        bytesOf "y\r\nHost:\r\n\r\nGET"]).1.parseState = .done ∧
      Describes (parseBlocks {} [] [bytesOf "GET /ab HTTP/1.1\r\nHost: x\r\nHo",bytesOf "st:\t yy",
          bytesOf "y\r\nHost:\r\n\r\nGET"]).1
        (bytesOf "GET /ab HTTP/1.1\r\nHost: x\r\nHost:\t yyy\r\nHost:\r\n\r\n") := by
  have hdone : (parseBlocks {} [] [bytesOf "GET /ab HTTP/1.1\r\nHost: x\r\nHo",bytesOf "st:\t yy",
      bytesOf "y\r\nHost:\r\n\r\nGET"]).1.parseState = .done := by decide +kernel
  have hexact := offsets_exact {} rfl [bytesOf "GET /ab HTTP/1.1\r\nHost: x\r\nHo",
    bytesOf "st:\t yy",bytesOf "y\r\nHost:\r\n\r\nGET"] (by decide)
  have hheader := hexact.2.2.2.2 hdone (by decide +kernel)
  have htaken : (parseBlocks {} [] [bytesOf "GET /ab HTTP/1.1\r\nHost: x\r\nHo",bytesOf "st:\t yy",
      bytesOf "y\r\nHost:\r\n\r\nGET"]).2 =
      bytesOf "GET /ab HTTP/1.1\r\nHost: x\r\nHost:\t yyy\r\nHost:\r\n\r\n" := by decide +kernel
  rw [htaken] at hheader
  exact ⟨hdone,hheader⟩

end Teleproxy.HttpParse
