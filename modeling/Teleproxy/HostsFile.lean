import Mathlib.Algebra.Order.BigOperators.Group.List
import Teleproxy.DecimalNumber
import Teleproxy.Lib.LineWindow

/-!
# Parsing the hosts file

The file is read into a buffer with a terminator behind it, and a pointer into
the buffer is the rest of the buffer that it points at, so the empty rest is the
first address outside. A number of an address may take the loop out of its line:
`strtoul` skips every kind of space, and the character behind a number is passed
before it is compared with a dot. Lines that do not lead to that are read on
their own, and then `parseLines` does what is to be done for each name of the
file, in the order of the lines.
-/
namespace Teleproxy.HostsFile
open ClientInput ProxyProtocol DecimalNumber

/-- What ends a run of the code other than a return. -/
inductive Fault where
  /-- Memory outside the buffer or outside the table. -/
  | outside
  /-- A loop that does not end. -/
  | endless
  | assertion
  deriving DecidableEq, Repr

/-- `*ptr` -/
def deref (ptr : Bytes) : Except Fault UInt8 :=
  match ptr with
  | [] => .error .outside
  | c::_ => .ok c

/-- The loop `while (p (*ptr)) { ++ptr; }`, with the characters it passes. -/
def scan (p : UInt8 → Bool) (ptr : Bytes) : Except Fault (Bytes × Bytes) :=
  match ptr.dropWhile p with
  | [] => .error .outside
  | c::rest => .ok (ptr.takeWhile p,c::rest)

def isBlank (c : UInt8) : Bool := c = 32 || c = 9

def skipspc (ptr : Bytes) : Except Fault Bytes := do
  let (_,ptr) ← scan isBlank ptr
  return ptr

def skiptoeoln (ptr : Bytes) : Except Fault Bytes := do
  let (_,ptr) ← scan (fun c => c ≠ 0 && c ≠ 10) ptr
  let c ← deref ptr
  return if c ≠ 0 then ptr.tail else ptr

/-- The word, which is empty when the code returns a null pointer, and what
stands behind it. -/
def getword (ptr : Bytes) : Except Fault (Bytes × Bytes) := do
  let start ← skipspc ptr
  scan (fun c => c ≠ 0 && !isBlank c && c ≠ 10) start

/-- `strtoul` reads one character more than the number. -/
def readbyte (ptr : Bytes) : Except Fault (Option (ℕ × Bytes)) :=
  if (decimal.lex ptr).2.2 = [] then .error .outside
  else
    let (number,tmp) := strtoul ptr
    let val := number%2^32
    .ok (if tmp = ptr ∨ 255 < val then none else some (val,tmp))

/-- `(ip << 8) | res` -/
def appendByte (ip : BitVec 32) (res : ℕ) : BitVec 32 := ip <<< 8 ||| BitVec.ofNat 32 res

/-- The loop over the numbers of an address: how many of them are still to be
read when it is left, the address and the pointer. -/
def address : ℕ → BitVec 32 → Bytes → Except Fault (ℕ × BitVec 32 × Bytes)
  | 0, ip, ptr => .ok (0,ip,ptr)
  | left+1, ip, ptr => do
      match ← readbyte ptr with
      | none => return (left+1,ip,ptr)
      | some (res,ptr) =>
          let ip := appendByte ip res
          if left = 0 then address left ip ptr
          else
            let c ← deref ptr
            if c ≠ 46 then return (left+1,ip,ptr.tail)
            else address left ip ptr.tail

section
variable {S : Type} (visit : S → Bytes → BitVec 32 → Except Fault S)

/-- The loop over the names of a line. -/
def words (ip : BitVec 32) : ℕ → S → Bytes → ℕ → Except Fault (S × Bytes × ℕ)
  | 0, _, _, _ => .error .endless
  | fuel+1, s, ptr, ans => do
      let (word,ptr) ← getword ptr
      if word = [] then return (s,ptr,ans)
      else if word.length < 128 then
        let s ← visit s word ip
        words ip fuel s ptr (ans+1)
      else words ip fuel s ptr ans

/-- The body of the loop over the lines, with what is done for a name. -/
def parseLine (s : S) (ptr : Bytes) (ans : ℕ) : Except Fault (S × Bytes × ℕ) := do
  let ptr ← skipspc ptr
  let (left,ip,ptr) ← address 4 0 ptr
  if left ≠ 0 then return (s,ptr,ans)
  else
    let c ← deref ptr
    if !isBlank c || ip = 0 then return (s,ptr,ans)
    else words visit ip ptr.length s ptr ans

def parseLines : ℕ → S → Bytes → ℕ → Except Fault (S × ℕ)
  | 0, _, _, _ => .error .endless
  | fuel+1, s, ptr, ans => do
      let c ← deref ptr
      if c = 0 then return (s,ans)
      else
        let (s,ptr,ans) ← parseLine visit s ptr ans
        let ptr ← skiptoeoln ptr
        parseLines fuel s ptr ans

end

/-- A number of an address. -/
def decimalByte (digits : Bytes) : Option ℕ :=
  if digits ≠ [] ∧ digits.all isDigit ∧ digitsValue digits ≤ 255 then some (digitsValue digits)
  else none

/-- The numbers of the address that a text starts with. -/
def octets (t : Bytes) : Option (List ℕ) :=
  ((t.takeWhile fun c => !isBlank c).splitOn 46).mapM decimalByte

/-- The names that a text holds between blanks. -/
def names (t : Bytes) : List Bytes :=
  (t.splitOnP isBlank).filter fun w => w ≠ [] && w.length < 128

/-- The address of a line `a.b.c.d name ..` and its names. -/
def lineEntry (l : Bytes) : Option (BitVec 32 × List Bytes) :=
  let t := l.dropWhile isspace
  match octets t with
  | some [a,b,c,d] =>
      let ip := BitVec.ofNat 32 (((a*256+b)*256+c)*256+d)
      if ip = 0 then none else some (ip,names (t.dropWhile fun c => !isBlank c))
  | _ => none

/-- The names of a line, each with its address. -/
def lineHosts (l : Bytes) : List (Bytes × BitVec 32) :=
  match lineEntry l with
  | none => []
  | some (ip,names) => names.map (·,ip)

def hosts (content : Bytes) : List (Bytes × BitVec 32) :=
  (LineWindow.lines 10 content).flatMap lineHosts

/-- The address of the line if it contains the name. -/
def lineAddress (name l : Bytes) : Option (BitVec 32) :=
  match lineEntry l with
  | none => none
  | some (ip,names) => if name ∈ names then some ip else none

/-- The address of the first line that contains the name. -/
def hostAddress (content name : Bytes) : Option (BitVec 32) :=
  (LineWindow.lines 10 content).findSome? (lineAddress name)

/-- The buffer that holds these lines. -/
def buffer : List Bytes → Bytes
  | [] => [0]
  | [l] => l++[0]
  | l::ls => l++10::buffer ls

/-- `strtoul` finds a number at the pointer, and `readbyte` takes it. -/
def accepted (ptr : Bytes) : Bool :=
  let (sign,digits,_) := decimal.lex ptr
  digits ≠ [] && unsignedValue sign digits%2^32 ≤ 255

/-- From here on `address` takes nothing but numbers of digits, with `left` numbers to come
behind this one, and it does not leave the line: a number that is not the last of the address
is not the last of the line, and a number with a sign or space in front of it, which may stand
on a later line in `rest`, or one above 255 is not taken. -/
def plain (rest : Bytes) : ℕ → Bytes → Bool
  | left, t =>
      let digits := t.takeWhile isDigit
      if digits = [] then !accepted (t++rest)
      else if digitsValue digits ≤ 255 then
        match left, t.dropWhile isDigit with
        | 0, _ => true
        | _+1, [] => false
        | left+1, c::t => c ≠ 46 || plain rest left t
      else 255 < unsignedValue none digits%2^32

/-- The line is plain in front of the rest of the buffer. -/
def plainLine (rest l : Bytes) : Bool :=
  l.all isspace || plain rest 3 (l.dropWhile isspace)

def plainLines : List Bytes → Bool
  | [] => true
  | [l] => plainLine [0] l
  | l::ls => plainLine (10::buffer ls) l && plainLines ls

section
variable {p : UInt8 → Bool} {t rest : Bytes} {c : UInt8}

theorem scan_append (hc : p c = false) :
    scan p (t++c::rest) = .ok (t.takeWhile p,t.dropWhile p++c::rest) := by
  unfold scan
  rw [(Numeral.while_append_cons hc).1,(Numeral.while_append_cons hc).2]
  cases t.dropWhile p <;> rfl

/-- Characters of a line. -/
def Text (t : Bytes) : Prop := ∀ x ∈ t, x ≠ 0 ∧ x ≠ 10

theorem Text.suffix {t' : Bytes} (ht : Text t) (h : t' <:+ t) : Text t' :=
  fun x hx => ht x (h.subset hx)

theorem dropWhile_suffix (p : UInt8 → Bool) (t : Bytes) : t.dropWhile p <:+ t :=
  List.dropWhile_suffix p

variable (hc : c = 0 ∨ c = 10)
include hc

theorem isBlank_end : isBlank c = false := by
  rcases hc with rfl | rfl <;> rfl

theorem isDigit_end : isDigit c = false := by
  rcases hc with rfl | rfl <;> rfl

theorem skipspc_append : skipspc (t++c::rest) = .ok (t.dropWhile isBlank++c::rest) := by
  rw [skipspc,scan_append (isBlank_end hc)]
  rfl

theorem skiptoeoln_append (ht : Text t) :
    skiptoeoln (t++c::rest) = .ok (if c ≠ 0 then rest else c::rest) := by
  have hnone : t.dropWhile (fun c => c ≠ 0 && c ≠ 10) = [] := by
    rw [List.dropWhile_eq_nil_iff]
    intro x hx
    simp [ht x hx]
  rw [skiptoeoln,scan_append (by rcases hc with rfl | rfl <;> rfl),hnone]
  rfl

theorem getword_append (ht : Text t) :
    getword (t++c::rest) =
      .ok ((t.dropWhile isBlank).takeWhile fun c => !isBlank c,
        (t.dropWhile isBlank).dropWhile (fun c => !isBlank c)++c::rest) := by
  have hword : ∀ s : Bytes, Text s →
      (s.takeWhile fun c => c ≠ 0 && !isBlank c && c ≠ 10) = s.takeWhile (fun c => !isBlank c) ∧
      (s.dropWhile fun c => c ≠ 0 && !isBlank c && c ≠ 10) = s.dropWhile (fun c => !isBlank c) := by
    intro s hs
    induction s with
    | nil => simp
    | cons x s ih =>
        have hx := hs x (by simp)
        have ih := ih (hs.suffix (List.suffix_cons x s))
        cases hb : isBlank x <;> simp_all
  have hs := hword _ (ht.suffix (dropWhile_suffix isBlank t))
  rw [getword,skipspc_append hc]
  show scan _ _ = _
  rw [scan_append (by rcases hc with rfl | rfl <;> rfl),hs.1,hs.2]

end

theorem names_dropWhile (t : Bytes) : names (t.dropWhile isBlank) = names t := by
  induction t with
  | nil => rfl
  | cons x t ih =>
      cases hx : isBlank x with
      | false => simp [hx]
      | true =>
          rw [List.dropWhile_cons_of_pos hx,ih,names,names,
            List.splitOnP_cons_eq_if_modifyHead,if_pos hx]
          simp

theorem names_word {w t : Bytes} (hw : w ≠ []) (hword : ∀ x ∈ w, isBlank x = false)
    (ht : ∀ x ∈ t.head?, isBlank x = true) :
    names (w++t) = (if w.length < 128 then [w] else [])++names t := by
  have hsplit : (w++t).splitOnP isBlank = w::(t.splitOnP isBlank).tail ∧
      names t = ((t.splitOnP isBlank).tail).filter fun w => w ≠ [] && w.length < 128 := by
    cases t with
    | nil =>
        rw [List.append_nil,List.splitOnP_eq_singleton hword]
        exact ⟨rfl,rfl⟩
    | cons x t =>
        have hx := ht x rfl
        rw [List.splitOnP_append_cons_of_forall_mem hword x hx,
          List.splitOnP_cons_eq_if_modifyHead,if_pos hx]
        refine ⟨rfl,?_⟩
        rw [names,List.splitOnP_cons_eq_if_modifyHead,if_pos hx]
        simp
  rw [names,hsplit.1,hsplit.2,List.filter_cons]
  split <;> split <;> simp_all

section
variable {S : Type} {visit : S → Bytes → BitVec 32 → Except Fault S} {ip : BitVec 32}

/-- The loop over the names does what is to be done for each. -/
theorem words_eq {rest : Bytes} {c : UInt8} (hc : c = 0 ∨ c = 10) {t : Bytes} (ht : Text t)
    {fuel : ℕ} (hfuel : t.length < fuel) (s : S) (ans : ℕ) :
    words visit ip fuel s (t++c::rest) ans =
      (names t).foldlM (fun s w => visit s w ip) s >>= fun s =>
        .ok (s,c::rest,ans+(names t).length) := by
  induction fuel generalizing t s ans with
  | zero => omega
  | succ fuel ih =>
      have hnames := names_dropWhile t
      have hsub := dropWhile_suffix isBlank t
      have hstart := Numeral.dropWhile_head? isBlank t
      rw [words,getword_append hc ht]
      generalize t.dropWhile isBlank = u at hnames hsub hstart
      have hcut : u.takeWhile (fun c => !isBlank c)++u.dropWhile (fun c => !isBlank c) = u :=
        List.takeWhile_append_dropWhile
      have hword : ∀ x ∈ u.takeWhile (fun c => !isBlank c), isBlank x = false := by
        intro x hx
        simpa using List.mem_takeWhile_imp hx
      have hnext : ∀ x ∈ (u.dropWhile fun c => !isBlank c).head?, isBlank x = true := by
        intro x hx
        simpa using Numeral.dropWhile_head? (fun c => !isBlank c) u x hx
      have hlen := hsub.length_le
      have htext := (ht.suffix hsub).suffix (dropWhile_suffix (fun c => !isBlank c) u)
      rw [← hnames]
      cases hw : u.takeWhile fun c => !isBlank c with
      | nil =>
          have hu : u = [] := by
            cases u with
            | nil => rfl
            | cons x u => simp [hstart x rfl] at hw
          rw [hu]
          rfl
      | cons x w =>
          rw [hw] at hcut hword
          generalize (u.dropWhile fun c => !isBlank c) = v at hcut hnext htext
          have hv : v.length < fuel := by
            have := congrArg List.length hcut
            simp only [List.length_append,List.length_cons] at this
            omega
          rw [← hcut,names_word (by simp) hword hnext]
          show (if _ then _ else _) = _
          split
          · show (visit s (x::w) ip >>= _) = _
            rw [List.singleton_append,List.foldlM_cons,bind_assoc]
            congr 1
            funext s
            rw [ih htext hv,List.length_cons]
            congr 1
            funext s
            congr 3
            omega
          · exact ih htext hv s ans

end

theorem readbyte_eq (ptr : Bytes) :
    readbyte ptr =
      if (decimal.lex ptr).2.2 = [] then .error .outside
      else if (decimal.lex ptr).2.1 = [] ∨
          255 < unsignedValue (decimal.lex ptr).1 (decimal.lex ptr).2.1%2^32 then .ok none
      else .ok (some (unsignedValue (decimal.lex ptr).1 (decimal.lex ptr).2.1%2^32,
        (decimal.lex ptr).2.2)) := by
  have hlen : (decimal.lex ptr).2.1 ≠ [] → (decimal.lex ptr).2.2 ≠ ptr := by
    intro h he
    have := Numeral.lex_rest_length h
    rw [he] at this
    exact lt_irrefl _ this
  unfold readbyte strtoul
  generalize decimal.lex ptr = cut at hlen
  have (sign,digits,rest) := cut
  dsimp only at hlen ⊢
  by_cases hd : digits = []
  · simp [hd]
  · simp only [hd,hlen hd,if_false,false_or]
    split
    · rfl
    · split <;> rfl

theorem readbyte_blanks {ws : Bytes} (hws : ∀ x ∈ ws, isspace x) (ptr : Bytes) :
    readbyte (ws++ptr) = readbyte ptr := by
  rw [readbyte_eq,readbyte_eq,Numeral.lex_blanks hws]

section
variable {t rest : Bytes} {c : UInt8} (hc : c = 0 ∨ c = 10)
include hc

theorem lex_digits (h : t.takeWhile isDigit ≠ []) :
    decimal.lex (t++c::rest) = (none,t.takeWhile isDigit,t.dropWhile isDigit++c::rest) := by
  refine Numeral.lex_of_starts (A := decimal)
    ⟨⟨[],by simp,?_⟩,by simp,h,fun x hx => List.mem_takeWhile_imp hx,?_⟩
  · rw [Option.toList_none,List.nil_append,List.nil_append,← List.append_assoc,
      List.takeWhile_append_dropWhile]
  · intro x hx
    have hd : _ ∧ (t++c::rest).dropWhile isDigit = _ :=
      Numeral.while_append_cons (isDigit_end hc)
    rw [← hd.2] at hx
    exact Numeral.dropWhile_head? isDigit _ x hx

theorem readbyte_digits (h : t.takeWhile isDigit ≠ []) :
    readbyte (t++c::rest) =
      .ok (if 255 < unsignedValue none (t.takeWhile isDigit)%2^32 then none
        else some (unsignedValue none (t.takeWhile isDigit)%2^32,t.dropWhile isDigit++c::rest)) := by
  rw [readbyte_eq,lex_digits hc h]
  simp only [h,List.append_eq_nil_iff,List.cons_ne_nil,and_false,if_false,false_or]
  split <;> rfl

end

theorem unsignedValue_of_le {digits : Bytes} (h : digitsValue digits ≤ 255) :
    unsignedValue none digits%2^32 = digitsValue digits := by
  unfold unsignedValue
  rw [if_neg (by omega),if_neg (by simp)]
  omega

/-- A number that `readbyte` does not take; the buffer ends behind the pointer. -/
theorem readbyte_none {ptr : Bytes} (hzero : 0 ∈ ptr) (h : accepted ptr = false) :
    readbyte ptr = .ok none := by
  have hrest : (decimal.lex ptr).2.2 ≠ [] :=
    Numeral.lex_rest_ne_nil hzero rfl rfl (by decide) (by decide)
  rw [readbyte_eq,if_neg hrest,if_pos]
  unfold accepted at h
  by_cases hd : (decimal.lex ptr).2.1 = []
  · exact .inl hd
  · exact .inr (by simpa [hd] using h)

theorem isBlank_of_isDigit {x : UInt8} (h : isDigit x) : isBlank x = false := by
  have := isspace_of_isDigit x h
  simp only [isspace,Bool.or_eq_false_iff,decide_eq_false_iff_not] at this
  cases hx : isBlank x with
  | false => rfl
  | true =>
      simp only [isBlank,Bool.or_eq_true,decide_eq_true_eq] at hx
      rcases hx with rfl | rfl
      · exact absurd rfl this.1
      · exact absurd this.2 (by decide)

/-- The first number of an address is the run of digits that the text starts with,
when a dot or a blank or nothing follows. -/
theorem octets_eq (t : Bytes) :
    octets t =
      match t.dropWhile isDigit with
      | [] => (decimalByte (t.takeWhile isDigit)).map ([·])
      | x::r =>
          if isBlank x then (decimalByte (t.takeWhile isDigit)).map ([·])
          else if x = 46 then do
            let a ← decimalByte (t.takeWhile isDigit)
            let as ← octets r
            return a::as
          else none := by
  have hdigits : ∀ x ∈ t.takeWhile isDigit, isDigit x := fun x hx => List.mem_takeWhile_imp hx
  have hhead := Numeral.dropWhile_head? isDigit t
  have ht : t.takeWhile isDigit++t.dropWhile isDigit = t := List.takeWhile_append_dropWhile
  generalize t.takeWhile isDigit = d at hdigits ht
  generalize t.dropWhile isDigit = r at hhead ht
  have hdot : 46 ∉ d := fun h => absurd (hdigits 46 h) (by decide)
  have hfield : t.takeWhile (fun c => !isBlank c) = d++r.takeWhile (fun c => !isBlank c) := by
    rw [← ht,List.takeWhile_append_of_pos]
    intro x hx
    simp [isBlank_of_isDigit (hdigits x hx)]
  have hsingle : (d.splitOn 46).mapM decimalByte = (decimalByte d).map ([·]) := by
    rw [List.splitOn_eq_singleton hdot,List.mapM_cons]
    cases decimalByte d <;> rfl
  rw [octets,hfield]
  cases r with
  | nil => rw [List.takeWhile_nil,List.append_nil,hsingle]
  | cons x r =>
      dsimp only
      split
      · next hx => rw [List.takeWhile_cons_of_neg (by simp [hx]),List.append_nil,hsingle]
      · next hx =>
          rw [List.takeWhile_cons_of_pos (by simpa using hx)]
          split
          · next h46 =>
              rw [h46,← LineWindow.lines,LineWindow.lines_line _ _ hdot,List.mapM_cons]
              rfl
          · next h46 =>
              have hline : 46 ∉ d++[x] := by simp [hdot,Ne.symm h46]
              rw [← LineWindow.lines,List.append_cons,LineWindow.lines_append _ _ hline]
              cases hl : LineWindow.lines 46 (r.takeWhile fun c => !isBlank c) with
              | nil => exact absurd hl (List.splitOn_ne_nil 46 _)
              | cons f fs =>
                  have hnone : decimalByte (d++[x]++f) = none := by
                    rw [decimalByte,if_neg]
                    simp [hhead x rfl]
                  rw [List.modifyHead_cons,List.mapM_cons,hnone]
                  rfl

theorem length_octets {t : Bytes} {os : List ℕ} (h : octets t = some os) : os ≠ [] := by
  have := List.splitOn_ne_nil (46 : UInt8) (t.takeWhile fun c => !isBlank c)
  rw [octets] at h
  cases hs : (t.takeWhile fun c => !isBlank c).splitOn 46 with
  | nil => exact absurd hs this
  | cons f fs =>
      rintro rfl
      rw [hs,List.mapM_cons] at h
      cases hf : decimalByte f <;> cases hfs : fs.mapM decimalByte <;> simp [hf,hfs] at h

/-- What `address` makes of a text with `left` numbers to come behind the next. -/
inductive Outcome (left : ℕ) (t : Bytes) (ip : BitVec 32) : ℕ → BitVec 32 → Bytes → Prop
  /-- The text starts with the numbers, and a blank or nothing stands behind them. -/
  | written {os : List ℕ} {r : Bytes} : octets t = some os → os.length = left+1 →
      r = (t.dropWhile fun c => !isBlank c) → (∀ x ∈ r.head?, isBlank x) →
      Outcome left t ip 0 (os.foldl appendByte ip) r
  | other {left' : ℕ} {ip' : BitVec 32} {r : Bytes} :
      (left' = 0 → ∃ x ∈ r.head?, isBlank x = false) →
      (∀ os, octets t = some os → os.length ≠ left+1) → Outcome left t ip left' ip' r

theorem dropWhile_field (t : Bytes) :
    t.dropWhile (fun c => !isBlank c) = (t.dropWhile isDigit).dropWhile fun c => !isBlank c := by
  conv_lhs => rw [← List.takeWhile_append_dropWhile (p := isDigit) (l := t)]
  rw [List.dropWhile_append_of_pos]
  intro x hx
  simp [isBlank_of_isDigit (List.mem_takeWhile_imp hx)]

/-- A text without a number in front does not start with an address. -/
theorem octets_none {t : Bytes} (h : decimalByte (t.takeWhile isDigit) = none) :
    octets t = none := by
  rw [octets_eq,h]
  cases t.dropWhile isDigit with
  | nil => rfl
  | cons x r =>
      dsimp only
      split
      · rfl
      · split <;> rfl

/-- The pass for a number with no dot behind it. -/
theorem outcome_stop {left : ℕ} {t r : Bytes} {x : UInt8} {ip ip' : BitVec 32} {left' : ℕ}
    (hr : t.dropWhile isDigit = x::r) (hdot : x ≠ 46) (hleft : left ≠ 0) :
    Outcome left t ip (left'+1) ip' r := by
  refine .other (by omega) fun os hos hlen => ?_
  rw [octets_eq,hr] at hos
  dsimp only at hos
  rw [if_neg hdot] at hos
  split at hos
  · have ⟨a,_,ha⟩ := Option.map_eq_some_iff.mp hos
    rw [← ha,List.length_singleton] at hlen
    omega
  · cases hos

/-- The pass for the last number. -/
theorem outcome_last {t : Bytes} {ip : BitVec 32} {n : ℕ}
    (hn : decimalByte (t.takeWhile isDigit) = some n) :
    Outcome 0 t ip 0 (appendByte ip n) (t.dropWhile isDigit) := by
  have hoctets := octets_eq t
  have hfield := dropWhile_field t
  rw [hn] at hoctets
  cases hr : t.dropWhile isDigit with
  | nil =>
      rw [hr] at hoctets hfield
      exact .written hoctets rfl hfield.symm (by simp)
  | cons x r =>
      rw [hr] at hoctets hfield
      dsimp only at hoctets
      split at hoctets
      · next hx =>
          rw [List.dropWhile_cons_of_neg (by simp [hx])] at hfield
          exact .written hoctets rfl hfield.symm (by simpa using hx)
      · next hx =>
          refine .other (fun _ => ⟨x,rfl,by simpa using hx⟩) fun os hos hlen => ?_
          rw [hoctets] at hos
          split at hos
          · cases has : octets r with
            | none => simp [has] at hos
            | some as =>
                have hne := length_octets has
                simp only [has,Option.pure_def,Option.bind_eq_bind,Option.bind_some,
                  Option.some.injEq] at hos
                rw [← hos,List.length_cons] at hlen
                exact hne (List.length_eq_zero_iff.mp (by omega))
          · cases hos

/-- The pass for a number with a dot behind it. -/
theorem Outcome.dot {left left' n : ℕ} {t r r' : Bytes} {ip ip' : BitVec 32}
    (hn : decimalByte (t.takeWhile isDigit) = some n) (hr : t.dropWhile isDigit = 46::r)
    (h : Outcome left r (appendByte ip n) left' ip' r') :
    Outcome (left+1) t ip left' ip' r' := by
  have hoctets : octets t = (octets r).map (n::·) := by
    rw [octets_eq,hn,hr]
    dsimp only
    rw [if_neg (by decide : ¬isBlank 46),if_pos rfl]
    cases octets r <;> rfl
  have hfield := dropWhile_field t
  rw [hr,List.dropWhile_cons_of_pos rfl] at hfield
  cases h with
  | @written os _ hos hlen hdrop hblank =>
      rw [hos,Option.map_some] at hoctets
      have hlen : (n::os).length = left+1+1 := by rw [List.length_cons,hlen]
      exact .written hoctets hlen (hdrop.trans hfield.symm) hblank
  | other hleft hnone =>
      refine .other hleft fun os hos hlen => ?_
      rw [hoctets] at hos
      have ⟨as,has,hcons⟩ := Option.map_eq_some_iff.mp hos
      rw [← hcons,List.length_cons] at hlen
      exact hnone as has (by omega)

theorem decimalByte_digits {t : Bytes} (h : t.takeWhile isDigit ≠ []) :
    decimalByte (t.takeWhile isDigit) =
      if digitsValue (t.takeWhile isDigit) ≤ 255 then some (digitsValue (t.takeWhile isDigit))
      else none := by
  have hall : (t.takeWhile isDigit).all isDigit :=
    List.all_eq_true.mpr fun x hx => List.mem_takeWhile_imp hx
  simp [decimalByte,h,hall]

section
variable {c : UInt8} (hc : c = 0 ∨ c = 10) {rest : Bytes} (hzero : 0 ∈ c::rest)
include hc hzero

/-- One pass of `address` over a plain text. -/
theorem address_pass {left : ℕ} {t : Bytes} (hplain : plain (c::rest) left t) (ip : BitVec 32) :
    (address (left+1) ip (t++c::rest) = .ok (left+1,ip,t++c::rest) ∧
        decimalByte (t.takeWhile isDigit) = none) ∨
      ∃ n, decimalByte (t.takeWhile isDigit) = some n ∧
        match left, t.dropWhile isDigit with
        | 0, r => address 1 ip (t++c::rest) =
            .ok (0,appendByte ip n,r++c::rest)
        | _+1, [] => False
        | left+1, x::r =>
            (x ≠ 46 ∧ address (left+1+1) ip (t++c::rest) =
              .ok (left+1+1,appendByte ip n,r++c::rest)) ∨
            (x = 46 ∧ plain (c::rest) left r ∧ address (left+1+1) ip (t++c::rest) =
              address (left+1) (appendByte ip n) (r++c::rest)) := by
  by_cases hd : t.takeWhile isDigit = []
  · have hnone : accepted (t++c::rest) = false := by
      unfold plain at hplain
      simpa [hd] using hplain
    refine .inl ⟨?_,by simp [hd,decimalByte]⟩
    rw [address,readbyte_none (List.mem_append_right t hzero) hnone]
    rfl
  · have hread : readbyte (t++c::rest) = _ := readbyte_digits hc hd
    by_cases hle : digitsValue (t.takeWhile isDigit) ≤ 255
    · refine .inr ⟨_,by rw [decimalByte_digits hd,if_pos hle],?_⟩
      rw [unsignedValue_of_le hle,if_neg (by omega)] at hread
      cases left with
      | zero =>
          dsimp only
          rw [address,hread]
          rfl
      | succ left =>
          unfold plain at hplain
          simp only [hd,hle,if_false,if_true] at hplain
          cases hr : t.dropWhile isDigit with
          | nil => simp [hr] at hplain
          | cons x r =>
              rw [hr] at hplain hread
              dsimp only
              by_cases hx : x = 46
              · refine .inr ⟨hx,by simpa [hx] using hplain,?_⟩
                rw [address,hread,hx]
                rfl
              · refine .inl ⟨hx,?_⟩
                rw [address,hread]
                show (if x ≠ 46 then _ else _) = _
                rw [if_pos hx]
                rfl
    · have hlarge : 255 < unsignedValue none (t.takeWhile isDigit)%2^32 := by
        unfold plain at hplain
        simpa [hd,hle] using hplain
      refine .inl ⟨?_,by rw [decimalByte_digits hd,if_neg hle]⟩
      rw [address,hread,if_pos hlarge]
      rfl

theorem address_plain {left : ℕ} {t : Bytes} (hplain : plain (c::rest) left t)
    (ip : BitVec 32) :
    ∃ left' ip' r, address (left+1) ip (t++c::rest) = .ok (left',ip',r++c::rest) ∧ r <:+ t ∧
      Outcome left t ip left' ip' r := by
  induction left generalizing t ip with
  | zero =>
      rcases address_pass hc hzero hplain ip with ⟨hrun,hnone⟩ | ⟨n,hn,hrun⟩
      · exact ⟨1,ip,t,hrun,List.suffix_refl t,
          .other (by omega) fun os hos => by simp [octets_none hnone] at hos⟩
      · exact ⟨0,_,_,hrun,dropWhile_suffix isDigit t,outcome_last hn⟩
  | succ left ih =>
      rcases address_pass hc hzero hplain ip with ⟨hrun,hnone⟩ | ⟨n,hn,hrun⟩
      · exact ⟨left+1+1,ip,t,hrun,List.suffix_refl t,
          .other (by omega) fun os hos => by simp [octets_none hnone] at hos⟩
      · have hsub := dropWhile_suffix isDigit t
        cases hr : t.dropWhile isDigit with
        | nil => simp [hr] at hrun
        | cons x r =>
            rw [hr] at hrun hsub
            have hsuffix := (List.suffix_cons x r).trans hsub
            rcases hrun with ⟨hx,hrun⟩ | ⟨rfl,hplain,hrun⟩
            · exact ⟨_,_,r,hrun,hsuffix,outcome_stop hr hx (by omega)⟩
            · have ⟨left',ip',r',hrest,hr',hout⟩ := ih hplain (appendByte ip n)
              exact ⟨left',ip',r',hrun.trans hrest,hr'.trans hsuffix,hout.dot hn hr⟩

end

/-- Space in front of an address changes nothing but where the pointer stays when
there is no number. -/
theorem address_blanks {ws : Bytes} (hws : ∀ x ∈ ws, isspace x) (left : ℕ) (ip : BitVec 32)
    (ptr : Bytes) :
    (readbyte ptr = .ok none ∧ address (left+1) ip ptr = .ok (left+1,ip,ptr) ∧
        address (left+1) ip (ws++ptr) = .ok (left+1,ip,ws++ptr)) ∨
      (readbyte ptr ≠ .ok none ∧ address (left+1) ip (ws++ptr) = address (left+1) ip ptr) := by
  rw [address,address,readbyte_blanks hws]
  cases readbyte ptr with
  | error e => exact .inr ⟨by simp,rfl⟩
  | ok res =>
      cases res with
      | none => exact .inl ⟨rfl,rfl,rfl⟩
      | some res => exact .inr ⟨by simp,rfl⟩

theorem isspace_of_isBlank {x : UInt8} (h : isBlank x) : isspace x := by
  simp only [isBlank,Bool.or_eq_true,decide_eq_true_eq] at h
  rcases h with rfl | rfl <;> rfl

/-- A line without its blanks, which `skipspc` skips, and the other space. -/
theorem dropWhile_isBlank (l : Bytes) :
    ∃ ws, (∀ x ∈ ws, isspace x) ∧ l.dropWhile isBlank = ws++l.dropWhile isspace := by
  induction l with
  | nil => exact ⟨[],by simp,rfl⟩
  | cons x l ih =>
      cases hx : isBlank x with
      | true => simpa [hx,isspace_of_isBlank hx] using ih
      | false =>
          refine ⟨(x::l).takeWhile isspace,fun y hy => List.mem_takeWhile_imp hy,?_⟩
          rw [List.takeWhile_append_dropWhile,List.dropWhile_cons_of_neg (by simp [hx])]

theorem appendByte_eq (ip : BitVec 32) {n : ℕ} (hn : n ≤ 255) :
    appendByte ip n = ip*256#32+BitVec.ofNat 32 n := by
  have hand : ip <<< 8 &&& BitVec.ofNat 32 n = 0#32 := by
    ext i hi
    by_cases h8 : i < 8
    · simp [h8]
    · have hbit : (BitVec.ofNat 32 n)[i] = false := by
        rw [BitVec.getElem_eq_testBit_toNat,BitVec.toNat_ofNat,Nat.mod_eq_of_lt (by omega)]
        refine Nat.testBit_lt_two_pow (lt_of_le_of_lt hn ?_)
        calc 255 < 2^8 := by decide
          _ ≤ 2^i := Nat.pow_le_pow_right (by decide) (by omega)
      simp [hbit]
  rw [appendByte,← BitVec.add_eq_or_of_and_eq_zero _ _ hand]
  congr 1
  exact BitVec.shiftLeft_eq_mul_twoPow ip 8

theorem octets_le {t : Bytes} {os : List ℕ} (h : octets t = some os) : ∀ n ∈ os, n ≤ 255 := by
  rw [octets] at h
  generalize (t.takeWhile fun c => !isBlank c).splitOn 46 = fields at h
  induction fields generalizing os with
  | nil =>
      cases h
      simp
  | cons field fields ih =>
      rw [List.mapM_cons] at h
      cases hfield : decimalByte field with
      | none => simp [hfield] at h
      | some n =>
          cases hrest : fields.mapM decimalByte with
          | none => simp [hfield,hrest] at h
          | some ns =>
              rw [hfield,hrest] at h
              cases h
              have hn : n ≤ 255 := by
                unfold decimalByte at hfield
                split at hfield
                · next hdigits =>
                    cases hfield
                    exact hdigits.2.2
                · cases hfield
              simpa [hn] using ih hrest

theorem foldl_octets {a b c d : ℕ} (h : ∀ n ∈ [a,b,c,d], n ≤ 255) :
    [a,b,c,d].foldl appendByte 0 =
      BitVec.ofNat 32 (((a*256+b)*256+c)*256+d) := by
  simp only [List.mem_cons,List.not_mem_nil,or_false,forall_eq_or_imp,forall_eq] at h
  have ⟨ha,hb,hc,hd⟩ := h
  simp only [List.foldl_cons,List.foldl_nil,appendByte_eq _ ha,appendByte_eq _ hb,appendByte_eq _ hc,
    appendByte_eq _ hd,BitVec.ofNat_add,BitVec.ofNat_mul]
  simp

theorem lineHosts_nil {l : Bytes}
    (h : ∀ os, octets (l.dropWhile isspace) = some os → os.length ≠ 4) : lineHosts l = [] := by
  unfold lineHosts lineEntry
  dsimp only
  cases hos : octets (l.dropWhile isspace) with
  | none => rfl
  | some os =>
      match os, h os hos with
      | [], _ | [_], _ | [_,_], _ | [_,_,_], _ | _::_::_::_::_::_, _ => rfl

theorem lineHosts_written {l : Bytes} {os : List ℕ}
    (hos : octets (l.dropWhile isspace) = some os) (hlen : os.length = 4) :
    let ip := os.foldl appendByte 0
    lineHosts l =
      if ip = 0 then []
      else (names ((l.dropWhile isspace).dropWhile fun c => !isBlank c)).map (·,ip) := by
  match os, hlen with
  | [a,b,c,d], _ =>
      dsimp only
      rw [foldl_octets (octets_le hos)]
      unfold lineHosts lineEntry
      dsimp only
      rw [hos]
      dsimp only
      generalize BitVec.ofNat 32 (((a*256+b)*256+c)*256+d) = ip
      by_cases hip : ip = 0
      · rw [if_pos hip,if_pos hip]
      · rw [if_neg hip,if_neg hip]

section
variable {S : Type} {visit : S → Bytes → BitVec 32 → Except Fault S}

/-- The pass of the loop over the lines for a plain line. -/
theorem parseLine_plain {c : UInt8} (hc : c = 0 ∨ c = 10) {rest : Bytes} (hzero : 0 ∈ c::rest)
    {l : Bytes} (hl : Text l) (hplain : plain (c::rest) 3 (l.dropWhile isspace)) (s : S)
    (ans : ℕ) :
    ∃ r, Text r ∧ parseLine visit s (l++c::rest) ans =
      (lineHosts l).foldlM (fun s h => visit s h.1 h.2) s >>= fun s =>
        .ok (s,r++c::rest,ans+(lineHosts l).length) := by
  have ⟨ws,hws,hline⟩ := dropWhile_isBlank l
  have hsub := dropWhile_suffix isspace l
  have ⟨left,ip,r,hrun,hr,hout⟩ := address_plain hc hzero hplain 0
  have hskip : skipspc (l++c::rest) = .ok (ws++(l.dropWhile isspace++c::rest)) := by
    rw [skipspc_append hc,hline,List.append_assoc]
  rw [parseLine,hskip]
  show ∃ r, _ ∧ (address 4 0 _ >>= _) = _
  rcases address_blanks hws 3 0 (l.dropWhile isspace++c::rest) with ⟨_,hnone,hws⟩ | ⟨_,hws⟩
  · have hleft : left = 4 := by
      have := hrun.symm.trans hnone
      simp only [Except.ok.injEq,Prod.mk.injEq] at this
      exact this.1
    have hempty : lineHosts l = [] := by
      cases hout with
      | written => cases hleft
      | other _ hos => exact lineHosts_nil hos
    rw [hws,hempty,← List.append_assoc,← hline]
    exact ⟨_,hl.suffix (dropWhile_suffix isBlank l),rfl⟩
  · have htext := hl.suffix (hr.trans hsub)
    rw [hws,hrun]
    show ∃ r', _ ∧ (if left ≠ 0 then _ else _) = _
    cases hout with
    | other hleft hos =>
        rw [lineHosts_nil hos]
        refine ⟨r,htext,?_⟩
        split
        · rfl
        · next hzero =>
            have ⟨x,hx,hblank⟩ := hleft (by simpa using hzero)
            cases r with
            | nil => cases hx
            | cons y r =>
                cases hx
                show (if !isBlank x || decide (ip = 0) then _ else _) = _
                rw [if_pos (by simp [hblank])]
                rfl
    | @written os _ hos hlen hdrop hblank =>
        rw [lineHosts_written hos hlen,← hdrop]
        generalize os.foldl appendByte 0 = ip
        rw [if_neg (by simp)]
        cases r with
        | nil =>
            refine ⟨[],htext,?_⟩
            show (if !isBlank c || decide (ip = 0) then _ else _) = _
            have hempty : (if ip = 0 then [] else (names []).map (·,ip)) = [] := by split <;> rfl
            rw [if_pos (by simp [isBlank_end hc]),hempty]
            rfl
        | cons x r =>
            by_cases hip : ip = 0
            · refine ⟨x::r,htext,?_⟩
              rw [if_pos hip]
              show (if !isBlank x || decide (ip = 0) then _ else _) = _
              rw [if_pos (by simp [hip])]
              rfl
            · refine ⟨[],fun x hx => (by cases hx),?_⟩
              rw [if_neg hip]
              show (if !isBlank x || decide (ip = 0) then _ else _) = _
              rw [if_neg (by simpa [hblank x rfl] using hip),words_eq hc htext (by simp)]
              rw [List.foldlM_map,List.length_map]
              rfl

theorem skipspc_zero {ptr : Bytes} (h : 0 ∈ ptr) :
    ∃ ws rest, (∀ x ∈ ws, isspace x) ∧ ptr = ws++rest ∧ skipspc ptr = .ok rest := by
  have hcut : ptr.takeWhile isBlank++ptr.dropWhile isBlank = ptr := List.takeWhile_append_dropWhile
  refine ⟨_,_,fun x hx => isspace_of_isBlank (List.mem_takeWhile_imp hx),hcut.symm,?_⟩
  have hmem : (0 : UInt8) ∈ ptr.dropWhile isBlank := by
    rw [← hcut,List.mem_append] at h
    exact h.resolve_left fun hmem => absurd (List.mem_takeWhile_imp hmem) (by decide)
  unfold skipspc scan
  cases hdrop : ptr.dropWhile isBlank with
  | nil => simp [hdrop] at hmem
  | cons x rest => rfl

theorem readbyte_end (rest : Bytes) : readbyte (0::rest) = .ok none :=
  readbyte_none List.mem_cons_self rfl

theorem parseLines_succ {ptr : Bytes} (h : ∃ x ∈ ptr.head?, x ≠ 0) (fuel : ℕ) (s : S) (ans : ℕ) :
    parseLines visit (fuel+1) s ptr ans =
      parseLine visit s ptr ans >>= fun next =>
        skiptoeoln next.2.1 >>= fun ptr => parseLines visit fuel next.1 ptr next.2.2 := by
  have ⟨x,hx,hne⟩ := h
  cases ptr with
  | nil => cases hx
  | cons y ptr =>
      cases hx
      rw [parseLines]
      show (if x = 0 then _ else _) = _
      rw [if_neg hne]

/-- A line of nothing but space is passed, or the pass goes on with the next line. -/
theorem parseLines_space {l rest : Bytes} (hl : Text l) (hspace : ∀ x ∈ l, isspace x)
    (hzero : 0 ∈ rest) (fuel : ℕ) (s : S) (ans : ℕ) :
    parseLines visit (fuel+1) s (l++10::rest) ans = parseLines visit fuel s rest ans ∨
      parseLines visit (fuel+1) s (l++10::rest) ans = parseLines visit (fuel+1) s rest ans := by
  have hu := dropWhile_suffix isBlank l
  have hskip : skipspc (l++10::rest) = .ok (l.dropWhile isBlank++10::rest) :=
    skipspc_append (.inr rfl)
  have hhead : ∃ x ∈ (l++10::rest).head?, x ≠ 0 := by
    cases l with
    | nil => exact ⟨10,rfl,by decide⟩
    | cons x l => exact ⟨x,rfl,(hl x (by simp)).1⟩
  have hws : ∀ x ∈ l.dropWhile isBlank++[10], isspace x := by
    intro x hx
    rcases List.mem_append.mp hx with hx | hx
    · exact hspace x (hu.subset hx)
    · rw [List.mem_singleton.mp hx]
      rfl
  rw [List.append_cons (l.dropWhile isBlank)] at hskip
  rw [parseLines_succ hhead]
  rcases address_blanks hws 3 0 rest with ⟨-,-,hrun⟩ | ⟨hread,hrun⟩
  · left
    rw [parseLine,hskip]
    show ((address 4 0 _ >>= _) >>= _) = _
    rw [hrun]
    show skiptoeoln (l.dropWhile isBlank++[10]++rest) >>= _ = _
    rw [← List.append_cons,skiptoeoln_append (.inr rfl) (hl.suffix hu)]
    rfl
  · right
    have ⟨ws,rest',hws',hrest,hskip'⟩ := skipspc_zero hzero
    have hhead' : ∃ x ∈ rest.head?, x ≠ 0 := by
      cases rest with
      | nil => cases hzero
      | cons x rest =>
          refine ⟨x,rfl,?_⟩
          rintro rfl
          exact hread (readbyte_end rest)
    have hsame : address 4 0 rest = address 4 0 rest' := by
      rcases address_blanks hws' 3 0 rest' with ⟨hnone,-,-⟩ | ⟨-,hsame⟩
      · rw [hrest,readbyte_blanks hws'] at hread
        exact absurd hnone hread
      · rwa [← hrest] at hsame
    rw [parseLines_succ hhead',parseLine,parseLine,hskip,hskip']
    show ((address 4 0 _ >>= _) >>= _) = ((address 4 0 _ >>= _) >>= _)
    rw [hrun,hsame]

theorem buffer_lines (content : Bytes) : buffer (LineWindow.lines 10 content) = content++[0] := by
  induction content with
  | nil => rfl
  | cons x content ih =>
      cases hls : LineWindow.lines 10 content with
      | nil => exact absurd hls (List.splitOn_ne_nil 10 content)
      | cons l ls =>
          rw [hls] at ih
          rw [LineWindow.lines,List.splitOn_cons_eq_if_modifyHead,← LineWindow.lines,hls]
          split
          · next hx =>
              rw [beq_iff_eq] at hx
              rw [hx,List.cons_append,← ih]
              rfl
          · cases ls with
            | nil => simpa [buffer] using ih
            | cons l' ls => simpa [buffer] using ih

theorem zero_mem_buffer (ls : List Bytes) : 0 ∈ buffer ls := by
  induction ls with
  | nil => simp [buffer]
  | cons l ls ih => cases ls <;> simp_all [buffer]

/-- A plain line is read, and the loop goes on behind it. -/
theorem parseLines_plain {c : UInt8} (hc : c = 0 ∨ c = 10) {rest : Bytes} (hzero : 0 ∈ c::rest)
    {l : Bytes} (hl : Text l) (hplain : plain (c::rest) 3 (l.dropWhile isspace)) (fuel : ℕ)
    (s : S) (ans : ℕ) (hhead : ∃ x ∈ (l++c::rest).head?, x ≠ 0) :
      parseLines visit (fuel+1) s (l++c::rest) ans =
        (lineHosts l).foldlM (fun s h => visit s h.1 h.2) s >>= fun s =>
          parseLines visit fuel s (if c ≠ 0 then rest else c::rest)
            (ans+(lineHosts l).length) := by
  have ⟨r,hr,hrun⟩ : ∃ r, Text r ∧ parseLine visit s (l++c::rest) ans = _ :=
    parseLine_plain hc hzero hl hplain s ans
  rw [parseLines_succ hhead,hrun,bind_assoc]
  congr 1
  funext s
  show skiptoeoln (r++c::rest) >>= _ = _
  rw [skiptoeoln_append hc hr]
  rfl

theorem lineHosts_space {l : Bytes} (h : l.all isspace) : lineHosts l = [] := by
  have hdrop : l.dropWhile isspace = [] := by
    rw [List.dropWhile_eq_nil_iff]
    exact List.all_eq_true.mp h
  refine lineHosts_nil fun os hos => ?_
  rw [hdrop] at hos
  cases hos

/-- The loop over the lines does what is to be done for each name. -/
theorem parseLines_eq {ls : List Bytes} (hls : ∀ l ∈ ls, Text l) (hplain : plainLines ls)
    (hne : ls ≠ []) {fuel : ℕ} (hfuel : (buffer ls).length ≤ fuel) (s : S) (ans : ℕ) :
    parseLines visit fuel s (buffer ls) ans =
      (ls.flatMap lineHosts).foldlM (fun s h => visit s h.1 h.2) s >>= fun s =>
        .ok (s,ans+(ls.flatMap lineHosts).length) := by
  induction ls generalizing fuel s ans with
  | nil => exact absurd rfl hne
  | cons l ls ih =>
      have hl := hls l (by simp)
      cases ls with
      | nil =>
          have hlast : plain [0] 3 (l.dropWhile isspace) := by
            rcases Bool.or_eq_true_iff.mp hplain with hspace | hplain
            · rw [List.dropWhile_eq_nil_iff.mpr (List.all_eq_true.mp hspace)]
              rfl
            · exact hplain
          rw [List.flatMap_singleton]
          rw [buffer] at hfuel ⊢
          cases l with
          | nil =>
              match fuel, hfuel with
              | fuel+1, _ => rfl
          | cons x l =>
              match fuel, hfuel with
              | fuel+2, _ =>
                  exact parseLines_plain (.inl rfl) (by simp) hl hlast (fuel+1) s ans
                    ⟨x,rfl,(hl x (by simp)).1⟩
              | 1, hfuel => simp at hfuel
      | cons l' ls =>
          have ⟨hline,hrest⟩ := Bool.and_eq_true_iff.mp hplain
          have ih := @ih (fun l hl => hls l (by simp [hl])) hrest (by simp)
          have hbuffer : buffer (l::l'::ls) = l++10::buffer (l'::ls) := rfl
          rw [hbuffer] at hfuel ⊢
          rw [List.length_append,List.length_cons] at hfuel
          match fuel with
          | 0 => omega
          | fuel+1 =>
              rw [List.flatMap_cons]
              rcases Bool.or_eq_true_iff.mp hline with hspace | hline
              · rw [lineHosts_space hspace,List.nil_append]
                rcases parseLines_space hl (List.all_eq_true.mp hspace)
                  (zero_mem_buffer (l'::ls)) fuel s ans with hrun | hrun
                · rw [hrun]
                  exact ih (by omega) s ans
                · rw [hrun]
                  exact ih (by omega) s ans
              · have hhead : ∃ x ∈ (l++10::buffer (l'::ls)).head?, x ≠ 0 := by
                  cases l with
                  | nil => exact ⟨10,rfl,by decide⟩
                  | cons x l => exact ⟨x,rfl,(hl x (by simp)).1⟩
                rw [List.foldlM_append,bind_assoc,List.length_append]
                refine (parseLines_plain (.inr rfl)
                  (List.mem_cons_of_mem 10 (zero_mem_buffer (l'::ls))) hl hline fuel s ans
                  hhead).trans ?_
                congr 1
                funext s
                refine (ih (by omega) s _).trans ?_
                rw [Nat.add_assoc]

end
end Teleproxy.HostsFile
