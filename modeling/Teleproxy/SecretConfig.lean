import Mathlib.Algebra.Order.Ring.Int
import Teleproxy.Lib.Buffer
import Teleproxy.ProxyProtocol

/-!
# Secrets in the configuration file

`parse_secrets` takes the limits of the secrets from the tables of the configuration file: a
number of connections, a number of addresses, a quota and a rate in bytes, and the time at
which a secret expires. Zero stands for no limit. The numbers of the file are 64-bit
integers, and sizes can be texts with a unit; arithmetic wraps around.

The model starts from what the TOML parser delivers. It has checked dates and times, so a
timestamp carries what was checked. A text is given up to its first zero byte, as the code
sees it. `timegm` is the formula of POSIX for a time that needs no normalisation.
-/
namespace Teleproxy.SecretConfig
open ClientInput (Bytes)
open ProxyProtocol (isDigit digitsValue)
open Buffer (wrap)

def isLeapYear (year : ℕ) : Bool := year%4 = 0 && year%100 ≠ 0 || year%400 = 0

def daysInMonth (year : ℕ) : List ℕ :=
  [31,if isLeapYear year then 29 else 28,31,30,31,30,31,31,30,31,30,31]

def isValidDate (year month day : ℕ) : Bool :=
  1 ≤ year && 1 ≤ month && month ≤ 12 && 1 ≤ day && day ≤ (daysInMonth year).getD (month-1) 0

def isValidTime (hour minute sec : ℕ) : Bool := hour ≤ 23 && minute ≤ 59 && sec ≤ 59

def isValidTimezone (minute : ℤ) : Bool := minute.natAbs/60 ≤ 23

/-- A date with a time; the offset is in minutes. -/
structure Timestamp where
  year : ℕ
  month : ℕ
  day : ℕ
  hour : ℕ
  minute : ℕ
  second : ℕ
  usec : ℕ
  tz : ℤ
  validDate : isValidDate year month day = true
  validTime : isValidTime hour minute second = true
  validTimezone : isValidTimezone tz = true

inductive Datum where
  | unknown
  | string (s : Bytes)
  | int64 (n : BitVec 64)
  | fp64
  | boolean (b : Bool)
  | date
  | time
  | datetime (ts : Timestamp)
  | datetimetz (ts : Timestamp)
  | array (elem : List Datum)
  | table (entries : List (String × Datum))

def tomlGet (datum : Datum) (key : String) : Datum :=
  match datum with
  | .table entries => ((entries.find? fun e => e.1 = key).map Prod.snd).getD .unknown
  | _ => .unknown

def isSpace (b : UInt8) : Bool := b = 32 || (9 ≤ b && b ≤ 13)

/-- The sign, the digits and what follows. -/
def lexNumber (s : Bytes) : Bool × Bytes × Bytes :=
  let s := s.dropWhile isSpace
  let rest := if s.head? = some 43 ∨ s.head? = some 45 then s.drop 1 else s
  (s.head? = some 45,rest.takeWhile isDigit,rest.dropWhile isDigit)

/-- `strtoll` with base 10: the number, as large as it can be, and what follows. -/
def strtoll (s : Bytes) : Option (ℤ × Bytes) :=
  let (negative,digits,rest) := lexNumber s
  if digits = [] then none
  else some (if negative then max (-(digitsValue digits : ℤ)) (-2^63)
    else min (digitsValue digits : ℤ) (2^63-1),rest)

def toupper (b : UInt8) : UInt8 := if 97 ≤ b && b ≤ 122 then b-32 else b

/-- The unit of a suffix, if it is one. -/
def unit (suffix : UInt8) : Option ℤ :=
  if suffix = 75 then some 1024
  else if suffix = 77 then some (1024*1024)
  else if suffix = 71 then some (1024*1024*1024)
  else if suffix = 84 then some (1024*1024*1024*1024)
  else none

/-- A product of two numbers of 64 bits. -/
def wrap64 (n : ℤ) : ℤ := n.bmod (2^64)

/-- The size, or -1. -/
def parseByteSize (s : Bytes) : ℤ :=
  match strtoll s with
  | none => -1
  | some (val,endp) =>
      if val < 0 then -1
      else
        let (val,endp) :=
          match unit (toupper (endp.headD 0)) with
          | some u => (wrap64 (val*u),endp.drop 1)
          | none => (val,endp)
        let endp := if toupper (endp.headD 0) = 66 then endp.drop 1 else endp
        if endp ≠ [] then -1 else val

/-- Days in front of a month of a year with 365 days. -/
def cumulativeDays : List ℤ := [0,31,59,90,120,151,181,212,243,273,304,334]

def timegm (tmYear tmMon tmMday tmHour tmMin tmSec : ℤ) : ℤ :=
  let year := tmYear+1900
  let leap := year%4 = 0 ∧ year%100 ≠ 0 ∨ year%400 = 0
  let yday := cumulativeDays.getD tmMon.toNat 0+(if leap ∧ 1 < tmMon then 1 else 0)+tmMday-1
  tmSec+tmMin*60+tmHour*3600+yday*86400+(tmYear-70)*31536000+(tmYear-69)/4*86400-
    (tmYear-1)/100*86400+(tmYear+299)/400*86400

/-- A datetime without an offset is in UTC. -/
def tomlTsToEpoch (ts : Timestamp) (hasOffset : Bool) : ℤ :=
  let t := timegm (ts.year-1900) (ts.month-1) ts.day ts.hour ts.minute ts.second
  if hasOffset then t-ts.tz*60 else t

structure TomlSecret where
  key : Bytes
  label : Bytes
  limit : ℤ
  quota : ℤ
  rateLimit : ℤ
  maxIps : ℤ
  expires : ℤ
  deriving DecidableEq, Repr

def tomlConfigMaxSecrets : ℕ := 16
def tomlSecretLabelMax : ℕ := 32

def hexDigit (c : UInt8) : Option UInt8 :=
  if 48 ≤ c ∧ c ≤ 57 then some (c-48)
  else if 97 ≤ c ∧ c ≤ 102 then some (c-97+10)
  else if 65 ≤ c ∧ c ≤ 70 then some (c-65+10)
  else none

def hexBytes : Bytes → Option Bytes
  | a::b::rest => do
      let high ← hexDigit a
      let low ← hexDigit b
      let out ← hexBytes rest
      some ((high*16+low)::out)
  | _ => some []

def tomlConfigParseHexSecret (hex : Bytes) : Option Bytes :=
  if hex.length ≠ 32 then none else hexBytes hex

def validateLabel (label : Bytes) : Bool :=
  label.all fun c => (97 ≤ c && c ≤ 122) || (65 ≤ c && c ≤ 90) || isDigit c || c = 95 || c = 45

/-- A text in a message. -/
def asText (bs : Bytes) : String := String.ofList (bs.map fun b => Char.ofNat b.toNat)

abbrev Parsed := Except String

section Fields
variable (i : ℕ) (entry : Datum)

def parseKey : Parsed Bytes :=
  match tomlGet entry "key" with
  | .string s =>
      match tomlConfigParseHexSecret s with
      | some key => .ok key
      | none => .error s!"secret[{i}]: 'key' must be exactly 32 hex digits"
  | _ => .error s!"secret[{i}]: 'key' must be a string"

def parseLabel : Parsed Bytes :=
  match tomlGet entry "label" with
  | .string s =>
      if s.length > tomlSecretLabelMax then
        .error s!"secret[{i}]: label too long (max {tomlSecretLabelMax} chars)"
      else if s ≠ [] ∧ validateLabel s = false then
        .error s!"secret[{i}]: label contains invalid characters"
      else .ok s
  | _ => .ok []

/-- `limit` and `max_ips`, which are stored as an `int`. -/
def parseCount (field : String) : Parsed ℤ :=
  match tomlGet entry field with
  | .int64 n =>
      if n.toInt < 0 then .error s!"secret[{i}]: {field} must be non-negative"
      else .ok (wrap n.toInt)
  | _ => .ok 0

/-- `quota` and `rate_limit`, numbers of bytes. -/
def parseBytes (field : String) : Parsed ℤ :=
  match tomlGet entry field with
  | .int64 n =>
      if n.toInt < 0 then .error s!"secret[{i}]: {field} must be non-negative" else .ok n.toInt
  | .string s =>
      let text := asText s
      if parseByteSize s < 0 then .error s!"secret[{i}]: invalid {field} '{text}'"
      else .ok (parseByteSize s)
  | _ => .ok 0

def parseExpires : Parsed ℤ :=
  match tomlGet entry "expires" with
  | .datetime ts => .ok (tomlTsToEpoch ts false)
  | .datetimetz ts => .ok (tomlTsToEpoch ts true)
  | .int64 n =>
      if n.toInt < 0 then .error s!"secret[{i}]: expires must be non-negative" else .ok n.toInt
  | _ => .ok 0

/-- One table. -/
def parseSecret : Parsed TomlSecret :=
  match entry with
  | .table _ => do
      let key ← parseKey i entry
      let label ← parseLabel i entry
      let limit ← parseCount i entry "limit"
      let quota ← parseBytes i entry "quota"
      let rateLimit ← parseBytes i entry "rate_limit"
      let maxIps ← parseCount i entry "max_ips"
      let expires ← parseExpires i entry
      pure ⟨key,label,limit,quota,rateLimit,maxIps,expires⟩
  | _ => .error s!"secret[{i}]: expected table"

end Fields

/-- The loop over the tables, the next of which has the number `i`. -/
def parseEntries (i : ℕ) : List Datum → Parsed (List TomlSecret)
  | [] => .ok []
  | entry::entries => do
      let secret ← parseSecret i entry
      let secrets ← parseEntries (i+1) entries
      pure (secret::secrets)

def parseSecrets (toptab : Datum) : Parsed (List TomlSecret) :=
  match tomlGet toptab "secret" with
  | .unknown => .ok []
  | .array elem =>
      let n := elem.length
      if n > tomlConfigMaxSecrets then .error s!"too many secrets ({n}, max {tomlConfigMaxSecrets})"
      else parseEntries 0 elem
  | _ => .error "'secret' must be an array of tables"

/-- The secret must not be used any more. -/
def secretExpired (exp now : ℤ) : Bool := exp > 0 && now ≥ exp

/-- The size that a text stands for. -/
def byteSize (s : Bytes) : ℤ :=
  let (negative,digits,rest) := lexNumber s
  (if negative then -(digitsValue digits : ℤ) else digitsValue digits)*
    (unit (toupper (rest.headD 0))).getD 1

/-- Days from the first day of the year 1. -/
def daysBeforeYear : ℕ → ℕ
  | 0 => 0
  | year+1 => if year = 0 then 0 else daysBeforeYear year+if isLeapYear year then 366 else 365

def Timestamp.dayNumber (ts : Timestamp) : ℕ :=
  daysBeforeYear ts.year+((daysInMonth ts.year).take (ts.month-1)).sum+(ts.day-1)

/-- Seconds since the beginning of 1970, without the fraction. -/
def Timestamp.seconds (ts : Timestamp) (hasOffset : Bool) : ℤ :=
  ((ts.dayNumber : ℤ)-daysBeforeYear 1970)*86400+ts.hour*3600+ts.minute*60+ts.second-
    if hasOffset then ts.tz*60 else 0

/-- The instant in microseconds. -/
def Timestamp.instant (ts : Timestamp) (hasOffset : Bool) : ℤ := ts.seconds hasOffset*1000000+ts.usec

theorem isLeapYear_iff (year : ℕ) :
    isLeapYear year = true ↔ year%4 = 0 ∧ year%100 ≠ 0 ∨ year%400 = 0 := by
  simp [isLeapYear]

/-- Every fourth year is a leap year, but of the hundredth ones only every fourth. -/
theorem daysBeforeYear_eq {year : ℕ} (h : 1 ≤ year) :
    (daysBeforeYear year : ℤ) = 365*(year-1)+(year-1)/4-(year-1)/100+(year-1)/400 := by
  induction year with
  | zero => omega
  | succ year ih =>
      rw [daysBeforeYear]
      by_cases hzero : year = 0
      · subst hzero
        rfl
      · have hyear := ih (by omega)
        have hleap := isLeapYear_iff year
        rw [if_neg hzero]
        split_ifs with hcase
        · have := hleap.mp hcase
          push_cast
          omega
        · have := mt hleap.mpr hcase
          push_cast
          omega

theorem daysBeforeMonth_eq (year : ℕ) : ∀ m < 12, (((daysInMonth year).take m).sum : ℤ) =
    cumulativeDays.getD m 0+if isLeapYear year = true ∧ 1 < m then 1 else 0 := by
  unfold daysInMonth
  cases isLeapYear year
  · decide
  · decide

theorem tomlTsToEpoch_eq (ts : Timestamp) (hasOffset : Bool) :
    tomlTsToEpoch ts hasOffset = ts.seconds hasOffset := by
  have hdate := ts.validDate
  simp only [isValidDate,Bool.and_eq_true,decide_eq_true_eq] at hdate
  have hyear := daysBeforeYear_eq hdate.1.1.1.1
  have hepoch : (daysBeforeYear 1970 : ℤ) = 719162 := daysBeforeYear_eq (by decide)
  have hmonth := daysBeforeMonth_eq ts.year (ts.month-1) (by omega)
  have hleap : ((ts.year : ℤ)-1900+1900)%4 = 0 ∧ ((ts.year : ℤ)-1900+1900)%100 ≠ 0 ∨
      ((ts.year : ℤ)-1900+1900)%400 = 0 ↔ isLeapYear ts.year = true := by
    rw [isLeapYear_iff]
    omega
  have htoNat : ((ts.month : ℤ)-1).toNat = ts.month-1 := by omega
  have hafter : 1 < (ts.month : ℤ)-1 ↔ 1 < ts.month-1 := by omega
  have htime : timegm (ts.year-1900) (ts.month-1) ts.day ts.hour ts.minute ts.second =
      ((ts.dayNumber : ℤ)-daysBeforeYear 1970)*86400+ts.hour*3600+ts.minute*60+ts.second := by
    rw [timegm,htoNat]
    simp only [hleap,hafter]
    rw [← hmonth,Timestamp.dayNumber,hepoch]
    push_cast
    omega
  unfold tomlTsToEpoch Timestamp.seconds
  dsimp only
  rw [htime]
  cases hasOffset with
  | false => simp only [Bool.false_eq_true,if_false,sub_zero]
  | true => simp only [if_true]

theorem wrap64_of_lt {n : ℤ} (hlow : 0 ≤ n) (hhigh : n < 2^63) : wrap64 n = n := by
  unfold wrap64
  rw [Int.bmod_def]
  split <;> omega

theorem wrap64_lt (n : ℤ) : wrap64 n < 2^63 := by
  unfold wrap64
  rw [Int.bmod_def]
  split <;> omega

theorem unit_pos {suffix : UInt8} {u : ℤ} (h : unit suffix = some u) : 1 ≤ u := by
  unfold unit at h
  split_ifs at h <;> cases h <;> decide

/-- An accepted size, in one formula for all suffixes. -/
theorem parseByteSize_cases {s : Bytes} (h : 0 ≤ parseByteSize s) : ∃ val : ℤ, 0 ≤ val ∧ val < 2^63 ∧
    (∃ rest, strtoll s = some (val,rest) ∧
      parseByteSize s = wrap64 (val*(unit (toupper (rest.headD 0))).getD 1)) := by
  unfold parseByteSize at h ⊢
  cases hstr : strtoll s with
  | none =>
      rw [hstr] at h
      exact absurd h (by decide)
  | some p =>
      obtain ⟨val,rest⟩ := p
      rw [hstr] at h
      dsimp only at h ⊢
      have hlt : val < 2^63 := by
        unfold strtoll at hstr
        dsimp only at hstr
        split_ifs at hstr <;> cases hstr <;> omega
      have hfinal : ∀ (c : Prop) [Decidable c] (v : ℤ), 0 ≤ (if c then -1 else v) →
          (if c then -1 else v) = v := by
        intro c _ v hv
        by_cases hc : c
        · rw [if_pos hc] at hv
          exact absurd hv (by decide)
        · exact if_neg hc
      by_cases hneg : val < 0
      · rw [if_pos hneg] at h
        exact absurd h (by decide)
      rw [if_neg hneg] at h ⊢
      refine ⟨val,by omega,hlt,rest,rfl,?_⟩
      cases hunit : unit (toupper (rest.headD 0)) with
      | none =>
          simp only [hunit] at h ⊢
          rw [hfinal _ _ h,Option.getD_none,mul_one,wrap64_of_lt (by omega) hlt]
      | some u =>
          simp only [hunit] at h ⊢
          rw [hfinal _ _ h,Option.getD_some]

/-- An accepted size is the one that is written exactly if that one has at most 63 bits. -/
theorem parseByteSize_iff {s : Bytes} (h : 0 ≤ parseByteSize s) :
    parseByteSize s = byteSize s ↔ byteSize s < 2^63 := by
  obtain ⟨val,hlow,hhigh,rest,hstr,hsize⟩ := parseByteSize_cases h
  have hunit : 1 ≤ (unit (toupper (rest.headD 0))).getD 1 := by
    cases hu : unit (toupper (rest.headD 0)) with
    | none => exact le_refl 1
    | some u => exact unit_pos hu
  unfold strtoll at hstr
  unfold byteSize
  generalize lexNumber s = lex at hstr ⊢
  obtain ⟨negative,digits,tail⟩ := lex
  dsimp only at hstr ⊢
  split_ifs at hstr with hempty hsign
  · cases hstr
    have hzero : (digitsValue digits : ℤ) = 0 := by omega
    rw [hsize,if_pos hsign,hzero]
    simp [wrap64]
  · cases hstr
    rw [if_neg hsign]
    constructor
    · intro heq
      rw [← heq,hsize]
      exact wrap64_lt _
    · intro hfits
      have hle : (digitsValue digits : ℤ) ≤ digitsValue digits*(unit (toupper (rest.headD 0))).getD 1 :=
        le_mul_of_one_le_right (by omega) hunit
      rw [hsize,min_eq_left (by omega),wrap64_of_lt (by omega) hfits]

/-- A time that is written as a datetime. -/
def IsDatetime (datum : Datum) (ts : Timestamp) (hasOffset : Bool) : Prop :=
  datum = .datetime ts ∧ hasOffset = false ∨ datum = .datetimetz ts ∧ hasOffset = true

/-- A number of connections or addresses is stored as it is written. -/
def CountKept (entry : Datum) (field : String) (stored : ℤ) : Prop :=
  ∀ n, tomlGet entry field = .int64 n → stored = n.toInt

/-- A number of bytes is stored as it is written. -/
def BytesKept (entry : Datum) (field : String) (stored : ℤ) : Prop :=
  (∀ n, tomlGet entry field = .int64 n → stored = n.toInt) ∧
    ∀ s, tomlGet entry field = .string s → stored = byteSize s

/-- Nothing that is configured for the secret is lost, and at `now` it has expired if it
should have. -/
structure Kept (now : ℤ) (entry : Datum) (secret : TomlSecret) : Prop where
  limit : CountKept entry "limit" secret.limit
  maxIps : CountKept entry "max_ips" secret.maxIps
  quota : BytesKept entry "quota" secret.quota
  rateLimit : BytesKept entry "rate_limit" secret.rateLimit
  expires : ∀ n, tomlGet entry "expires" = .int64 n → secret.expires = n.toInt
  datetime : ∀ ts hasOffset, IsDatetime (tomlGet entry "expires") ts hasOffset →
    secret.expires*1000000 = ts.instant hasOffset
  expired : ∀ n, tomlGet entry "expires" = .int64 n → 0 < n.toInt → n.toInt ≤ now →
    secretExpired secret.expires now = true
  past : ∀ ts hasOffset, IsDatetime (tomlGet entry "expires") ts hasOffset →
    ts.instant hasOffset ≤ now*1000000 → secretExpired secret.expires now = true

/-- What is written in the file fits where it is stored. -/
structure Fits (now : ℤ) (entry : Datum) : Prop where
  limit : ∀ n, tomlGet entry "limit" = .int64 n → n.toInt < 2^31
  maxIps : ∀ n, tomlGet entry "max_ips" = .int64 n → n.toInt < 2^31
  quota : ∀ s, tomlGet entry "quota" = .string s → byteSize s < 2^63
  rateLimit : ∀ s, tomlGet entry "rate_limit" = .string s → byteSize s < 2^63
  whole : ∀ ts hasOffset, IsDatetime (tomlGet entry "expires") ts hasOffset → ts.usec = 0
  later : ∀ ts hasOffset, IsDatetime (tomlGet entry "expires") ts hasOffset →
    ts.instant hasOffset ≤ now*1000000 → 0 < ts.seconds hasOffset

section Fields
variable {i : ℕ} {entry : Datum} {field : String} {stored now : ℤ}

theorem parseCount_iff (h : parseCount i entry field = .ok stored) :
    CountKept entry field stored ↔ ∀ n, tomlGet entry field = .int64 n → n.toInt < 2^31 := by
  unfold CountKept
  unfold parseCount at h
  split at h
  · rename_i n hn
    split_ifs at h with hneg
    cases h
    have hwrap : wrap n.toInt = n.toInt ↔ n.toInt < 2^31 := by
      unfold wrap
      rw [Int.bmod_def]
      split <;> omega
    rw [hn]
    simpa using hwrap
  · rename_i hother
    exact ⟨fun _ n hn => absurd hn (hother n),fun _ n hn => absurd hn (hother n)⟩

theorem parseBytes_iff (h : parseBytes i entry field = .ok stored) :
    BytesKept entry field stored ↔ ∀ s, tomlGet entry field = .string s → byteSize s < 2^63 := by
  unfold BytesKept
  unfold parseBytes at h
  split at h
  · rename_i n hn
    split_ifs at h with hneg
    cases h
    rw [hn]
    simp
  · rename_i s hs
    dsimp only at h
    split_ifs at h with hneg
    cases h
    rw [hs]
    simpa using parseByteSize_iff (by omega)
  · rename_i hint hstring
    constructor
    · intro _ s hs
      exact absurd hs (hstring s)
    · intro _
      exact ⟨fun n hn => absurd hn (hint n),fun s hs => absurd hs (hstring s)⟩

theorem parseExpires_stored (h : parseExpires i entry = .ok stored) :
    (∀ n, tomlGet entry "expires" = .int64 n → stored = n.toInt) ∧
      ∀ ts hasOffset, IsDatetime (tomlGet entry "expires") ts hasOffset →
        stored = ts.seconds hasOffset := by
  unfold IsDatetime
  unfold parseExpires at h
  split at h
  · rename_i ts hts
    cases h
    rw [hts]
    simp [tomlTsToEpoch_eq]
  · rename_i ts hts
    cases h
    rw [hts]
    simp [tomlTsToEpoch_eq]
  · rename_i n hn
    split_ifs at h
    cases h
    rw [hn]
    simp
  · rename_i hlocal hzoned hint
    constructor
    · intro n hn
      exact absurd hn (hint n)
    · intro ts hasOffset hts
      rcases hts with ⟨hts,-⟩ | ⟨hts,-⟩
      · exact absurd hts (hlocal ts)
      · exact absurd hts (hzoned ts)

theorem stored_iff {ts : Timestamp} {hasOffset : Bool} (h : stored = ts.seconds hasOffset) :
    stored*1000000 = ts.instant hasOffset ↔ ts.usec = 0 := by
  rw [h,Timestamp.instant]
  omega

/-- Only the times after the beginning of 1970 are seen to be over. -/
theorem expired_iff {ts : Timestamp} {hasOffset : Bool} (h : stored = ts.seconds hasOffset) :
    (ts.instant hasOffset ≤ now*1000000 → secretExpired stored now = true) ↔
      (ts.instant hasOffset ≤ now*1000000 → 0 < ts.seconds hasOffset) := by
  have hexpired : secretExpired stored now = true ↔ 0 < stored ∧ stored ≤ now := by simp [secretExpired]
  rw [hexpired,h,Timestamp.instant]
  omega

theorem parseExpires_iff (h : parseExpires i entry = .ok stored) :
    ((∀ n, tomlGet entry "expires" = .int64 n → stored = n.toInt) ∧
      (∀ ts hasOffset, IsDatetime (tomlGet entry "expires") ts hasOffset →
        stored*1000000 = ts.instant hasOffset) ∧
      (∀ n, tomlGet entry "expires" = .int64 n → 0 < n.toInt → n.toInt ≤ now →
        secretExpired stored now = true) ∧
      ∀ ts hasOffset, IsDatetime (tomlGet entry "expires") ts hasOffset →
        ts.instant hasOffset ≤ now*1000000 → secretExpired stored now = true) ↔
    (∀ ts hasOffset, IsDatetime (tomlGet entry "expires") ts hasOffset → ts.usec = 0) ∧
      ∀ ts hasOffset, IsDatetime (tomlGet entry "expires") ts hasOffset →
        ts.instant hasOffset ≤ now*1000000 → 0 < ts.seconds hasOffset := by
  obtain ⟨hint,hdatetime⟩ := parseExpires_stored h
  constructor
  · intro ⟨_,hkept,_,hpast⟩
    constructor
    · intro ts hasOffset hts
      exact (stored_iff (hdatetime ts hasOffset hts)).mp (hkept ts hasOffset hts)
    · intro ts hasOffset hts
      exact (expired_iff (hdatetime ts hasOffset hts)).mp (hpast ts hasOffset hts)
  · intro ⟨hwhole,hlater⟩
    refine ⟨hint,?_,?_,?_⟩
    · intro ts hasOffset hts
      exact (stored_iff (hdatetime ts hasOffset hts)).mpr (hwhole ts hasOffset hts)
    · intro n hn hpos hnow
      rw [hint n hn]
      simp [secretExpired,hpos,hnow]
    · intro ts hasOffset hts
      exact (expired_iff (hdatetime ts hasOffset hts)).mpr (hlater ts hasOffset hts)

theorem exists_of_bind {α β : Type} {x : Parsed α} {f : α → Parsed β} {b : β} (h : (x >>= f) = .ok b) :
    ∃ a, x = .ok a ∧ f a = .ok b := by
  cases x with
  | error e => cases h
  | ok a => exact ⟨a,rfl,h⟩

theorem parseSecret_iff {secret : TomlSecret} (h : parseSecret i entry = .ok secret) :
    Kept now entry secret ↔ Fits now entry := by
  unfold parseSecret at h
  split at h
  · obtain ⟨key,-,h⟩ := exists_of_bind h
    obtain ⟨label,-,h⟩ := exists_of_bind h
    obtain ⟨limit,hlimit,h⟩ := exists_of_bind h
    obtain ⟨quota,hquota,h⟩ := exists_of_bind h
    obtain ⟨rateLimit,hrate,h⟩ := exists_of_bind h
    obtain ⟨maxIps,hips,h⟩ := exists_of_bind h
    obtain ⟨expires,hexpires,h⟩ := exists_of_bind h
    cases h
    have hlimit := parseCount_iff hlimit
    have hquota := parseBytes_iff hquota
    have hrate := parseBytes_iff hrate
    have hips := parseCount_iff hips
    constructor
    · intro hk
      obtain ⟨hwhole,hlater⟩ := (parseExpires_iff hexpires).mp ⟨hk.expires,hk.datetime,hk.expired,hk.past⟩
      exact ⟨hlimit.mp hk.limit,hips.mp hk.maxIps,hquota.mp hk.quota,hrate.mp hk.rateLimit,hwhole,hlater⟩
    · intro hf
      obtain ⟨hint,hdatetime,hexpired,hpast⟩ := (parseExpires_iff hexpires).mpr ⟨hf.whole,hf.later⟩
      exact ⟨hlimit.mpr hf.limit,hips.mpr hf.maxIps,hquota.mpr hf.quota,hrate.mpr hf.rateLimit,hint,
        hdatetime,hexpired,hpast⟩
  · cases h

end Fields

/-- The tables of the secrets. -/
def secretEntries (toptab : Datum) : List Datum :=
  match tomlGet toptab "secret" with
  | .array elem => elem
  | _ => []

theorem parseEntries_forall {entries : List Datum} {secrets : List TomlSecret} {i : ℕ}
    (h : parseEntries i entries = .ok secrets) :
    List.Forall₂ (fun entry secret => ∃ j, parseSecret j entry = .ok secret) entries secrets := by
  induction entries generalizing i secrets with
  | nil =>
      cases h
      exact .nil
  | cons entry entries ih =>
      obtain ⟨secret,hsecret,h⟩ := exists_of_bind h
      obtain ⟨rest,hrest,h⟩ := exists_of_bind h
      cases h
      exact .cons ⟨i,hsecret⟩ (ih hrest)

theorem parseSecrets_forall {toptab : Datum} {secrets : List TomlSecret}
    (h : parseSecrets toptab = .ok secrets) :
    List.Forall₂ (fun entry secret => ∃ j, parseSecret j entry = .ok secret) (secretEntries toptab)
      secrets := by
  unfold parseSecrets at h
  unfold secretEntries
  split at h
  · rename_i hunknown
    cases h
    rw [hunknown]
    exact .nil
  · rename_i elem helem
    dsimp only at h
    split_ifs at h
    rw [helem]
    exact parseEntries_forall h
  · cases h

/-- Of the secrets that are accepted everything is kept exactly if it fits. -/
theorem limits_kept_iff {toptab : Datum} {secrets : List TomlSecret} (now : ℤ)
    (h : parseSecrets toptab = .ok secrets) :
    List.Forall₂ (Kept now) (secretEntries toptab) secrets ↔
      ∀ entry ∈ secretEntries toptab, Fits now entry := by
  have hparsed := parseSecrets_forall h
  generalize secretEntries toptab = entries at hparsed ⊢
  clear h
  induction hparsed with
  | nil => simp
  | cons hfirst _ ih =>
      obtain ⟨j,hj⟩ := hfirst
      rw [List.forall₂_cons,List.forall_mem_cons,parseSecret_iff hj]
      exact and_congr Iff.rfl ih

/-- A configuration with one secret. -/
def oneSecret (fields : List (String × Datum)) : Datum :=
  .table [("secret",.array [.table (("key",.string (List.replicate 32 97))::fields)])]

def winter : Timestamp := ⟨2026,1,1,0,30,0,0,60,by decide,by decide,by decide⟩

def sampleFields : List (String × Datum) :=
  [("limit",.int64 100),("quota",.string [49,48,71]),("expires",.datetimetz winter)]

/-- "10G" and half past midnight in a zone one hour ahead. -/
def sampleSecret : TomlSecret where
  key := List.replicate 16 0xaa
  label := []
  limit := 100
  quota := 10737418240
  rateLimit := 0
  maxIps := 0
  expires := 1767223800

theorem sample_parsed : parseSecrets (oneSecret sampleFields) = .ok [sampleSecret] := by
  decide +kernel

theorem sample_fits : ∀ entry ∈ secretEntries (oneSecret sampleFields), Fits 1800000000 entry := by
  intro entry hmem
  have hentry : entry = .table (("key",.string (List.replicate 32 97))::sampleFields) := by
    simpa [secretEntries,oneSecret,tomlGet] using hmem
  have hlimit : tomlGet entry "limit" = .int64 100 := by simp [hentry,tomlGet,sampleFields]
  have hips : tomlGet entry "max_ips" = .unknown := by simp [hentry,tomlGet,sampleFields]
  have hquota : tomlGet entry "quota" = .string [49,48,71] := by simp [hentry,tomlGet,sampleFields]
  have hrate : tomlGet entry "rate_limit" = .unknown := by simp [hentry,tomlGet,sampleFields]
  have hexpires : tomlGet entry "expires" = .datetimetz winter := by simp [hentry,tomlGet,sampleFields]
  have hwinter : ∀ ts hasOffset, IsDatetime (tomlGet entry "expires") ts hasOffset →
      ts = winter ∧ hasOffset = true := by
    intro ts hasOffset hts
    simpa [IsDatetime,hexpires,eq_comm] using hts
  constructor
  · rw [hlimit]
    intro n hn
    cases hn
    decide
  · rw [hips]
    intro n hn
    cases hn
  · rw [hquota]
    intro s hs
    cases hs
    decide
  · rw [hrate]
    intro s hs
    cases hs
  · intro ts hasOffset hts
    rw [(hwinter ts hasOffset hts).1]
    rfl
  · intro ts hasOffset hts _
    rw [(hwinter ts hasOffset hts).1,(hwinter ts hasOffset hts).2,← tomlTsToEpoch_eq]
    decide

/-- All of it is kept, and the secret has expired. -/
theorem sample_kept : parseSecrets (oneSecret sampleFields) = .ok [sampleSecret] ∧
    List.Forall₂ (Kept 1800000000) (secretEntries (oneSecret sampleFields)) [sampleSecret] :=
  ⟨sample_parsed,(limits_kept_iff 1800000000 sample_parsed).mpr sample_fits⟩

/-- 2^32 connections and "16777216T", which is 2^64 bytes. -/
def lostFields : List (String × Datum) :=
  [("limit",.int64 4294967296),("quota",.string [49,54,55,55,55,50,49,54,84])]

/-- Both limits are gone without a message. -/
theorem limits_lost : ∃ secret, parseSecrets (oneSecret lostFields) = .ok [secret] ∧
    secret.limit = 0 ∧ secret.quota = 0 ∧
    ¬ List.Forall₂ (Kept 1800000000) (secretEntries (oneSecret lostFields)) [secret] := by
  refine ⟨⟨List.replicate 16 0xaa,[],0,0,0,0,0⟩,by decide +kernel,rfl,rfl,?_⟩
  intro hall
  have hentries : secretEntries (oneSecret lostFields) =
      [.table (("key",.string (List.replicate 32 97))::lostFields)] := by
    simp [secretEntries,oneSecret,tomlGet]
  rw [hentries,List.forall₂_cons] at hall
  have hlimit := hall.1.limit 4294967296 (by simp [tomlGet,lostFields])
  exact absurd hlimit (by decide)

end Teleproxy.SecretConfig
