import Mathlib.Algebra.BigOperators.Group.Finset.Basic
import Mathlib.Data.List.Find
import Mathlib.Data.List.TakeWhile
import Mathlib.Data.Rat.Defs
import Mathlib.Tactic.Ring
import Teleproxy.ProxyProtocol
import Teleproxy.Lib.Loop

/-!
# Reloading the configuration of the middle proxies

A configuration text is parsed twice into the configuration that is not active:
once to find errors, and once with the targets that are created. A target is
added to the last cluster when that has its DC number, and otherwise starts a new
cluster. Numbers are read into a `long long` without a test for overflow and
stored into an `int` before they are compared with their bounds.
-/
namespace Teleproxy.MtprotoConfig
open ClientInput ProxyProtocol Loop

/-- `*cfg_cur`, where a pointer into the text is the rest of the text and a null
byte stands behind it. -/
def char (s : Bytes) : UInt8 := s.headD 0

/-- The loop of `cfg_skipspc`, in a comment or not. -/
def skipspc : Bool → Bytes → Bytes
  | _, [] => []
  | true, c::s =>
      if c = 10 then skipspc false s else if c = 0 then c::s else skipspc true s
  | false, c::s =>
      if c = 32 || c = 9 || c = 13 || c = 10 then skipspc false s
      else if c = 35 then skipspc true s
      else c::s

def cfgSkipspc (s : Bytes) : Bytes := skipspc false s

def cfgSkspc (s : Bytes) : Bytes := s.dropWhile fun c => c = 32 || c = 9

inductive Lexem where
  | char (c : UInt8)
  | minConnections
  | maxConnections
  | proxyFor
  | proxy
  | timeout
  | default
  | eof
  | unknown
  deriving DecidableEq, Repr

def keywords : List (Bytes × Lexem) :=
  [(bytesOf "min_connections",.minConnections),(bytesOf "max_connections",.maxConnections),
    (bytesOf "proxy_for",.proxyFor),(bytesOf "proxy",.proxy),(bytesOf "timeout",.timeout),
    (bytesOf "default",.default)]

/-- `cfg_getlex_ext`, which leaves the pointer at what it does not know. -/
def cfgGetlexExt (s : Bytes) : Lexem × Bytes :=
  let s := cfgSkipspc s
  if char s = 0 then (.eof,s)
  else if [59,58,123,125].contains (char s) then (.char (char s),s.tail)
  else
    match keywords.find? fun k => k.1.isPrefixOf s with
    | some k => (k.2,s.drop k.1.length)
    | none => (.unknown,s)

/-- A value of a `long long`; the program is built with `-fwrapv`. -/
def llong (n : ℤ) : ℤ := n.bmod (2^64)

/-- A value that is stored into an `int`. -/
def int (n : ℤ) : ℤ := n.bmod (2^32)

def cfgGetint (s : Bytes) : ℤ × Bytes :=
  let s := cfgSkspc s
  ((s.takeWhile isDigit).foldl (fun x c => llong (x*10+c.toNat-48)) 0,s.dropWhile isDigit)

/-- The sign, the digits and what follows them. -/
def lexSigned (s : Bytes) : ℤ × Bytes × Bytes :=
  let sgn := if char s = 45 then -1 else 1
  let s := if char s = 45 then s.tail else s
  (sgn,s.takeWhile isDigit,s.dropWhile isDigit)

/-- A text without digits gives the least number and stays where it is. -/
def cfgGetintSignedZero (s : Bytes) : ℤ × Bytes :=
  let s := cfgSkspc s
  let (sgn,digits,rest) := lexSigned s
  if digits = [] then (-2^63,s)
  else (digits.foldl (fun x c => llong (x*10+sgn*(c.toNat-48))) 0,rest)

def isWordChar (c : UInt8) : Bool :=
  (97 ≤ c && c ≤ 122) || (65 ≤ c && c ≤ 90) || isDigit c || c = 46 || c = 45 || c = 95

/-- The word and the text that starts with it. -/
def cfgGetword (s : Bytes) : Bytes × Bytes :=
  let s := cfgSkspc s
  if char s ≠ 91 then (s.takeWhile isWordChar,s)
  else
    let inside := s.tail.takeWhile fun c => isWordChar c || c = 58
    let closing := if char (s.drop (inside.length+1)) = 93 then [93] else []
    (91::inside++closing,s)

/-- The address of a `struct hostent` by its `h_addrtype`. -/
inductive Host where
  | inet (addr : BitVec 32)
  | inet6 (addr : Fin 16 → BitVec 8)
  | other
  deriving DecidableEq

/-- What is handed to `create_target`. The job that this gives is shared by the lines with one host
and port, and its counts of connections are those of the last of them. -/
structure Target where
  host : Host
  port : ℤ
  minConnections : ℤ
  maxConnections : ℤ
  deriving DecidableEq

/-- `clusterTargets` is the index of the target that the pointer points at. -/
structure MfCluster where
  targetsNum : ℕ
  writeTargetsNum : ℕ
  targetsAllocated : ℕ
  flags : ℕ
  clusterId : ℤ
  clusterTargets : Option ℕ

structure MfConfig where
  totTargets : ℕ
  authClusters : ℕ
  defaultClusterId : ℤ
  minConnections : ℤ
  maxConnections : ℤ
  timeout : ℚ
  haveProxy : Bool
  defaultCluster : Option ℕ
  targets : ℕ → Option Target
  authCluster : ℕ → MfCluster

def maxCfgClusters : ℕ := 1024
def maxCfgTargets : ℕ := 4096

def clearMfCluster (MFC : MfCluster) : MfCluster :=
  {MFC with
    clusterTargets := none
    targetsNum := 0
    writeTargetsNum := 0
    targetsAllocated := 0
    flags := 0}

def clearConfig (MC : MfConfig) (doDestroyTargets : Bool) : MfConfig :=
  {MC with
    targets := fun j => if doDestroyTargets ∧ j < MC.totTargets then none else MC.targets j
    authCluster := fun i =>
      if i < MC.authClusters then clearMfCluster (MC.authCluster i) else MC.authCluster i
    totTargets := 0
    authClusters := 0}

def initOldMfCluster (MFC : MfCluster) (targets targetsNum flags : ℕ) (clusterId : ℤ) :
    MfCluster :=
  {MFC with
    flags := flags
    targetsNum := targetsNum
    writeTargetsNum := targetsNum
    targetsAllocated := 0
    clusterTargets := some targets
    clusterId := clusterId}

/-- The target must stand right behind the targets of the cluster. -/
def extendOldMfCluster (MFC : MfCluster) (target : ℕ) (clusterId : ℤ) : Option MfCluster :=
  if MFC.clusterTargets.map (·+MFC.targetsNum) ≠ some target then none
  else if MFC.clusterId ≠ clusterId then none
  else some {MFC with targetsNum := MFC.targetsNum+1, writeTargetsNum := MFC.targetsNum+1}

def mfClusterLookup (MC : MfConfig) (clusterId : ℤ) (force : Bool) : Option ℕ :=
  match (List.range MC.authClusters).find? fun i => (MC.authCluster i).clusterId = clusterId with
  | some i => some i
  | none => if force then MC.defaultCluster else none

/-- What `default_cfg_min_connections` and `default_cfg_max_connections` are. -/
structure Defaults where
  minConnections : ℤ
  maxConnections : ℤ

def preinitConfig (defaults : Defaults) (MC : MfConfig) : MfConfig :=
  {MC with
    totTargets := 0
    authClusters := 0
    minConnections := defaults.minConnections
    maxConnections := defaults.maxConnections
    timeout := 3/10
    defaultClusterId := 0
    defaultCluster := none}

/-- Where a pass of the loop of `parse_config` begins. -/
structure Head where
  config : MfConfig
  haveProxy : Bool
  cur : Bytes

section
variable (gethostbyname : Bytes → Option Host)

def cfgGethost (s : Bytes) : Option (Host × Bytes) :=
  let (word,s) := cfgGetword s
  if word.length = 0 ∨ 63 < word.length then none
  else (gethostbyname word).map fun h => (h,s.drop word.length)

/-- The index of the target. An error is a return with what was written into the
configuration until then. -/
def cfgParseServerPort (create : Bool) (MC : MfConfig) (s : Bytes) :
    Except MfConfig (MfConfig × ℕ × Bytes) :=
  if maxCfgTargets ≤ MC.totTargets then .error MC
  else
    match cfgGethost gethostbyname s with
    | none => .error MC
    | some (host,s) =>
        if host = .other then .error MC
        else
          let (lexem,s) := cfgGetlexExt s
          if lexem ≠ .char 58 then .error MC
          else
            let (n,s) := cfgGetint s
            let port := int n
            if port = 0 then .error MC
            else if port ≤ 0 ∨ 0x10000 ≤ port then .error MC
            else
              let D : Target := ⟨host,port,MC.minConnections,MC.maxConnections⟩
              .ok ({MC with
                targets := if create then Function.update MC.targets MC.totTargets (some D)
                  else MC.targets
                totTargets := MC.totTargets+1},MC.totTargets,s)

/-- The target goes into the cluster of its DC, which must be the last one. -/
def addTarget (create : Bool) (MC : MfConfig) (targ : ℕ) (targetDc : ℤ) :
    Except MfConfig MfConfig :=
  match mfClusterLookup MC targetDc false with
  | none =>
      let MFC := MC.authCluster MC.authClusters
      let MFC := if create then initOldMfCluster MFC targ 1 1 targetDc
        else {MFC with clusterId := targetDc}
      .ok {MC with
        authCluster := Function.update MC.authCluster MC.authClusters MFC
        authClusters := MC.authClusters+1}
  | some i =>
      if i = MC.authClusters-1 then
        if create then
          match extendOldMfCluster (MC.authCluster i) targ targetDc with
          | none => .error MC
          | some MFC => .ok {MC with authCluster := Function.update MC.authCluster i MFC}
        else .ok MC
      else .error MC

/-- The case `'y'` of the switch. -/
def proxyLine (create : Bool) (x : Head) (targetDc : ℤ) : Except MfConfig Head :=
  if maxCfgClusters ≤ x.config.authClusters then .error x.config
  else do
    let (MC,targ,s) ← cfgParseServerPort gethostbyname create x.config x.cur
    let MC ← addTarget create MC targ targetDc
    return ⟨MC,true,s⟩

/-- The switch of `parse_config`. -/
def directive (create : Bool) (t : Lexem) (x : Head) : Except MfConfig Head :=
  let MC := x.config
  match t with
  | .timeout =>
      let (n,s) := cfgGetint x.cur
      if n < 10 ∨ 30000 < n then .error {MC with timeout := n}
      else .ok {x with config := {MC with timeout := (n : ℚ)/1000}, cur := s}
  | .default =>
      let (targDc,s) := cfgGetintSignedZero x.cur
      if targDc < -0x8000 ∨ 0x8000 ≤ targDc then .error MC
      else .ok {x with config := {MC with defaultClusterId := targDc}, cur := s}
  | .proxyFor =>
      let (targDc,s) := cfgGetintSignedZero x.cur
      if targDc < -0x8000 ∨ 0x8000 ≤ targDc then .error MC
      else if char s ≠ 32 ∧ char s ≠ 9 then .error MC
      else proxyLine gethostbyname create {x with cur := cfgSkspc s} targDc
  | .proxy => proxyLine gethostbyname create x 0
  | .maxConnections =>
      let (n,s) := cfgGetint x.cur
      let MC := {MC with maxConnections := int n}
      if MC.maxConnections < MC.minConnections ∨ 1000 < MC.maxConnections then .error MC
      else .ok {x with config := MC, cur := s}
  | .minConnections =>
      let (n,s) := cfgGetint x.cur
      let MC := {MC with minConnections := int n}
      if MC.minConnections < 1 ∨ MC.maxConnections < MC.minConnections then .error MC
      else .ok {x with config := MC, cur := s}
  | .eof => .ok x
  | .char _ | .unknown => .error MC

/-- One pass of the loop of `parse_config`. -/
def parsePass (create : Bool) (x : Head) : Pass Head (Except MfConfig Head) :=
  let s := cfgSkipspc x.cur
  if char s = 0 then .leave (.ok {x with cur := s})
  else
    let (t,s) := cfgGetlexExt s
    match directive gethostbyname create t {x with cur := s} with
    | .error MC => .leave (.error MC)
    | .ok x =>
        if t = .eof then .leave (.ok x)
        else
          let (lexem,s) := cfgGetlexExt x.cur
          if lexem ≠ .char 59 then .leave (.error x.config) else .again {x with cur := s}

/-- What `parse_config` does behind its loop. -/
def parseEnd (x : Head) : Except MfConfig MfConfig :=
  if !x.haveProxy then .error x.config
  else
    let MC := {x.config with haveProxy := true}
    if MC.authClusters = 0 then .error MC
    else .ok {MC with defaultCluster := mfClusterLookup MC MC.defaultClusterId false}

variable (defaults : Defaults)

/-- `parse_config` for a text that is loaded; `create` is the flag 1. -/
def parseConfig (create : Bool) (MC : MfConfig) (text : Bytes) :
    Option (Except MfConfig MfConfig) :=
  (loop (parsePass gethostbyname create) (text.length+1)
    ⟨preinitConfig defaults MC,false,text⟩).map fun r => r.bind parseEnd

/-- `CurConf` and `NextConf` -/
structure Configs where
  curConf : MfConfig
  nextConf : MfConfig

inductive Outcome where
  | returned (res : ℤ)
  | exited
  deriving DecidableEq, Repr

/-- `do_reload_config`, where `text` is what `load_config` loads and `preload` is
the flag 32. -/
def doReloadConfig (preload : Bool) (c : Configs) (text : Option Bytes) :
    Option (Outcome × Configs) :=
  match text with
  | none => some (.returned (-2),c)
  | some text => do
      match ← parseConfig gethostbyname defaults false c.nextConf text with
      | .error MC => return (.returned (-1),{c with nextConf := MC})
      | .ok MC =>
          if preload then return (.returned 0,{c with nextConf := MC})
          else
            match ← parseConfig gethostbyname defaults true MC text with
            | .error MC => return (.exited,{c with nextConf := clearConfig MC false})
            | .ok MC => return (.returned 0,⟨MC,clearConfig c.curConf true⟩)

end

inductive Directive where
  | timeout (n : ℤ)
  | default (dc : ℤ)
  | proxy (dc : ℤ) (host : Bytes) (port : ℤ)
  | maxConnections (n : ℤ)
  | minConnections (n : ℤ)
  deriving DecidableEq, Repr

/-- A decimal number as it is written. -/
def readNumber (s : Bytes) : ℤ × Bytes :=
  let s := cfgSkspc s
  (digitsValue (s.takeWhile isDigit),s.dropWhile isDigit)

def readSigned (s : Bytes) : ℤ × Bytes :=
  let (sgn,digits,rest) := lexSigned (cfgSkspc s)
  (sgn*digitsValue digits,rest)

/-- A host and a port with `:` between them. -/
def readServer (dc : ℤ) (s : Bytes) : Directive × Bytes :=
  let (host,s) := cfgGetword s
  let (port,s) := readNumber (cfgGetlexExt (s.drop host.length)).2
  (.proxy dc host port,s)

/-- What stands behind the lexem of a directive. -/
def readOperands (t : Lexem) (s : Bytes) : Option (Directive × Bytes) :=
  match t with
  | .timeout => some ((readNumber s).map .timeout id)
  | .default => some ((readSigned s).map .default id)
  | .proxyFor => some (readServer (readSigned s).1 (cfgSkspc (readSigned s).2))
  | .proxy => some (readServer 0 s)
  | .maxConnections => some ((readNumber s).map .maxConnections id)
  | .minConnections => some ((readNumber s).map .minConnections id)
  | .eof | .char _ | .unknown => none

def readDirective (s : Bytes) : Option (Directive × Bytes) :=
  readOperands (cfgGetlexExt s).1 (cfgGetlexExt s).2

/-- The directives of a text, each up to its `;`. -/
def readDirectives : ℕ → Bytes → List Directive
  | 0, _ => []
  | fuel+1, s =>
      match readDirective s with
      | none => []
      | some (d,s) => d::readDirectives fuel (cfgGetlexExt s).2

def directives (text : Bytes) : List Directive := readDirectives (text.length+1) text

/-- The counts that are in force and the targets with their DC numbers, in the order
of the text. -/
structure Intended where
  minConnections : ℤ
  maxConnections : ℤ
  targets : List (ℤ × Target)

/-- What a directive adds to what the text said until then. -/
def Intended.add (gethostbyname : Bytes → Option Host) (I : Intended) : Directive → Intended
  | .timeout _ | .default _ => I
  | .maxConnections n => {I with maxConnections := n}
  | .minConnections n => {I with minConnections := n}
  | .proxy dc host port =>
      match gethostbyname host with
      | none => I
      | some h => {I with targets := I.targets++[(dc,⟨h,port,I.minConnections,I.maxConnections⟩)]}

def intended (gethostbyname : Bytes → Option Host) (defaults : Defaults) (ds : List Directive) :
    Intended :=
  ds.foldl (Intended.add gethostbyname) ⟨defaults.minConnections,defaults.maxConnections,[]⟩

/-- What is stored for a directive. -/
def Directive.stored : Directive → Directive
  | .timeout n => .timeout (llong n)
  | .default dc => .default (llong dc)
  | .proxy dc host port => .proxy (llong dc) host (int (llong port))
  | .maxConnections n => .maxConnections (int (llong n))
  | .minConnections n => .minConnections (int (llong n))

theorem llong_add_mul (x y : ℤ) : llong (llong x*10+y) = llong (x*10+y) := by
  unfold llong
  rw [← Int.bmod_add_bmod,Int.bmod_mul_bmod,Int.bmod_add_bmod]

theorem foldl_llong (sgn : ℤ) {ds : Bytes} (hds : ∀ c ∈ ds, isDigit c) (n : ℕ) :
    ds.foldl (fun x c => llong (x*10+sgn*((c.toNat : ℤ)-48))) (llong (sgn*n)) =
      llong (sgn*(ds.foldl (fun n c => 10*n+(c.toNat-48)) n : ℕ)) := by
  induction ds generalizing n with
  | nil => rfl
  | cons c ds ih =>
      have hc := hds c (by simp)
      simp only [isDigit,Bool.and_eq_true,decide_eq_true_eq,UInt8.le_iff_toNat_le] at hc
      rw [List.foldl_cons,List.foldl_cons,← ih (fun c hc => hds c (by simp [hc]))]
      congr 1
      rw [llong_add_mul]
      congr 1
      have h48 : 48 ≤ c.toNat := hc.1
      push_cast [h48]
      ring

theorem cfgGetint_eq (s : Bytes) :
    cfgGetint s = (llong (readNumber s).1,(readNumber s).2) := by
  have hdigits : ∀ c ∈ (cfgSkspc s).takeWhile isDigit, isDigit c :=
    fun c hc => List.mem_takeWhile_imp hc
  have hfold := foldl_llong 1 hdigits 0
  simp only [one_mul,← add_sub_assoc] at hfold
  unfold cfgGetint readNumber digitsValue
  rw [← hfold]
  rfl

theorem cfgGetintSignedZero_eq {s : Bytes}
    (h : -0x8000 ≤ (cfgGetintSignedZero s).1) :
    cfgGetintSignedZero s = (llong (readSigned s).1,(readSigned s).2) := by
  have hdigits : ∀ c ∈ (lexSigned (cfgSkspc s)).2.1, isDigit c :=
    fun c hc => List.mem_takeWhile_imp hc
  have hfold := foldl_llong (lexSigned (cfgSkspc s)).1 hdigits 0
  unfold cfgGetintSignedZero readSigned at *
  dsimp only at *
  by_cases hd : (lexSigned (cfgSkspc s)).2.1 = []
  · rw [if_pos hd] at h
    have h : (-0x8000 : ℤ) ≤ -2^63 := h
    exact absurd h (by decide)
  · rw [if_neg hd,digitsValue,← hfold,Nat.cast_zero,mul_zero]
    rfl

theorem skipspc_skipspc (b : Bool) (s : Bytes) : skipspc false (skipspc b s) = skipspc b s := by
  induction s generalizing b with
  | nil => cases b <;> rfl
  | cons c s ih =>
      cases b with
      | false =>
          rw [skipspc]
          split
          · exact ih false
          · next hspace =>
              split
              · exact ih true
              · next hcomment => rw [skipspc,if_neg hspace,if_neg hcomment]
      | true =>
          rw [skipspc]
          split
          · exact ih false
          · split
            · next hc => rw [hc,skipspc,if_neg (by decide),if_neg (by decide)]
            · exact ih true

theorem length_skipspc_le (b : Bool) (s : Bytes) : (skipspc b s).length ≤ s.length := by
  induction s generalizing b with
  | nil => cases b <;> exact le_rfl
  | cons c s ih =>
      have hle : ∀ b, (skipspc b s).length ≤ (c::s).length := fun b =>
        (ih b).trans (Nat.le_succ _)
      cases b with
      | false =>
          rw [skipspc]
          split
          · exact hle false
          · split
            · exact hle true
            · exact le_rfl
      | true =>
          rw [skipspc]
          split
          · exact hle false
          · split
            · exact le_rfl
            · exact hle true

theorem cfgGetlexExt_skipspc (s : Bytes) : cfgGetlexExt (cfgSkipspc s) = cfgGetlexExt s := by
  unfold cfgGetlexExt cfgSkipspc
  rw [skipspc_skipspc]

theorem length_cfgGetlexExt_lt {s : Bytes} {c : UInt8} {rest : Bytes}
    (h : cfgGetlexExt s = (.char c,rest)) : rest.length < s.length := by
  have hle : (cfgSkipspc s).length ≤ s.length := length_skipspc_le false s
  unfold cfgGetlexExt at h
  dsimp only at h
  split at h
  · cases h
  · next hchar =>
      have hne : (cfgSkipspc s).length ≠ 0 := by
        intro hlen
        rw [List.length_eq_zero_iff.mp hlen] at hchar
        exact hchar rfl
      split at h
      · have := congrArg (fun r => r.2.length) h
        simp only [List.length_tail] at this
        omega
      · split at h
        · next hfind =>
            have hmem := List.mem_of_find?_eq_some hfind
            have hkeys : ∀ k ∈ keywords, ∀ c, k.2 ≠ .char c := by simp [keywords]
            exact absurd (congrArg Prod.fst h) (hkeys _ hmem c)
        · cases h

/-- The text starts with a server that is accepted. -/
def ServerAt (gethostbyname : Bytes → Option Host) (s : Bytes) (host : Host) (port : ℤ)
    (rest : Bytes) : Prop :=
  ∃ s₁ s₂, cfgGethost gethostbyname s = some (host,s₁) ∧ host ≠ .other ∧
    cfgGetlexExt s₁ = (.char 58,s₂) ∧ cfgGetint s₂ = (port,rest) ∧ 0 < int port ∧
    int port < 0x10000

/-- The configuration with one target more. -/
def withTarget (create : Bool) (MC : MfConfig) (host : Host) (port : ℤ) : MfConfig :=
  {MC with
    targets :=
      if create then
        Function.update MC.targets MC.totTargets
          (some ⟨host,port,MC.minConnections,MC.maxConnections⟩)
      else MC.targets
    totTargets := MC.totTargets+1}

section
variable {gethostbyname : Bytes → Option Host} {create : Bool} {MC : MfConfig} {s rest : Bytes}
  {host : Host} {port : ℤ}

theorem cfgParseServerPort_ok {r : MfConfig × ℕ × Bytes}
    (h : cfgParseServerPort gethostbyname create MC s = .ok r) :
    MC.totTargets < maxCfgTargets ∧ ∃ host port rest, ServerAt gethostbyname s host port rest ∧
      r = (withTarget create MC host (int port),MC.totTargets,rest) := by
  unfold cfgParseServerPort at h
  split at h
  · cases h
  · next htot =>
      split at h
      · cases h
      · next host s₁ hhost =>
          split at h
          · cases h
          · next hother =>
              dsimp only at h
              split at h
              · cases h
              · next hlex =>
                  split at h
                  · cases h
                  · next hzero =>
                      split at h
                      · cases h
                      · next hrange =>
                          cases h
                          have hpos : 0 < int (cfgGetint (cfgGetlexExt s₁).2).1 := by omega
                          have hlt : int (cfgGetint (cfgGetlexExt s₁).2).1 < 0x10000 := by omega
                          exact ⟨by omega,host,(cfgGetint (cfgGetlexExt s₁).2).1,_,
                            ⟨s₁,_,hhost,hother,Prod.ext (not_not.mp hlex) rfl,rfl,hpos,hlt⟩,rfl⟩

theorem cfgParseServerPort_of (htot : MC.totTargets < maxCfgTargets)
    (h : ServerAt gethostbyname s host port rest) :
    cfgParseServerPort gethostbyname create MC s =
      .ok (withTarget create MC host (int port),MC.totTargets,rest) := by
  have ⟨s₁,s₂,hhost,hother,hlex,hint,hlow,hhigh⟩ := h
  unfold cfgParseServerPort
  rw [if_neg (by omega),hhost]
  dsimp only
  rw [if_neg hother,hlex]
  dsimp only
  rw [if_neg (not_not_intro rfl),hint]
  dsimp only
  have hzero : int port ≠ 0 := by omega
  have hrange : ¬(int port ≤ 0 ∨ 0x10000 ≤ int port) := by omega
  rw [if_neg hzero,if_neg hrange]
  rfl

/-- The server as it is written. -/
theorem readServer_of (h : ServerAt gethostbyname s host port rest) (dc : ℤ) :
    ∃ word written, readServer dc s = (.proxy dc word written,rest) ∧
      gethostbyname word = some host ∧ port = llong written := by
  have ⟨s₁,s₂,hhost,_,hlex,hint,_,_⟩ := h
  unfold cfgGethost at hhost
  dsimp only at hhost
  split at hhost
  · cases hhost
  · have ⟨h',hname,he⟩ := Option.map_eq_some_iff.mp hhost
    cases he
    rw [cfgGetint_eq] at hint
    have ⟨hport,hrest⟩ := Prod.mk.inj hint
    refine ⟨(cfgGetword s).1,(readNumber s₂).1,?_,hname,hport.symm⟩
    unfold readServer
    dsimp only
    rw [hlex,← hrest]

end

/-- The clusters have distinct numbers and share out the first `total` targets in
their order, each at least one. -/
structure Clusters (MC : MfConfig) (total : ℕ) : Prop where
  ids : ∀ i < MC.authClusters, ∀ k < MC.authClusters,
    (MC.authCluster i).clusterId = (MC.authCluster k).clusterId → i = k
  first : ∀ i < MC.authClusters, (MC.authCluster i).clusterTargets =
    some (∑ k ∈ Finset.range i, (MC.authCluster k).targetsNum)
  nonempty : ∀ i < MC.authClusters, 0 < (MC.authCluster i).targetsNum
  total : ∑ k ∈ Finset.range MC.authClusters, (MC.authCluster k).targetsNum = total

/-- The target is one of a cluster with this number. -/
def InCluster (MC : MfConfig) (j : ℕ) (dc : ℤ) : Prop :=
  ∃ i < MC.authClusters, (MC.authCluster i).clusterId = dc ∧
    ∃ first, (MC.authCluster i).clusterTargets = some first ∧ first ≤ j ∧
      j < first+(MC.authCluster i).targetsNum

/-- Clusters are not given up, and targets are added at their ends. -/
structure Grows (MC MC' : MfConfig) : Prop where
  clusters : MC.authClusters ≤ MC'.authClusters
  cluster : ∀ i < MC.authClusters,
    (MC'.authCluster i).clusterId = (MC.authCluster i).clusterId ∧
    (MC'.authCluster i).clusterTargets = (MC.authCluster i).clusterTargets ∧
    (MC.authCluster i).targetsNum ≤ (MC'.authCluster i).targetsNum

theorem InCluster.grows {MC MC' : MfConfig} {j : ℕ} {dc : ℤ} (h : InCluster MC j dc)
    (hgrows : Grows MC MC') : InCluster MC' j dc := by
  have ⟨i,hi,hid,first,hfirst,hle,hlt⟩ := h
  have ⟨hid',hfirst',hnum⟩ := hgrows.cluster i hi
  exact ⟨i,hi.trans_le hgrows.clusters,hid'.trans hid,first,hfirst'.trans hfirst,hle,by omega⟩

/-- The first target of a cluster that comes later is behind the targets of one that
comes before. -/
theorem Clusters.behind {MC : MfConfig} {total i k first : ℕ} (h : Clusters MC total)
    (hik : i < k) (hk : k < MC.authClusters) (hi : (MC.authCluster i).clusterTargets = some first) :
    first+(MC.authCluster i).targetsNum ≤
      ∑ l ∈ Finset.range k, (MC.authCluster l).targetsNum := by
  rw [h.first i (by omega),Option.some.injEq] at hi
  rw [← hi,← Finset.sum_range_succ]
  exact Finset.sum_le_sum_of_subset (Finset.range_subset_range.mpr hik)

theorem Clusters.disjoint {MC : MfConfig} {total j : ℕ} {dc dc' : ℤ} (h : Clusters MC total)
    (hj : InCluster MC j dc) (hj' : InCluster MC j dc') : dc = dc' := by
  have ⟨i,hi,hid,first,hfirst,hle,hlt⟩ := hj
  have ⟨k,hk,hid',first',hfirst',hle',hlt'⟩ := hj'
  have hat := hfirst
  have hat' := hfirst'
  rw [h.first i hi,Option.some.injEq] at hat
  rw [h.first k hk,Option.some.injEq] at hat'
  rcases lt_trichotomy i k with hik | rfl | hki
  · have := h.behind hik hk hfirst
    omega
  · exact hid.symm.trans hid'
  · have := h.behind hki hi hfirst'
    omega

theorem mfClusterLookup_eq (MC : MfConfig) (dc : ℤ) :
    mfClusterLookup MC dc false =
      (List.range MC.authClusters).find? fun i => (MC.authCluster i).clusterId = dc := by
  unfold mfClusterLookup
  cases (List.range MC.authClusters).find? fun i => (MC.authCluster i).clusterId = dc <;> rfl

theorem mfClusterLookup_none {MC : MfConfig} {dc : ℤ} (h : mfClusterLookup MC dc false = none) :
    ∀ i < MC.authClusters, (MC.authCluster i).clusterId ≠ dc := by
  rw [mfClusterLookup_eq,List.find?_eq_none] at h
  intro i hi
  simpa using h i (List.mem_range.mpr hi)

theorem mfClusterLookup_some {MC : MfConfig} {dc : ℤ} {i : ℕ}
    (h : mfClusterLookup MC dc false = some i) :
    i < MC.authClusters ∧ (MC.authCluster i).clusterId = dc := by
  rw [mfClusterLookup_eq] at h
  exact ⟨List.mem_range.mp (List.mem_of_find?_eq_some h),by simpa using List.find?_some h⟩

theorem mfClusterLookup_congr {MC₁ MC₂ : MfConfig} (hnum : MC₁.authClusters = MC₂.authClusters)
    (hids : ∀ i < MC₁.authClusters,
      (MC₁.authCluster i).clusterId = (MC₂.authCluster i).clusterId) (dc : ℤ) :
    mfClusterLookup MC₁ dc false = mfClusterLookup MC₂ dc false := by
  rw [mfClusterLookup_eq,mfClusterLookup_eq,← hnum]
  refine List.find?_congr fun i hi => ?_
  rw [hids i (List.mem_range.mp hi)]

/-- A cluster that is started behind the others. -/
theorem Clusters.start {MC : MfConfig} {targ : ℕ} {dc : ℤ} (h : Clusters MC targ)
    (hnew : ∀ i < MC.authClusters, (MC.authCluster i).clusterId ≠ dc) :
    let MFC := initOldMfCluster (MC.authCluster MC.authClusters) targ 1 1 dc
    let MC' : MfConfig := {MC with
      authCluster := Function.update MC.authCluster MC.authClusters MFC
      authClusters := MC.authClusters+1}
    Clusters MC' (targ+1) ∧ Grows MC MC' ∧ InCluster MC' targ dc := by
  intro MFC MC'
  have hold : ∀ i < MC.authClusters, MC'.authCluster i = MC.authCluster i := fun i hi =>
    Function.update_of_ne (by omega) ..
  have hlast : MC'.authCluster MC.authClusters = MFC := Function.update_self ..
  have hsum : ∀ i ≤ MC.authClusters, ∑ k ∈ Finset.range i, (MC'.authCluster k).targetsNum =
      ∑ k ∈ Finset.range i, (MC.authCluster k).targetsNum := by
    intro i hi
    refine Finset.sum_congr rfl fun k hk => ?_
    rw [hold k (by have := Finset.mem_range.mp hk; omega)]
  refine ⟨⟨?_,?_,?_,?_⟩,⟨Nat.le_succ _,fun i hi => ?_⟩,MC.authClusters,Nat.lt_succ_self _,?_⟩
  · intro i hi k hk hid
    rcases Nat.lt_succ_iff_lt_or_eq.mp hi with hi | rfl <;>
      rcases Nat.lt_succ_iff_lt_or_eq.mp hk with hk | rfl
    · rw [hold i hi,hold k hk] at hid
      exact h.ids i hi k hk hid
    · rw [hold i hi,hlast] at hid
      exact absurd hid (hnew i hi)
    · rw [hold k hk,hlast] at hid
      exact absurd hid.symm (hnew k hk)
    · rfl
  · intro i hi
    rw [hsum i (Nat.lt_succ_iff.mp hi)]
    rcases Nat.lt_succ_iff_lt_or_eq.mp hi with hi | rfl
    · rw [hold i hi]
      exact h.first i hi
    · rw [hlast,h.total]
      rfl
  · intro i hi
    rcases Nat.lt_succ_iff_lt_or_eq.mp hi with hi | rfl
    · rw [hold i hi]
      exact h.nonempty i hi
    · rw [hlast]
      exact Nat.one_pos
  · rw [Finset.sum_range_succ,hsum _ le_rfl,h.total,hlast]
    rfl
  · rw [hold i hi]
    exact ⟨rfl,rfl,le_rfl⟩
  · rw [hlast]
    exact ⟨rfl,targ,rfl,le_rfl,Nat.lt_succ_self _⟩

/-- The last cluster with a target more. -/
theorem Clusters.extend {MC : MfConfig} {targ : ℕ} {dc : ℤ} {n : ℕ} (h : Clusters MC targ)
    (hn : MC.authClusters = n+1) (hid : (MC.authCluster n).clusterId = dc) :
    let MFC : MfCluster := {MC.authCluster n with
      targetsNum := (MC.authCluster n).targetsNum+1
      writeTargetsNum := (MC.authCluster n).targetsNum+1}
    let MC' : MfConfig := {MC with authCluster := Function.update MC.authCluster n MFC}
    extendOldMfCluster (MC.authCluster n) targ dc = some MFC ∧
      Clusters MC' (targ+1) ∧ Grows MC MC' ∧ InCluster MC' targ dc := by
  intro MFC MC'
  have hold : ∀ i < n, MC'.authCluster i = MC.authCluster i := fun i hi =>
    Function.update_of_ne (by omega) ..
  have hlast : MC'.authCluster n = MFC := Function.update_self ..
  have hsum : ∀ i ≤ n, ∑ k ∈ Finset.range i, (MC'.authCluster k).targetsNum =
      ∑ k ∈ Finset.range i, (MC.authCluster k).targetsNum := by
    intro i hi
    refine Finset.sum_congr rfl fun k hk => ?_
    rw [hold k (by have := Finset.mem_range.mp hk; omega)]
  have hfirst := h.first n (by omega)
  have htotal := h.total
  rw [hn,Finset.sum_range_succ] at htotal
  have hsame : ∀ i < n+1, (MC'.authCluster i).clusterId = (MC.authCluster i).clusterId ∧
      (MC'.authCluster i).clusterTargets = (MC.authCluster i).clusterTargets ∧
      (MC.authCluster i).targetsNum ≤ (MC'.authCluster i).targetsNum := by
    intro i hi
    rcases Nat.lt_succ_iff_lt_or_eq.mp hi with hi | rfl
    · rw [hold i hi]
      exact ⟨rfl,rfl,le_rfl⟩
    · rw [hlast]
      exact ⟨rfl,rfl,Nat.le_succ _⟩
  refine ⟨?_,⟨?_,?_,?_,?_⟩,⟨le_rfl,fun i hi => hsame i (hn ▸ hi)⟩,n,?_,?_⟩
  · unfold extendOldMfCluster
    have hbehind : (MC.authCluster n).clusterTargets.map (·+(MC.authCluster n).targetsNum) =
        some targ := by rw [hfirst,Option.map_some,htotal]
    rw [if_neg (not_not_intro hbehind),if_neg (not_not_intro hid)]
  · intro i hi k hk he
    rw [(hsame i (hn ▸ hi)).1,(hsame k (hn ▸ hk)).1] at he
    exact h.ids i hi k hk he
  · intro i hi
    have hi : i < n+1 := hn ▸ hi
    rw [(hsame i hi).2.1,hsum i (by omega)]
    exact h.first i (by omega)
  · intro i hi
    have := h.nonempty i hi
    have := (hsame i (hn ▸ hi)).2.2
    omega
  · show ∑ k ∈ Finset.range MC.authClusters, (MC'.authCluster k).targetsNum = targ+1
    rw [hn,Finset.sum_range_succ,hsum n le_rfl,hlast,← htotal]
    rfl
  · show n < MC.authClusters
    omega
  · rw [hlast]
    refine ⟨hid,_,hfirst,by omega,?_⟩
    show targ < _+((MC.authCluster n).targetsNum+1)
    omega

/-- In the second pass a target is added whenever it was in the first. -/
theorem addTarget_clusters {MC₁ MC₂ MC₁' : MfConfig} {targ : ℕ} {dc : ℤ}
    (hnum : MC₁.authClusters = MC₂.authClusters)
    (hids : ∀ i < MC₁.authClusters,
      (MC₁.authCluster i).clusterId = (MC₂.authCluster i).clusterId)
    (hclusters : Clusters MC₂ targ) (h : addTarget false MC₁ targ dc = .ok MC₁') :
    ∃ MC₂', addTarget true MC₂ targ dc = .ok MC₂' ∧ MC₁'.authClusters = MC₂'.authClusters ∧
      (∀ i < MC₁'.authClusters,
        (MC₁'.authCluster i).clusterId = (MC₂'.authCluster i).clusterId) ∧
      Clusters MC₂' (targ+1) ∧ Grows MC₂ MC₂' ∧ InCluster MC₂' targ dc := by
  have hlookup := mfClusterLookup_congr hnum hids dc
  unfold addTarget at h ⊢
  rw [← hlookup]
  cases hfind : mfClusterLookup MC₁ dc false with
  | none =>
      rw [hfind] at h
      cases h
      refine ⟨_,rfl,by simp [hnum],fun i hi => ?_,
        hclusters.start (mfClusterLookup_none (hlookup ▸ hfind))⟩
      rcases Nat.lt_succ_iff_lt_or_eq.mp hi with hi | rfl
      · dsimp only
        rw [Function.update_of_ne (by omega),Function.update_of_ne (by omega)]
        exact hids i hi
      · dsimp only
        rw [Function.update_self,← hnum,Function.update_self]
        rfl
  | some i =>
      rw [hfind] at h
      have ⟨hi,hid⟩ := mfClusterLookup_some (hlookup ▸ hfind)
      dsimp only at h ⊢
      split at h
      · next hlast =>
          cases h
          have hn : MC₂.authClusters = i+1 := by omega
          have ⟨hrun,hrest⟩ := hclusters.extend hn hid
          rw [if_pos (by omega),if_pos rfl,hrun]
          refine ⟨_,rfl,hnum,fun k hk => ?_,hrest⟩
          rw [(hrest.2.1.cluster k (hnum ▸ hk)).1]
          exact hids k hk
      · cases h

/-- What both passes write. -/
structure Agree (MC₁ MC₂ : MfConfig) : Prop where
  totTargets : MC₁.totTargets = MC₂.totTargets
  authClusters : MC₁.authClusters = MC₂.authClusters
  ids : ∀ i < MC₁.authClusters, (MC₁.authCluster i).clusterId = (MC₂.authCluster i).clusterId
  minConnections : MC₁.minConnections = MC₂.minConnections
  maxConnections : MC₁.maxConnections = MC₂.maxConnections

structure Paired (x₁ x₂ : Head) : Prop where
  agree : Agree x₁.config x₂.config
  haveProxy : x₁.haveProxy = x₂.haveProxy
  cur : x₁.cur = x₂.cur

/-- The configuration holds what the text says: the counts, and each target in its
place and in a cluster of its DC. -/
structure Matches (I : Intended) (MC : MfConfig) : Prop where
  minConnections : MC.minConnections = I.minConnections
  maxConnections : MC.maxConnections = I.maxConnections
  totTargets : MC.totTargets = I.targets.length
  target : ∀ j dc t, I.targets[j]? = some (dc,t) → MC.targets j = some t ∧ InCluster MC j dc

structure Valid (I : Intended) (MC : MfConfig) : Prop where
  clusters : Clusters MC MC.totTargets
  holds : Matches I MC

/-- What does not change clusters and targets. -/
theorem Valid.counts {I I' : Intended} {MC MC' : MfConfig} (h : Valid I MC)
    (hn : MC'.authClusters = MC.authClusters) (hclusters : MC'.authCluster = MC.authCluster)
    (htot : MC'.totTargets = MC.totTargets) (htargets : MC'.targets = MC.targets)
    (hI : I'.targets = I.targets) (hmin : MC'.minConnections = I'.minConnections)
    (hmax : MC'.maxConnections = I'.maxConnections) : Valid I' MC' := by
  have ⟨⟨hids,hfirst,hnonempty,htotal⟩,hmatches⟩ := h
  refine ⟨⟨?_,?_,?_,?_⟩,hmin,hmax,?_,fun j dc t hj => ?_⟩
  · rwa [hn,hclusters]
  · rwa [hn,hclusters]
  · rwa [hn,hclusters]
  · rwa [hn,hclusters,htot]
  · rw [htot,hI]
    exact hmatches.totTargets
  · have ⟨htarget,hin⟩ := hmatches.target j dc t (hI ▸ hj)
    refine ⟨by rwa [htargets],?_⟩
    unfold InCluster at hin ⊢
    rwa [hn,hclusters]

section
variable {I : Intended} {MC₁ MC₂ : MfConfig}

theorem Agree.timeout (h : Agree MC₁ MC₂) (t : ℚ) :
    Agree {MC₁ with timeout := t} {MC₂ with timeout := t} :=
  ⟨h.1,h.2,h.3,h.4,h.5⟩

theorem Agree.defaultClusterId (h : Agree MC₁ MC₂) (dc : ℤ) :
    Agree {MC₁ with defaultClusterId := dc} {MC₂ with defaultClusterId := dc} :=
  ⟨h.1,h.2,h.3,h.4,h.5⟩

theorem Agree.setMin (h : Agree MC₁ MC₂) (n : ℤ) :
    Agree {MC₁ with minConnections := n} {MC₂ with minConnections := n} :=
  ⟨h.1,h.2,h.3,rfl,h.5⟩

theorem Agree.setMax (h : Agree MC₁ MC₂) (n : ℤ) :
    Agree {MC₁ with maxConnections := n} {MC₂ with maxConnections := n} :=
  ⟨h.1,h.2,h.3,h.4,rfl⟩

theorem Valid.timeout (h : Valid I MC₂) (t : ℚ) : Valid I {MC₂ with timeout := t} :=
  h.counts rfl rfl rfl rfl rfl h.holds.minConnections h.holds.maxConnections

theorem Valid.defaultClusterId (h : Valid I MC₂) (dc : ℤ) :
    Valid I {MC₂ with defaultClusterId := dc} :=
  h.counts rfl rfl rfl rfl rfl h.holds.minConnections h.holds.maxConnections

theorem Valid.setMin (h : Valid I MC₂) (n : ℤ) :
    Valid {I with minConnections := n} {MC₂ with minConnections := n} :=
  h.counts rfl rfl rfl rfl rfl rfl h.holds.maxConnections

theorem Valid.setMax (h : Valid I MC₂) (n : ℤ) :
    Valid {I with maxConnections := n} {MC₂ with maxConnections := n} :=
  h.counts rfl rfl rfl rfl rfl h.holds.minConnections rfl

end

section
variable {gethostbyname : Bytes → Option Host} {x₁ x₂ y₁ : Head} {I : Intended}

theorem addTarget_frame {create : Bool} {MC MC' : MfConfig} {targ : ℕ} {dc : ℤ}
    (h : addTarget create MC targ dc = .ok MC') :
    MC'.totTargets = MC.totTargets ∧ MC'.targets = MC.targets ∧
      MC'.minConnections = MC.minConnections ∧ MC'.maxConnections = MC.maxConnections := by
  unfold addTarget at h
  split at h
  · cases h
    exact ⟨rfl,rfl,rfl,rfl⟩
  · split at h
    · split at h
      · split at h
        · cases h
        · cases h
          exact ⟨rfl,rfl,rfl,rfl⟩
      · cases h
        exact ⟨rfl,rfl,rfl,rfl⟩
    · cases h

theorem Intended.add_proxy {word : Bytes} {host : Host} (h : gethostbyname word = some host)
    (I : Intended) (dc port : ℤ) :
    I.add gethostbyname (.proxy dc word port) = {I with
      targets := I.targets++[(dc,⟨host,port,I.minConnections,I.maxConnections⟩)]} := by
  unfold Intended.add
  dsimp only
  rw [h]

/-- The target that a proxy line creates, and its cluster. -/
theorem addTarget_step {host : Host} {port dc : ℤ} {MC : MfConfig}
    (h : addTarget false (withTarget false x₁.config host port) x₂.config.totTargets dc = .ok MC)
    (hagree : Agree x₁.config x₂.config) (hvalid : Valid I x₂.config) :
    ∃ MC', addTarget true (withTarget true x₂.config host port) x₂.config.totTargets dc =
        .ok MC' ∧ Agree MC MC' ∧
      Valid {I with targets := I.targets++[(dc,⟨host,port,I.minConnections,I.maxConnections⟩)]}
        MC' := by
  have ⟨hclusters,hmatches⟩ := hvalid
  have hwith : Clusters (withTarget true x₂.config host port) x₂.config.totTargets :=
    ⟨hclusters.ids,hclusters.first,hclusters.nonempty,hclusters.total⟩
  have ⟨MC',hrun,hnum,hids,hclusters',hgrows,hin⟩ :=
    addTarget_clusters (by exact hagree.authClusters) (by exact hagree.ids) hwith h
  have ⟨htot₁,_,hmin₁,hmax₁⟩ := addTarget_frame h
  have ⟨htot₂,htargets,hmin₂,hmax₂⟩ := addTarget_frame hrun
  refine ⟨MC',hrun,⟨?_,hnum,hids,?_,?_⟩,?_,?_,?_,?_,fun j dc' t hj => ?_⟩
  · rw [htot₁,htot₂]
    exact congrArg (·+1) hagree.totTargets
  · exact hmin₁.trans (hagree.minConnections.trans hmin₂.symm)
  · exact hmax₁.trans (hagree.maxConnections.trans hmax₂.symm)
  · rw [htot₂]
    exact hclusters'
  · exact hmin₂.trans hmatches.minConnections
  · exact hmax₂.trans hmatches.maxConnections
  · rw [htot₂,List.length_append]
    exact congrArg (·+1) hmatches.totTargets
  · rw [htargets]
    show Function.update x₂.config.targets x₂.config.totTargets _ j = _ ∧ _
    rcases lt_trichotomy j I.targets.length with hlt | heq | hgt
    · rw [List.getElem?_append_left hlt] at hj
      have ⟨htarget,hold⟩ := hmatches.target j dc' t hj
      rw [Function.update_of_ne (by rw [hmatches.totTargets]; omega)]
      exact ⟨htarget,@InCluster.grows (withTarget true x₂.config host port) _ _ _ hold hgrows⟩
    · rw [List.getElem?_append_right (by omega),heq,Nat.sub_self] at hj
      cases hj
      rw [heq,← hmatches.totTargets,Function.update_self,hmatches.minConnections,
        hmatches.maxConnections]
      exact ⟨rfl,hin⟩
    · rw [List.getElem?_eq_none (by rw [List.length_append]; exact hgt)] at hj
      cases hj

/-- The host of a proxy line has an address. -/
def Directive.Resolves (gethostbyname : Bytes → Option Host) : Directive → Prop
  | .proxy _ host _ => ∃ h, gethostbyname host = some h
  | _ => True

theorem proxyLine_step {dc : ℤ} (h : proxyLine gethostbyname false x₁ dc = .ok y₁)
    (hpair : Paired x₁ x₂) (hvalid : Valid I x₂.config) (written : ℤ) :
    ∃ y₂ word port, proxyLine gethostbyname true x₂ dc = .ok y₂ ∧ Paired y₁ y₂ ∧
      readServer written x₁.cur = (.proxy written word port,y₁.cur) ∧
      (∃ h, gethostbyname word = some h) ∧
      Valid (I.add gethostbyname (.proxy dc word (int (llong port)))) y₂.config := by
  have ⟨hagree,_,hcur⟩ := hpair
  unfold proxyLine at h ⊢
  rw [← hcur,← hagree.authClusters]
  split at h
  · cases h
  · next hnum =>
      rw [if_neg hnum]
      cases hserver : cfgParseServerPort gethostbyname false x₁.config x₁.cur with
      | error MC => simp [hserver,bind,Except.bind] at h
      | ok r =>
          have ⟨htot,host,port,rest,hat,hr⟩ := cfgParseServerPort_ok hserver
          have ⟨word,number,hread,hname,hport⟩ := readServer_of hat written
          rw [hagree.totTargets] at htot hr
          cases hadd : addTarget false (withTarget false x₁.config host (int port))
              x₂.config.totTargets dc with
          | error MC => simp [hserver,hr,hadd,bind,Except.bind] at h
          | ok MC₁ =>
              have hy : y₁ = ⟨MC₁,true,rest⟩ := by
                simpa [hserver,hr,hadd,bind,Except.bind,pure,Except.pure,eq_comm] using h
              have ⟨MC₂,hrun,hpaired,hvalid'⟩ :=
                addTarget_step hadd hagree hvalid
              refine ⟨⟨MC₂,true,rest⟩,word,number,?_,?_,?_,⟨host,hname⟩,?_⟩
              · rw [cfgParseServerPort_of htot hat]
                simp [hrun,bind,Except.bind,pure,Except.pure]
              · rw [hy]
                exact ⟨hpaired,rfl,rfl⟩
              · rw [hread,hy]
              · rw [← hport,Intended.add_proxy hname]
                exact hvalid'

theorem directive_step {t : Lexem} (h : directive gethostbyname false t x₁ = .ok y₁)
    (hpair : Paired x₁ x₂) (hvalid : Valid I x₂.config) (ht : t ≠ .eof) :
    ∃ y₂ d, directive gethostbyname true t x₂ = .ok y₂ ∧ Paired y₁ y₂ ∧
      readOperands t x₁.cur = some (d,y₁.cur) ∧ d.Resolves gethostbyname ∧
      Valid (I.add gethostbyname d.stored) y₂.config := by
  have ⟨hagree,hproxy,hcur⟩ := hpair
  cases t with
  | eof => exact absurd rfl ht
  | char | unknown => cases h
  | timeout =>
      unfold directive at h ⊢
      rw [← hcur]
      dsimp only at h ⊢
      rw [cfgGetint_eq] at h ⊢
      split at h
      · cases h
      · next hrange =>
          cases h
          rw [if_neg hrange]
          exact ⟨_,.timeout (readNumber x₁.cur).1,rfl,⟨hagree.timeout _,hproxy,rfl⟩,rfl,
            trivial,hvalid.timeout _⟩
  | default =>
      unfold directive at h ⊢
      rw [← hcur]
      dsimp only at h ⊢
      split at h
      · cases h
      · next hrange =>
          cases h
          have hread := cfgGetintSignedZero_eq (not_lt.mp (not_or.mp hrange).1)
          rw [if_neg hrange,hread]
          exact ⟨_,.default (readSigned x₁.cur).1,rfl,⟨hagree.defaultClusterId _,hproxy,rfl⟩,rfl,
            trivial,hvalid.defaultClusterId _⟩
  | minConnections =>
      have hmax := hagree.maxConnections
      unfold directive at h ⊢
      rw [← hcur]
      dsimp only at h ⊢
      rw [cfgGetint_eq] at h ⊢
      generalize hn : int (llong (readNumber x₁.cur).1) = n at h ⊢
      split at h
      · cases h
      · next hrange =>
          cases h
          rw [if_neg (hmax ▸ hrange)]
          refine ⟨_,.minConnections (readNumber x₁.cur).1,rfl,⟨hagree.setMin n,hproxy,rfl⟩,rfl,
            trivial,?_⟩
          show Valid {I with minConnections := int (llong _)} _
          rw [hn]
          exact hvalid.setMin n
  | maxConnections =>
      have hmin := hagree.minConnections
      unfold directive at h ⊢
      rw [← hcur]
      dsimp only at h ⊢
      rw [cfgGetint_eq] at h ⊢
      generalize hn : int (llong (readNumber x₁.cur).1) = n at h ⊢
      split at h
      · cases h
      · next hrange =>
          cases h
          rw [if_neg (hmin ▸ hrange)]
          refine ⟨_,.maxConnections (readNumber x₁.cur).1,rfl,⟨hagree.setMax n,hproxy,rfl⟩,rfl,
            trivial,?_⟩
          show Valid {I with maxConnections := int (llong _)} _
          rw [hn]
          exact hvalid.setMax n
  | proxy =>
      have ⟨y₂,word,port,hrun,hpaired,hread,hname,hvalid'⟩ := proxyLine_step h hpair hvalid 0
      exact ⟨y₂,_,hrun,hpaired,congrArg some hread,hname,hvalid'⟩
  | proxyFor =>
      unfold directive at h ⊢
      rw [← hcur]
      dsimp only at h ⊢
      split at h
      · cases h
      · next hrange =>
          split at h
          · cases h
          · next hspace =>
              have hread := cfgGetintSignedZero_eq (not_lt.mp (not_or.mp hrange).1)
              rw [if_neg hrange,if_neg hspace]
              have hpair' : Paired {x₁ with cur := cfgSkspc (cfgGetintSignedZero x₁.cur).2}
                  {x₂ with cur := cfgSkspc (cfgGetintSignedZero x₁.cur).2} :=
                ⟨hagree,hproxy,rfl⟩
              have ⟨y₂,word,port,hrun,hpaired,hserver,hname,hvalid'⟩ :=
                proxyLine_step h hpair' hvalid (readSigned x₁.cur).1
              rw [hread] at hserver hvalid'
              exact ⟨y₂,.proxy (readSigned x₁.cur).1 word port,hrun,hpaired,
                congrArg some hserver,hname,hvalid'⟩

end

theorem readNumber_suffix (s : Bytes) : (readNumber s).2 <:+ s :=
  (List.dropWhile_suffix _).trans (List.dropWhile_suffix _)

theorem readSigned_suffix (s : Bytes) : (readSigned s).2 <:+ s := by
  have hspace : cfgSkspc s <:+ s := List.dropWhile_suffix _
  unfold readSigned lexSigned
  dsimp only
  split
  · exact (List.dropWhile_suffix _).trans ((List.tail_suffix _).trans hspace)
  · exact (List.dropWhile_suffix _).trans hspace

theorem skipspc_suffix (b : Bool) (s : Bytes) : skipspc b s <:+ s := by
  induction s generalizing b with
  | nil => cases b <;> exact List.suffix_rfl
  | cons c s ih =>
      have htail : ∀ b, skipspc b s <:+ c::s := fun b => (ih b).trans (List.suffix_cons c s)
      cases b with
      | false =>
          rw [skipspc]
          split
          · exact htail false
          · split
            · exact htail true
            · exact List.suffix_rfl
      | true =>
          rw [skipspc]
          split
          · exact htail false
          · split
            · exact List.suffix_rfl
            · exact htail true

theorem cfgGetlexExt_suffix (s : Bytes) : (cfgGetlexExt s).2 <:+ s := by
  have hspace : cfgSkipspc s <:+ s := skipspc_suffix false s
  unfold cfgGetlexExt
  dsimp only
  split
  · exact hspace
  · split
    · exact (List.tail_suffix _).trans hspace
    · split
      · exact (List.drop_suffix ..).trans hspace
      · exact hspace

theorem cfgGetword_suffix (s : Bytes) : (cfgGetword s).2 <:+ s := by
  unfold cfgGetword
  dsimp only
  split <;> exact List.dropWhile_suffix _

theorem readServer_suffix (dc : ℤ) (s : Bytes) : (readServer dc s).2 <:+ s := by
  have hword : (cfgGetword s).2.drop (cfgGetword s).1.length <:+ s :=
    (List.drop_suffix ..).trans (cfgGetword_suffix s)
  unfold readServer
  exact (readNumber_suffix _).trans ((cfgGetlexExt_suffix _).trans hword)

theorem readOperands_suffix {t : Lexem} {s rest : Bytes} {d : Directive}
    (h : readOperands t s = some (d,rest)) : rest <:+ s := by
  cases t with
  | timeout | minConnections | maxConnections =>
      cases h
      exact readNumber_suffix s
  | default =>
      cases h
      exact readSigned_suffix s
  | proxyFor =>
      have hrest : (readServer _ _).2 = rest := congrArg Prod.snd (Option.some.inj h)
      rw [← hrest]
      exact (readServer_suffix ..).trans ((List.dropWhile_suffix _).trans (readSigned_suffix s))
  | proxy =>
      have hrest : (readServer 0 s).2 = rest := congrArg Prod.snd (Option.some.inj h)
      rw [← hrest]
      exact readServer_suffix ..
  | eof | char | unknown => cases h

section
variable {gethostbyname : Bytes → Option Host} {x₁ x₂ y₁ : Head} {I : Intended}

/-- A pass that goes on does so for both, behind the `;` of a directive. -/
theorem parsePass_again (h : parsePass gethostbyname false x₁ = .again y₁)
    (hpair : Paired x₁ x₂) (hvalid : Valid I x₂.config) :
    ∃ d s y₂, readDirective x₁.cur = some (d,s) ∧ (cfgGetlexExt s).2 = y₁.cur ∧
      parsePass gethostbyname true x₂ = .again y₂ ∧ Paired y₁ y₂ ∧
      d.Resolves gethostbyname ∧ Valid (I.add gethostbyname d.stored) y₂.config ∧
      y₁.cur.length < x₁.cur.length := by
  have ⟨hagree,hproxy,hcur⟩ := hpair
  unfold parsePass at h ⊢
  rw [← hcur]
  dsimp only at h ⊢
  rw [cfgGetlexExt_skipspc] at h ⊢
  split at h
  · cases h
  · next hchar =>
      rw [if_neg hchar]
      split at h
      · cases h
      · next z₁ hdir =>
          split at h
          · cases h
          · next heof =>
              split at h
              · cases h
              · next hlex =>
                  cases h
                  have ⟨z₂,d,hrun,⟨hagree',hproxy',hcur'⟩,hread,hname,hvalid'⟩ :=
                    @directive_step _ _ {x₂ with cur := (cfgGetlexExt x₁.cur).2} _ _ _ hdir
                      ⟨hagree,hproxy,rfl⟩ hvalid heof
                  have hless : (cfgGetlexExt z₁.cur).2.length < z₁.cur.length :=
                    length_cfgGetlexExt_lt (Prod.ext (not_not.mp hlex) rfl)
                  have hle := (readOperands_suffix hread).length_le
                  have hle' := (cfgGetlexExt_suffix x₁.cur).length_le
                  refine ⟨d,z₁.cur,{z₂ with cur := (cfgGetlexExt z₁.cur).2},hread,rfl,?_,
                    ⟨hagree',hproxy',rfl⟩,hname,hvalid',by dsimp only at *; omega⟩
                  rw [hrun]
                  dsimp only
                  rw [if_neg heof,← hcur',if_neg hlex]

/-- Where the first pass leaves its loop without an error, so does the second. -/
theorem parsePass_leave {y : Head} (h : parsePass gethostbyname false x₁ = .leave (.ok y))
    (hpair : Paired x₁ x₂) :
    readDirective x₁.cur = none ∧ y.config = x₁.config ∧ y.haveProxy = x₁.haveProxy ∧
      ∃ s, parsePass gethostbyname true x₂ = .leave (.ok {x₂ with cur := s}) := by
  have ⟨_,_,hcur⟩ := hpair
  unfold parsePass at h ⊢
  rw [← hcur]
  dsimp only at h ⊢
  rw [cfgGetlexExt_skipspc] at h ⊢
  split at h
  · next hchar =>
      cases h
      rw [if_pos hchar]
      refine ⟨?_,rfl,rfl,_,rfl⟩
      unfold readDirective cfgGetlexExt
      dsimp only
      rw [if_pos hchar]
      rfl
  · next hchar =>
      rw [if_neg hchar]
      split at h
      · cases h
      · next z₁ hdir =>
          split at h
          · next heof =>
              cases h
              rw [heof] at hdir
              cases hdir
              rw [heof]
              unfold readDirective
              rw [heof]
              exact ⟨rfl,rfl,rfl,_,rfl⟩
          · split at h <;> cases h

/-- What a text adds, with the numbers as they are stored. -/
def Intended.store (gethostbyname : Bytes → Option Host) (I : Intended) (ds : List Directive) :
    Intended :=
  ds.foldl (fun I d => I.add gethostbyname d.stored) I

/-- The loop of both passes. It ends, and where the first pass leaves it without an
error, every pass of the second has stored what the text said until then. -/
theorem parseLoop_spec {fuel : ℕ} (hfuel : x₁.cur.length < fuel) (hpair : Paired x₁ x₂)
    (hvalid : Valid I x₂.config) :
    (∃ MC, loop (parsePass gethostbyname false) fuel x₁ = some (.error MC)) ∨
    ∃ y₁ y₂, loop (parsePass gethostbyname false) fuel x₁ = some (.ok y₁) ∧
      loop (parsePass gethostbyname true) fuel x₂ = some (.ok y₂) ∧
      Agree y₁.config y₂.config ∧ y₁.haveProxy = y₂.haveProxy ∧
      Valid (I.store gethostbyname (readDirectives fuel x₁.cur)) y₂.config ∧
      (∀ d ∈ readDirectives fuel x₁.cur, d.Resolves gethostbyname) ∧
      (∀ n ≤ (readDirectives fuel x₁.cur).length,
        ∃ z, after (parsePass gethostbyname true) n x₂ = some z) ∧
      ∀ n z, after (parsePass gethostbyname true) n x₂ = some z →
        Valid (I.store gethostbyname ((readDirectives fuel x₁.cur).take n)) z.config := by
  induction fuel generalizing x₁ x₂ I with
  | zero => omega
  | succ fuel ih =>
      rw [loop,loop,readDirectives]
      cases hpass : parsePass gethostbyname false x₁ with
      | leave r =>
          cases r with
          | error MC => exact .inl ⟨MC,rfl⟩
          | ok y =>
              obtain ⟨hread,hconfig,hproxy,s,hrun⟩ := parsePass_leave hpass hpair
              rw [hread,hrun]
              refine .inr ⟨y,_,rfl,rfl,hconfig ▸ hpair.agree,hproxy.trans hpair.haveProxy,hvalid,
                by simp,fun n hn => ?_,fun n z hz => ?_⟩
              · cases Nat.le_zero.mp hn
                exact ⟨x₂,rfl⟩
              · cases n with
                | zero =>
                    cases hz
                    exact hvalid
                | succ n =>
                    rw [after,hrun] at hz
                    cases hz
      | again z₁ =>
          obtain ⟨d,s,z₂,hread,hcur,hrun,hpair',hname,hvalid',hless⟩ :=
            parsePass_again hpass hpair hvalid
          rw [hread,hrun]
          dsimp only
          rw [hcur]
          rcases ih (by omega) hpair' hvalid' with
            herror | ⟨y₁,y₂,hloop₁,hloop₂,hagree,hproxy,hstored,hnames,hheads,hall⟩
          · exact .inl herror
          · refine .inr ⟨y₁,y₂,hloop₁,hloop₂,hagree,hproxy,hstored,?_,fun n hn => ?_,
              fun n z hz => ?_⟩
            · intro d' hd'
              rcases List.mem_cons.mp hd' with rfl | hd'
              · exact hname
              · exact hnames d' hd'
            · cases n with
              | zero => exact ⟨x₂,rfl⟩
              | succ n =>
                  rw [after,hrun]
                  exact hheads n (Nat.le_of_succ_le_succ hn)
            · cases n with
              | zero =>
                  cases hz
                  exact hvalid
              | succ n =>
                  rw [after,hrun] at hz
                  exact hall n z hz

theorem parseEnd_spec {y₁ y₂ : Head} {MC : MfConfig} (hagree : Agree y₁.config y₂.config)
    (hproxy : y₁.haveProxy = y₂.haveProxy) (h : parseEnd y₁ = .ok MC)
    (hvalid : Valid I y₂.config) : ∃ MC', parseEnd y₂ = .ok MC' ∧ Valid I MC' := by
  unfold parseEnd at h ⊢
  rw [← hproxy]
  dsimp only at h ⊢
  rw [← hagree.authClusters]
  split at h
  · cases h
  · next hhave =>
      rw [if_neg hhave]
      split at h
      · cases h
      · next hnum =>
          rw [if_neg hnum]
          exact ⟨_,rfl,hvalid.counts hagree.authClusters rfl rfl rfl rfl
            hvalid.holds.minConnections hvalid.holds.maxConnections⟩

end

theorem preinit_paired (defaults : Defaults) (MC₁ MC₂ : MfConfig) (text : Bytes) :
    Paired ⟨preinitConfig defaults MC₁,false,text⟩ ⟨preinitConfig defaults MC₂,false,text⟩ :=
  ⟨⟨rfl,rfl,fun _ hi => absurd hi (Nat.not_lt_zero _),rfl,rfl⟩,rfl,rfl⟩

theorem preinit_valid (defaults : Defaults) (MC : MfConfig) :
    Valid ⟨defaults.minConnections,defaults.maxConnections,[]⟩ (preinitConfig defaults MC) := by
  have hnone : ∀ i, ¬i < (preinitConfig defaults MC).authClusters := fun i => Nat.not_lt_zero i
  exact ⟨⟨fun i hi => absurd hi (hnone i),fun i hi => absurd hi (hnone i),
    fun i hi => absurd hi (hnone i),rfl⟩,rfl,rfl,rfl,fun j dc t hj => by cases hj⟩

/-- What the text says, with the numbers as they are stored. -/
def storedText (gethostbyname : Bytes → Option Host) (defaults : Defaults)
    (ds : List Directive) : Intended :=
  Intended.store gethostbyname ⟨defaults.minConnections,defaults.maxConnections,[]⟩ ds

theorem parseConfig_spec (gethostbyname : Bytes → Option Host) (defaults : Defaults)
    (MC : MfConfig) (text : Bytes) :
    (∃ MC₁, parseConfig gethostbyname defaults false MC text = some (.error MC₁)) ∨
    ∃ MC₁, parseConfig gethostbyname defaults false MC text = some (.ok MC₁) ∧
      (∀ d ∈ directives text, d.Resolves gethostbyname) ∧
      ∀ MC₀, ∃ MC₂, parseConfig gethostbyname defaults true MC₀ text = some (.ok MC₂) ∧
        Valid (storedText gethostbyname defaults (directives text)) MC₂ ∧
        (∀ n ≤ (directives text).length, ∃ x,
          after (parsePass gethostbyname true) n ⟨preinitConfig defaults MC₀,false,text⟩ =
            some x) ∧
        ∀ n x, after (parsePass gethostbyname true) n ⟨preinitConfig defaults MC₀,false,text⟩ =
            some x →
          Valid (storedText gethostbyname defaults ((directives text).take n)) x.config := by
  have hlen : text.length < text.length+1 := Nat.lt_succ_self _
  have hspec := fun MC₀ =>
    @parseLoop_spec gethostbyname ⟨preinitConfig defaults MC,false,text⟩ _ _ _ hlen
      (preinit_paired defaults MC MC₀ text) (preinit_valid defaults MC₀)
  unfold parseConfig
  rcases hspec MC with ⟨MC₁,herror⟩ | ⟨y₁,_,hloop₁,_,_,_,_,hnames,_⟩
  · rw [herror]
    exact .inl ⟨MC₁,rfl⟩
  · rw [hloop₁]
    cases hend : parseEnd y₁ with
    | error MC₁ => exact .inl ⟨MC₁,congrArg some hend⟩
    | ok MC₁ =>
        refine .inr ⟨MC₁,congrArg some hend,hnames,fun MC₀ => ?_⟩
        rcases hspec MC₀ with ⟨_,herror⟩ | ⟨z₁,y₂,hloop,hloop₂,hagree,hproxy,hvalid,_,hheads,hall⟩
        · rw [hloop₁] at herror
          cases herror
        · rw [hloop₁] at hloop
          cases hloop
          have ⟨MC₂,hend₂,hvalid₂⟩ := parseEnd_spec hagree hproxy hend hvalid
          rw [hloop₂]
          exact ⟨MC₂,congrArg some hend₂,hvalid₂,hheads,hall⟩

def FitsInt (n : ℤ) : Prop := -2^31 ≤ n ∧ n < 2^31

instance (n : ℤ) : Decidable (FitsInt n) := inferInstanceAs (Decidable (_ ∧ _))

def FitsLong (n : ℤ) : Prop := -2^63 ≤ n ∧ n < 2^63

theorem llong_eq_iff {n : ℤ} : llong n = n ↔ FitsLong n := by
  unfold llong FitsLong
  constructor
  · intro h
    rw [← h]
    exact ⟨Int.le_bmod (by decide),Int.bmod_lt (by decide)⟩
  · intro ⟨hlow,hhigh⟩
    exact Int.bmod_eq_of_le hlow hhigh

theorem int_llong_eq_iff {n : ℤ} : int (llong n) = n ↔ FitsInt n := by
  have hint : int (llong n) = n.bmod (2^32) := Int.bmod_bmod_of_dvd (by decide)
  rw [hint]
  unfold FitsInt
  constructor
  · intro h
    rw [← h]
    exact ⟨Int.le_bmod (by decide),Int.bmod_lt (by decide)⟩
  · intro ⟨hlow,hhigh⟩
    exact Int.bmod_eq_of_le hlow hhigh

/-- The counts and the port fit into an `int`, and the DC number into a `long long`. -/
def Directive.Fits : Directive → Prop
  | .timeout _ | .default _ => True
  | .proxy dc _ port => FitsLong dc ∧ FitsInt port
  | .maxConnections n | .minConnections n => FitsInt n

theorem Directive.Fits.port {dc port : ℤ} {host : Bytes}
    (h : (Directive.proxy dc host port).Fits) : FitsInt port := h.2

section
variable {gethostbyname : Bytes → Option Host} {d : Directive}

theorem add_stored (h : d.Fits) (I : Intended) :
    I.add gethostbyname d.stored = I.add gethostbyname d := by
  cases d with
  | timeout | default => rfl
  | proxy dc host port =>
      have ⟨hdc,hport⟩ := h
      rw [Directive.stored,llong_eq_iff.mpr hdc,int_llong_eq_iff.mpr hport]
  | maxConnections | minConnections => rw [Directive.stored,int_llong_eq_iff.mpr h]

theorem store_fits {ds : List Directive} (h : ∀ d ∈ ds, d.Fits) (I : Intended) :
    I.store gethostbyname ds = ds.foldl (Intended.add gethostbyname) I := by
  induction ds generalizing I with
  | nil => rfl
  | cons d ds ih =>
      rw [List.foldl_cons,← ih (fun d hd => h d (List.mem_cons_of_mem _ hd)),
        ← add_stored (h d List.mem_cons_self)]
      rfl

/-- A directive that is stored as it is written fits. -/
theorem fits_of_matches {I J : Intended} {MC : MfConfig} (hname : d.Resolves gethostbyname)
    (hstored : Valid (J.add gethostbyname d.stored) MC)
    (hwritten : Matches (I.add gethostbyname d) MC) : d.Fits := by
  have ⟨hclusters,hmatches⟩ := hstored
  cases d with
  | timeout | default => trivial
  | minConnections n =>
      exact int_llong_eq_iff.mp (hmatches.minConnections.symm.trans hwritten.minConnections)
  | maxConnections n =>
      exact int_llong_eq_iff.mp (hmatches.maxConnections.symm.trans hwritten.maxConnections)
  | proxy dc host port =>
      have ⟨h,hhost⟩ := hname
      rw [Directive.stored,Intended.add_proxy hhost] at hmatches
      rw [Intended.add_proxy hhost] at hwritten
      have hlength : J.targets.length = I.targets.length := by
        have := hmatches.totTargets.symm.trans hwritten.totTargets
        rw [List.length_append,List.length_append] at this
        exact Nat.succ_injective this
      have ⟨htarget,hin⟩ := hmatches.target J.targets.length _ _ (List.getElem?_concat_length ..)
      have ⟨htarget',hin'⟩ := hwritten.target I.targets.length _ _ (List.getElem?_concat_length ..)
      rw [hlength] at htarget hin
      have hsame := congrArg Target.port (Option.some.inj (htarget.symm.trans htarget'))
      exact ⟨llong_eq_iff.mp (hclusters.disjoint hin hin'),int_llong_eq_iff.mp hsame⟩

end

/-- What a reload is for. Where the first pass finds an error, the active configuration
stays. Otherwise the second pass finds none, the clusters share out the targets, and
what is in force at the head of each of its passes, and in the end, is what the text
says until there. -/
def Reloads (gethostbyname : Bytes → Option Host) (defaults : Defaults) (c : Configs)
    (text : Bytes) : Prop :=
  match parseConfig gethostbyname defaults false c.nextConf text with
  | none => False
  | some (.error _) => ∀ preload, ∃ c',
      doReloadConfig gethostbyname defaults preload c (some text) = some (.returned (-1),c') ∧
        c'.curConf = c.curConf
  | some (.ok MC) => ∃ c',
      doReloadConfig gethostbyname defaults false c (some text) = some (.returned 0,c') ∧
        Clusters c'.curConf c'.curConf.totTargets ∧
        Matches (intended gethostbyname defaults (directives text)) c'.curConf ∧
        ∀ n x, after (parsePass gethostbyname true) n ⟨preinitConfig defaults MC,false,text⟩ =
            some x →
          Matches (intended gethostbyname defaults ((directives text).take n)) x.config

section
variable {gethostbyname : Bytes → Option Host} {defaults : Defaults} {c : Configs} {text : Bytes}

theorem fits_of_reloads {MC : MfConfig} (h : Reloads gethostbyname defaults c text)
    (haccept : parseConfig gethostbyname defaults false c.nextConf text = some (.ok MC)) :
    ∀ d ∈ directives text, d.Fits := by
  intro d hd
  rcases parseConfig_spec gethostbyname defaults c.nextConf text with
    ⟨_,herror⟩ | ⟨MC₁,hok,hnames,hsecond⟩
  · rw [haccept] at herror
    cases herror
  · have ⟨_,_,_,hheads,hvalid⟩ := hsecond MC
    unfold Reloads at h
    rw [haccept] at h
    have ⟨_,_,_,_,hmatches⟩ := h
    have ⟨n,hn,hget⟩ := List.mem_iff_getElem.mp hd
    have ⟨x,hx⟩ := hheads (n+1) hn
    have hstored := hvalid (n+1) x hx
    have hwritten := hmatches (n+1) x hx
    unfold storedText Intended.store at hstored
    unfold intended at hwritten
    rw [List.take_succ_eq_append_getElem hn,List.foldl_append,hget] at hstored hwritten
    exact fits_of_matches (hnames d hd) hstored hwritten

theorem reloads_of_fits
    (h : ∀ MC, parseConfig gethostbyname defaults false c.nextConf text = some (.ok MC) →
      ∀ d ∈ directives text, d.Fits) :
    Reloads gethostbyname defaults c text := by
  unfold Reloads
  rcases parseConfig_spec gethostbyname defaults c.nextConf text with
    ⟨MC₁,herror⟩ | ⟨MC₁,hok,_,hsecond⟩
  · rw [herror]
    intro preload
    refine ⟨{c with nextConf := MC₁},?_,rfl⟩
    unfold doReloadConfig
    dsimp only
    rw [herror]
    rfl
  · have hfits := h MC₁ hok
    have ⟨MC₂,hrun,hvalid,_,hheads⟩ := hsecond MC₁
    have hstored : ∀ n, storedText gethostbyname defaults ((directives text).take n) =
        intended gethostbyname defaults ((directives text).take n) := fun n =>
      store_fits (fun d hd => hfits d (List.mem_of_mem_take hd)) _
    have hall := hstored (directives text).length
    rw [List.take_length] at hall
    rw [hok]
    refine ⟨⟨MC₂,clearConfig c.curConf true⟩,?_,hvalid.clusters,hall ▸ hvalid.holds,
      fun n x hx => hstored n ▸ (hheads n x hx).holds⟩
    unfold doReloadConfig
    dsimp only
    rw [hok]
    simp only [Option.bind_eq_bind,Option.bind_some,Bool.false_eq_true,↓reduceIte]
    rw [hrun]
    rfl

end

/-- A reload does what it is for unless a text is accepted in which a number does not
fit into the type of its variable. -/
theorem reload_keeps_text_iff (gethostbyname : Bytes → Option Host) (defaults : Defaults)
    (c : Configs) (text : Bytes) :
    Reloads gethostbyname defaults c text ↔
      ((∃ MC, parseConfig gethostbyname defaults false c.nextConf text = some (.ok MC)) →
        ∀ d ∈ directives text, d.Fits) := by
  constructor
  · intro h ⟨_,haccept⟩
    exact fits_of_reloads h haccept
  · intro h
    exact reloads_of_fits fun MC haccept => h ⟨MC,haccept⟩

theorem not_reloads_of_port {gethostbyname : Bytes → Option Host} {defaults : Defaults}
    {c : Configs} {text host : Bytes} {dc port : ℤ}
    (haccept : (parseConfig gethostbyname defaults false c.nextConf text).map Except.isOk =
      some true)
    (hd : .proxy dc host port ∈ directives text) (hport : ¬FitsInt port) :
    ¬Reloads gethostbyname defaults c text := by
  intro h
  have ⟨r,hr,hok⟩ := Option.map_eq_some_iff.mp haccept
  cases r with
  | error MC => cases hok
  | ok MC => exact hport (fits_of_reloads h hr _ hd).port

/-- Before the first reload. -/
def emptyConfigs : Configs :=
  let MC : MfConfig :=
    ⟨0,0,0,0,0,0,false,none,fun _ => none,fun _ => ⟨0,0,0,0,0,none⟩⟩
  ⟨MC,MC⟩

/-- Port 1 is taken for a port that does not fit. -/
theorem large_port_accepted :
    ¬Reloads (fun _ => some (.inet 1)) ⟨4,8⟩ emptyConfigs (bytesOf "proxy dc:4294967297;") := by
  have haccept : (parseConfig (fun _ => some (.inet 1)) ⟨4,8⟩ false emptyConfigs.nextConf
      (bytesOf "proxy dc:4294967297;")).map Except.isOk = some true := by decide +kernel
  have hd : .proxy 0 (bytesOf "dc") 4294967297 ∈
      directives (bytesOf "proxy dc:4294967297;") := by decide +kernel
  have hport : ¬FitsInt 4294967297 := by decide
  exact not_reloads_of_port haccept hd hport

end Teleproxy.MtprotoConfig
