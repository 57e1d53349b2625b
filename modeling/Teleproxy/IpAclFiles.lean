import Teleproxy.IpAclRule
import Teleproxy.Lib.LineWindow

/-!
# Files of IP access rules

`ip_acl_load` reads a file through a window of 255 bytes and takes each piece for
a line. A read that fails ends it like the end of the file, so a path that has
become a directory yields a list without rules. `ip_acl_reload` replaces the lists
whose files can be opened. A list without rules is treated like no list, so an
allowlist file in which no line is a rule admits everybody.
-/
namespace Teleproxy.IpAclFiles
open ClientInput DecimalNumber IpAclRule LineWindow

/-- A C string without the blanks at its ends. -/
def trim (s : Bytes) : Bytes := ((s.dropWhile isspace).reverse.dropWhile isspace).reverse

variable (inetPton4 : Bytes → Option (BitVec 32)) (inetPton6 : Bytes → Option Ipv6)

/-- The body of the loop of `ip_acl_load`: the rule of a piece, which is a C string. -/
def lineRule (line : Bytes) : Option Rule :=
  let s := trim (line.takeWhile (· ≠ 0))
  if s = [] ∨ s.head? = some 35 then none else ipAclParseCidr inetPton4 inetPton6 s

/-- What stands at a path when it is opened. -/
inductive File where
  /-- `fopen` fails. -/
  | missing
  | whole (content : Bytes)
  /-- A read fails behind this content; of a directory already the first one. -/
  | broken (content : Bytes)
  deriving DecidableEq, Repr

namespace File

/-- The pieces that `fgets` returns. It drops one that a failed read interrupts. -/
def pieces : File → Option (List Bytes)
  | .missing => none
  | .whole content => some (fragments 255 10 content)
  | .broken content => some ((fragments 255 10 content).filter fun piece =>
      piece.length = 255 ∨ piece.getLast? = some 10)

/-- The content of a file that can be read. -/
def text : File → Option Bytes
  | .missing => none
  | .whole content => some content
  | .broken _ => none

/-- No read fails, and no line is longer than 255 bytes. -/
def Plain : File → Prop
  | .missing => True
  | .whole content => ∀ line ∈ lines 10 content, line.length ≤ 255
  | .broken _ => False

end File

/-- `ip_acl_load` -/
def ipAclLoad (file : File) : Acl :=
  file.pieces.map fun pieces => pieces.filterMap (lineRule inetPton4 inetPton6)

/-- The files that are configured and the lists in use. -/
structure Reloader (P : Type*) where
  blocklistFile : Option P
  allowlistFile : Option P
  acls : Acls

variable {P : Type*}

/-- One list in `ip_acl_reload`; `none` when there is neither a file that can be
opened nor a list from before. -/
def reloadList (file : Option P) (fs : P → File) (current : Acl) : Option Acl :=
  match file with
  | none => some current
  | some path =>
      match ipAclLoad inetPton4 inetPton6 (fs path) with
      | some rules => some (some rules)
      | none => if current = none then none else some current

def ipAclReload (s : Reloader P) (fs : P → File) : Reloader P × ℤ :=
  if s.blocklistFile.isNone ∧ s.allowlistFile.isNone then (s,0)
  else
    match reloadList inetPton4 inetPton6 s.blocklistFile fs s.acls.currentBlocklist with
    | none => (s,-1)
    | some blocklist =>
        let s := {s with acls := {s.acls with currentBlocklist := blocklist}}
        match reloadList inetPton4 inetPton6 s.allowlistFile fs s.acls.currentAllowlist with
        | none => (s,-1)
        | some allowlist => ({s with acls := {s.acls with currentAllowlist := allowlist}},0)

/-- No list was loaded yet. -/
def start (blocklistFile allowlistFile : Option P) : Reloader P :=
  ⟨blocklistFile,allowlistFile,⟨none,none⟩⟩

def reloads (s : Reloader P) (events : List (P → File)) : Reloader P :=
  events.foldl (fun s fs => (ipAclReload inetPton4 inetPton6 s fs).1) s

/-- The rules of the lines of a file. -/
def rulesOf (content : Bytes) : List Rule :=
  (lines 10 content).filterMap (lineRule inetPton4 inetPton6)

/-- The content of a file when it could last be read. -/
def lastRead (path : P) (events : List (P → File)) : Option Bytes :=
  events.reverse.findSome? fun fs => (fs path).text

/-- An IPv4 address matches directly, an IPv6 address also in the form of the
IPv4 address that it maps. -/
def Matches6 (rule : Rule) (ipv6 : Ipv6) : Prop :=
  matchV6 rule ipv6 = true ∨ ∃ a, ipv6 = mapped a ∧ matchV4 rule a = true

/-- What a reload does to the lists and, when it returns 0, whom the lists admit
afterwards. -/
structure AsDocumented (s : Reloader P) (before : List (P → File))
    (fs : P → File) : Prop where
  loadsBlocklist : ∀ path ∈ s.blocklistFile, ∀ content ∈ (fs path).text,
    (ipAclReload inetPton4 inetPton6 s fs).1.acls.currentBlocklist =
      some (rulesOf inetPton4 inetPton6 content)
  keepsBlocklist : ∀ path ∈ s.blocklistFile, (fs path).text = none →
    (ipAclReload inetPton4 inetPton6 s fs).1.acls.currentBlocklist = s.acls.currentBlocklist
  loadsAllowlist : (ipAclReload inetPton4 inetPton6 s fs).2 = 0 →
    ∀ path ∈ s.allowlistFile, ∀ content ∈ (fs path).text,
      (ipAclReload inetPton4 inetPton6 s fs).1.acls.currentAllowlist =
        some (rulesOf inetPton4 inetPton6 content)
  keepsAllowlist : ∀ path ∈ s.allowlistFile, (fs path).text = none →
    (ipAclReload inetPton4 inetPton6 s fs).1.acls.currentAllowlist = s.acls.currentAllowlist
  admits4 : (ipAclReload inetPton4 inetPton6 s fs).2 = 0 → ∀ path ∈ s.allowlistFile,
    ∃ content ∈ lastRead path (before++[fs]), ∀ ip,
      ipAclCheckV4 (ipAclReload inetPton4 inetPton6 s fs).1.acls ip = true →
        ∃ rule ∈ rulesOf inetPton4 inetPton6 content, matchV4 rule ip = true
  admits6 : (ipAclReload inetPton4 inetPton6 s fs).2 = 0 → ∀ path ∈ s.allowlistFile,
    ∃ content ∈ lastRead path (before++[fs]), ∀ ipv6,
      ipAclCheckV6 (ipAclReload inetPton4 inetPton6 s fs).1.acls ipv6 = true →
        ∃ rule ∈ rulesOf inetPton4 inetPton6 content, Matches6 rule ipv6

/-- Every reload of a run does what is documented. -/
def NeverFailsOpen (blocklistFile allowlistFile : Option P) (events : List (P → File)) :
    Prop :=
  ∀ before fs, before++[fs] <+: events →
    AsDocumented inetPton4 inetPton6
      (reloads inetPton4 inetPton6 (start blocklistFile allowlistFile) before) before fs

/-- Each file that can be opened is read to its end and has no line of more than 255 bytes, and
an allowlist has a rule. -/
structure Fits (blocklistFile allowlistFile : Option P) (fs : P → File) : Prop where
  blocklist : ∀ path ∈ blocklistFile, (fs path).Plain
  allowlist : ∀ path ∈ allowlistFile, (fs path).Plain
  nonempty : ∀ path ∈ allowlistFile, ∀ content ∈ (fs path).text,
    rulesOf inetPton4 inetPton6 content ≠ []

/-- What holds between two reloads. -/
structure Loaded (blocklistFile allowlistFile : Option P) (before : List (P → File))
    (s : Reloader P) : Prop where
  blockPath : s.blocklistFile = blocklistFile
  allowPath : s.allowlistFile = allowlistFile
  block : ∀ path ∈ blocklistFile,
    s.acls.currentBlocklist = (lastRead path before).map (rulesOf inetPton4 inetPton6)
  allow : ∀ path ∈ allowlistFile, s.acls.currentAllowlist = none ∨
    s.acls.currentAllowlist = (lastRead path before).map (rulesOf inetPton4 inetPton6)
  ready : ∀ path ∈ blocklistFile, s.acls.currentAllowlist ≠ none → s.acls.currentBlocklist ≠ none
  nonempty : allowlistFile.isSome → ∀ rules ∈ s.acls.currentAllowlist, rules ≠ []

variable {inetPton4 inetPton6}

theorem trim_append_space (s : Bytes) {c : UInt8} (hc : isspace c) : trim (s++[c]) = trim s := by
  unfold trim
  by_cases hs : ∀ a ∈ s, isspace a
  · have hcs : ∀ a ∈ s++[c], isspace a := by
      intro a ha
      rcases List.mem_append.mp ha with ha | ha
      · exact hs a ha
      · rwa [List.mem_singleton.mp ha]
    rw [List.dropWhile_eq_nil_iff.mpr hcs,List.dropWhile_eq_nil_iff.mpr hs]
  · have hne : s.dropWhile isspace ≠ [] := by rwa [Ne,List.dropWhile_eq_nil_iff]
    have happend : (s++[c]).dropWhile isspace = s.dropWhile isspace++[c] := by
      rw [List.dropWhile_append]
      simp [hne]
    rw [happend,List.reverse_append,List.reverse_singleton,List.singleton_append,
      List.dropWhile_cons_of_pos hc]

theorem lineRule_append_eol (line : Bytes) :
    lineRule inetPton4 inetPton6 (line++[10]) = lineRule inetPton4 inetPton6 line := by
  have hcut : trim ((line++[10]).takeWhile (· ≠ 0)) = trim (line.takeWhile (· ≠ 0)) := by
    rw [List.takeWhile_append]
    split
    · next hlen =>
        have htake : line.takeWhile (· ≠ 0) = line :=
          (List.takeWhile_prefix _).eq_of_length hlen
        rw [htake]
        exact trim_append_space line (by decide)
    · rfl
  simp only [lineRule,hcut]

theorem load_of_plain {file : File} (h : file.Plain) :
    ipAclLoad inetPton4 inetPton6 file = file.text.map (rulesOf inetPton4 inetPton6) := by
  cases file with
  | missing => rfl
  | whole content =>
      exact congrArg some (filterMap_fragments (lineRule inetPton4 inetPton6) rfl
        (fun line _ => lineRule_append_eol line) (by decide) h)
  | broken content => exact h.elim

theorem lastRead_concat (path : P) (before : List (P → File)) (fs : P → File) :
    lastRead path (before++[fs]) = (fs path).text.or (lastRead path before) := by
  simp only [lastRead,List.reverse_append,List.reverse_singleton,List.singleton_append,
    List.findSome?_cons]
  cases (fs path).text <;> rfl

theorem reloadList_none {file : Option P} {fs : P → File} {current : Acl}
    (h : reloadList inetPton4 inetPton6 file fs current = none) :
    ∃ path ∈ file, (fs path).text = none ∧ current = none := by
  cases file with
  | none => simp [reloadList] at h
  | some path =>
      cases hfs : fs path with
      | missing =>
          exact ⟨path,rfl,by rw [hfs,File.text],
            by simpa [reloadList,ipAclLoad,File.pieces,hfs] using h⟩
      | whole content => simp [reloadList,ipAclLoad,File.pieces,hfs] at h
      | broken content => simp [reloadList,ipAclLoad,File.pieces,hfs] at h

theorem reloadList_some {file : Option P} {fs : P → File} {current new : Acl}
    (h : reloadList inetPton4 inetPton6 file fs current = some new) {path : P}
    (hpath : path ∈ file) (hplain : (fs path).Plain) :
    (∀ content ∈ (fs path).text, new = some (rulesOf inetPton4 inetPton6 content)) ∧
      ((fs path).text = none → new = current ∧ current ≠ none) := by
  obtain rfl : file = some path := hpath
  cases hfs : (fs path).text with
  | some content =>
      simp only [reloadList,load_of_plain hplain,hfs,Option.map_some,Option.some.injEq] at h
      exact ⟨fun c hc => by rw [← h,Option.some.inj hc],nofun⟩
  | none =>
      by_cases hc : current = none
      · simp [reloadList,load_of_plain hplain,hfs,hc] at h
      · have hkept : current = new := by
          simpa [reloadList,load_of_plain hplain,hfs,hc] using h
        exact ⟨nofun,fun _ => ⟨hkept.symm,hc⟩⟩

/-- Either the blocklist has never been read, or it is as after the reload and
the allowlist has never been read, or both lists are. -/
theorem reload_cases (s : Reloader P) (fs : P → File) :
    (reloadList inetPton4 inetPton6 s.blocklistFile fs s.acls.currentBlocklist = none ∧
      ipAclReload inetPton4 inetPton6 s fs = (s,-1)) ∨
    ∃ blocklist,
      reloadList inetPton4 inetPton6 s.blocklistFile fs s.acls.currentBlocklist =
        some blocklist ∧
      ((reloadList inetPton4 inetPton6 s.allowlistFile fs s.acls.currentAllowlist = none ∧
          ipAclReload inetPton4 inetPton6 s fs =
            ({s with acls := {s.acls with currentBlocklist := blocklist}},-1)) ∨
        ∃ allowlist,
          reloadList inetPton4 inetPton6 s.allowlistFile fs s.acls.currentAllowlist =
            some allowlist ∧
          ipAclReload inetPton4 inetPton6 s fs =
            ({s with acls := ⟨allowlist,blocklist⟩},0)) := by
  by_cases hfiles : s.blocklistFile.isNone ∧ s.allowlistFile.isNone
  · obtain ⟨hb,ha⟩ := hfiles
    rw [Option.isNone_iff_eq_none] at hb ha
    refine .inr ⟨s.acls.currentBlocklist,by simp [reloadList,hb],.inr ⟨s.acls.currentAllowlist,
      by simp [reloadList,ha],?_⟩⟩
    cases s
    simp_all [ipAclReload]
  · unfold ipAclReload
    rw [if_neg hfiles]
    cases hb : reloadList inetPton4 inetPton6 s.blocklistFile fs s.acls.currentBlocklist with
    | none => exact .inl ⟨rfl,rfl⟩
    | some blocklist =>
        refine .inr ⟨blocklist,rfl,?_⟩
        dsimp only
        cases ha : reloadList inetPton4 inetPton6 s.allowlistFile fs s.acls.currentAllowlist with
        | none => exact .inl ⟨rfl,rfl⟩
        | some allowlist => exact .inr ⟨allowlist,rfl,rfl⟩

theorem check4_admits {acls : Acls} {rules : List Rule} (hrules : acls.currentAllowlist = some rules)
    (hne : rules ≠ []) {ip : BitVec 32} (h : ipAclCheckV4 acls ip = true) :
    ∃ rule ∈ rules, matchV4 rule ip = true := by
  have hlist : nonempty acls.currentAllowlist = true := by
    simp [nonempty,hrules,List.length_pos_iff,hne]
  rw [ipAclCheckV4,if_pos hlist,hrules] at h
  exact List.any_eq_true.mp h

theorem check6_admits {acls : Acls} {rules : List Rule} (hrules : acls.currentAllowlist = some rules)
    (hne : rules ≠ []) {ipv6 : Ipv6} (h : ipAclCheckV6 acls ipv6 = true) :
    ∃ rule ∈ rules, Matches6 rule ipv6 := by
  have hlist : nonempty acls.currentAllowlist = true := by
    simp [nonempty,hrules,List.length_pos_iff,hne]
  simp only [ipAclCheckV6,if_pos hlist] at h
  rw [hrules,Bool.or_eq_true,Bool.and_eq_true,decide_eq_true_eq] at h
  rcases h with h | ⟨hv4,h⟩
  · obtain ⟨rule,hrule,hmatch⟩ := List.any_eq_true.mp h
    exact ⟨rule,hrule,.inl hmatch⟩
  · obtain ⟨rule,hrule,hmatch⟩ := List.any_eq_true.mp h
    exact ⟨rule,hrule,.inr ⟨_,mapped_of_ne_zero hv4,hmatch⟩⟩

section
variable {blocklistFile allowlistFile : Option P} {before : List (P → File)}
  {fs : P → File} {s : Reloader P}

theorem start_loaded (blocklistFile allowlistFile : Option P) :
    Loaded inetPton4 inetPton6 blocklistFile allowlistFile [] (start blocklistFile allowlistFile) :=
  ⟨rfl,rfl,fun _ _ => rfl,fun _ _ => .inl rfl,fun _ _ h => absurd rfl h,fun _ _ h => nomatch h⟩

/-- A list that is there after a reload is that of the content read last. -/
theorem reloadList_lastRead {file : Option P} {current new : Acl}
    (h : reloadList inetPton4 inetPton6 file fs current = some new) {path : P}
    (hpath : path ∈ file) (hplain : (fs path).Plain) (hcurrent : current = none ∨
      current = (lastRead path before).map (rulesOf inetPton4 inetPton6)) :
    new = (lastRead path (before++[fs])).map (rulesOf inetPton4 inetPton6) ∧ new ≠ none := by
  obtain ⟨hread,hkept⟩ := reloadList_some h hpath hplain
  rw [lastRead_concat]
  cases hfs : (fs path).text with
  | some content => simp [hread content hfs]
  | none =>
      obtain ⟨rfl,hne⟩ := hkept hfs
      exact ⟨hcurrent.resolve_left hne,hne⟩

theorem Loaded.step (h : Loaded inetPton4 inetPton6 blocklistFile allowlistFile before s)
    (hfits : Fits inetPton4 inetPton6 blocklistFile allowlistFile fs) :
    Loaded inetPton4 inetPton6 blocklistFile allowlistFile (before++[fs])
      (ipAclReload inetPton4 inetPton6 s fs).1 := by
  obtain ⟨hb,hrun⟩ | ⟨blocklist,hb,⟨ha,hrun⟩ | ⟨allowlist,ha,hrun⟩⟩ := reload_cases s fs
  · obtain ⟨path,hpath,hfs,hnone⟩ := reloadList_none hb
    rw [h.blockPath] at hpath
    rw [hrun]
    have hallow : s.acls.currentAllowlist = none := by
      by_contra hne
      exact h.ready path hpath hne hnone
    refine ⟨h.blockPath,h.allowPath,fun p hp => ?_,fun _ _ => .inl hallow,h.ready,h.nonempty⟩
    obtain rfl : p = path := Option.some.inj (hp.symm.trans hpath)
    rw [lastRead_concat,hfs]
    exact h.block p hp
  · rw [hrun]
    obtain ⟨_,_,_,hallow⟩ := reloadList_none ha
    exact ⟨h.blockPath,h.allowPath,
      fun p hp => (reloadList_lastRead hb (h.blockPath ▸ hp) (hfits.blocklist p hp)
        (.inr (h.block p hp))).1,
      fun _ _ => .inl hallow,fun _ _ hne => absurd hallow hne,h.nonempty⟩
  · rw [hrun]
    have hblock := fun p hp => reloadList_lastRead hb (h.blockPath ▸ hp) (hfits.blocklist p hp)
      (.inr (h.block p hp))
    have hallow := fun p hp => reloadList_lastRead ha (h.allowPath ▸ hp) (hfits.allowlist p hp)
      (h.allow p hp)
    refine ⟨h.blockPath,h.allowPath,fun p hp => (hblock p hp).1,fun p hp => .inr (hallow p hp).1,
      fun p hp _ => (hblock p hp).2,fun hsome rules hrules => ?_⟩
    obtain ⟨path,hpath⟩ := Option.isSome_iff_exists.mp hsome
    obtain ⟨hread,hkept⟩ := reloadList_some ha (h.allowPath ▸ hpath) (hfits.allowlist path hpath)
    have hrules' : allowlist = some rules := hrules
    cases hfs : (fs path).text with
    | some content =>
        have hload := hrules'.symm.trans (hread content hfs)
        rw [Option.some.inj hload]
        exact hfits.nonempty path hpath content hfs
    | none => exact h.nonempty hsome rules ((hkept hfs).1 ▸ hrules)

/-- Whoever is admitted while there is an allowlist matches a rule of its content. -/
theorem Loaded.admits (h : Loaded inetPton4 inetPton6 blocklistFile allowlistFile before s)
    (hsome : s.acls.currentAllowlist ≠ none) {path : P} (hpath : path ∈ allowlistFile) :
    ∃ content ∈ lastRead path before,
      (∀ ip, ipAclCheckV4 s.acls ip = true →
        ∃ rule ∈ rulesOf inetPton4 inetPton6 content, matchV4 rule ip = true) ∧
      ∀ ipv6, ipAclCheckV6 s.acls ipv6 = true →
        ∃ rule ∈ rulesOf inetPton4 inetPton6 content, Matches6 rule ipv6 := by
  have hlast := (h.allow path hpath).resolve_left hsome
  cases hread : lastRead path before with
  | none =>
      rw [hread] at hlast
      exact absurd hlast hsome
  | some content =>
      rw [hread] at hlast
      have hne := h.nonempty (Option.isSome_iff_exists.mpr ⟨path,hpath⟩) _ hlast
      exact ⟨content,rfl,fun _ => check4_admits hlast hne,fun _ => check6_admits hlast hne⟩

theorem Loaded.documented (h : Loaded inetPton4 inetPton6 blocklistFile allowlistFile before s)
    (hfits : Fits inetPton4 inetPton6 blocklistFile allowlistFile fs) :
    AsDocumented inetPton4 inetPton6 s before fs := by
  have hblockPath : ∀ p ∈ s.blocklistFile, p ∈ blocklistFile := by simp [h.blockPath]
  have hallowPath : ∀ p ∈ s.allowlistFile, p ∈ allowlistFile := by simp [h.allowPath]
  have hnext := h.step hfits
  have hminus : ¬ (-1 : ℤ) = 0 := by decide
  obtain ⟨hb,hrun⟩ | ⟨blocklist,hb,hcase⟩ := reload_cases s fs
  · obtain ⟨path,hpath,hfs,_⟩ := reloadList_none hb
    have hunread : ∀ p ∈ s.blocklistFile, (fs p).text = none := by
      intro p hp
      rwa [Option.some.inj (hp.symm.trans hpath)]
    constructor <;> rw [hrun]
    · intro p hp content hcontent
      cases (hunread p hp).symm.trans hcontent
    · exact fun _ _ _ => rfl
    · exact fun hr => absurd hr hminus
    · exact fun _ _ _ => rfl
    · exact fun hr => absurd hr hminus
    · exact fun hr => absurd hr hminus
  · have hblock := fun p (hp : p ∈ s.blocklistFile) => reloadList_some hb hp
      (hfits.blocklist p (hblockPath p hp))
    obtain ⟨ha,hrun⟩ | ⟨allowlist,ha,hrun⟩ := hcase
    · constructor <;> rw [hrun]
      · exact fun p hp => (hblock p hp).1
      · exact fun p hp hfs => ((hblock p hp).2 hfs).1
      · exact fun hr => absurd hr hminus
      · exact fun _ _ _ => rfl
      · exact fun hr => absurd hr hminus
      · exact fun hr => absurd hr hminus
    · have hallow := fun p (hp : p ∈ s.allowlistFile) => reloadList_some ha hp
        (hfits.allowlist p (hallowPath p hp))
      have hadmits : ∀ p ∈ s.allowlistFile, _ := fun p hp => hnext.admits (by
        rw [hrun]
        exact (reloadList_lastRead ha hp (hfits.allowlist p (hallowPath p hp))
          (h.allow p (hallowPath p hp))).2) (hallowPath p hp)
      constructor
      · simpa only [hrun] using fun p hp => (hblock p hp).1
      · simpa only [hrun] using fun p hp hfs => ((hblock p hp).2 hfs).1
      · simpa only [hrun] using fun _ p hp => (hallow p hp).1
      · simpa only [hrun] using fun p hp hfs => ((hallow p hp).2 hfs).1
      · intro _ p hp
        obtain ⟨content,hread,h4,_⟩ := hadmits p hp
        exact ⟨content,hread,h4⟩
      · intro _ p hp
        obtain ⟨content,hread,_,h6⟩ := hadmits p hp
        exact ⟨content,hread,h6⟩

theorem reloads_loaded {events : List (P → File)}
    (h : ∀ fs ∈ events, Fits inetPton4 inetPton6 blocklistFile allowlistFile fs) :
    Loaded inetPton4 inetPton6 blocklistFile allowlistFile events
      (reloads inetPton4 inetPton6 (start blocklistFile allowlistFile) events) := by
  induction events using List.reverseRecOn with
  | nil => exact start_loaded blocklistFile allowlistFile
  | append_singleton events fs ih =>
      have hprev := ih fun f hf => h f (List.mem_append_left _ hf)
      rw [reloads,List.foldl_append]
      exact hprev.step (h fs (by simp))

/-- In a run of reloads in which no read fails, no line has more than 255 bytes and every
allowlist has a rule, each reload does what is documented: files are read as lines, a file that
cannot be read changes nothing, and only what matches the allowlist read last is admitted. -/
theorem acl_reloads_documented {events : List (P → File)}
    (h : ∀ fs ∈ events, Fits inetPton4 inetPton6 blocklistFile allowlistFile fs) :
    NeverFailsOpen inetPton4 inetPton6 blocklistFile allowlistFile events := by
  intro before fs hpre
  have hmem : ∀ f ∈ before++[fs], f ∈ events := fun f hf => hpre.subset hf
  have hloaded := reloads_loaded fun f hf => h f (hmem f (List.mem_append_left _ hf))
  exact hloaded.documented (h fs (hmem fs (by simp)))

end

/-- A list of one rule behind a comment, whose file is gone the second time. -/
def officeOnly : List (Bool → File) :=
  [fun file => if file then .whole (bytesOf "# office\n10.0.0.0/8\n") else .missing,
    fun _ => .missing]

theorem office_only_documented :
    NeverFailsOpen pton4 pton6 none (some true) officeOnly :=
  acl_reloads_documented (by
    intro fs hfs
    rcases List.mem_cons.mp hfs with rfl | hfs
    · refine ⟨by simp,?_,?_⟩
      · intro path hpath
        obtain rfl : true = path := Option.some.inj hpath
        change ∀ line ∈ _, _
        decide
      · intro path hpath content hcontent
        obtain rfl : true = path := Option.some.inj hpath
        obtain rfl : bytesOf "# office\n10.0.0.0/8\n" = content := Option.some.inj hcontent
        decide
    · obtain rfl := List.mem_singleton.mp hfs
      exact ⟨by simp,fun _ _ => trivial,by simp [File.text]⟩)

/-- A comment of 264 bytes that ends with what would be a rule. -/
def longComment : Bytes := bytesOf "#"++List.replicate 254 120++bytesOf "0.0.0.0/0"

/-- An allowlist file in which every line is a comment admits 8.8.8.8, a long comment in a
blocklist file is a rule, and a blocklist whose path has become a directory is emptied. -/
theorem empty_allowlist_admits :
    ¬ NeverFailsOpen pton4 pton6 none (some ()) [fun _ => .whole (bytesOf "# nobody\n")] ∧
      ¬ NeverFailsOpen pton4 pton6 (some ()) none [fun _ => .whole longComment] ∧
      ¬ NeverFailsOpen pton4 pton6 (some ()) none
        [fun _ => .whole (bytesOf "8.8.8.8\n"),fun _ => .broken []] := by
  refine ⟨?_,?_,?_⟩
  · intro h
    have hdoc := h [] _ (List.prefix_refl _)
    obtain ⟨content,hread,hadmits⟩ := hdoc.admits4 (by decide) () rfl
    obtain rfl : bytesOf "# nobody\n" = content := Option.some.inj hread
    obtain ⟨rule,hrule,_⟩ := hadmits 0x08080808 (by decide)
    have hnone : rulesOf pton4 pton6 (bytesOf "# nobody\n") = [] := by decide
    rw [hnone] at hrule
    cases hrule
  · intro h
    have hload := (h [] _ (List.prefix_refl _)).loadsBlocklist () rfl longComment rfl
    have hload' : ipAclLoad pton4 pton6 (.whole longComment) =
        some (rulesOf pton4 pton6 longComment) := hload
    revert hload'
    decide +kernel
  · intro h
    have hkept := (h [fun _ => .whole (bytesOf "8.8.8.8\n")] _ (List.prefix_refl _)).keepsBlocklist
      () rfl rfl
    have hempty : (some [] : Acl) = ipAclLoad pton4 pton6 (.whole (bytesOf "8.8.8.8\n")) := hkept
    revert hempty
    decide

end Teleproxy.IpAclFiles
