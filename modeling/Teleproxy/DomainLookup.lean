import Mathlib.Data.List.Nodup
import Mathlib.Data.List.Perm.Basic
import Teleproxy.ProxyDomains
import Teleproxy.Lib.Numeral

/-!
# Looking up a domain

Entries with a plain name are kept in a hash table whose buckets have the newest
entry first, wildcard entries in one list. `get_domain_info` looks for the name
in its bucket and then for a pattern. Whatever the hash function does, the answer
is an entry with this name, or else one whose pattern covers it. Only one pattern
can cover a name, since a label has no dot in it, so the order of registration
matters for entries with the same name alone.
-/
namespace Teleproxy.DomainLookup
open ClientInput ProxyDomains

def domainHashMod : ℕ := 257

/-- `get_domain_info_bucket`, the index of the bucket. -/
def getDomainInfoBucket (domain : Bytes) : ℕ :=
  (domain.foldl (fun (hash : UInt32) b => hash*239017+b.toUInt32) 0).toNat%domainHashMod

structure Tables where
  domains : ℕ → List DomainInfo := fun _ => []
  wildcardDomains : List DomainInfo := []

def Tables.insert (t : Tables) (info : DomainInfo) : Tables :=
  if info.isWildcard then {t with wildcardDomains := info::t.wildcardDomains}
  else
    let bucket := getDomainInfoBucket info.domain
    {t with domains := Function.update t.domains bucket (info::t.domains bucket)}

/-- The tables of `tcp_rpc_add_proxy_domain`. -/
def Tables.tcpRpcAddProxyDomain (t : Tables) (name : Bytes) (backend : Option Bytes) : Tables :=
  match parseEntry name backend with
  | none => t
  | some info => if info.acceptable then t.insert info else t

def Tables.getDomainInfo (t : Tables) (domain : Bytes) : Option DomainInfo :=
  match (t.domains (getDomainInfoBucket domain)).find? fun info => info.domain = domain with
  | some info => some info
  | none => t.wildcardDomains.find? fun info => wildcardMatch info.domain domain

def registered (entries : List (Bytes × Option Bytes)) : Tables :=
  entries.foldl (fun (t : Tables) e => t.tcpRpcAddProxyDomain e.1 e.2) {}

/-- The entries that were accepted, in the order of their registration. -/
def accepted (entries : List (Bytes × Option Bytes)) : List DomainInfo :=
  entries.filterMap fun e => (parseEntry e.1 e.2).filter DomainInfo.acceptable

/-- The pattern is `*.` and a suffix, and the name has one label without `.` and
`*` in front of it. -/
def Covers (pattern sni : Bytes) : Prop :=
  ∃ label suffix, pattern = 42::46::suffix ∧ sni = label++46::suffix ∧ label ≠ [] ∧
    46 ∉ label ∧ 42 ∉ label

/-- An entry that `get_domain_info` has to find first. -/
def Exact (entries : List (Bytes × Option Bytes)) (sni : Bytes) (info : DomainInfo) : Prop :=
  info ∈ accepted entries ∧ info.isWildcard = false ∧ info.domain = sni

def Wildcard (entries : List (Bytes × Option Bytes)) (sni : Bytes) (info : DomainInfo) : Prop :=
  info ∈ accepted entries ∧ info.isWildcard = true ∧ Covers info.domain sni

/-- What the answer for a name is. -/
structure FindsEntry (entries : List (Bytes × Option Bytes)) (sni : Bytes) : Prop where
  exact : (∃ info, Exact entries sni info) →
    ∃ info, (registered entries).getDomainInfo sni = some info ∧ Exact entries sni info
  wildcard : (¬ ∃ info, Exact entries sni info) → (∃ info, Wildcard entries sni info) →
    ∃ info, (registered entries).getDomainInfo sni = some info ∧ Wildcard entries sni info
  nothing : (¬ ∃ info, Exact entries sni info) → (¬ ∃ info, Wildcard entries sni info) →
    (registered entries).getDomainInfo sni = none
  unique : ∀ x y, Exact entries sni x ∧ Exact entries sni y ∨
    Wildcard entries sni x ∧ Wildcard entries sni y → x.domain = y.domain

variable {entries : List (Bytes × Option Bytes)} {sni : Bytes} {info : DomainInfo}

theorem acceptable_of_accepted (h : info ∈ accepted entries) : info.acceptable := by
  obtain ⟨e,_,he⟩ := List.mem_filterMap.mp h
  exact (Option.filter_eq_some_iff.mp he).2

/-- A wildcard that was accepted starts with `*.`. -/
theorem pattern_of_accepted (h : info ∈ accepted entries) (hw : info.isWildcard = true) :
    ∃ suffix, info.domain = 42::46::suffix := by
  have hacc := acceptable_of_accepted h
  have hpattern : isWildcardDomain info.domain = true := by
    simp only [DomainInfo.acceptable,hw,Bool.not_true,Bool.false_or,Bool.and_eq_true] at hacc
    exact hacc.2.1
  unfold isWildcardDomain at hpattern
  split at hpattern
  · next b p hd => exact ⟨b::p,hd⟩
  · cases hpattern

theorem wildcardMatch_iff (suffix sni : Bytes) :
    wildcardMatch (42::46::suffix) sni = true ↔ Covers (42::46::suffix) sni := by
  unfold wildcardMatch
  simp only [List.drop_one,List.tail_cons,Bool.and_eq_true,decide_eq_true_eq,Bool.not_eq_true',
    beq_iff_eq,← Bool.not_eq_true,List.contains_iff_mem]
  constructor
  · rintro ⟨⟨⟨hlen,hdot⟩,hstar⟩,hdrop⟩
    refine ⟨sni.take (sni.length-(46::suffix).length),suffix,rfl,?_,?_,hdot,hstar⟩
    · have hsplit := List.take_append_drop (sni.length-(46::suffix).length) sni
      rw [hdrop] at hsplit
      exact hsplit.symm
    · intro hnil
      have hzero := congrArg List.length hnil
      rw [List.length_take,List.length_nil] at hzero
      omega
  · rintro ⟨label,suffix',heq,rfl,hne,hdot,hstar⟩
    obtain rfl : suffix = suffix' := by simpa using heq
    have hlen : (label++46::suffix).length-(46::suffix).length = label.length := by simp
    have hpos := List.length_pos_iff.mpr hne
    rw [hlen,List.take_left,List.drop_left]
    exact ⟨⟨⟨by simp; omega,hdot⟩,hstar⟩,rfl⟩

theorem Covers.unique {p q : Bytes} (hp : Covers p sni) (hq : Covers q sni) : p = q := by
  obtain ⟨label,suffix,rfl,hsni,_,hdot,_⟩ := hp
  obtain ⟨label',suffix',rfl,hsni',_,hdot',_⟩ := hq
  have heq := hsni.symm.trans hsni'
  have hcut : ∀ l s : Bytes, 46 ∉ l → (l++46::s).dropWhile (· ≠ 46) = 46::s := by
    intro l s hl
    refine (Numeral.takeWhile_append_of_head? (fun c hc => ?_) (by simp)).2
    have hne : c ≠ 46 := by
      rintro rfl
      exact hl hc
    simpa using hne
  have hdrop := congrArg (List.dropWhile (· ≠ 46)) heq
  rw [hcut label suffix hdot,hcut label' suffix' hdot'] at hdrop
  rw [hdrop]

theorem registered_concat (entries : List (Bytes × Option Bytes)) (e : Bytes × Option Bytes) :
    registered (entries++[e]) = (registered entries).tcpRpcAddProxyDomain e.1 e.2 := by
  simp [registered]

theorem accepted_concat (entries : List (Bytes × Option Bytes)) (e : Bytes × Option Bytes) :
    accepted (entries++[e]) =
      accepted entries++((parseEntry e.1 e.2).filter DomainInfo.acceptable).toList := by
  simp only [accepted,List.filterMap_append]
  congr 1

/-- The tables hold the accepted entries, each in the list it belongs to. -/
theorem registered_eq (entries : List (Bytes × Option Bytes)) :
    (∀ k, (registered entries).domains k = ((accepted entries).filter fun info =>
      !info.isWildcard && getDomainInfoBucket info.domain = k).reverse) ∧
    (registered entries).wildcardDomains =
      ((accepted entries).filter DomainInfo.isWildcard).reverse := by
  induction entries using List.reverseRecOn with
  | nil => exact ⟨fun _ => rfl,rfl⟩
  | append_singleton entries e ih =>
      rw [registered_concat,accepted_concat,Tables.tcpRpcAddProxyDomain]
      cases hparse : parseEntry e.1 e.2 with
      | none => simpa using ih
      | some info =>
          dsimp only
          by_cases ha : info.acceptable
          · rw [if_pos ha,Option.filter_some_pos ha]
            by_cases hw : info.isWildcard
            · simp [Tables.insert,hw,ih.1,ih.2]
            · have hwild : info.isWildcard = false := by simpa using hw
              refine ⟨fun k => ?_,by simp [Tables.insert,hwild,ih.2]⟩
              by_cases hk : getDomainInfoBucket info.domain = k
              · simp [Tables.insert,hwild,hk,ih.1]
              · simp [Tables.insert,hwild,hk,Function.update_of_ne (Ne.symm hk),ih.1]
          · rw [if_neg ha,Option.filter_some_neg (by simpa using ha)]
            simpa using ih

/-- The tables without the hash function, all plain names in one list. -/
def registry (entries : List (Bytes × Option Bytes)) : Registry :=
  entries.foldl (fun (r : Registry) e => r.tcpRpcAddProxyDomain e.1 e.2) {}

theorem registry_eq (entries : List (Bytes × Option Bytes)) :
    (registry entries).domains =
        ((accepted entries).filter fun info => !info.isWildcard).reverse ∧
      (registry entries).wildcardDomains =
        ((accepted entries).filter DomainInfo.isWildcard).reverse := by
  induction entries using List.reverseRecOn with
  | nil => exact ⟨rfl,rfl⟩
  | append_singleton entries e ih =>
      have hconcat : registry (entries++[e]) =
          (registry entries).tcpRpcAddProxyDomain e.1 e.2 := by simp [registry]
      rw [hconcat,accepted_concat,Registry.tcpRpcAddProxyDomain]
      cases hparse : parseEntry e.1 e.2 with
      | none => simpa using ih
      | some info =>
          dsimp only
          by_cases ha : info.acceptable
          · rw [if_pos ha,Option.filter_some_pos ha,Registry.insert]
            cases hw : info.isWildcard <;> cases (registry entries).allowOnlyTls <;>
              simp [hw,ih.1,ih.2]
          · rw [if_neg ha,Option.filter_some_neg (by simpa using ha)]
            simpa using ih

/-- The buckets find what a search through all names finds. -/
theorem getDomainInfo_eq_registry (entries : List (Bytes × Option Bytes)) (sni : Bytes) :
    (registered entries).getDomainInfo sni = (registry entries).getDomainInfo sni := by
  have hfind : ((registered entries).domains (getDomainInfoBucket sni)).find?
      (fun info => info.domain = sni) =
        (registry entries).domains.find? fun info => info.domain = sni := by
    rw [(registered_eq entries).1,(registry_eq entries).1,← List.filter_reverse,
      ← List.filter_reverse,List.find?_filter,List.find?_filter]
    congr 1
    funext info
    by_cases hinfo : info.domain = sni
    · simp [hinfo]
    · simp [hinfo]
  cases hexact : (registry entries).domains.find? fun info => info.domain = sni with
  | some info => simp [Tables.getDomainInfo,Registry.getDomainInfo,hfind,hexact]
  | none =>
      simp [Tables.getDomainInfo,Registry.getDomainInfo,hfind,hexact,(registered_eq entries).2,
        (registry_eq entries).2]

theorem exact_of_find (h : (registry entries).domains.find?
    (fun info => info.domain = sni) = some info) : Exact entries sni info := by
  have hmem := List.mem_of_find?_eq_some h
  have hname := List.find?_some h
  rw [(registry_eq entries).1,List.mem_reverse,List.mem_filter] at hmem
  exact ⟨hmem.1,by simpa using hmem.2,by simpa using hname⟩

theorem no_exact_of_find (h : (registry entries).domains.find?
    (fun info => info.domain = sni) = none) : ¬ ∃ info, Exact entries sni info := by
  rintro ⟨info,hacc,hw,rfl⟩
  have hnone := List.find?_eq_none.mp h info
  rw [(registry_eq entries).1,List.mem_reverse,List.mem_filter] at hnone
  exact hnone ⟨hacc,by simp [hw]⟩ (by simp)

theorem wildcard_of_find (h : (registry entries).wildcardDomains.find?
    (fun info => wildcardMatch info.domain sni) = some info) : Wildcard entries sni info := by
  have hmem := List.mem_of_find?_eq_some h
  have hmatch := List.find?_some h
  rw [(registry_eq entries).2,List.mem_reverse,List.mem_filter] at hmem
  obtain ⟨suffix,hsuffix⟩ := pattern_of_accepted hmem.1 hmem.2
  refine ⟨hmem.1,hmem.2,?_⟩
  rw [hsuffix] at hmatch ⊢
  exact (wildcardMatch_iff suffix sni).mp hmatch

theorem no_wildcard_of_find (h : (registry entries).wildcardDomains.find?
    (fun info => wildcardMatch info.domain sni) = none) : ¬ ∃ info, Wildcard entries sni info := by
  rintro ⟨info,hacc,hw,hcovers⟩
  have hnone := List.find?_eq_none.mp h info
  rw [(registry_eq entries).2,List.mem_reverse,List.mem_filter] at hnone
  obtain ⟨suffix,hsuffix⟩ := pattern_of_accepted hacc hw
  rw [hsuffix] at hnone hcovers
  exact hnone ⟨hacc,hw⟩ ((wildcardMatch_iff suffix sni).mpr hcovers)

/-- The three answers of a lookup. -/
theorem getDomainInfo_cases (entries : List (Bytes × Option Bytes)) (sni : Bytes) :
    (∃ info, (registered entries).getDomainInfo sni = some info ∧ Exact entries sni info) ∨
    (¬ ∃ info, Exact entries sni info) ∧
      ((∃ info, (registered entries).getDomainInfo sni = some info ∧ Wildcard entries sni info) ∨
        (¬ ∃ info, Wildcard entries sni info) ∧
          (registered entries).getDomainInfo sni = none) := by
  rw [getDomainInfo_eq_registry,Registry.getDomainInfo]
  cases hexact : (registry entries).domains.find?
      (fun info => info.domain = sni) with
  | some info => exact .inl ⟨info,rfl,exact_of_find hexact⟩
  | none =>
      refine .inr ⟨no_exact_of_find hexact,?_⟩
      dsimp only
      cases hwild : (registry entries).wildcardDomains.find?
          (fun info => wildcardMatch info.domain sni) with
      | some info => exact .inl ⟨info,rfl,wildcard_of_find hwild⟩
      | none => exact .inr ⟨no_wildcard_of_find hwild,rfl⟩

theorem findsEntry (entries : List (Bytes × Option Bytes)) (sni : Bytes) :
    FindsEntry entries sni := by
  have hunique : ∀ x y, Exact entries sni x ∧ Exact entries sni y ∨
      Wildcard entries sni x ∧ Wildcard entries sni y → x.domain = y.domain := by
    rintro x y (⟨⟨_,_,hx⟩,_,_,hy⟩ | ⟨⟨_,_,hx⟩,_,_,hy⟩)
    · rw [hx,hy]
    · exact hx.unique hy
  obtain ⟨info,hget,hinfo⟩ | ⟨hexact,⟨info,hget,hinfo⟩ | ⟨hwild,hget⟩⟩ :=
    getDomainInfo_cases entries sni
  · exact ⟨fun _ => ⟨info,hget,hinfo⟩,fun h => absurd ⟨info,hinfo⟩ h,
      fun h => absurd ⟨info,hinfo⟩ h,hunique⟩
  · exact ⟨fun h => absurd h hexact,fun _ _ => ⟨info,hget,hinfo⟩,
      fun _ h => absurd ⟨info,hinfo⟩ h,hunique⟩
  · exact ⟨fun h => absurd h hexact,fun _ h => absurd h hwild,fun _ _ => hget,hunique⟩

/-- No two accepted entries have the same name. -/
def DistinctNames (entries : List (Bytes × Option Bytes)) : Prop :=
  ((accepted entries).map DomainInfo.domain).Nodup

instance : Decidable (DistinctNames entries) := inferInstanceAs (Decidable (List.Nodup _))

/-- With distinct names the answer is determined by the entries that were accepted. -/
theorem getDomainInfo_eq_some_iff (h : DistinctNames entries) :
    (registered entries).getDomainInfo sni = some info ↔
      Exact entries sni info ∨
        (¬ ∃ x, Exact entries sni x) ∧ Wildcard entries sni info := by
  have hsame : ∀ x y, x ∈ accepted entries → y ∈ accepted entries → x.domain = y.domain →
      x = y := fun x y hx hy => List.inj_on_of_nodup_map h hx hy
  have hunique := (findsEntry entries sni).unique
  obtain ⟨x,hget,hx⟩ | ⟨hexact,⟨x,hget,hx⟩ | ⟨hwild,hget⟩⟩ := getDomainInfo_cases entries sni
  · rw [hget,Option.some.injEq]
    constructor
    · rintro rfl
      exact .inl hx
    · rintro (hinfo | ⟨hno,_⟩)
      · exact hsame x info hx.1 hinfo.1 (hunique x info (.inl ⟨hx,hinfo⟩))
      · exact absurd ⟨x,hx⟩ hno
  · rw [hget,Option.some.injEq]
    constructor
    · rintro rfl
      exact .inr ⟨hexact,hx⟩
    · rintro (hinfo | ⟨_,hinfo⟩)
      · exact absurd ⟨info,hinfo⟩ hexact
      · exact hsame x info hx.1 hinfo.1 (hunique x info (.inr ⟨hx,hinfo⟩))
  · rw [hget]
    constructor
    · exact nofun
    · rintro (hinfo | ⟨_,hinfo⟩)
      · exact absurd ⟨info,hinfo⟩ hexact
      · exact absurd ⟨info,hinfo⟩ hwild

/-- A lookup finds the entry of this name, or else the one whose pattern covers
it, or nothing; when no two accepted entries have the same name, the order of
registration does not matter. -/
theorem domain_lookup_order_free (entries : List (Bytes × Option Bytes)) (sni : Bytes) :
    FindsEntry entries sni ∧ ∀ entries', entries.Perm entries' → DistinctNames entries →
      (registered entries').getDomainInfo sni = (registered entries).getDomainInfo sni := by
  refine ⟨findsEntry entries sni,fun entries' hperm hnames => ?_⟩
  have hacc : (accepted entries).Perm (accepted entries') := hperm.filterMap _
  have hnames' : DistinctNames entries' := (hacc.map DomainInfo.domain).nodup_iff.mp hnames
  apply Option.ext
  intro info
  rw [getDomainInfo_eq_some_iff hnames,getDomainInfo_eq_some_iff hnames']
  simp only [Exact,Wildcard,hacc.mem_iff]

/-- Two names and a pattern. -/
def threeDomains : List (Bytes × Option Bytes) :=
  [(bytesOf "a.com:8443",none),(bytesOf "*.a.com",some (bytesOf "/run/site.sock")),
    (bytesOf "www.a.com",some (bytesOf "10.0.0.1:80"))]

theorem three_domains_order_free : FindsEntry threeDomains (bytesOf "www.a.com") ∧
    (registered threeDomains.reverse).getDomainInfo (bytesOf "www.a.com") =
      (registered threeDomains).getDomainInfo (bytesOf "www.a.com") :=
  ⟨(domain_lookup_order_free threeDomains _).1,
    (domain_lookup_order_free threeDomains _).2 _ (List.reverse_perm _).symm (by decide)⟩

/-- Two different names can be given to the same domain with different ports. -/
theorem repeated_domain_order : ∃ entries entries' : List (Bytes × Option Bytes),
    (entries.map Prod.fst).Nodup ∧ entries.Perm entries' ∧
      (registered entries).getDomainInfo (bytesOf "a.com") ≠
        (registered entries').getDomainInfo (bytesOf "a.com") :=
  ⟨[(bytesOf "a.com:8443",none),(bytesOf "a.com",none)],
    [(bytesOf "a.com",none),(bytesOf "a.com:8443",none)],by decide,by decide,by decide⟩

end Teleproxy.DomainLookup
