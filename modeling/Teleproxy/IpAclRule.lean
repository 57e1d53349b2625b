import Mathlib.Data.List.FinRange
import Mathlib.Data.Int.Order.Basic
import Teleproxy.DecimalNumber

/-!
# Rules of the IP access lists

A rule is an address with a prefix length, parsed from a text such as
`185.220.101.0/24`. The prefix length is what `strtol` returns, cut to an `int`,
and what stands behind it is not looked at when it starts with a blank; a text
without any digit is a prefix of length zero. An IPv6 address that is a mapped
IPv4 address is also compared with the IPv4 rules, except for 0.0.0.0, which
stands for an address that is not mapped.
-/
namespace Teleproxy.IpAclRule
open ClientInput ProxyProtocol DecimalNumber

abbrev Ipv6 := Fin 16 → BitVec 8

/-- The family of a rule says which member of its union holds the address. -/
inductive Addr where
  | v4 (addr : BitVec 32)
  | v6 (addr : Ipv6)
  deriving DecidableEq

structure Rule where
  prefixLen : ℤ
  addr : Addr
  deriving DecidableEq

def maskV4 (addr : BitVec 32) (prefixLen : ℤ) : BitVec 32 :=
  if prefixLen ≤ 0 then 0
  else if 32 ≤ prefixLen then addr
  else addr &&& (0xFFFFFFFF#32 <<< (32-prefixLen).toNat)

/-- `(unsigned char)(0xFF << (8 - bits))` for some of the bits of a byte. -/
def byteMask (bits : ℤ) : BitVec 8 := (0xFF#32 <<< (8-bits).toNat).setWidth 8

def maskV6 (addr : Ipv6) (prefixLen : ℤ) : Ipv6 := fun i =>
  let bits := prefixLen-i*8
  if 8 ≤ bits then addr i
  else if 0 < bits then addr i &&& byteMask bits
  else 0

section
variable (inetPton4 : Bytes → Option (BitVec 32)) (inetPton6 : Bytes → Option Ipv6)

/-- The part of `ip_acl_parse_cidr` behind the prefix length, with the address
and the prefix length that was given. -/
def parseAddr (written : Bytes) (explicitPrefix : Option ℤ) : Option Rule :=
  match inetPton4 written with
  | some addr =>
      let prefixLen := explicitPrefix.getD 32
      if prefixLen < 0 ∨ 32 < prefixLen then none
      else some ⟨prefixLen,.v4 (maskV4 addr prefixLen)⟩
  | none =>
      match inetPton6 written with
      | some addr =>
          let prefixLen := explicitPrefix.getD 128
          if prefixLen < 0 ∨ 128 < prefixLen then none
          else some ⟨prefixLen,.v6 (maskV6 addr prefixLen)⟩
      | none => none

/-- `ip_acl_parse_cidr`. What `inet_pton` makes of a text is a parameter, for
`AF_INET` in host byte order. -/
def ipAclParseCidr (s : Bytes) : Option Rule :=
  let written := s.takeWhile (· ≠ 47)
  match s.dropWhile (· ≠ 47) with
  | [] => parseAddr inetPton4 inetPton6 written none
  | _::text =>
      let (value,endptr) := strtol text
      if endptr.head?.all isspace then
        parseAddr inetPton4 inetPton6 written (some (value.bmod (2^32)))
      else none

end

def matchV4 (rule : Rule) (ip : BitVec 32) : Bool :=
  match rule.addr with
  | .v4 addr => maskV4 ip rule.prefixLen = addr
  | .v6 _ => false

def matchV6 (rule : Rule) (ipv6 : Ipv6) : Bool :=
  match rule.addr with
  | .v4 _ => false
  | .v6 addr =>
      (List.finRange 16).all fun i =>
        let bits := rule.prefixLen-i*8
        let mask := if 8 ≤ bits then 0xFF else if 0 < bits then byteMask bits else 0
        ipv6 i &&& mask = addr i

/-- A list that was loaded, or `NULL`. -/
abbrev Acl := Option (List Rule)

def aclContainsV4 (acl : Acl) (ip : BitVec 32) : Bool :=
  match acl with
  | none => false
  | some rules => rules.any fun rule => matchV4 rule ip

def aclContainsV6 (acl : Acl) (ipv6 : Ipv6) : Bool :=
  match acl with
  | none => false
  | some rules => rules.any fun rule => matchV6 rule ipv6

/-- `acl && acl->count > 0` -/
def nonempty (acl : Acl) : Bool := acl.any fun rules => 0 < rules.length

def v4mappedPrefix : List (BitVec 8) := [0,0,0,0,0,0,0,0,0,0,0xFF,0xFF]

def v6ToV4Mapped (ipv6 : Ipv6) : BitVec 32 :=
  if ((List.finRange 16).map ipv6).take 12 = v4mappedPrefix then
    ((ipv6 12).setWidth 32 <<< 24) ||| ((ipv6 13).setWidth 32 <<< 16) |||
      ((ipv6 14).setWidth 32 <<< 8) ||| (ipv6 15).setWidth 32
  else 0

/-- The lists in use. -/
structure Acls where
  currentAllowlist : Acl
  currentBlocklist : Acl

def ipAclCheckV4 (acls : Acls) (ip : BitVec 32) : Bool :=
  if nonempty acls.currentAllowlist then aclContainsV4 acls.currentAllowlist ip
  else if nonempty acls.currentBlocklist then !aclContainsV4 acls.currentBlocklist ip
  else true

def ipAclCheckV6 (acls : Acls) (ipv6 : Ipv6) : Bool :=
  let v4 := v6ToV4Mapped ipv6
  if nonempty acls.currentAllowlist then
    aclContainsV6 acls.currentAllowlist ipv6 ||
      (v4 ≠ 0 && aclContainsV4 acls.currentAllowlist v4)
  else if nonempty acls.currentBlocklist then
    !(aclContainsV6 acls.currentBlocklist ipv6 ||
      (v4 ≠ 0 && aclContainsV4 acls.currentBlocklist v4))
  else true

theorem allOnes_shiftLeft_getMsbD {w : ℕ} (n i : ℕ) :
    (BitVec.allOnes w <<< n).getMsbD i = decide (i+n < w) := by
  rw [BitVec.getMsbD_shiftLeft,BitVec.getMsbD_allOnes]

theorem maskV4_getMsbD (addr : BitVec 32) {p : ℤ} {i : ℕ} (hi : i < 32) :
    (maskV4 addr p).getMsbD i = (decide ((i : ℤ) < p) && addr.getMsbD i) := by
  have hones : 0xFFFFFFFF#32 = BitVec.allOnes 32 := rfl
  unfold maskV4
  split
  · have hip : ¬ (i : ℤ) < p := by omega
    simp [hip]
  · split
    · have hip : (i : ℤ) < p := by omega
      simp [hip]
    · rw [BitVec.getMsbD_and,hones,allOnes_shiftLeft_getMsbD,Bool.and_comm]
      congr 1
      rw [decide_eq_decide]
      omega

theorem maskV4_eq_iff (a b : BitVec 32) (p : ℤ) :
    maskV4 a p = maskV4 b p ↔ ∀ i : ℕ, i < 32 → (i : ℤ) < p → a.getMsbD i = b.getMsbD i := by
  constructor
  · intro h i hi hip
    have hbit := congrArg (fun x => x.getMsbD i) h
    simpa [maskV4_getMsbD _ hi,hip] using hbit
  · intro h
    apply BitVec.eq_of_getMsbD_eq
    intro i hi
    rw [maskV4_getMsbD _ hi,maskV4_getMsbD _ hi]
    by_cases hip : (i : ℤ) < p
    · simp [hip,h i hi hip]
    · simp [hip]

/-- The mask of one byte of an IPv6 address when `bits` bits of it are kept. -/
theorem byteMask_getMsbD {bits : ℤ} (h0 : 0 < bits) (h8 : bits < 8) {k : ℕ} :
    (byteMask bits).getMsbD k = decide ((k : ℤ) < bits) := by
  have hmask : ∀ n < 8, (0xFF#32 <<< n).setWidth 8 = BitVec.allOnes 8 <<< n := by decide
  rw [byteMask,hmask _ (by omega),allOnes_shiftLeft_getMsbD,decide_eq_decide]
  omega

theorem maskV6_getMsbD (addr : Ipv6) (p : ℤ) (i : Fin 16) {k : ℕ} (hk : k < 8) :
    (maskV6 addr p i).getMsbD k = (decide ((8*i+k : ℤ) < p) && (addr i).getMsbD k) := by
  unfold maskV6
  dsimp only
  split
  · have hkp : (8*i+k : ℤ) < p := by omega
    simp [hkp]
  · split
    · next h8 h0 =>
        rw [BitVec.getMsbD_and,byteMask_getMsbD h0 (by omega),Bool.and_comm]
        congr 1
        rw [decide_eq_decide]
        omega
    · have hkp : ¬ (8*i+k : ℤ) < p := by omega
      simp [hkp]

/-- The comparison of `match_v6` is that of the masked addresses. -/
theorem matchV6_eq (p : ℤ) (addr ipv6 : Ipv6) :
    matchV6 ⟨p,.v6 addr⟩ ipv6 = true ↔ maskV6 ipv6 p = addr := by
  simp only [matchV6,List.all_eq_true,List.mem_finRange,true_implies,decide_eq_true_eq]
  rw [funext_iff]
  apply forall_congr'
  intro i
  have hones : ∀ x : BitVec 8, x &&& 0xFF = x := fun _ => BitVec.and_allOnes
  unfold maskV6
  dsimp only
  split
  · rw [hones]
  · split
    · rfl
    · simp

/-- A bit of an IPv6 address, from the front. -/
def bit6 (ipv6 : Ipv6) (i : Fin 128) : Bool := (ipv6 ⟨i/8,by omega⟩).getMsbD (i%8)

theorem maskV6_eq_iff (a b : Ipv6) (p : ℤ) :
    maskV6 a p = maskV6 b p ↔ ∀ i : Fin 128, (i : ℤ) < p → bit6 a i = bit6 b i := by
  constructor
  · intro h i hip
    have hbyte := congrArg (fun x => (x ⟨i/8,by omega⟩ : BitVec 8).getMsbD (i%8)) h
    rw [maskV6_getMsbD _ _ _ (Nat.mod_lt _ (by omega)),
      maskV6_getMsbD _ _ _ (Nat.mod_lt _ (by omega))] at hbyte
    have hip' : 8*((i : ℤ)/8)+(i : ℤ)%8 < p := by omega
    simpa [hip',bit6] using hbyte
  · intro h
    funext j
    apply BitVec.eq_of_getMsbD_eq
    intro k hk
    rw [maskV6_getMsbD _ _ _ hk,maskV6_getMsbD _ _ _ hk]
    by_cases hkp : (8*j+k : ℤ) < p
    · have hbit := h ⟨8*j+k,by omega⟩ (by simpa using hkp)
      have hdiv : (8*j.val+k)/8 = j := by omega
      have hmod : (8*j.val+k)%8 = k := by omega
      simp only [bit6,hdiv,hmod] at hbit
      simp [hkp,hbit]
    · simp [hkp]

/-- The text starts, after blanks and a sign, with a decimal number of this value. -/
def WrittenNumber (text : Bytes) (v : ℤ) : Prop :=
  ∃ sign digits rest, decimal.Starts text sign digits rest ∧ v = numeralValue sign digits

def Rule.fullLength (rule : Rule) : ℤ :=
  match rule.addr with
  | .v4 _ => 32
  | .v6 _ => 128

/-- The prefix length is the number written behind the first slash, or that of a
single address. -/
def PrefixAsWritten (s : Bytes) (rule : Rule) : Prop :=
  (∀ addr text, s = addr++47::text → 47 ∉ addr →
    ∃ v, WrittenNumber text v ∧ 0 ≤ v ∧ v ≤ rule.fullLength ∧ rule.prefixLen = v) ∧
  (47 ∉ s → rule.prefixLen = rule.fullLength)

/-- The rule matches the addresses of its family that begin with the same bits
as the written address, and no others. -/
def MatchesAsWritten (inetPton4 : Bytes → Option (BitVec 32)) (inetPton6 : Bytes → Option Ipv6)
    (s : Bytes) (rule : Rule) : Prop :=
  (∃ addr, inetPton4 (s.takeWhile (· ≠ 47)) = some addr ∧
    (∀ ip, matchV4 rule ip = true ↔
      ∀ i : ℕ, i < 32 → (i : ℤ) < rule.prefixLen → ip.getMsbD i = addr.getMsbD i) ∧
    ∀ ipv6, matchV6 rule ipv6 = false) ∨
  (inetPton4 (s.takeWhile (· ≠ 47)) = none ∧ ∃ addr, inetPton6 (s.takeWhile (· ≠ 47)) = some addr ∧
    (∀ ipv6, matchV6 rule ipv6 = true ↔
      ∀ i : Fin 128, (i : ℤ) < rule.prefixLen → bit6 ipv6 i = bit6 addr i) ∧
    ∀ ip, matchV4 rule ip = false)

/-- The text behind the first slash, if there is one, starts with a number that
an `int` can hold. -/
def NumberFits (s : Bytes) : Prop :=
  ∀ addr text, s = addr++47::text → 47 ∉ addr →
    ∃ v, WrittenNumber text v ∧ -2^31 ≤ v ∧ v < 2^31

theorem strtol_of_written {text : Bytes} {v : ℤ} (h : WrittenNumber text v) :
    (strtol text).1 = max (-2^63) (min v (2^63-1)) := by
  obtain ⟨sign,digits,rest,hstarts,rfl⟩ := h
  simp [strtol,Numeral.lex_of_starts hstarts,hstarts.nonempty]

theorem cut_at_slash {s addr text : Bytes} (h : s = addr++47::text) (haddr : 47 ∉ addr) :
    s.takeWhile (· ≠ 47) = addr ∧ s.dropWhile (· ≠ 47) = 47::text := by
  rw [h]
  exact Numeral.takeWhile_append_of_head? (by
    intro c hc
    have hne : c ≠ 47 := by
      rintro rfl
      exact haddr hc
    simp [hne]) (by simp)

section
variable {inetPton4 : Bytes → Option (BitVec 32)} {inetPton6 : Bytes → Option Ipv6} {s : Bytes}
  {rule : Rule}

/-- A rule has the masked address and a prefix length in the range of its family. -/
def Built (inetPton4 : Bytes → Option (BitVec 32)) (inetPton6 : Bytes → Option Ipv6)
    (written : Bytes) (rule : Rule) : Prop :=
  0 ≤ rule.prefixLen ∧ rule.prefixLen ≤ rule.fullLength ∧
    ((∃ addr, inetPton4 written = some addr ∧ rule.addr = .v4 (maskV4 addr rule.prefixLen)) ∨
      (inetPton4 written = none ∧
        ∃ addr, inetPton6 written = some addr ∧ rule.addr = .v6 (maskV6 addr rule.prefixLen)))

theorem parseAddr_built {written : Bytes} {explicitPrefix : Option ℤ}
    (h : parseAddr inetPton4 inetPton6 written explicitPrefix = some rule) :
    Built inetPton4 inetPton6 written rule ∧
      rule.prefixLen = explicitPrefix.getD rule.fullLength := by
  unfold parseAddr at h
  cases h4 : inetPton4 written with
  | some addr =>
      simp only [h4,Option.ite_none_left_eq_some,Option.some.injEq] at h
      obtain ⟨hrange,rfl⟩ := h
      exact ⟨⟨by simp only; omega,by simp only [Rule.fullLength]; omega,.inl ⟨addr,h4,rfl⟩⟩,rfl⟩
  | none =>
      cases h6 : inetPton6 written with
      | some addr =>
          simp only [h4,h6,Option.ite_none_left_eq_some,Option.some.injEq] at h
          obtain ⟨hrange,rfl⟩ := h
          exact ⟨⟨by simp only; omega,by simp only [Rule.fullLength]; omega,
            .inr ⟨h4,addr,h6,rfl⟩⟩,rfl⟩
      | none => simp [h4,h6] at h

theorem parse_built (h : ipAclParseCidr inetPton4 inetPton6 s = some rule) :
    Built inetPton4 inetPton6 (s.takeWhile (· ≠ 47)) rule := by
  unfold ipAclParseCidr at h
  split at h
  · exact (parseAddr_built h).1
  · dsimp only at h
    split at h
    · exact (parseAddr_built h).1
    · cases h

theorem parse_without_slash (h : ipAclParseCidr inetPton4 inetPton6 s = some rule)
    (hs : 47 ∉ s) : rule.prefixLen = rule.fullLength := by
  have hdrop : s.dropWhile (· ≠ 47) = [] := by
    rw [List.dropWhile_eq_nil_iff]
    intro c hc
    have hne : c ≠ 47 := by
      rintro rfl
      exact hs hc
    simp [hne]
  simp only [ipAclParseCidr,hdrop] at h
  exact (parseAddr_built h).2

theorem parse_with_slash {addr text : Bytes}
    (h : ipAclParseCidr inetPton4 inetPton6 s = some rule) (hs : s = addr++47::text)
    (haddr : 47 ∉ addr) : rule.prefixLen = (strtol text).1.bmod (2^32) := by
  simp only [ipAclParseCidr,(cut_at_slash hs haddr).2] at h
  split at h
  · exact (parseAddr_built h).2
  · cases h

theorem Built.matches_written (h : Built inetPton4 inetPton6 (s.takeWhile (· ≠ 47)) rule) :
    MatchesAsWritten inetPton4 inetPton6 s rule := by
  obtain ⟨_,_,⟨addr,h4,ha⟩ | ⟨h4,addr,h6,ha⟩⟩ := h
  · refine .inl ⟨addr,h4,fun ip => ?_,fun _ => by simp [matchV6,ha]⟩
    rw [← maskV4_eq_iff]
    simp [matchV4,ha]
  · refine .inr ⟨h4,addr,h6,fun ipv6 => ?_,fun _ => by simp [matchV4,ha]⟩
    rw [← maskV6_eq_iff,← matchV6_eq,← ha]

theorem prefix_as_written_iff (h : ipAclParseCidr inetPton4 inetPton6 s = some rule) :
    PrefixAsWritten s rule ↔ NumberFits s := by
  obtain ⟨h0,hfull,_⟩ := parse_built h
  have hmax : rule.fullLength ≤ 128 := by
    unfold Rule.fullLength
    split <;> omega
  constructor
  · intro hwritten addr text hs haddr
    obtain ⟨v,hv,hv0,hvmax,_⟩ := hwritten.1 addr text hs haddr
    exact ⟨v,hv,by omega,by omega⟩
  · intro hfits
    refine ⟨fun addr text hs haddr => ?_,parse_without_slash h⟩
    obtain ⟨v,hv,hlow,hhigh⟩ := hfits addr text hs haddr
    have hlength := parse_with_slash h hs haddr
    have hclamp : max (-2^63) (min v (2^63-1)) = v := by omega
    have hint : v.bmod (2^32) = v := by
      rw [Int.bmod_def]
      split <;> omega
    rw [strtol_of_written hv,hclamp,hint] at hlength
    exact ⟨v,hv,hlength ▸ h0,hlength ▸ hfull,hlength⟩

/-- The bytes `::ffff:a.b.c.d` of an IPv4 address. -/
def mapped (a : BitVec 32) : Ipv6 := fun i =>
  if i < 10 then 0
  else if i < 12 then 0xFF
  else (a >>> (8*(15-i.val))).setWidth 8

theorem bytes_of_word (a : BitVec 32) :
    ((a >>> 24).setWidth 8).setWidth 32 <<< 24 ||| ((a >>> 16).setWidth 8).setWidth 32 <<< 16 |||
      ((a >>> 8).setWidth 8).setWidth 32 <<< 8 ||| ((a >>> 0).setWidth 8).setWidth 32 = a := by
  apply BitVec.eq_of_getLsbD_eq
  intro i hi
  simp only [BitVec.getLsbD_or,BitVec.getLsbD_shiftLeft,BitVec.getLsbD_setWidth,
    BitVec.getLsbD_ushiftRight]
  have hbyte : i < 8 ∨ (8 ≤ i ∧ i < 16) ∨ (16 ≤ i ∧ i < 24) ∨ 24 ≤ i := by omega
  rcases hbyte with h | h | h | h
  · simp [h,hi,show i < 16 by omega,show i < 24 by omega]
  · simp [h,hi,show ¬ i < 8 by omega,show i < 24 by omega,show i-8 < 8 by omega,
      show i-8 < 32 by omega,show 8+(i-8) = i by omega]
  · simp [h,hi,show ¬ i < 8 by omega,show ¬ i < 16 by omega,show i-16 < 8 by omega,
      show i-16 < 32 by omega,show 16+(i-16) = i by omega,show ¬ i-8 < 8 by omega]
  · simp [hi,show ¬ i < 8 by omega,show ¬ i < 16 by omega,show ¬ i < 24 by omega,
      show i-24 < 8 by omega,show i-24 < 32 by omega,show 24+(i-24) = i by omega,
      show ¬ i-8 < 8 by omega,show ¬ i-16 < 8 by omega]

theorem mapped_start (a : BitVec 32) :
    ((List.finRange 16).map (mapped a)).take 12 = v4mappedPrefix := rfl

theorem v6ToV4Mapped_mapped (a : BitVec 32) : v6ToV4Mapped (mapped a) = a := by
  rw [v6ToV4Mapped,if_pos (mapped_start a)]
  exact bytes_of_word a

theorem word_of_bytes (b c d e : BitVec 8) :
    let a := b.setWidth 32 <<< 24 ||| c.setWidth 32 <<< 16 ||| d.setWidth 32 <<< 8 |||
      e.setWidth 32
    (a >>> 24).setWidth 8 = b ∧ (a >>> 16).setWidth 8 = c ∧ (a >>> 8).setWidth 8 = d ∧
      (a >>> 0).setWidth 8 = e := by
  have hge : ∀ (x : BitVec 8) (j : ℕ), 8 ≤ j → x.getLsbD j = false :=
    fun x j hj => BitVec.getLsbD_of_ge x j hj
  refine ⟨?_,?_,?_,?_⟩ <;>
  · apply BitVec.eq_of_getLsbD_eq
    intro i hi
    simp only [BitVec.getLsbD_or,BitVec.getLsbD_shiftLeft,BitVec.getLsbD_setWidth,
      BitVec.getLsbD_ushiftRight]
    grind

/-- The IPv4 address of a mapped address, when it is not 0.0.0.0. -/
theorem mapped_of_ne_zero {ipv6 : Ipv6} (h : v6ToV4Mapped ipv6 ≠ 0) :
    ipv6 = mapped (v6ToV4Mapped ipv6) := by
  unfold v6ToV4Mapped at h ⊢
  split at h
  · next hlength =>
      rw [if_pos hlength]
      obtain ⟨hb,hc,hd,he⟩ := word_of_bytes (ipv6 12) (ipv6 13) (ipv6 14) (ipv6 15)
      funext i
      by_cases hi : i.val < 12
      · have hlist := hlength.trans (mapped_start
          ((ipv6 12).setWidth 32 <<< 24 ||| (ipv6 13).setWidth 32 <<< 16 |||
            (ipv6 14).setWidth 32 <<< 8 ||| (ipv6 15).setWidth 32)).symm
        have hbyte := congrArg (fun l => l[i.val]?) hlist
        simpa [List.getElem?_take,hi] using hbyte
      · have hlast : i = 12 ∨ i = 13 ∨ i = 14 ∨ i = 15 := by omega
        rcases hlast with rfl | rfl | rfl | rfl
        · exact hb.symm
        · exact hc.symm
        · exact hd.symm
        · exact he.symm
  · exact absurd rfl h

/-- The list that decides, if one has rules. -/
def Acls.deciding (acls : Acls) : Acl :=
  if nonempty acls.currentAllowlist then acls.currentAllowlist else acls.currentBlocklist

def OnlyIpv4 (acl : Acl) : Prop := ∀ rules ∈ acl, ∀ rule ∈ rules, rule.fullLength = 32

theorem OnlyIpv4.contains_v6 {acl : Acl} (h : OnlyIpv4 acl) (ipv6 : Ipv6) :
    aclContainsV6 acl ipv6 = false := by
  cases acl with
  | none => rfl
  | some rules =>
      simp only [aclContainsV6,List.any_eq_false]
      intro rule hrule
      have hfull := h rules rfl rule hrule
      unfold Rule.fullLength at hfull
      unfold matchV6
      split
      · simp
      · next addr ha => simp [ha] at hfull

theorem aclContainsV4_empty {acl : Acl} (h : nonempty acl = false) (ip : BitVec 32) :
    aclContainsV4 acl ip = false := by
  cases acl with
  | none => rfl
  | some rules =>
      have hnil : rules = [] := by simpa [nonempty] using h
      simp [aclContainsV4,hnil]

theorem mapped_agrees_iff {acls : Acls} (hallow : OnlyIpv4 acls.currentAllowlist)
    (hblock : OnlyIpv4 acls.currentBlocklist) (a : BitVec 32) :
    ipAclCheckV6 acls (mapped a) = ipAclCheckV4 acls a ↔
      (a = 0 → aclContainsV4 acls.deciding 0 = false) := by
  simp only [ipAclCheckV6,ipAclCheckV4,Acls.deciding,v6ToV4Mapped_mapped,hallow.contains_v6,
    hblock.contains_v6,Bool.false_or]
  by_cases ha : a = 0
  · subst ha
    cases hal : nonempty acls.currentAllowlist with
    | true => simp
    | false =>
        cases hbl : nonempty acls.currentBlocklist with
        | true => simp
        | false => simp [aclContainsV4_empty hbl]
  · have hne : ¬ a = 0#32 := ha
    simp [hne]

/-- A rule that was accepted means what its text says exactly when the text
behind the slash starts with a number that an `int` can hold, and lists of IPv4
rules treat an IPv4 address and its mapped form alike exactly when the address
is not 0.0.0.0 or no rule of the list that decides covers it. -/
theorem cidr_rule_as_written_iff (h : ipAclParseCidr inetPton4 inetPton6 s = some rule)
    {acls : Acls} (hallow : OnlyIpv4 acls.currentAllowlist)
    (hblock : OnlyIpv4 acls.currentBlocklist) (a : BitVec 32) :
    (PrefixAsWritten s rule ∧ MatchesAsWritten inetPton4 inetPton6 s rule ↔ NumberFits s) ∧
      (ipAclCheckV6 acls (mapped a) = ipAclCheckV4 acls a ↔
        (a = 0 → aclContainsV4 acls.deciding 0 = false)) := by
  refine ⟨?_,mapped_agrees_iff hallow hblock a⟩
  rw [← prefix_as_written_iff h]
  exact and_iff_left (parse_built h).matches_written

end

/-- `inet_pton` for both families, with the address as one number or as bytes. -/
def pton4 (s : Bytes) : Option (BitVec 32) :=
  (inetPton4 s).map fun bs => BitVec.ofNat 32 (bigEndian bs)

def pton6 (s : Bytes) : Option Ipv6 :=
  (inetPton6 s).map fun bs i => (bs.getD i 0).toBitVec

/-- A rule for 10.0.0.0/8 as an allowlist. -/
def privateAcls : Acls where
  currentAllowlist := some [⟨8,.v4 0x0A000000⟩]
  currentBlocklist := none

theorem private_rule_as_written :
    (PrefixAsWritten (bytesOf "10.1.2.3/ 8 office") ⟨8,.v4 0x0A000000⟩ ∧
        MatchesAsWritten pton4 pton6 (bytesOf "10.1.2.3/ 8 office") ⟨8,.v4 0x0A000000⟩ ↔
      NumberFits (bytesOf "10.1.2.3/ 8 office")) ∧
    (ipAclCheckV6 privateAcls (mapped 0x0A010203) = ipAclCheckV4 privateAcls 0x0A010203 ↔
      ((0x0A010203 : BitVec 32) = 0 → aclContainsV4 privateAcls.deciding 0 = false)) :=
  cidr_rule_as_written_iff (by decide) (by simp [privateAcls,OnlyIpv4,Rule.fullLength])
    (by simp [privateAcls,OnlyIpv4]) 0x0A010203

/-- A slash without a number opens the rule to every address, and 0.0.0.0 in its
mapped form is not covered by the rules that cover it. -/
theorem missing_number_accepted :
    (∃ rule, ipAclParseCidr pton4 pton6 (bytesOf "10.0.0.0/") = some rule ∧
      ¬ PrefixAsWritten (bytesOf "10.0.0.0/") rule) ∧
    ∃ acls : Acls, OnlyIpv4 acls.currentAllowlist ∧ OnlyIpv4 acls.currentBlocklist ∧
      ipAclCheckV6 acls (mapped 0) ≠ ipAclCheckV4 acls 0 := by
  constructor
  · refine ⟨⟨0,.v4 0⟩,by decide,?_⟩
    have hparse : ipAclParseCidr pton4 pton6 (bytesOf "10.0.0.0/") = some ⟨0,.v4 0⟩ := by decide
    rw [prefix_as_written_iff hparse]
    intro hfits
    obtain ⟨v,⟨sign,digits,rest,hstarts,_⟩,_⟩ := hfits (bytesOf "10.0.0.0") [] (by decide) (by decide)
    have hlex := Numeral.lex_of_starts hstarts
    exact hstarts.nonempty (congrArg (fun x => x.2.1) hlex).symm
  · refine ⟨⟨some [⟨0,.v4 0⟩],none⟩,by simp [OnlyIpv4,Rule.fullLength],by simp [OnlyIpv4],?_⟩
    decide

end Teleproxy.IpAclRule
