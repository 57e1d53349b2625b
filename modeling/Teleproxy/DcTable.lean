import Mathlib.Tactic.Common
import Mathlib.Data.Int.Basic
import Teleproxy.ClientInput

/-!
# The table of DCs

`direct_dc_lookup` (mtproto/mtproto-dc-table.c) finds the addresses of a DC: those given by
`--dc-override` come first, then the built-in ones of the production and the test DCs. When
SOCKS5 is used, the DC is looked up a second time for the CONNECT request, from the number in
the entry that was found first.
-/
namespace Teleproxy.DcTable
open ClientInput

def dcMaxAddrs : ℕ := 4
def maxOverrides : ℕ := 16

/-- `dc_addr`, the addresses in network byte order. -/
structure DcAddr where
  ipv4 : Bytes := [0,0,0,0]
  ipv6 : Bytes := List.replicate 16 0
  port : BitVec 32 := 0
  deriving DecidableEq, Repr

/-- `dc_entry`. The array has room for `dcMaxAddrs` addresses. -/
structure DcEntry where
  dcId : ℤ
  addrCount : ℕ
  addrs : List DcAddr
  count_le : addrCount ≤ dcMaxAddrs := by decide
  room : addrs.length = dcMaxAddrs := by rfl
  deriving DecidableEq, Repr

/-- The addresses that the entry offers. -/
def DcEntry.list (e : DcEntry) : List DcAddr := e.addrs.take e.addrCount

/-- A built-in entry with one address at port 443. -/
def builtIn (dcId : ℤ) (ipv4 ipv6 : Bytes) : DcEntry :=
  ⟨dcId,1,[⟨ipv4,ipv6,443⟩,{},{},{}],by decide,rfl⟩

def prodTable : List DcEntry :=
  [builtIn 1 [149,154,175,50] [0x20,0x01,0x0b,0x28,0xf2,0x3d,0xf0,0x01,0,0,0,0,0,0,0,0x0a],
   builtIn 2 [149,154,167,51] [0x20,0x01,0x06,0x7c,0x04,0xe8,0xf0,0x02,0,0,0,0,0,0,0,0x0a],
   builtIn 3 [149,154,175,100] [0x20,0x01,0x0b,0x28,0xf2,0x3d,0xf0,0x03,0,0,0,0,0,0,0,0x0a],
   builtIn 4 [149,154,167,91] [0x20,0x01,0x06,0x7c,0x04,0xe8,0xf0,0x04,0,0,0,0,0,0,0,0x0a],
   builtIn 5 [91,108,56,100] [0x20,0x01,0x0b,0x28,0xf2,0x3f,0xf0,0x05,0,0,0,0,0,0,0,0x0a]]

def testTable : List DcEntry :=
  [builtIn 1 [149,154,175,10] [0x20,0x01,0x0b,0x28,0xf2,0x3d,0xf0,0x01,0,0,0,0,0,0,0,0x0e],
   builtIn 2 [149,154,167,40] [0x20,0x01,0x06,0x7c,0x04,0xe8,0xf0,0x02,0,0,0,0,0,0,0,0x0e],
   builtIn 3 [149,154,175,117] [0x20,0x01,0x0b,0x28,0xf2,0x3d,0xf0,0x03,0,0,0,0,0,0,0,0x0e]]

/-- A pointer to an entry of one of the three tables. -/
inductive Ref where
  | override (i : ℕ)
  | test (i : ℕ)
  | prod (i : ℕ)
  deriving DecidableEq, Repr

/-- The entry behind a pointer, given the entries of `override_table` that are in use. -/
def Ref.entry (overrides : List DcEntry) : Ref → Option DcEntry
  | .override i => overrides[i]?
  | .test i => testTable[i]?
  | .prod i => prodTable[i]?

def findDc (table : List DcEntry) (dcId : ℤ) : Option ℕ := table.findIdx? fun e => e.dcId = dcId

/-- The negation of an `int`; that of the smallest one wraps. -/
def negated (n : ℤ) : ℤ := if n = -2^31 then n else -n

/-- A number with the sign of another. -/
def withSign (negative : Bool) (id : ℤ) : ℤ := if negative then negated id else id

/-- Without the sign. -/
def unsigned (dcId : ℤ) : ℤ := if dcId < 0 then negated dcId else dcId

def isTest (dcId : ℤ) : Bool := 10000 ≤ unsigned dcId

/-- Without the sign and the offset of the test DCs; override entries are looked up by this. -/
def plainId (dcId : ℤ) : ℤ := if isTest dcId then unsigned dcId-10000 else unsigned dcId

/-- Without the offset of the CDN DCs. -/
def baseId (id : ℤ) : ℤ := if 200 < id ∧ id < 300 then id-200 else id

def directDcLookup (overrides : List DcEntry) (dcId : ℤ) : Option Ref :=
  match findDc overrides (plainId dcId) with
  | some i => some (.override i)
  | none =>
      if isTest dcId then (findDc testTable (baseId (plainId dcId))).map .test
      else (findDc prodTable (baseId (plainId dcId))).map .prod

section Override
variable (inetPton6 : String → Option Bytes) (inetAddr : String → Bytes)

/-- The address that a host and a port give, for the results of `inet_pton` and
`inet_addr`. -/
def parseHost (host : String) (port : BitVec 32) : Option DcAddr :=
  match inetPton6 host with
  | some ipv6 => some {ipv6 := ipv6, port := port}
  | none =>
      if inetAddr host = [255,255,255,255] then none
      else some {ipv4 := inetAddr host, port := port}

/-- What is left in the array when the host cannot be parsed. -/
def badAddr (port : BitVec 32) : DcAddr := {ipv4 := [255,255,255,255], port := port}

/-- The address is written behind the others and counted if it is good; 0 or -1 is
returned. -/
def DcEntry.addAddr (e : DcEntry) (host : String) (port : BitVec 32) : DcEntry × ℤ :=
  if h : dcMaxAddrs ≤ e.addrCount then (e,-1)
  else
    match parseHost inetPton6 inetAddr host port with
    | none => ({e with addrs := e.addrs.set e.addrCount (badAddr port), room := by simp [e.room]},-1)
    | some addr =>
        ({e with addrs := e.addrs.set e.addrCount addr, addrCount := e.addrCount+1,
                 count_le := by omega, room := by simp [e.room]},0)

def newEntry (dcId : ℤ) : DcEntry := ⟨dcId,0,[{},{},{},{}],by decide,rfl⟩

def directDcOverride (overrides : List DcEntry) (dcId : ℤ) (host : String) (port : BitVec 32) :
    List DcEntry × ℤ :=
  match findDc overrides dcId with
  | some i =>
      match overrides[i]? with
      | none => (overrides,-1)
      | some e =>
          let (e,r) := e.addAddr inetPton6 inetAddr host port
          (overrides.set i e,r)
  | none =>
      if maxOverrides ≤ overrides.length then (overrides,-1)
      else
        let (e,r) := (newEntry dcId).addAddr inetPton6 inetAddr host port
        (overrides++[e],r)

end Override

section Lookup
variable {overrides : List DcEntry} {table : List DcEntry} {dcId id : ℤ} {i : ℕ}

theorem findDc_some (h : findDc table id = some i) :
    ∃ e, table[i]? = some e ∧ e.dcId = id ∧ ∀ j < i, ∀ d, table[j]? = some d → d.dcId ≠ id := by
  obtain ⟨hlt,hid,hbefore⟩ := List.findIdx?_eq_some_iff_getElem.mp h
  refine ⟨table[i],List.getElem?_eq_getElem hlt,by simpa using hid,?_⟩
  intro j hj d hd
  have hlt' : j < table.length := by omega
  rw [List.getElem?_eq_getElem hlt'] at hd
  cases hd
  simpa using hbefore j hj

theorem findDc_none (h : findDc table id = none) : ∀ e ∈ table, e.dcId ≠ id := by
  intro e he
  simpa using List.findIdx?_eq_none_iff.mp h e he

theorem plainId_nonneg (dcId : ℤ) : 0 ≤ plainId dcId ∨ plainId dcId = -2^31 := by
  unfold plainId isTest unsigned negated
  split_ifs with h <;> simp_all
  all_goals omega

/-- A number without sign and offset, with either sign. -/
theorem lookup_signed (negative : Bool) (h0 : 0 ≤ id ∨ id = -2^31) (hid : id < 10000) :
    plainId (withSign negative id) = id ∧ isTest (withSign negative id) = false := by
  have hun : unsigned (withSign negative id) = id := by
    unfold unsigned withSign negated
    split_ifs <;> omega
  have htest : isTest (withSign negative id) = false := by
    rw [isTest,hun]
    simpa using hid
  exact ⟨by rw [plainId,htest,hun]; rfl,htest⟩

theorem lookup_test (hid : 10000 ≤ id) : plainId id = id-10000 := by
  have hun : unsigned id = id := if_neg (by omega)
  rw [plainId,isTest,hun,if_pos (by simpa using hid)]

/-- The offset of the test DCs is taken off a number that has it. -/
theorem lookup_signed_test (negative : Bool) (hid : 10000 ≤ id) :
    plainId (withSign negative id) ≠ id := by
  unfold plainId isTest unsigned withSign negated
  split_ifs <;> simp_all <;> omega

theorem directDcLookup_override (h : findDc overrides (plainId dcId) = some i) :
    directDcLookup overrides dcId = some (.override i) := by rw [directDcLookup,h]

theorem directDcLookup_builtIn (h : findDc overrides (plainId dcId) = none) :
    directDcLookup overrides dcId =
      if isTest dcId then (findDc testTable (baseId (plainId dcId))).map .test
      else (findDc prodTable (baseId (plainId dcId))).map .prod := by rw [directDcLookup,h]

theorem lookup_eq_override : directDcLookup overrides dcId = some (.override i) ↔
    findDc overrides (plainId dcId) = some i := by
  constructor
  · intro hlookup
    cases hi : findDc overrides (plainId dcId) with
    | some j =>
        rw [directDcLookup_override hi] at hlookup
        cases hlookup
        rfl
    | none =>
        rw [directDcLookup_builtIn hi] at hlookup
        split_ifs at hlookup
        · obtain ⟨k,-,hk⟩ := Option.map_eq_some_iff.mp hlookup
          cases hk
        · obtain ⟨k,-,hk⟩ := Option.map_eq_some_iff.mp hlookup
          cases hk
  · exact directDcLookup_override

end Lookup

section Connect
variable (ipv6Enabled : Bool) (overrides : List DcEntry)

def useIpv6 (addr : DcAddr) : Bool := ipv6Enabled && addr.ipv6 != List.replicate 16 0

/-- The first address that can be used and gives a socket and a connection. -/
def directTryDcAddrs (e : DcEntry) (socket : ℕ → Bool) : Option ℕ :=
  (List.range e.addrCount).find? fun i =>
    match e.addrs[i]? with
    | none => false
    | some addr => (useIpv6 ipv6Enabled addr || addr.ipv4 != [0,0,0,0]) && socket i

def portBytes (port : BitVec 32) : Bytes :=
  [UInt8.ofNat ((port >>> 8) &&& 0xff).toNat,UInt8.ofNat (port &&& 0xff).toNat]

def connectRequest (addr : DcAddr) : Bytes :=
  if useIpv6 ipv6Enabled addr then [5,1,0,4]++addr.ipv6++portBytes addr.port
  else [5,1,0,1]++addr.ipv4++portBytes addr.port

/-- The request, from what is stored in the DC connection; `none` is a failed assertion. -/
def socks5SendConnect (dcId : ℤ) (addrIdx : ℕ) : Option Bytes := do
  let ref ← directDcLookup overrides dcId
  let dc ← ref.entry overrides
  if addrIdx < dc.addrCount then
    let addr ← dc.addrs[addrIdx]?
    return connectRequest ipv6Enabled addr
  else none

/-- `outbound_dc`, stored as `extra_int4` of the DC connection. -/
def outboundDc (targetDc : ℤ) (dc : DcEntry) : ℤ := withSign (targetDc < 0) dc.dcId

/-- The second lookup finds the entry of the first, and the request has the address that was
picked. -/
def Reached (overrides : List DcEntry) (targetDc : ℤ) : Prop :=
  ∀ ref dc, directDcLookup overrides targetDc = some ref → ref.entry overrides = some dc →
    directDcLookup overrides (outboundDc targetDc dc) = some ref ∧
    ∀ ipv6Enabled socket i, directTryDcAddrs ipv6Enabled dc socket = some i →
      ∃ addr, dc.list[i]? = some addr ∧
        socks5SendConnect ipv6Enabled overrides (outboundDc targetDc dc) i =
          some (connectRequest ipv6Enabled addr)

/-- There is an override for the number. -/
def Overridden (id : ℤ) : Prop := ∃ e ∈ overrides, e.dcId = id

end Connect

section Reach
variable {overrides : List DcEntry} {targetDc : ℤ} {ref : Ref} {dc : DcEntry}

theorem overridden_iff {id : ℤ} : Overridden overrides id ↔ ∃ i, findDc overrides id = some i := by
  constructor
  · intro ⟨e,he,hid⟩
    cases h : findDc overrides id with
    | some i => exact ⟨i,rfl⟩
    | none => exact (findDc_none h e he hid).elim
  · intro ⟨i,hi⟩
    obtain ⟨e,he,hid,-⟩ := findDc_some hi
    exact ⟨e,List.mem_of_getElem? he,hid⟩

/-- The address that is picked is one of those the entry offers. -/
theorem picked_addr {ipv6Enabled : Bool} {socket : ℕ → Bool} {i : ℕ}
    (h : directTryDcAddrs ipv6Enabled dc socket = some i) :
    i < dc.addrCount ∧ ∃ addr, dc.addrs[i]? = some addr ∧ dc.list[i]? = some addr := by
  have hi := List.mem_range.mp (List.mem_of_find?_eq_some h)
  have hlt : i < dc.addrs.length := by
    have := dc.count_le
    rw [dc.room]
    omega
  refine ⟨hi,dc.addrs[i],List.getElem?_eq_getElem hlt,?_⟩
  rw [DcEntry.list,List.getElem?_take_of_lt hi,List.getElem?_eq_getElem hlt]

theorem connect_of_lookup (href : directDcLookup overrides (outboundDc targetDc dc) = some ref)
    (hdc : ref.entry overrides = some dc) : directDcLookup overrides (outboundDc targetDc dc) = some ref ∧
    ∀ ipv6Enabled socket i, directTryDcAddrs ipv6Enabled dc socket = some i →
      ∃ addr, dc.list[i]? = some addr ∧
        socks5SendConnect ipv6Enabled overrides (outboundDc targetDc dc) i =
          some (connectRequest ipv6Enabled addr) := by
  refine ⟨href,?_⟩
  intro ipv6Enabled socket i hpick
  obtain ⟨hi,addr,haddr,hlist⟩ := picked_addr hpick
  refine ⟨addr,hlist,?_⟩
  simp only [socks5SendConnect,href,hdc,Option.bind_eq_bind,Option.bind_some,if_pos hi,haddr]
  rfl

theorem dcId_prod {i : ℕ} (h : prodTable[i]? = some dc) : 1 ≤ dc.dcId ∧ dc.dcId ≤ 5 := by
  have hmem := List.mem_of_getElem? h
  simp only [prodTable,List.mem_cons,List.not_mem_nil,or_false] at hmem
  rcases hmem with rfl | rfl | rfl | rfl | rfl <;> decide

theorem dcId_test {i : ℕ} (h : testTable[i]? = some dc) : 1 ≤ dc.dcId ∧ dc.dcId ≤ 3 := by
  have hmem := List.mem_of_getElem? h
  simp only [testTable,List.mem_cons,List.not_mem_nil,or_false] at hmem
  rcases hmem with rfl | rfl | rfl <;> decide

/-- An override is found again unless its number looks like that of a test DC. -/
theorem reached_override {i : ℕ} (hi : findDc overrides (plainId targetDc) = some i) :
    Reached overrides targetDc ↔ plainId targetDc < 10000 := by
  have hlookup := directDcLookup_override hi
  obtain ⟨e,he,hid,-⟩ := findDc_some hi
  constructor
  · intro hreached
    by_contra hlarge
    have hsecond := lookup_eq_override.mp (hreached _ e hlookup he).1
    obtain ⟨d,hd,hdid,-⟩ := findDc_some hsecond
    rw [he] at hd
    cases hd
    rw [outboundDc,hid] at hdid
    exact lookup_signed_test _ (not_lt.mp hlarge) hdid.symm
  · intro hsmall ref dc href hdc
    rw [hlookup] at href
    cases href
    apply connect_of_lookup _ hdc
    rw [he.symm.trans hdc |> Option.some.inj] at hid
    rw [outboundDc,hid]
    exact directDcLookup_override (by
      rw [(lookup_signed _ (plainId_nonneg targetDc) hsmall).1,hi])

/-- A test DC without an override is not found again. -/
theorem reached_test (hi : findDc overrides (plainId targetDc) = none) (ht : isTest targetDc = true) :
    Reached overrides targetDc ↔ directDcLookup overrides targetDc = none := by
  have hlookup := directDcLookup_builtIn hi
  rw [ht,if_pos rfl] at hlookup
  constructor
  · intro hreached
    cases hj : findDc testTable (baseId (plainId targetDc)) with
    | none => rw [hlookup,hj]; rfl
    | some j =>
        rw [hj] at hlookup
        obtain ⟨e,he,hid,-⟩ := findDc_some hj
        have hsecond := (hreached _ e hlookup he).1
        have hrange := dcId_test he
        have hplain := lookup_signed (targetDc < 0) (.inl (show 0 ≤ e.dcId by omega)) (by omega)
        rw [outboundDc] at hsecond
        cases hk : findDc overrides e.dcId with
        | some k =>
            rw [directDcLookup_override (by rw [hplain.1,hk])] at hsecond
            cases hsecond
        | none =>
            rw [directDcLookup_builtIn (by rw [hplain.1,hk]),hplain.2] at hsecond
            obtain ⟨k,-,hk⟩ := Option.map_eq_some_iff.mp hsecond
            cases hk
  · intro hnone ref dc href
    rw [hnone] at href
    cases href

theorem baseId_of_small {id : ℤ} (h : id ≤ 200) : baseId id = id := if_neg (by omega)

/-- A production DC without an override is found again unless its own number has one. -/
theorem reached_prod (hi : findDc overrides (plainId targetDc) = none) (ht : isTest targetDc = false) :
    Reached overrides targetDc ↔ directDcLookup overrides targetDc = none ∨
      ¬ Overridden overrides (baseId (plainId targetDc)) := by
  have hlookup := directDcLookup_builtIn hi
  rw [ht,if_neg Bool.false_ne_true] at hlookup
  cases hj : findDc prodTable (baseId (plainId targetDc)) with
  | none =>
      rw [hj] at hlookup
      constructor
      · intro _
        exact .inl hlookup
      · intro _ ref dc href
        rw [hlookup] at href
        cases href
  | some j =>
      rw [hj] at hlookup
      obtain ⟨e,he,hid,-⟩ := findDc_some hj
      have hrange := dcId_prod he
      have hplain := lookup_signed (targetDc < 0) (.inl (show 0 ≤ e.dcId by omega)) (by omega)
      rw [hlookup,← hid]
      constructor
      · intro hreached
        right
        intro hover
        obtain ⟨k,hk⟩ := overridden_iff.mp hover
        have hsecond := (hreached _ e hlookup he).1
        rw [outboundDc,directDcLookup_override (by rw [hplain.1,hk])] at hsecond
        cases hsecond
      · intro hover ref dc href hdc
        rw [hlookup] at href
        cases href
        rw [Ref.entry,he] at hdc
        cases hdc
        refine connect_of_lookup ?_ he
        have hnone : findDc overrides e.dcId = none := by
          rcases hover with hfalse | hover
          · cases hfalse
          · cases hk : findDc overrides e.dcId with
            | none => rfl
            | some k => exact (hover (overridden_iff.mpr ⟨k,hk⟩)).elim
        rw [outboundDc,directDcLookup_builtIn (by rw [hplain.1,hnone]),hplain.1,hplain.2,
          baseId_of_small (by omega),hid,hj]
        rfl

/-- The DC that is reached is the one that was selected, if the DC is unknown, or has an
override with a number below 10000, or is a production DC without one. -/
theorem reached_iff (overrides : List DcEntry) (targetDc : ℤ) :
    Reached overrides targetDc ↔ directDcLookup overrides targetDc = none ∨
      (Overridden overrides (plainId targetDc) ∧ plainId targetDc < 10000) ∨
      (¬ Overridden overrides (plainId targetDc) ∧ isTest targetDc = false ∧
        ¬ Overridden overrides (baseId (plainId targetDc))) := by
  cases hi : findDc overrides (plainId targetDc) with
  | some i =>
      have hover := overridden_iff.mpr ⟨i,hi⟩
      rw [reached_override hi,directDcLookup_override hi]
      simp [hover]
  | none =>
      have hover : ¬ Overridden overrides (plainId targetDc) := by
        intro h
        obtain ⟨i,h⟩ := overridden_iff.mp h
        rw [hi] at h
        cases h
      cases ht : isTest targetDc with
      | true =>
          rw [reached_test hi ht]
          simp [hover]
      | false =>
          rw [reached_prod hi ht]
          simp [hover]

/-- The CONNECT request for the first test DC has the address of a production DC. -/
theorem test_dc_not_reached : ¬ Reached [] 10001 ∧
    directDcLookup [] 10001 = some (.test 0) ∧ directTryDcAddrs false (builtIn 1 [149,154,175,10]
      [0x20,0x01,0x0b,0x28,0xf2,0x3d,0xf0,0x01,0,0,0,0,0,0,0,0x0e]) (fun _ => true) = some 0 ∧
    socks5SendConnect false [] (outboundDc 10001 (builtIn 1 [149,154,175,10]
      [0x20,0x01,0x0b,0x28,0xf2,0x3d,0xf0,0x01,0,0,0,0,0,0,0,0x0e])) 0 =
        some ([5,1,0,1]++[149,154,175,50]++[1,187]) := by
  refine ⟨?_,by decide,by decide,by decide⟩
  intro hreached
  have hsecond := (hreached (.test 0) _ (by decide) rfl).1
  revert hsecond
  decide

end Reach

section Adding

/-- The addresses that a lookup gives. -/
def lookupList (overrides : List DcEntry) (dcId : ℤ) : Option (List DcAddr) := do
  let ref ← directDcLookup overrides dcId
  let dc ← ref.entry overrides
  return dc.list

/-- The addresses in the override entry of a DC. -/
def overrideList (overrides : List DcEntry) (dcId : ℤ) : List DcAddr :=
  ((overrides.find? fun e => e.dcId = dcId).map DcEntry.list).getD []

/-- The values of type `int`. -/
def IsInt (t : ℤ) : Prop := -2^31 ≤ t ∧ t < 2^31

/-- The number keeps its value in a lookup: it has neither a sign nor the offset of a test DC, or is
the smallest `int`. -/
def Plain (dcId : ℤ) : Prop := 0 ≤ dcId ∧ dcId < 10000 ∨ dcId = -2^31

/-- Some lookup ends at the number. -/
def Visible (dcId : ℤ) : Prop := 0 ≤ dcId ∧ dcId < 2^31-10000 ∨ dcId = -2^31

/-- A lookup that ends at the override entry of a DC. -/
def Resolves (overrides : List DcEntry) (t dcId : ℤ) : Prop :=
  ∃ i, findDc overrides dcId = some i ∧ directDcLookup overrides t = some (.override i)

/-- What a call of `direct_dc_override` with the results `after` and `r` should do. -/
structure OverrideOk (overrides : List DcEntry) (dcId : ℤ) (addr : Option DcAddr)
    (after : List DcEntry) (r : ℤ) : Prop where
  rejected : r = -1 → ∀ t, IsInt t → lookupList after t = lookupList overrides t
  accepted : r = 0 → ∃ a, addr = some a ∧ Resolves after dcId dcId ∧
    lookupList after dcId = some (overrideList overrides dcId++[a])
  others : r = 0 → ∀ t, IsInt t → ¬ Resolves overrides t dcId → ¬ Resolves after t dcId →
    lookupList after t = lookupList overrides t
  result : r = 0 ∨ r = -1

/-- There is room for another address of the DC. -/
def Room (overrides : List DcEntry) (dcId : ℤ) : Prop :=
  match overrides.find? fun e => e.dcId = dcId with
  | some e => e.addrCount < dcMaxAddrs
  | none => overrides.length < maxOverrides

variable {overrides : List DcEntry} {dcId id t : ℤ} {i : ℕ} {e e' : DcEntry}

theorem find_of_findDc (h : findDc overrides dcId = some i) (he : overrides[i]? = some e) :
    (overrides.find? fun e => e.dcId = dcId) = some e := by
  obtain ⟨d,hd,hid,hbefore⟩ := findDc_some h
  rw [he] at hd
  cases hd
  rw [List.find?_eq_some_iff_getElem]
  obtain ⟨hlt,heq⟩ := List.getElem?_eq_some_iff.mp he
  refine ⟨by simpa using hid,i,hlt,heq,?_⟩
  intro j hj
  simpa using hbefore j hj _ (List.getElem?_eq_getElem (by omega))

theorem find_of_findDc_none (h : findDc overrides dcId = none) :
    (overrides.find? fun e => e.dcId = dcId) = none := by
  rw [List.find?_eq_none]
  intro e he
  simpa using findDc_none h e he

theorem findDc_set (he : overrides[i]? = some e) (hid : e'.dcId = e.dcId) :
    findDc (overrides.set i e') id = findDc overrides id := by
  have hlt := (List.getElem?_eq_some_iff.mp he).1
  have hids : (overrides.set i e').map DcEntry.dcId = overrides.map DcEntry.dcId := by
    apply List.ext_getElem?
    intro j
    rw [List.getElem?_map,List.getElem?_map]
    by_cases hij : i = j
    · subst hij
      rw [he,List.getElem?_set_self hlt,Option.map_some,Option.map_some,hid]
    · rw [List.getElem?_set_ne hij]
  have hmap (table : List DcEntry) :
      findDc table id = (table.map DcEntry.dcId).findIdx? fun n => n = id := by
    rw [List.findIdx?_map]
    rfl
  rw [hmap,hmap,hids]

theorem lookup_set (he : overrides[i]? = some e) (hid : e'.dcId = e.dcId) :
    directDcLookup (overrides.set i e') t = directDcLookup overrides t := by
  rw [directDcLookup,directDcLookup,findDc_set he hid]

/-- Only what ends at the entry can change. -/
theorem lookupList_set (he : overrides[i]? = some e) (hid : e'.dcId = e.dcId)
    (hsame : e'.list = e.list ∨ directDcLookup overrides t ≠ some (.override i)) :
    lookupList (overrides.set i e') t = lookupList overrides t := by
  unfold lookupList
  rw [lookup_set he hid]
  cases hlookup : directDcLookup overrides t with
  | none => rfl
  | some ref =>
      cases ref with
      | test j => rfl
      | prod j => rfl
      | override j =>
          simp only [Option.bind_eq_bind,Option.bind_some,Ref.entry]
          by_cases hij : i = j
          · subst hij
            rcases hsame with hlist | hne
            · rw [he,List.getElem?_set_self (List.getElem?_eq_some_iff.mp he).1]
              exact congrArg some hlist
            · exact (hne hlookup).elim
          · rw [List.getElem?_set_ne hij]

theorem findDc_append (hnone : findDc overrides dcId = none) (hid : e.dcId = dcId) :
    findDc (overrides++[e]) id = if id = dcId then some overrides.length else findDc overrides id := by
  rw [findDc,List.findIdx?_append]
  by_cases hd : id = dcId
  · subst hd
    rw [if_pos rfl,← findDc,hnone]
    simp [hid]
  · rw [if_neg hd,← findDc]
    cases findDc overrides id with
    | none => simp [hid,Ne.symm hd]
    | some i => rfl

theorem lookup_append (hnone : findDc overrides dcId = none) (hid : e.dcId = dcId) :
    directDcLookup (overrides++[e]) t =
      if plainId t = dcId then some (.override overrides.length) else directDcLookup overrides t := by
  rw [directDcLookup,findDc_append hnone hid]
  by_cases hd : plainId t = dcId
  · rw [if_pos hd,if_pos hd]
  · rw [if_neg hd,if_neg hd,directDcLookup]

theorem lookupList_append_self (hnone : findDc overrides dcId = none) (hid : e.dcId = dcId)
    (ht : plainId t = dcId) : lookupList (overrides++[e]) t = some e.list := by
  rw [lookupList,lookup_append hnone hid,if_pos ht]
  simp [Ref.entry]

theorem lookupList_append_ne (hnone : findDc overrides dcId = none) (hid : e.dcId = dcId)
    (ht : plainId t ≠ dcId) : lookupList (overrides++[e]) t = lookupList overrides t := by
  unfold lookupList
  rw [lookup_append hnone hid,if_neg ht]
  cases hlookup : directDcLookup overrides t with
  | none => rfl
  | some ref =>
      cases ref with
      | test j => rfl
      | prod j => rfl
      | override j =>
          obtain ⟨d,hd,-⟩ := findDc_some (lookup_eq_override.mp hlookup)
          have hj := (List.getElem?_eq_some_iff.mp hd).1
          simp only [Option.bind_eq_bind,Option.bind_some,Ref.entry,List.getElem?_append_left hj]

/-- Without an override no lookup gives an empty list. -/
theorem lookupList_ne_nil (hnone : findDc overrides (plainId t) = none) :
    lookupList overrides t ≠ some [] := by
  rw [lookupList,directDcLookup_builtIn hnone]
  intro h
  obtain ⟨ref,href,h⟩ := Option.bind_eq_some_iff.mp h
  obtain ⟨dc,hdc,hlist⟩ := Option.bind_eq_some_iff.mp h
  cases hlist' : dc.list with
  | cons a as =>
      rw [hlist'] at hlist
      cases hlist
  | nil =>
      split_ifs at href
      · obtain ⟨k,-,rfl⟩ := Option.map_eq_some_iff.mp href
        have hmem := List.mem_of_getElem? hdc
        simp only [testTable,List.mem_cons,List.not_mem_nil,or_false] at hmem
        rcases hmem with rfl | rfl | rfl <;> cases hlist'
      · obtain ⟨k,-,rfl⟩ := Option.map_eq_some_iff.mp href
        have hmem := List.mem_of_getElem? hdc
        simp only [prodTable,List.mem_cons,List.not_mem_nil,or_false] at hmem
        rcases hmem with rfl | rfl | rfl | rfl | rfl <;> cases hlist'

theorem plainId_smallest : plainId (-2^31) = -2^31 :=
  (lookup_signed false (.inr rfl) (by omega)).1

theorem visible_iff : (∃ t, IsInt t ∧ plainId t = dcId) ↔ Visible dcId := by
  constructor
  · intro ⟨t,ht,hplain⟩
    have h0 := plainId_nonneg t
    rw [hplain] at h0
    refine h0.imp_left fun h0 => ⟨h0,?_⟩
    rw [← hplain]
    unfold plainId isTest unsigned negated
    obtain ⟨h1,h2⟩ := ht
    split_ifs with h <;> simp_all <;> omega
  · rintro (⟨h0,hlt⟩ | rfl)
    · by_cases hsmall : dcId < 10000
      · exact ⟨dcId,⟨by omega,by omega⟩,(lookup_signed false (.inl h0) hsmall).1⟩
      · refine ⟨dcId+10000,⟨by omega,by omega⟩,?_⟩
        rw [lookup_test (by omega)]
        omega
    · exact ⟨-2^31,⟨le_refl _,by omega⟩,plainId_smallest⟩

theorem plainId_self : plainId dcId = dcId ↔ Plain dcId := by
  constructor
  · intro h
    have h0 := plainId_nonneg dcId
    rw [h] at h0
    refine h0.imp_left fun h0 => ⟨h0,?_⟩
    by_contra hlarge
    exact lookup_signed_test false (not_lt.mp hlarge) h
  · rintro (⟨h0,hlt⟩ | rfl)
    · exact (lookup_signed false (.inl h0) hlt).1
    · exact plainId_smallest

/-- A DC resolves to its own override entry if nothing is stripped from its number. -/
theorem resolves_self (hi : findDc overrides dcId = some i) :
    Resolves overrides dcId dcId ↔ Plain dcId := by
  rw [← plainId_self]
  constructor
  · intro ⟨j,hj,hlookup⟩
    obtain ⟨e,he,hid,-⟩ := findDc_some hj
    obtain ⟨d,hd,hid',-⟩ := findDc_some (lookup_eq_override.mp hlookup)
    rw [he] at hd
    cases hd
    rw [← hid',hid]
  · intro hplain
    exact ⟨i,hi,lookup_eq_override.mpr (by rw [hplain,hi])⟩

section Call
variable {inetPton6 : String → Option Bytes} {inetAddr : String → Bytes} {host : String} {port : BitVec 32}

theorem addAddr_dcId : (e.addAddr inetPton6 inetAddr host port).1.dcId = e.dcId := by
  unfold DcEntry.addAddr
  split
  · rfl
  · split
    · rfl
    · rfl

/-- An address is added if there is room and the host can be parsed. -/
theorem addAddr_spec :
    if e.addrCount < dcMaxAddrs ∧ (parseHost inetPton6 inetAddr host port).isSome then
      ∃ a, parseHost inetPton6 inetAddr host port = some a ∧
        (e.addAddr inetPton6 inetAddr host port).1.list = e.list++[a] ∧
        (e.addAddr inetPton6 inetAddr host port).2 = 0
    else (e.addAddr inetPton6 inetAddr host port).1.list = e.list ∧
      (e.addAddr inetPton6 inetAddr host port).2 = -1 := by
  have hroom := e.room
  unfold DcEntry.addAddr
  by_cases hfull : dcMaxAddrs ≤ e.addrCount
  · rw [if_neg (by omega),dif_pos hfull]
    exact ⟨rfl,rfl⟩
  · rw [dif_neg hfull]
    cases hparse : parseHost inetPton6 inetAddr host port with
    | none =>
        rw [if_neg (by simp)]
        refine ⟨?_,rfl⟩
        simp only [DcEntry.list]
        rw [List.take_set_of_le (le_refl _)]
    | some a =>
        rw [if_pos ⟨by omega,rfl⟩]
        refine ⟨a,rfl,?_,rfl⟩
        simp only [DcEntry.list]
        rw [List.take_add_one,List.getElem?_set_self (by omega),List.take_set_of_le (le_refl _)]
        rfl

/-- The call adds an address to an entry that was there. -/
theorem override_existing (hi : findDc overrides dcId = some i) (he : overrides[i]? = some e) :
    OverrideOk overrides dcId (parseHost inetPton6 inetAddr host port)
      (overrides.set i (e.addAddr inetPton6 inetAddr host port).1)
      (e.addAddr inetPton6 inetAddr host port).2 ↔
    (e.addrCount < dcMaxAddrs → (parseHost inetPton6 inetAddr host port).isSome = true →
      Plain dcId) := by
  have hlist := find_of_findDc hi he
  have hid := @addAddr_dcId e inetPton6 inetAddr host port
  have hadd := @addAddr_spec e inetPton6 inetAddr host port
  generalize e.addAddr inetPton6 inetAddr host port = result at hid hadd
  have hafter : findDc (overrides.set i result.1) dcId = some i := by rw [findDc_set he hid,hi]
  split at hadd
  · next hgood =>
      obtain ⟨a,ha,happend,hr⟩ := hadd
      constructor
      · intro hok _ _
        obtain ⟨-,-,hres,-⟩ := hok.accepted hr
        exact (resolves_self hafter).mp hres
      · intro hrange
        have hself := hrange hgood.1 hgood.2
        refine ⟨fun h => absurd (hr.symm.trans h) (by decide),?_,?_,.inl hr⟩
        · intro _
          refine ⟨a,ha,(resolves_self hafter).mpr hself,?_⟩
          have hlookup : directDcLookup (overrides.set i result.1) dcId = some (.override i) :=
            lookup_eq_override.mpr (by rw [plainId_self.mpr hself,hafter])
          have hlt := (List.getElem?_eq_some_iff.mp he).1
          simp only [lookupList,hlookup,Option.bind_eq_bind,Option.bind_some,Ref.entry,
            List.getElem?_set_self hlt,overrideList,hlist,happend]
          rfl
        · intro _ t _ hbefore _
          exact lookupList_set he hid (.inr fun hlookup => hbefore ⟨i,hi,hlookup⟩)
  · next hbad =>
      obtain ⟨hsame,hr⟩ := hadd
      constructor
      · intro _ hroom hparse
        exact (hbad ⟨hroom,hparse⟩).elim
      · intro _
        refine ⟨fun _ t _ => lookupList_set he hid (.inl hsame),?_,?_,.inr hr⟩
        · intro h
          exact absurd (hr.symm.trans h) (by decide)
        · intro h
          exact absurd (hr.symm.trans h) (by decide)

/-- The call makes a new entry. -/
theorem override_new (hi : findDc overrides dcId = none) :
    OverrideOk overrides dcId (parseHost inetPton6 inetAddr host port)
      (overrides++[((newEntry dcId).addAddr inetPton6 inetAddr host port).1])
      ((newEntry dcId).addAddr inetPton6 inetAddr host port).2 ↔
    if (parseHost inetPton6 inetAddr host port).isSome = true then Plain dcId
    else ¬ Visible dcId := by
  have hid : ((newEntry dcId).addAddr inetPton6 inetAddr host port).1.dcId = dcId := addAddr_dcId
  have hadd := @addAddr_spec (newEntry dcId) inetPton6 inetAddr host port
  generalize (newEntry dcId).addAddr inetPton6 inetAddr host port = result at hid hadd
  have hafter : findDc (overrides++[result.1]) dcId = some overrides.length := by
    rw [findDc_append hi hid,if_pos rfl]
  by_cases hparse : (parseHost inetPton6 inetAddr host port).isSome = true
  · rw [if_pos ⟨Nat.zero_lt_succ 3,hparse⟩] at hadd
    obtain ⟨a,ha,happend,hr⟩ := hadd
    rw [if_pos hparse]
    constructor
    · intro hok
      obtain ⟨-,-,hres,-⟩ := hok.accepted hr
      exact (resolves_self hafter).mp hres
    · intro hself
      refine ⟨fun h => absurd (hr.symm.trans h) (by decide),?_,?_,.inl hr⟩
      · intro _
        refine ⟨a,ha,(resolves_self hafter).mpr hself,?_⟩
        rw [lookupList_append_self hi hid (plainId_self.mpr hself),happend,overrideList,
          find_of_findDc_none hi]
        rfl
      · intro _ t _ _ hres
        refine lookupList_append_ne hi hid ?_
        intro ht
        exact hres ⟨_,hafter,lookup_eq_override.mpr (by rw [ht,hafter])⟩
  · rw [if_neg (fun h => hparse h.2)] at hadd
    obtain ⟨hsame,hr⟩ := hadd
    rw [if_neg hparse,← visible_iff]
    constructor
    · intro hok ⟨t,ht,hplain⟩
      have hlists := hok.rejected hr t ht
      rw [lookupList_append_self hi hid hplain,hsame] at hlists
      exact lookupList_ne_nil (by rw [hplain,hi]) hlists.symm
    · intro hhidden
      refine ⟨?_,?_,?_,.inr hr⟩
      · intro _ t ht
        exact lookupList_append_ne hi hid fun hplain => hhidden ⟨t,ht,hplain⟩
      · intro h
        exact absurd (hr.symm.trans h) (by decide)
      · intro h
        exact absurd (hr.symm.trans h) (by decide)

/-- The call does what it should, unless it makes an entry for a host that cannot be parsed,
or adds an address for a DC that is looked up by another number. -/
theorem override_ok_iff (overrides : List DcEntry) (dcId : ℤ) (host : String) (port : BitVec 32) :
    OverrideOk overrides dcId (parseHost inetPton6 inetAddr host port)
      (directDcOverride inetPton6 inetAddr overrides dcId host port).1
      (directDcOverride inetPton6 inetAddr overrides dcId host port).2 ↔
    (Room overrides dcId → (parseHost inetPton6 inetAddr host port).isSome = false →
      Overridden overrides dcId ∨ ¬ Visible dcId) ∧
    (Room overrides dcId → (parseHost inetPton6 inetAddr host port).isSome = true →
      Plain dcId) := by
  cases hi : findDc overrides dcId with
  | some i =>
      obtain ⟨e,he,-⟩ := findDc_some hi
      have hrun : directDcOverride inetPton6 inetAddr overrides dcId host port =
          (overrides.set i (e.addAddr inetPton6 inetAddr host port).1,
            (e.addAddr inetPton6 inetAddr host port).2) := by
        rw [directDcOverride,hi]
        simp only [he]
      have hover := overridden_iff.mpr ⟨i,hi⟩
      have hroom : Room overrides dcId ↔ e.addrCount < dcMaxAddrs := by
        rw [Room,find_of_findDc hi he]
      rw [hrun,override_existing hi he,hroom]
      simp [hover]
  | none =>
      have hover : ¬ Overridden overrides dcId := by
        intro hover
        obtain ⟨i,h⟩ := overridden_iff.mp hover
        rw [hi] at h
        cases h
      have hroom : Room overrides dcId ↔ overrides.length < maxOverrides := by
        rw [Room,find_of_findDc_none hi]
      rw [hroom,directDcOverride,hi]
      by_cases hfull : maxOverrides ≤ overrides.length
      · simp only [if_pos hfull]
        constructor
        · intro _
          exact ⟨fun h => by omega,fun h => by omega⟩
        · intro _
          exact ⟨fun _ _ _ => rfl,fun h => absurd h (by decide),fun h => absurd h (by decide),.inr rfl⟩
      · simp only [if_neg hfull]
        rw [override_new hi]
        have hlt : overrides.length < maxOverrides := by omega
        cases hparse : (parseHost inetPton6 inetAddr host port).isSome with
        | true => simp [hlt]
        | false => simp [hlt,hover]

end Call

/-- A host name is no address; the second DC has none any more. -/
theorem rejected_override_hides :
    directDcOverride (fun _ => none) (fun _ => [255,255,255,255]) [] 2 "dc2.example.org" 443 =
      ([⟨2,0,[badAddr 443,{},{},{}],by decide,rfl⟩],-1) ∧
    lookupList [⟨2,0,[badAddr 443,{},{},{}],by decide,rfl⟩] 2 = some [] ∧
    lookupList [] 2 = some [⟨[149,154,167,51],
      [0x20,0x01,0x06,0x7c,0x04,0xe8,0xf0,0x02,0,0,0,0,0,0,0,0x0a],443⟩] ∧
    ¬ OverrideOk [] 2 (parseHost (fun _ => none) (fun _ => [255,255,255,255]) "dc2.example.org" 443)
      [⟨2,0,[badAddr 443,{},{},{}],by decide,rfl⟩] (-1) := by
  refine ⟨rfl,by decide,by decide,?_⟩
  intro hok
  have hlists := hok.rejected rfl 2 ⟨by decide,by decide⟩
  revert hlists
  decide

end Adding

end Teleproxy.DcTable
