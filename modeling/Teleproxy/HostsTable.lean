import Mathlib.Tactic.NormNum.Prime
import Teleproxy.HostsFile
import Teleproxy.Lib.OpenAddressing

/-!
# The resolver's table of hosts

The hosts file is parsed twice, once to count its names and once to store them in
a table of prime size that is more than twice that number. The place of a name
is found by double hashing with the arithmetic of an `int`, in which a character
above 127 counts as a negative number. A name with such a character may lead
outside the table, as may one in a table of more than seven million places, where
the products leave the `int`; other names never do.
-/
namespace Teleproxy.HostsTable
open ClientInput HostsFile

structure ResolverConf where
  hsize : ℕ
  htable : ℕ → Option (Bytes × BitVec 32)

/-- A value that is stored into an `int`; the program is built with `-fwrapv`. -/
def int (n : ℤ) : ℤ := n.bmod (2^32)

/-- A `char`, which is signed. -/
def char (c : UInt8) : ℤ := (c.toNat : ℤ).bmod (2^8)

/-- One round of the loop that computes `h1` and `h2`. -/
def hashStep (hsize : ℕ) (h : ℤ × ℤ) (c : UInt8) : ℤ × ℤ :=
  ((int (h.1*17+char c)).tmod hsize,(int (h.2*239+char c)).tmod (hsize-1))

def hash (hsize : ℕ) (name : Bytes) : ℤ × ℤ := name.foldl (hashStep hsize) (0,0)

/-- `R->htable[h1]` -/
def entry (R : ResolverConf) (h1 : ℤ) : Except Fault (Option (Bytes × BitVec 32)) :=
  if 0 ≤ h1 ∧ h1 < R.hsize then .ok (R.htable h1.toNat) else .error .outside

/-- The loop of `getHash`: where it ends and what is stored there. -/
def probe (R : ResolverConf) (name : Bytes) (h2 : ℤ) :
    ℕ → ℤ → Except Fault (ℤ × Option (Bytes × BitVec 32))
  | 0, _ => .error .endless
  | fuel+1, h1 => do
      match ← entry R h1 with
      | none => return (h1,none)
      | some host =>
          if host.1 = name then return (h1,some host)
          else
            let h1 := h1+h2
            probe R name h2 fuel (if R.hsize ≤ h1 then h1-R.hsize else h1)

/-- `getHash`, with the address of the host that is returned. -/
def getHash (R : ResolverConf) (name : Bytes) (ip : BitVec 32) :
    Except Fault (ResolverConf × Option (BitVec 32)) := do
  if ¬name.length < 128 then throw .assertion
  else
    let (h1,h2) := hash R.hsize name
    match ← probe R name (h2+1) R.hsize h1 with
    | (_,some host) => return (R,some host.2)
    | (h1,none) =>
        if ip = 0 then return (R,none)
        else return ({R with htable := Function.update R.htable h1.toNat (some (name,ip))},some ip)

/-- `parse_hosts`: names are stored only when `mode` is set. -/
def parseHosts (R : ResolverConf) (data : Bytes) (mode : Bool) :
    Except Fault (ResolverConf × ℕ) :=
  parseLines (fun R word ip => if mode then return (← getHash R word ip).1 else return R)
    data.length R data 0

def maxHostsSize : ℕ := 2^24

/-- The sizes that a table can have. -/
def pr : List ℕ :=
  [29,41,59,89,131,197,293,439,659,991,1481,2221,3329,4993,7487,11239,16843,25253,37879,56821,
    85223,127837,191773,287629,431441,647161,970747,1456121,2184179,3276253,4914373,7371571,
    11057357,16586039,24879017,37318507]

/-- The size of the table for this many names. -/
def tableSize (ans : ℕ) : Option ℕ := pr.find? fun p => ans*2 < p

/-- `kdb_load_hosts_internal` for a regular file with this content that is read
for the first time. No table is returned where the code returns -1. -/
def kdbLoadHostsInternal (content : Bytes) : Except Fault (Option ResolverConf) := do
  if maxHostsSize ≤ content.length then return none
  else
    let data := content++[0]
    let (_,ans) ← parseHosts ⟨0,fun _ => none⟩ data false
    match tableSize ans with
    | none => return none
    | some hsize =>
        let (R,res) ← parseHosts ⟨hsize,fun _ => none⟩ data true
        if res ≠ ans then throw .assertion
        else return some R

/-- Neither of the two values of a name is negative. -/
def InTable (hsize : ℕ) (name : Bytes) : Prop := 0 ≤ (hash hsize name).1 ∧ 0 ≤ (hash hsize name).2

instance (hsize : ℕ) (name : Bytes) : Decidable (InTable hsize name) :=
  inferInstanceAs (Decidable (_ ∧ _))

/-- Characters that are not negative. -/
def Ascii (name : Bytes) : Prop := ∀ c ∈ name, c < 128

instance (name : Bytes) : Decidable (Ascii name) := List.decidableBAll (· < 128) name

/-- What all the sizes have in common. -/
structure Sized (hsize : ℕ) : Prop where
  prime : hsize.Prime
  large : 29 ≤ hsize

def start (hsize : ℕ) (name : Bytes) : ℕ := (hash hsize name).1.toNat
def stride (hsize : ℕ) (name : Bytes) : ℕ := ((hash hsize name).2+1).toNat

section
variable {hsize : ℕ} (hs : Sized hsize)
include hs

theorem hash_lt (name : Bytes) : (hash hsize name).1 < hsize ∧ (hash hsize name).2 < hsize-1 := by
  have hlarge := hs.large
  have hfold : ∀ (name : Bytes) (h : ℤ × ℤ), h.1 < hsize ∧ h.2 < hsize-1 →
      (name.foldl (hashStep hsize) h).1 < hsize ∧ (name.foldl (hashStep hsize) h).2 < hsize-1 := by
    intro name
    induction name with
    | nil => exact fun h hh => hh
    | cons c name ih =>
        intro h _
        exact ih (hashStep hsize h c)
          ⟨Int.tmod_lt_of_pos _ (by omega),Int.tmod_lt_of_pos _ (by omega)⟩
  exact hfold name (0,0) (by dsimp only; omega)

theorem hashStep_nonneg (hsmall : hsize ≤ 7371571) {h : ℤ × ℤ} {c : UInt8} (hc : c < 128)
    (hh : 0 ≤ h.1 ∧ h.1 < hsize ∧ 0 ≤ h.2 ∧ h.2 < hsize-1) :
    let h' := hashStep hsize h c
    0 ≤ h'.1 ∧ h'.1 < hsize ∧ 0 ≤ h'.2 ∧ h'.2 < hsize-1 := by
  have hlarge := hs.large
  have hc : c.toNat < 128 := UInt8.lt_iff_toNat_lt.mp hc
  have hchar : char c = c.toNat := Int.bmod_eq_of_le_mul_two (by omega) (by omega)
  have h₁ : int (h.1*17+char c) = h.1*17+c.toNat := by
    rw [hchar]
    exact Int.bmod_eq_of_le_mul_two (by omega) (by omega)
  have h₂ : int (h.2*239+char c) = h.2*239+c.toNat := by
    rw [hchar]
    exact Int.bmod_eq_of_le_mul_two (by omega) (by omega)
  unfold hashStep
  dsimp only
  rw [h₁,h₂,Int.tmod_eq_emod_of_nonneg (by omega),Int.tmod_eq_emod_of_nonneg (by omega)]
  exact ⟨Int.emod_nonneg _ (by omega),Int.emod_lt_of_pos _ (by omega),
    Int.emod_nonneg _ (by omega),Int.emod_lt_of_pos _ (by omega)⟩

/-- A name of characters below 128 does not leave a table of this size. -/
theorem Ascii.inTable {name : Bytes} (hname : Ascii name) (hsmall : hsize ≤ 7371571) :
    InTable hsize name := by
  have hfold : ∀ (name : Bytes) (h : ℤ × ℤ), Ascii name →
      0 ≤ h.1 ∧ h.1 < hsize ∧ 0 ≤ h.2 ∧ h.2 < hsize-1 →
      let h' := name.foldl (hashStep hsize) h
      0 ≤ h'.1 ∧ h'.1 < hsize ∧ 0 ≤ h'.2 ∧ h'.2 < hsize-1 := by
    intro name
    induction name with
    | nil => exact fun h _ hh => hh
    | cons c name ih =>
        intro h hname hh
        exact ih (hashStep hsize h c) (fun x hx => hname x (by simp [hx]))
          (hashStep_nonneg hs hsmall (hname c (by simp)) hh)
  have hlarge := hs.large
  have hall := hfold name (0,0) hname (by dsimp only; omega)
  exact ⟨hall.1,hall.2.2.1⟩

theorem hash_bounds {name : Bytes} (hname : InTable hsize name) :
    0 ≤ (hash hsize name).1 ∧ (hash hsize name).1 < hsize ∧ 0 ≤ (hash hsize name).2 ∧
      (hash hsize name).2 < hsize-1 :=
  ⟨hname.1,(hash_lt hs name).1,hname.2,(hash_lt hs name).2⟩

theorem start_lt {name : Bytes} (hname : InTable hsize name) : start hsize name < hsize := by
  have := hash_bounds hs hname
  unfold start
  omega

theorem stride_lt {name : Bytes} (hname : InTable hsize name) : stride hsize name < hsize := by
  have := hash_bounds hs hname
  unfold stride
  omega

theorem stride_coprime {name : Bytes} (hname : InTable hsize name) :
    (stride hsize name).Coprime hsize := by
  have hbounds := hash_bounds hs hname
  have hpos : stride hsize name ≠ 0 := by
    unfold stride
    omega
  exact (Nat.coprime_of_lt_prime hpos (stride_lt hs hname) hs.prime).symm

end

abbrev placeOf (hsize : ℕ) (name : Bytes) (j : ℕ) : ℕ :=
  OpenAddressing.position hsize (start hsize) (stride hsize) name j

abbrev FirstStop (R : ResolverConf) (name : Bytes) (j : ℕ) : Prop :=
  OpenAddressing.FirstStop R.hsize (start R.hsize) (stride R.hsize) R.htable name j

section
variable {R : ResolverConf} (hR : Sized R.hsize) {name : Bytes} (hname : InTable R.hsize name)
include hR hname

theorem probe_eq {j : ℕ} (hj : FirstStop R name j) {i fuel : ℕ} (hij : i ≤ j)
    (hfuel : j < i+fuel) :
    probe R name ((hash R.hsize name).2+1) fuel (placeOf R.hsize name i) =
      .ok ((placeOf R.hsize name j : ℤ),R.htable (placeOf R.hsize name j)) := by
  have hsize : 0 < R.hsize := by
    have := hR.large
    omega
  induction fuel generalizing i with
  | zero => omega
  | succ fuel ih =>
      have hentry : entry R (placeOf R.hsize name i) = .ok (R.htable (placeOf R.hsize name i)) := by
        have hlt : placeOf R.hsize name i < R.hsize := OpenAddressing.position_lt hsize i
        rw [entry,if_pos ⟨by omega,by omega⟩,Int.toNat_natCast]
      have hlast : OpenAddressing.Stops R.hsize (start R.hsize) (stride R.hsize) R.htable name i →
          i = j := by
        intro hstop
        rcases hij.lt_or_eq with h | h
        · exact absurd hstop (hj.first i h)
        · exact h
      rw [probe,hentry]
      show (match R.htable (placeOf R.hsize name i) with | none => _ | some host => _) = _
      cases hhost : R.htable (placeOf R.hsize name i) with
      | none =>
          have he := hlast fun e he => by simp [hhost] at he
          rw [← he,hhost]
          rfl
      | some host =>
          dsimp only
          split
          · next hsame =>
              have he := hlast fun e he => by
                rw [hhost] at he
                cases he
                exact hsame
              rw [← he,hhost]
              rfl
          · next hother =>
              have hne : i ≠ j := by
                rintro rfl
                exact hother (hj.stops host hhost)
              have hnext : (if (R.hsize : ℤ) ≤ placeOf R.hsize name i+((hash R.hsize name).2+1)
                  then (placeOf R.hsize name i : ℤ)+((hash R.hsize name).2+1)-R.hsize
                  else placeOf R.hsize name i+((hash R.hsize name).2+1)) =
                  (placeOf R.hsize name (i+1) : ℕ) := by
                have hbounds := hash_bounds hR hname
                have hstride : ((hash R.hsize name).2+1) = (stride R.hsize name : ℕ) := by
                  unfold stride
                  omega
                have hsucc : placeOf R.hsize name (i+1) =
                    if R.hsize ≤ placeOf R.hsize name i+stride R.hsize name
                    then placeOf R.hsize name i+stride R.hsize name-R.hsize
                    else placeOf R.hsize name i+stride R.hsize name :=
                  OpenAddressing.position_succ (stride_lt hR hname) i
                rw [hstride,hsucc]
                by_cases hwrap : R.hsize ≤ placeOf R.hsize name i+stride R.hsize name
                · rw [if_pos hwrap,if_pos (by omega)]
                  omega
                · rw [if_neg hwrap,if_neg (by omega)]
                  omega
              rw [hnext]
              exact ih (by omega) (by omega)

/-- `getHash` by the place where the walk of the name ends. -/
theorem getHash_eq (hlen : name.length < 128) {j : ℕ} (hj : FirstStop R name j)
    (hjn : j < R.hsize) (ip : BitVec 32) :
    getHash R name ip =
      match R.htable (placeOf R.hsize name j) with
      | some host => .ok (R,some host.2)
      | none =>
          if ip = 0 then .ok (R,none)
          else .ok (⟨R.hsize,Function.update R.htable (placeOf R.hsize name j)
            (some (name,ip))⟩,some ip) := by
  have hbounds := hash_bounds hR hname
  have hstart : (hash R.hsize name).1 = placeOf R.hsize name 0 := by
    rw [placeOf,OpenAddressing.position_zero (start_lt hR hname),start]
    omega
  have hprobe := probe_eq hR hname hj (Nat.zero_le j) (by omega : j < 0+R.hsize)
  rw [← hstart] at hprobe
  rw [getHash,if_neg (by omega)]
  show (probe R name ((hash R.hsize name).2+1) R.hsize (hash R.hsize name).1 >>= _) = _
  rw [hprobe]
  cases R.htable (placeOf R.hsize name j) with
  | some host => rfl
  | none =>
      show (if ip = 0 then _ else _) = _
      split <;> rfl

end

/-- The address that comes first with a name. -/
def firstAddress (hs : List (Bytes × BitVec 32)) (name : Bytes) : Option (BitVec 32) :=
  (hs.find? fun h => h.1 = name).map (·.2)

/-- The table holds the first address of each of these names. -/
structure Loaded (R : ResolverConf) (hs : List (Bytes × BitVec 32)) : Prop where
  kept : OpenAddressing.Kept R.hsize (start R.hsize) (stride R.hsize) R.htable
  stored : ∀ name ip, (∃ i, R.htable i = some (name,ip)) ↔ firstAddress hs name = some ip
  count : (OpenAddressing.occupied R.hsize R.htable).card ≤ hs.length

theorem loaded_nil (hsize : ℕ) : Loaded ⟨hsize,fun _ => none⟩ [] where
  kept := OpenAddressing.kept_empty
  stored name ip := by simp [firstAddress]
  count := by simp [OpenAddressing.occupied]

section
variable {R : ResolverConf} (hR : Sized R.hsize) {hs : List (Bytes × BitVec 32)}
  (hloaded : Loaded R hs) (hroom : hs.length < R.hsize)
include hR hloaded hroom

omit hR in
theorem Loaded.free : ∃ i < R.hsize, R.htable i = none :=
  OpenAddressing.exists_free (lt_of_le_of_lt hloaded.count hroom)

theorem Loaded.firstStop {name : Bytes} (hname : InTable R.hsize name) :
    ∃ j < R.hsize, FirstStop R name j :=
  OpenAddressing.exists_firstStop (stride_coprime hR hname) (hloaded.free hroom)

theorem Loaded.lookup {name : Bytes} (hname : InTable R.hsize name) (hlen : name.length < 128) :
    getHash R name 0 = .ok (R,firstAddress hs name) := by
  have ⟨j,hjn,hj⟩ := hloaded.firstStop hR hroom hname
  rw [getHash_eq hR hname hlen hj hjn]
  have hstored := fun ip => (hloaded.stored name ip).symm.trans (hloaded.kept.stored_iff hj)
  cases hhost : R.htable (placeOf R.hsize name j) with
  | none =>
      cases hfirst : firstAddress hs name with
      | none => rfl
      | some ip =>
          have := (hstored ip).mp hfirst
          simp [hhost] at this
  | some host =>
      have hsame := hj.stops host hhost
      rw [(hstored host.2).mpr (by rw [hhost,← hsame])]

omit hR hloaded hroom in
theorem firstAddress_append (name : Bytes) (ip : BitVec 32) (k : Bytes) :
    firstAddress (hs++[(name,ip)]) k =
      (firstAddress hs k).or (if name = k then some ip else none) := by
  unfold firstAddress
  rw [List.find?_append]
  by_cases hk : name = k
  · cases hs.find? fun h => h.1 = k <;> simp [hk]
  · cases hs.find? fun h => h.1 = k <;> simp [hk]

theorem Loaded.store {name : Bytes} (hname : InTable R.hsize name) (hlen : name.length < 128)
    {ip : BitVec 32} (hip : ip ≠ 0) :
    ∃ R' a, getHash R name ip = .ok (R',a) ∧ R'.hsize = R.hsize ∧ Loaded R' (hs++[(name,ip)]) := by
  have ⟨j,hjn,hj⟩ := hloaded.firstStop hR hroom hname
  have hstored := fun ip => (hloaded.stored name ip).symm.trans (hloaded.kept.stored_iff hj)
  have hcount := hloaded.count
  rw [getHash_eq hR hname hlen hj hjn]
  cases hhost : R.htable (placeOf R.hsize name j) with
  | some host =>
      have hfirst := (hstored host.2).mpr (by rw [hhost,← hj.stops host hhost])
      refine ⟨R,some host.2,rfl,rfl,hloaded.kept,fun k ip' => ?_,by simp; omega⟩
      rw [hloaded.stored k ip',firstAddress_append]
      by_cases hk : name = k
      · rw [← hk,hfirst]
        rfl
      · rw [if_neg hk,Option.or_none]
  | none =>
      have hfirst : firstAddress hs name = none := by
        cases hfirst : firstAddress hs name with
        | none => rfl
        | some ip =>
            have := (hstored ip).mp hfirst
            simp [hhost] at this
      refine ⟨_,_,if_neg hip,rfl,hloaded.kept.store hj hhost,fun k ip' => ?_,?_⟩
      · rw [firstAddress_append]
        refine (OpenAddressing.stored_update hhost).trans ?_
        rw [hloaded.stored k ip']
        by_cases hk : name = k
        · rw [← hk,hfirst]
          simp [eq_comm]
        · rw [if_neg hk,Option.or_none]
          simp [Ne.symm hk]
      · rw [List.length_append,List.length_singleton]
        exact (OpenAddressing.card_occupied_update_le _ _).trans (Nat.add_le_add_right hcount 1)

omit hloaded hroom in
theorem Loaded.storeAll {hs' : List (Bytes × BitVec 32)} (hloaded : Loaded R hs)
    (hgood : ∀ h ∈ hs', InTable R.hsize h.1 ∧ h.1.length < 128 ∧ h.2 ≠ 0)
    (hroom : (hs++hs').length < R.hsize) :
    ∃ R', hs'.foldlM (fun R h => return (← getHash R h.1 h.2).1) R = .ok R' ∧
      R'.hsize = R.hsize ∧ Loaded R' (hs++hs') := by
  induction hs' generalizing R hs with
  | nil => exact ⟨R,rfl,rfl,by simpa using hloaded⟩
  | cons h hs' ih =>
      have ⟨hname,hlen,hip⟩ := hgood h (by simp)
      rw [List.length_append,List.length_cons] at hroom
      have ⟨R₁,a,hrun,hsize,hloaded₁⟩ := hloaded.store hR (by omega) hname hlen hip
      have hroom₁ : (hs++[(h.1,h.2)]++hs').length < R₁.hsize := by
        rw [hsize,List.length_append,List.length_append,List.length_singleton]
        omega
      have ⟨R₂,hrest,hsize₂,hloaded₂⟩ := ih (hsize ▸ hR) hloaded₁
        (fun h hh => hsize ▸ hgood h (by simp [hh])) hroom₁
      refine ⟨R₂,?_,hsize₂.trans hsize,by simpa using hloaded₂⟩
      rw [List.foldlM_cons,hrun]
      exact hrest

end

/-- A file whose lines are read on their own, with names that do not lead outside the table. -/
structure Readable (content : Bytes) : Prop where
  plain : plainLines (LineWindow.lines 10 content)
  inTable : ∀ hsize ∈ tableSize (hosts content).length, ∀ h ∈ hosts content, InTable hsize h.1

theorem lineHosts_good {l : Bytes} : ∀ h ∈ lineHosts l, h.1.length < 128 ∧ h.2 ≠ 0 := by
  intro h hh
  unfold lineHosts at hh
  cases hentry : lineEntry l with
  | none => simp [hentry] at hh
  | some entry =>
      rw [hentry] at hh
      have ⟨w,hw,he⟩ := List.mem_map.mp hh
      rw [← he]
      unfold lineEntry at hentry
      dsimp only at hentry
      split at hentry
      · split at hentry
        · cases hentry
        · next hip =>
            cases hentry
            have hword := (List.mem_filter.mp hw).2
            rw [Bool.and_eq_true,decide_eq_true_eq,decide_eq_true_eq] at hword
            exact ⟨hword.2,hip⟩
      · cases hentry

theorem hostAddress_eq (content name : Bytes) :
    hostAddress content name = firstAddress (hosts content) name := by
  unfold hostAddress hosts
  induction LineWindow.lines 10 content with
  | nil => rfl
  | cons l ls ih =>
      have hline : lineAddress name l = firstAddress (lineHosts l) name := by
        unfold lineAddress lineHosts firstAddress
        cases lineEntry l with
        | none => rfl
        | some entry =>
            have (ip,ns) := entry
            dsimp only
            induction ns with
            | nil => rfl
            | cons n ns ih =>
                by_cases hn : n = name
                · simp [hn]
                · simpa [hn,Ne.symm hn] using ih
      rw [List.findSome?_cons,hline,List.flatMap_cons,ih]
      unfold firstAddress
      rw [List.find?_append]
      cases (lineHosts l).find? fun h => h.1 = name <;> simp

theorem mem_of_mem_lines {content l : Bytes} {x : UInt8} (hl : l ∈ LineWindow.lines 10 content)
    (hx : x ∈ l) : x ∈ content ∧ x ≠ 10 := by
  induction content generalizing l with
  | nil =>
      rw [LineWindow.lines,List.splitOn_nil,List.mem_singleton] at hl
      simp [hl] at hx
  | cons y content ih =>
      rw [LineWindow.lines,List.splitOn_cons_eq_if_modifyHead] at hl
      split at hl
      · rcases List.mem_cons.mp hl with rfl | hl
        · cases hx
        · have := ih hl hx
          exact ⟨List.mem_cons_of_mem y this.1,this.2⟩
      · next hy =>
          cases hls : LineWindow.lines 10 content with
          | nil => exact absurd hls (List.splitOn_ne_nil 10 content)
          | cons l' ls =>
              rw [← LineWindow.lines,hls,List.modifyHead_cons] at hl
              rcases List.mem_cons.mp hl with rfl | hl
              · rcases List.mem_cons.mp hx with rfl | hx
                · exact ⟨List.mem_cons_self,by simpa using hy⟩
                · have := ih (by simp [hls]) hx
                  exact ⟨List.mem_cons_of_mem y this.1,this.2⟩
              · have := ih (by simp [hls,hl]) hx
                exact ⟨List.mem_cons_of_mem y this.1,this.2⟩

theorem parseHosts_eq {content : Bytes} (hnul : 0 ∉ content)
    (hplain : plainLines (LineWindow.lines 10 content)) (R : ResolverConf) (mode : Bool) :
    parseHosts R (content++[0]) mode =
      (hosts content).foldlM
        (fun R h => if mode then return (← getHash R h.1 h.2).1 else return R) R >>= fun R =>
          .ok (R,(hosts content).length) := by
  have htext : ∀ l ∈ LineWindow.lines 10 content, Text l := by
    intro l hl x hx
    have hmem := mem_of_mem_lines hl hx
    exact ⟨fun he => hnul (he ▸ hmem.1),hmem.2⟩
  have hlen : (buffer (LineWindow.lines 10 content)).length ≤ (content++[0]).length := by
    rw [buffer_lines]
  unfold parseHosts
  rw [← buffer_lines] at hlen ⊢
  rw [parseLines_eq htext hplain (List.splitOn_ne_nil 10 content) hlen,Nat.zero_add]
  rfl

theorem prime_of_mem_pr : ∀ p ∈ pr, p.Prime := by
  simp only [pr,List.forall_mem_cons]
  norm_num

theorem exists_size {ans : ℕ} (h : ans < 18659254) :
    ∃ hsize, tableSize ans = some hsize ∧ ans < hsize := by
  have hmem : 37318507 ∈ pr := by decide
  unfold tableSize
  cases hfind : pr.find? fun p => ans*2 < p with
  | none =>
      have := List.find?_eq_none.mp hfind 37318507 hmem
      rw [decide_eq_true_eq] at this
      omega
  | some p =>
      have hlt := List.find?_some hfind
      rw [decide_eq_true_eq] at hlt
      exact ⟨p,rfl,by omega⟩

theorem tableSize_sized {ans hsize : ℕ} (h : tableSize ans = some hsize) : Sized hsize := by
  have hmin : ∀ p ∈ pr, 29 ≤ p := by decide
  have hp := List.mem_of_find?_eq_some h
  exact ⟨prime_of_mem_pr hsize hp,hmin hsize hp⟩

theorem tableSize_le {ans hsize : ℕ} (h : tableSize ans = some hsize) (hans : ans < 3685786) :
    hsize ≤ 7371571 := by
  have hmem : 7371571 ∈ pr := by decide
  have hsorted : pr.Pairwise (· < ·) := by decide
  have ⟨_,as,bs,hsplit,has⟩ := List.find?_eq_some_iff_append.mp h
  rw [hsplit] at hmem hsorted
  rcases List.mem_append.mp hmem with hbefore | hbehind
  · have := has 7371571 hbefore
    simp only [Bool.not_eq_true',decide_eq_false_iff_not] at this
    omega
  · rcases List.mem_cons.mp hbehind with rfl | hbehind
    · exact le_rfl
    · have := (List.pairwise_cons.mp (List.pairwise_append.mp hsorted).2.1).1 _ hbehind
      omega

/-- Names of characters below 128 are in the table as long as they are not too many. -/
theorem readable_of_ascii {content : Bytes} (hplain : plainLines (LineWindow.lines 10 content))
    (hascii : ∀ h ∈ hosts content, Ascii h.1) (hfew : (hosts content).length < 3685786) :
    Readable content :=
  ⟨hplain,fun _ hfind h hh =>
    (hascii h hh).inTable (tableSize_sized hfind) (tableSize_le hfind hfew)⟩

theorem length_names_le (t : Bytes) : (names t).length ≤ t.length := by
  unfold names
  induction t with
  | nil => simp
  | cons x t ih =>
      rw [List.splitOnP_cons_eq_if_modifyHead,List.length_cons]
      split
      · simpa using ih.trans (Nat.le_succ _)
      · cases hs : t.splitOnP isBlank with
        | nil => exact absurd hs (List.splitOnP_ne_nil isBlank t)
        | cons w ws =>
            have hle := List.length_filter_le
              (fun w : Bytes => w ≠ [] && decide (w.length < 128)) [x::w]
            have hsub := (List.sublist_cons_self w ws).filter
              (fun w : Bytes => w ≠ [] && decide (w.length < 128))
            rw [hs] at ih
            rw [List.modifyHead_cons,← List.singleton_append,List.filter_append,List.length_append]
            have := hsub.length_le
            rw [List.length_singleton] at hle
            omega

theorem length_lineHosts_le (l : Bytes) : (lineHosts l).length ≤ l.length := by
  have hsub : ((l.dropWhile DecimalNumber.isspace).dropWhile fun c => !isBlank c).length ≤
      l.length :=
    ((List.dropWhile_suffix _).trans (List.dropWhile_suffix _)).length_le
  unfold lineHosts lineEntry
  dsimp only
  generalize octets (l.dropWhile DecimalNumber.isspace) = os
  split
  · exact Nat.zero_le _
  · next ip ns hentry =>
      rw [List.length_map]
      split at hentry
      · split at hentry
        · cases hentry
        · cases hentry
          exact (length_names_le _).trans hsub
      · cases hentry

/-- A file has fewer names than bytes. -/
theorem length_hosts_le (content : Bytes) : (hosts content).length ≤ content.length := by
  have hbuffer : ∀ ls : List Bytes, ls ≠ [] →
      (ls.flatMap lineHosts).length+1 ≤ (buffer ls).length := by
    intro ls
    induction ls with
    | nil => simp
    | cons l ls ih =>
        intro _
        have hline := length_lineHosts_le l
        cases ls with
        | nil => simpa [buffer] using hline
        | cons l' ls =>
            have hrest := ih (by simp)
            have hcons : buffer (l::l'::ls) = l++10::buffer (l'::ls) := rfl
            rw [hcons,List.flatMap_cons,List.length_append,List.length_append,List.length_cons]
            omega
  have hle := hbuffer _ (List.splitOn_ne_nil 10 content)
  rw [← LineWindow.lines,buffer_lines,List.length_append,List.length_singleton] at hle
  exact Nat.le_of_succ_le_succ hle

/-- The first pass stores nothing. -/
theorem parseHosts_count {content : Bytes} (hnul : 0 ∉ content) (h : Readable content) :
    parseHosts ⟨0,fun _ => none⟩ (content++[0]) false =
      .ok (⟨0,fun _ => none⟩,(hosts content).length) := by
  rw [parseHosts_eq hnul h.plain]
  have hidle : ∀ hs : List (Bytes × BitVec 32), hs.foldlM (fun R _ => return R)
      (⟨0,fun _ => none⟩ : ResolverConf) = (.ok ⟨0,fun _ => none⟩ : Except Fault _) := by
    intro hs
    induction hs with
    | nil => rfl
    | cons h hs ih => exact ih
  exact congrArg (· >>= _) (hidle (hosts content))

/-- Both passes over such a file find its names. The table that is built of a file below the
largest size has a free place and gives each name the address of the first line that contains
it, when the name does not lead outside. -/
theorem hosts_file_resolved {content : Bytes} (hnul : 0 ∉ content) (h : Readable content) :
    parseHosts ⟨0,fun _ => none⟩ (content++[0]) false =
        .ok (⟨0,fun _ => none⟩,(hosts content).length) ∧
      (maxHostsSize ≤ content.length → kdbLoadHostsInternal content = .ok none) ∧
      (content.length < maxHostsSize → ∃ table : ResolverConf,
        tableSize (hosts content).length = some table.hsize ∧
        parseHosts ⟨table.hsize,fun _ => none⟩ (content++[0]) true =
          .ok (table,(hosts content).length) ∧
        kdbLoadHostsInternal content = .ok (some table) ∧
        (∃ i < table.hsize, table.htable i = none) ∧
        ∀ name, name.length < 128 → InTable table.hsize name →
          getHash table name 0 = .ok (table,hostAddress content name)) := by
  have hcount := parseHosts_count hnul h
  refine ⟨hcount,fun hlarge => if_pos hlarge,fun hsmall => ?_⟩
  have hfew := length_hosts_le content
  have ⟨hsize,hfind,hroom⟩ := @exists_size (hosts content).length
    (by unfold maxHostsSize at hsmall; omega)
  have hsized := tableSize_sized hfind
  have hgood : ∀ e ∈ hosts content, InTable hsize e.1 ∧ e.1.length < 128 ∧ e.2 ≠ 0 := by
    intro e he
    have ⟨l,_,hl⟩ := List.mem_flatMap.mp he
    exact ⟨h.inTable hsize hfind e he,lineHosts_good e hl⟩
  have ⟨table,hrun,hsame,hloaded⟩ := (loaded_nil hsize).storeAll hsized hgood hroom
  rw [List.nil_append] at hloaded
  have hsized : Sized table.hsize := hsame ▸ hsized
  have hroom : (hosts content).length < table.hsize := hsame ▸ hroom
  have hstore : parseHosts ⟨hsize,fun _ => none⟩ (content++[0]) true =
      .ok (table,(hosts content).length) := by
    rw [parseHosts_eq hnul h.plain]
    exact congrArg (· >>= _) hrun
  refine ⟨table,hsame ▸ hfind,hsame ▸ hstore,?_,hloaded.free hroom,fun name hlen hname => ?_⟩
  · unfold kdbLoadHostsInternal
    rw [if_neg (by omega)]
    dsimp only
    rw [hcount]
    show (match tableSize (hosts content).length with | none => _ | some hsize => _) = _
    rw [hfind]
    dsimp only
    rw [hstore]
    show (if _ then _ else _) = _
    rw [if_neg (not_not_intro rfl)]
    rfl
  · rw [hostAddress_eq]
    exact hloaded.lookup hsized hroom hname hlen

/-- The lines `-1.2.3.4 h` and `127.0.0.1 localhost`. The sign makes a large number of the first. -/
def localhostFile : Bytes :=
  [45,49,46,50,46,51,46,52,32,104,10,
    49,50,55,46,48,46,48,46,49,32,108,111,99,97,108,104,111,115,116,10]

theorem localhost_resolved :
    ∃ table : ResolverConf,
      kdbLoadHostsInternal localhostFile = .ok (some table) ∧
      getHash table [108,111,99,97,108,104,111,115,116] 0 = .ok (table,some 0x7F000001#32) ∧
      getHash table [104] 0 = .ok (table,none) := by
  have ⟨_,_,htable⟩ := @hosts_file_resolved localhostFile (by decide)
    (readable_of_ascii (by decide +kernel) (by decide +kernel) (by decide +kernel))
  have ⟨table,hsize,_,hload,_,hlookup⟩ := htable (by decide)
  have hsmall := tableSize_le hsize (by decide +kernel)
  have hin := fun name (hname : Ascii name) => hname.inTable (tableSize_sized hsize) hsmall
  exact ⟨table,hload,hlookup _ (by decide) (hin _ (by decide)),
    hlookup _ (by decide) (hin _ (by decide))⟩

/-- The file `1` is read past its end. In a file with the lines `127` and
`10.0.0.1 h` the second line is not read. -/
theorem number_before_line_end :
    (kdbLoadHostsInternal [49]).map Option.isSome = .error .outside ∧
      let content : Bytes := [49,50,55,10,49,48,46,48,46,48,46,49,32,104,10]
      (do (← kdbLoadHostsInternal content).mapM fun R => return (← getHash R [104] 0).2) =
        .ok (some none) ∧
      hostAddress content [104] = some 0x0A000001#32 := by
  decide +kernel

end Teleproxy.HostsTable
