import Teleproxy.SecretReload
import Teleproxy.Obfs2Header

/-!
# From the secret found to its slot

The obfs2 branch of `tcp_rpcs_compact_parse_execute` hands the keys of the slots in use to
`obfs2_parse_header` without the holes between them, and translates the number that comes
back to a slot. The table of that translation lies on the stack and is filled only as far
as there are slots in use. Without secrets the number that comes back is 0 all the same.

AES and SHA256 are those of `Obfs2Header`. Whether the bytes behind the header are
decrypted without an error is a parameter. The counters of the clients with most
connections are not in the slots and are left out.
-/
namespace Teleproxy.SlotTranslation
open ClientInput (Bytes)
open SecretSlots SecretReload Obfs2Header

structure Config where
  randPadOnly : Bool
  allowOnlyTls : Bool
  isTls : Bool
  decrypts : Bool
  workers : ℤ
  now : ℤ
  preciseNow : ℚ
  addr : Addr

/-- The fields of `tcp_rpc_data` that the branch writes. -/
structure RpcData where
  extraInt2 : BitVec 32 := 0
  extraInt3 : BitVec 32 := 0
  extraInt4 : ℤ := 0
  deriving DecidableEq, Repr

/-- `compact_secrets` and `compact_to_slot`, with `none` for what was never written. -/
structure Compact where
  secrets : List Bytes
  toSlot : List (Option (Fin extSecretMaxSlots))

def Compact.start : Compact := ⟨[],List.replicate extSecretMaxSlots none⟩

def Compact.step (T : SlotTable) (c : Compact) (s : Fin extSecretMaxSlots) : Compact :=
  if (T.slots s).state = .free then c
  else ⟨c.secrets++[(T.slots s).key.toList],c.toSlot.set c.secrets.length (some s)⟩

/-- The slots below `ext_secret_cnt`. -/
def slotsBelow (T : SlotTable) : List (Fin extSecretMaxSlots) := allSlots.take T.cnt

def compact (T : SlotTable) : Compact := (slotsBelow T).foldl (Compact.step T) .start

inductive Outcome where
  | invalid | tlsError | decryptError | rejected (r : Rejection) | accepted
  deriving DecidableEq, Repr

structure Result where
  table : SlotTable
  data : RpcData
  /-- Every entry of `compact_to_slot` that was read had been written. -/
  initialised : Bool := true
  /-- What was stored in `extra_int2`, before a check clears it. -/
  assigned : Option (BitVec 32) := none
  outcome : Outcome

/-- The slot of `extra_int2` if it is one. -/
def slotOf (extraInt2 : BitVec 32) : Option (Fin extSecretMaxSlots) :=
  if h : 0 < extraInt2.toInt ∧ extraInt2.toInt ≤ extSecretMaxSlots then
    some ⟨(extraInt2.toInt-1).toNat,by simp only [extSecretMaxSlots] at h ⊢; omega⟩
  else none

section Branch
variable (crypto : Crypto) (cfg : Config) (stack : ℕ → BitVec 32)

/-- The checks of a secret, which a TLS client has passed before, and the attach. -/
def checkAndAttach (T : SlotTable) (D : RpcData) : SlotTable × RpcData × Outcome :=
  match slotOf D.extraInt2 with
  | none => (T,D,.accepted)
  | some s =>
      match if cfg.isTls then none else rejection cfg.workers cfg.now (T.slots s) cfg.addr with
      | some r => (T.set s (countRejection r (T.slots s)),{D with extraInt2 := 0},.rejected r)
      | none => (T.set s (attachSlot cfg.workers cfg.preciseNow cfg.addr (T.slots s)),D,.accepted)

/-- `compact_to_slot[i]`: an entry that was not written holds what is on the stack. -/
def Compact.read (c : Compact) (i : ℕ) : BitVec 32 × Bool :=
  match c.toSlot.getD i none with
  | some s => (.ofNat 32 s,true)
  | none => (stack i,false)

/-- The branch for a header that was parsed. -/
def translate (T : SlotTable) (D : RpcData) (pr : ParseResult) : Result :=
  let (secretId,initialised) := (compact T).read stack pr.secretId
  if pr.tag ≠ tagPad ∧ cfg.allowOnlyTls = true then
    {table := T, data := D, initialised := initialised, outcome := .tlsError}
  else if cfg.decrypts = false then
    {table := T, data := D, initialised := initialised, outcome := .decryptError}
  else
    let (table,data,outcome) := checkAndAttach cfg T
      {extraInt2 := secretId+1, extraInt3 := pr.tag, extraInt4 := pr.dc}
    {table := table, data := data, initialised := initialised, assigned := some (secretId+1),
     outcome := outcome}

def obfs2Branch (T : SlotTable) (D : RpcData) (header : Bytes) : Result :=
  match (obfs2ParseHeader crypto cfg.randPadOnly (compact T).secrets header).2 with
  | none =>
      {table := T, data := if cfg.isTls then {D with extraInt2 := 0} else D, outcome := .invalid}
  | some pr => translate cfg stack T D pr

end Branch

section Purpose
variable (crypto : Crypto) (cfg : Config) (T : SlotTable) (header : Bytes)

def InUse (s : Fin extSecretMaxSlots) : Prop := (s : ℕ) < T.cnt ∧ (T.slots s).state ≠ .free

/-- The key of the slot makes the header acceptable. -/
def Fits (s : Fin extSecretMaxSlots) : Prop :=
  InUse T s ∧ Accepts crypto cfg.randPadOnly header (some (T.slots s).key.toList)

def IsLowest (s : Fin extSecretMaxSlots) : Prop :=
  Fits crypto cfg T header s ∧ ∀ t < s, ¬ Fits crypto cfg T header t

/-- A header that is found under the key of `s` is not turned away for its tag or for what
follows it. -/
def Admitted (s : Fin extSecretMaxSlots) : Prop :=
  cfg.decrypts = true ∧ (cfg.allowOnlyTls = true →
    PacketParser.lookup4 ((decrypted crypto header (some (T.slots s).key.toList)).drop 56) = tagPad)

/-- The connection is attributed to the lowest slot that fits and to none without one, and
no other slot changes. -/
structure Translates (r : Result) : Prop where
  initialised : r.initialised = true
  lowest : ∀ s, IsLowest crypto cfg T header s → Admitted crypto cfg T header s →
    r.assigned = some (.ofNat 32 (s+1))
  nobody : (∀ s, ¬ Fits crypto cfg T header s) → r.assigned.bind slotOf = none
  untouched : ∀ s, ¬ IsLowest crypto cfg T header s → r.table.slots s = T.slots s

end Purpose

section Proofs
variable {crypto : Crypto} {cfg : Config} {stack : ℕ → BitVec 32} {T : SlotTable} {header : Bytes}
  {s t : Fin extSecretMaxSlots} {D : RpcData}

def used (T : SlotTable) : List (Fin extSecretMaxSlots) :=
  (slotsBelow T).filter fun s => (T.slots s).state ≠ .free

/-- The two arrays when the slots `done` were put in. -/
def Compact.holding (T : SlotTable) (done : List (Fin extSecretMaxSlots)) : Compact :=
  ⟨done.map fun s => (T.slots s).key.toList,
    done.map some++List.replicate (extSecretMaxSlots-done.length) none⟩

theorem step_holding {done : List (Fin extSecretMaxSlots)} (hroom : done.length < extSecretMaxSlots)
    (hs : (T.slots s).state ≠ .free) :
    (Compact.holding T done).step T s = .holding T (done++[s]) := by
  have hrest : List.replicate (extSecretMaxSlots-done.length) (none : Option (Fin extSecretMaxSlots)) =
      none::List.replicate (extSecretMaxSlots-(done++[s]).length) none := by
    rw [← List.replicate_succ,List.length_append,List.length_singleton]
    congr 1
    omega
  rw [Compact.step,if_neg hs]
  simp only [Compact.holding,hrest,List.map_append,List.map_cons,List.map_nil,List.length_map,
    List.append_assoc,List.singleton_append]
  rw [List.set_append_right _ _ (by rw [List.length_map]),List.length_map,Nat.sub_self,List.set_cons_zero]

theorem foldl_step (l done : List (Fin extSecretMaxSlots))
    (hroom : done.length+l.length ≤ extSecretMaxSlots) :
    l.foldl (Compact.step T) (.holding T done) =
      .holding T (done++l.filter fun s => (T.slots s).state ≠ .free) := by
  induction l generalizing done with
  | nil => rw [List.foldl_nil,List.filter_nil,List.append_nil]
  | cons s l ih =>
      rw [List.length_cons] at hroom
      rw [List.foldl_cons]
      by_cases hs : (T.slots s).state = .free
      · rw [Compact.step,if_pos hs,ih done (by omega),List.filter_cons_of_neg (by simpa using hs)]
      · rw [step_holding (by omega) hs,ih (done++[s]) (by rw [List.length_append,List.length_singleton]; omega),
          List.filter_cons_of_pos (by simpa using hs),List.append_assoc,List.singleton_append]

theorem compact_eq (T : SlotTable) : compact T = .holding T (used T) := by
  have hlen : (slotsBelow T).length ≤ extSecretMaxSlots := by
    rw [slotsBelow,List.length_take,List.length_finRange]
    exact Nat.min_le_right _ _
  exact foldl_step (slotsBelow T) [] (by simpa using hlen)

theorem mem_used : s ∈ used T ↔ InUse T s := by
  have hbelow : s ∈ slotsBelow T ↔ (s : ℕ) < T.cnt := by
    rw [slotsBelow,List.mem_take_iff_getElem]
    constructor
    · intro ⟨i,hi,hs⟩
      rw [List.getElem_finRange] at hs
      subst hs
      simp only [Fin.val_cast]
      omega
    · intro hs
      exact ⟨s,by simp [hs],by simp⟩
  rw [used,List.mem_filter,hbelow,InUse,decide_eq_true_iff]

theorem used_sorted (T : SlotTable) : (used T).Pairwise (· < ·) :=
  (List.pairwise_lt_finRange extSecretMaxSlots).sublist
    (List.filter_sublist.trans (List.take_sublist _ _))

/-- The entry behind the slots in front of `s` is that of `s`. -/
theorem read_used {before after : List (Fin extSecretMaxSlots)} (h : used T = before++s::after) :
    (compact T).read stack before.length = (.ofNat 32 s,true) := by
  rw [compact_eq,Compact.read,Compact.holding,h]
  simp [List.getD_eq_getElem?_getD]

theorem read_unused (h : used T = []) (i : ℕ) : (compact T).read stack i = (stack i,false) := by
  have hnone : (compact T).toSlot.getD i none = none := by
    rw [compact_eq,Compact.holding,h,List.getD_eq_getElem?_getD]
    simp only [List.map_nil,List.nil_append,List.getElem?_replicate]
    split <;> rfl
  rw [Compact.read,hnone]

theorem parse_unused (h : used T = []) :
    obfs2ParseHeader crypto cfg.randPadOnly (compact T).secrets header =
      parseLoop crypto cfg.randPadOnly header [none] 0 header := by
  rw [compact_eq,Compact.holding,h]
  rfl

theorem parse_used (h : used T ≠ []) :
    obfs2ParseHeader crypto cfg.randPadOnly (compact T).secrets header =
      parseLoop crypto cfg.randPadOnly header
        ((used T).map fun s => some (T.slots s).key.toList) 0 header := by
  rw [compact_eq,Compact.holding,obfs2ParseHeader,candidates,if_neg (by simpa using h),List.map_map]
  rfl

/-- The first slot in use that fits is the lowest. -/
theorem lowest_of_first {before after : List (Fin extSecretMaxSlots)} (h : used T = before++s::after)
    (hbefore : ∀ t ∈ before, ¬ Accepts crypto cfg.randPadOnly header (some (T.slots t).key.toList))
    (hs : Accepts crypto cfg.randPadOnly header (some (T.slots s).key.toList)) :
    IsLowest crypto cfg T header s := by
  have hsorted := used_sorted T
  rw [h,List.pairwise_append,List.pairwise_cons] at hsorted
  have hmem : s ∈ used T := by simp [h]
  constructor
  · exact ⟨mem_used.mp hmem,hs⟩
  · intro t hlt ⟨hin,ht⟩
    have htmem := mem_used.mpr hin
    rw [h,List.mem_append,List.mem_cons] at htmem
    rcases htmem with hfront | rfl | hback
    · exact hbefore t hfront ht
    · exact lt_irrefl _ hlt
    · exact lt_asymm hlt (hsorted.2.1.1 t hback)

theorem lowest_unique (hs : IsLowest crypto cfg T header s) (ht : IsLowest crypto cfg T header t) :
    s = t := by
  rcases lt_trichotomy s t with hlt | heq | hlt
  · exact absurd hs.1 (ht.2 s hlt)
  · exact heq
  · exact absurd ht.1 (hs.2 t hlt)

theorem slotOf_assigned (s : Fin extSecretMaxSlots) : slotOf (.ofNat 32 s+1) = some s := by
  revert s
  decide

theorem assigned_eq (s : Fin extSecretMaxSlots) : BitVec.ofNat 32 s+1 = .ofNat 32 (s+1) := by
  rw [BitVec.ofNat_add]
  rfl

theorem checkAndAttach_other (h : slotOf D.extraInt2 ≠ some t) :
    (checkAndAttach cfg T D).1.slots t = T.slots t := by
  unfold checkAndAttach
  cases hslot : slotOf D.extraInt2 with
  | none => rfl
  | some s =>
      have hne : t ≠ s := by
        intro heq
        rw [hslot,heq] at h
        exact h rfl
      dsimp only
      split
      · exact Function.update_of_ne hne _ _
      · exact Function.update_of_ne hne _ _

theorem translates_invalid (hparse : (obfs2ParseHeader crypto cfg.randPadOnly (compact T).secrets header).2 = none)
    (hnobody : ∀ s, ¬ Fits crypto cfg T header s) :
    Translates crypto cfg T header (obfs2Branch crypto cfg stack T D header) := by
  rw [obfs2Branch,hparse]
  exact {initialised := rfl
         lowest := fun s hs _ => absurd hs.1 (hnobody s)
         nobody := fun _ => rfl
         untouched := fun _ _ => rfl}

/-- What the parser returns for a slot that is the lowest leads to that slot. -/
theorem translates_found (hs : IsLowest crypto cfg T header s) {pr : ParseResult}
    (hread : (compact T).read stack pr.secretId = (.ofNat 32 s,true))
    (htag : pr.tag =
      PacketParser.lookup4 ((decrypted crypto header (some (T.slots s).key.toList)).drop 56)) :
    Translates crypto cfg T header (translate cfg stack T D pr) := by
  unfold translate
  rw [hread]
  dsimp only
  constructor
  · split_ifs <;> rfl
  · intro t ht ⟨hdecrypts,hpad⟩
    rw [lowest_unique ht hs] at hpad ⊢
    rw [← htag] at hpad
    rw [if_neg (fun h => h.1 (hpad h.2)),if_neg (by simp [hdecrypts]),assigned_eq]
  · intro hnobody
    exact absurd hs.1 (hnobody s)
  · intro t ht
    have hother : slotOf (.ofNat 32 s+1) ≠ some t := by
      rw [slotOf_assigned]
      intro heq
      cases heq
      exact ht hs
    split_ifs
    · rfl
    · rfl
    · exact checkAndAttach_other hother

theorem translates_inUse (h : used T ≠ []) :
    Translates crypto cfg T header (obfs2Branch crypto cfg stack T D header) := by
  cases hfind : (used T).find? fun s => tagAccepted cfg.randPadOnly
      (PacketParser.lookup4 ((decrypted crypto header (some (T.slots s).key.toList)).drop 56)) with
  | none =>
      have hno : ∀ s ∈ used T, ¬ Accepts crypto cfg.randPadOnly header (some (T.slots s).key.toList) :=
        List.find?_eq_none.mp hfind
      apply translates_invalid
      · rw [parse_used h,parseLoop_none crypto cfg.randPadOnly header 0 (by simpa using hno)]
      · intro s hs
        exact hno s (mem_used.mpr hs.1) hs.2
  | some s =>
      obtain ⟨hs,before,after,hused,hbefore⟩ := List.find?_eq_some_iff_append.mp hfind
      have hno : ∀ t ∈ before,
          ¬ Accepts crypto cfg.randPadOnly header (some (T.slots t).key.toList) := by
        intro t ht hacc
        have hneg := hbefore t ht
        rw [Bool.not_eq_true'] at hneg
        exact absurd hacc (by rw [Accepts,hneg]; decide)
      rw [obfs2Branch,parse_used h,hused,List.map_append,List.map_cons,
        parseLoop_found crypto cfg.randPadOnly header 0 (by simpa using hno) hs,List.length_map,
        Nat.zero_add]
      exact translates_found (lowest_of_first hused hno hs) (read_used hused) rfl

theorem branch_unused (h : used T = []) (hacc : Accepts crypto cfg.randPadOnly header none) :
    ∃ pr, obfs2Branch crypto cfg stack T D header = translate cfg stack T D pr := by
  have hparse : parseLoop crypto cfg.randPadOnly header ([]++[none]) 0 header =
      found crypto header none 0 := parseLoop_found crypto cfg.randPadOnly header 0 (by simp) hacc
  rw [List.nil_append] at hparse
  exact ⟨_,by rw [obfs2Branch,parse_unused h,hparse]; rfl⟩

/-- Every slot is free: the entry that is read was never written. -/
theorem uninitialised_of_unused (h : used T = []) (hacc : Accepts crypto cfg.randPadOnly header none) :
    (obfs2Branch crypto cfg stack T D header).initialised = false := by
  obtain ⟨pr,hbranch⟩ : ∃ pr, obfs2Branch crypto cfg stack T D header = _ := branch_unused h hacc
  rw [hbranch,translate,read_unused h]
  dsimp only
  split_ifs <;> rfl

theorem used_nil : used T = [] ↔ ∀ s, ¬ InUse T s := by
  rw [List.eq_nil_iff_forall_not_mem]
  simp only [mem_used]

/-- A connection is attributed as it should be, whatever is on the stack, exactly when some
slot is in use or the header is not one that is accepted without a secret. -/
theorem slot_translation_iff (crypto : Crypto) (cfg : Config) (T : SlotTable) (D : RpcData)
    (header : Bytes) :
    (∀ stack, Translates crypto cfg T header (obfs2Branch crypto cfg stack T D header)) ↔
      (∃ s, InUse T s) ∨ ¬ Accepts crypto cfg.randPadOnly header none := by
  by_cases hused : used T = []
  · have hfree := used_nil.mp hused
    by_cases hacc : Accepts crypto cfg.randPadOnly header none
    · constructor
      · intro hall
        have hinit := (hall fun _ => 0).initialised
        rw [uninitialised_of_unused hused hacc] at hinit
        cases hinit
      · rintro (⟨s,hs⟩ | hno)
        · exact absurd hs (hfree s)
        · exact absurd hacc hno
    · constructor
      · intro _
        exact .inr hacc
      · intro _ stack
        apply translates_invalid
        · rw [parse_unused hused,parseLoop_none crypto cfg.randPadOnly header 0 (by simpa using hacc)]
        · intro s hs
          exact hfree s hs.1
  · constructor
    · intro _
      left
      by_contra hnone
      exact hused (used_nil.mpr (not_exists.mp hnone))
    · intro _ stack
      exact translates_inUse hused

end Proofs

def plainConfig : Config :=
  {randPadOnly := false, allowOnlyTls := false, isTls := false, decrypts := true, workers := 1,
   now := 0, preciseNow := 0, addr := ⟨1,zeroIpv6⟩}

theorem ones_length : (List.replicate 64 (1 : UInt8)).length = 64 := rfl

theorem ones_kept : drawnAgain (List.replicate 64 1) = false := by decide

/-- A header for DC 2 that needs no secret. -/
def openHeader (crypto : Crypto) : Bytes :=
  (tcpDirectDcSendObfs2Init crypto ⟨List.replicate 64 1,ones_length,ones_kept⟩ (tagWord .medium)
    2#32).init

theorem openHeader_accepted (crypto : Crypto) :
    Accepts crypto plainConfig.randPadOnly (openHeader crypto) none := by
  rw [Accepts,openHeader,tag_sent]
  rfl

/-- There is no secret and 4 is left on the stack: a client is attached to the fifth slot. -/
theorem free_slot_attributed : (∀ s, ¬ InUse emptyTable s) ∧ ∀ crypto : Crypto,
    let r := obfs2Branch crypto plainConfig (fun _ => 4) emptyTable {} (openHeader crypto)
    r.initialised = false ∧ r.data.extraInt2 = 5 ∧ (r.table.slots 4).connections = 1 ∧
      ¬ Translates crypto plainConfig emptyTable (openHeader crypto) r := by
  have hused : used emptyTable = [] := by rfl
  constructor
  · exact used_nil.mp hused
  · intro crypto
    have hacc := openHeader_accepted crypto
    have hinit : (obfs2Branch crypto plainConfig (fun _ => 4) emptyTable {}
      (openHeader crypto)).initialised = false := uninitialised_of_unused hused hacc
    obtain ⟨pr,hbranch⟩ : ∃ pr,
      obfs2Branch crypto plainConfig (fun _ => 4) emptyTable {} (openHeader crypto) = _ :=
        branch_unused hused hacc
    have hattach : (translate plainConfig (fun _ => 4) emptyTable {} pr).data.extraInt2 = 5 ∧
        ((translate plainConfig (fun _ => 4) emptyTable {} pr).table.slots 4).connections = 1 := by
      have hopen : ¬ (pr.tag ≠ tagPad ∧ plainConfig.allowOnlyTls = true) := by simp [plainConfig]
      have hslot : slotOf ((4 : BitVec 32)+1) = some 4 := slotOf_assigned 4
      rw [translate,read_unused hused]
      dsimp only
      rw [if_neg hopen,if_neg (by decide)]
      simp only [checkAndAttach,hslot]
      exact ⟨rfl,rfl⟩
    rw [← hbranch] at hattach
    refine ⟨hinit,hattach.1,hattach.2,?_⟩
    intro htranslates
    rw [htranslates.initialised] at hinit
    cases hinit

end Teleproxy.SlotTranslation
