import Mathlib.Data.Fintype.Basic
import Mathlib.Data.List.FinRange
import Teleproxy.SecretSlots

/-!
# Reloading and draining the slot table

The table holds 32 slots, the high-water mark `ext_secret_cnt` and the number
of pinned slots. A reload runs four passes over it. Pass A marks the active
slots as candidates to drain, pass B refreshes every slot whose key is still
configured, pass C drains the candidates that are left, and pass D places new
keys in free slots. Both failure exits come after pass C has been written, and
nothing is undone there.

The array `placed` of the source becomes the list of entries not placed yet,
in the order of the configuration. Null arrays of quotas, rate limits, address
limits and expiry times are configurations with zeros.
-/
namespace Teleproxy.SecretReload
open SecretSlots

structure SlotTable where
  slots : Fin extSecretMaxSlots → Slot
  cnt : ℕ
  pinned : ℕ

/-- One entry of the configuration handed to a reload. -/
structure SecretConf where
  key : Key
  label : Label := []
  limit : ℤ := 0
  quota : ℤ := 0
  rateLimit : ℤ := 0
  maxIps : ℤ := 0
  expires : ℤ := 0
  deriving DecidableEq, Repr

abbrev allSlots : List (Fin extSecretMaxSlots) := List.finRange extSecretMaxSlots

def SlotTable.set (T : SlotTable) (s : Fin extSecretMaxSlots) (x : Slot) : SlotTable :=
  {T with slots := Function.update T.slots s x}

def emptyTable : SlotTable := ⟨fun _ => {},0,0⟩

/-- `labels[i]`, or the default name of the slot when it is empty. -/
def slotLabel (s : ℕ) (label : Label) : Label :=
  if label = [] then ['s','e','c','r','e','t','_']++Nat.toDigits 10 s else label

/-- The fields that passes B and D write alike. -/
def configureSlot (s : ℕ) (c : SecretConf) (x : Slot) : Slot :=
  {x with label := slotLabel s c.label, limit := c.limit, quota := c.quota,
          rateLimit := c.rateLimit, maxIps := c.maxIps, expires := c.expires,
          state := .active, drainStartedAt := 0}

/-- Zeroed counters and an empty address table, as both pass D and the release
of a drained slot leave them. -/
def zeroCounters (x : Slot) : Slot :=
  ipTrackClearSlot
    {x with connections := 0, connectionsCreated := 0, connectionsRejected := 0,
            bytesReceived := 0, bytesSent := 0, rejectedQuota := 0, rejectedIps := 0,
            rejectedExpired := 0, uniqueIps := 0, rateLimited := 0, rejectedDraining := 0,
            drainForced := 0}

/-- Command-line secrets are added one by one; the caller stops at 16. -/
def tcpRpcsSetExtSecret (T : SlotTable) (c : SecretConf) : SlotTable :=
  if h : T.cnt < extSecretMaxActive then
    let s : Fin extSecretMaxSlots := ⟨T.cnt,h.trans (by decide)⟩
    let x := T.slots s
    {T.set s (ipTrackClearSlot (configureSlot s c {x with key := c.key})) with cnt := T.cnt+1}
  else T

def tcpRpcsPinExtSecrets (T : SlotTable) : SlotTable := {T with pinned := T.cnt}

/-- The table at start-up, before the first configuration is loaded. -/
def pinnedTable (cs : List SecretConf) : SlotTable :=
  tcpRpcsPinExtSecrets (cs.foldl tcpRpcsSetExtSecret emptyTable)

def collidesWithPinned (T : SlotTable) (k : Key) : Bool :=
  allSlots.any fun p => p.val < T.pinned && (T.slots p).key == k

/-- The slot that pass B finds for a key. -/
def slotOfKey (T : SlotTable) (k : Key) : Option (Fin extSecretMaxSlots) :=
  allSlots.find? fun s => T.pinned ≤ s.val && (T.slots s).state != .free && (T.slots s).key == k

/-- The slot that pass D takes for a new key. -/
def freeSlot (T : SlotTable) : Option (Fin extSecretMaxSlots) :=
  allSlots.find? fun s => T.pinned ≤ s.val && (T.slots s).state == .free

structure Matched where
  table : SlotTable
  candidate : Fin extSecretMaxSlots → Bool
  unplaced : List SecretConf

def passA (T : SlotTable) (s : Fin extSecretMaxSlots) : Bool :=
  T.pinned ≤ s.val && (T.slots s).state == .active

def passB (T : SlotTable) (candidate : Fin extSecretMaxSlots → Bool) :
    List SecretConf → Matched
  | [] => ⟨T,candidate,[]⟩
  | c::cs =>
      match slotOfKey T c.key with
      | some s =>
          passB (T.set s (configureSlot s c (T.slots s))) (Function.update candidate s false) cs
      | none =>
          let r := passB T candidate cs
          {r with unplaced := c::r.unplaced}

def passC (preciseNow : ℚ) (candidate : Fin extSecretMaxSlots → Bool) (T : SlotTable) : SlotTable :=
  {T with slots := fun s =>
    if candidate s then {T.slots s with state := .draining, drainStartedAt := preciseNow}
    else T.slots s}

def placeSlot (s : ℕ) (c : SecretConf) (x : Slot) : Slot :=
  zeroCounters (configureSlot s c {x with key := c.key})

/-- The flag is false at the first entry that finds no free slot; the entries
placed before it stay placed. -/
def passD (T : SlotTable) : List SecretConf → SlotTable × Bool
  | [] => (T,true)
  | c::cs =>
      match freeSlot T with
      | some s => passD (T.set s (placeSlot s c (T.slots s))) cs
      | none => (T,false)

def activeTotal (T : SlotTable) : ℕ :=
  T.pinned+allSlots.countP fun s => T.pinned ≤ s.val && (T.slots s).state == .active

def highWater (T : SlotTable) : ℕ :=
  allSlots.foldl (fun h s =>
    if T.pinned ≤ s.val ∧ (T.slots s).state ≠ .free ∧ s.val+1 > h then s.val+1 else h) T.pinned

/-- The entries that no pinned slot overrides. -/
def configured (T : SlotTable) (confs : List SecretConf) : List SecretConf :=
  confs.filter fun c => !collidesWithPinned T c.key

/-- The two exits with -1 and the update of the count, after pass D. -/
def commit (d : SlotTable × Bool) : ℤ × SlotTable :=
  if d.2 = false then (-1,d.1)
  else if activeTotal d.1 > extSecretMaxActive then (-1,d.1)
  else (0,{d.1 with cnt := highWater d.1})

def tcpRpcsReloadExtSecrets (preciseNow : ℚ) (confs : List SecretConf) (T : SlotTable) :
    ℤ × SlotTable :=
  let b := passB T (passA T) (configured T confs)
  commit (passD (passC preciseNow b.candidate b.table) b.unplaced)

def tcpRpcsDrainReleaseSlotIfEmpty (s : Fin extSecretMaxSlots) (T : SlotTable) : SlotTable :=
  if s.val < T.pinned then T
  else if (T.slots s).state ≠ .draining then T
  else if (T.slots s).connections ≠ 0 then T
  else
    let x := T.slots s
    let T := T.set s (zeroCounters
      {x with state := .free, drainStartedAt := 0, key := zeroKey, label := [], limit := 0,
              quota := 0, rateLimit := 0, maxIps := 0, expires := 0})
    {T with cnt := highWater T}

section Passes
variable {T U : SlotTable} {s t : Fin extSecretMaxSlots}

@[simp] theorem set_slots_same (T : SlotTable) (s : Fin extSecretMaxSlots) (x : Slot) :
    (T.set s x).slots s = x := Function.update_self ..

@[simp] theorem set_slots_other (T : SlotTable) (x : Slot) (h : t ≠ s) :
    (T.set s x).slots t = T.slots t := Function.update_of_ne h ..

@[simp] theorem set_cnt (T : SlotTable) (s : Fin extSecretMaxSlots) (x : Slot) :
    (T.set s x).cnt = T.cnt := rfl

@[simp] theorem set_pinned (T : SlotTable) (s : Fin extSecretMaxSlots) (x : Slot) :
    (T.set s x).pinned = T.pinned := rfl

theorem slotOfKey_some {k : Key} (h : slotOfKey T k = some s) :
    T.pinned ≤ s.val ∧ (T.slots s).state ≠ .free ∧ (T.slots s).key = k := by
  have h' := List.find?_some h
  simpa [and_assoc] using h'

theorem slotOfKey_none {k : Key} :
    slotOfKey T k = none ↔
      ∀ s : Fin extSecretMaxSlots, T.pinned ≤ s.val → (T.slots s).state ≠ .free →
        (T.slots s).key ≠ k := by
  simp [slotOfKey]

/-- The search sees only which slots are free and their keys. -/
theorem slotOfKey_congr (hp : U.pinned = T.pinned)
    (h : ∀ s, (U.slots s).state = .free ↔ (T.slots s).state = .free)
    (hk : ∀ s, (U.slots s).key = (T.slots s).key) (k : Key) :
    slotOfKey U k = slotOfKey T k := by
  have hs : ∀ s, ((U.slots s).state != .free) = ((T.slots s).state != .free) := by
    intro s
    rw [Bool.eq_iff_iff]
    simp [h s]
  simp only [slotOfKey,hp,hs,hk]

/-- The last configured entry that pass B matches to a slot. -/
def namedBy (T : SlotTable) (s : Fin extSecretMaxSlots) (cs : List SecretConf) :
    Option SecretConf :=
  (cs.filter fun c => slotOfKey T c.key == some s).getLast?

theorem namedBy_some {cs : List SecretConf} {c : SecretConf} (h : namedBy T s cs = some c) :
    c ∈ cs ∧ slotOfKey T c.key = some s := by
  have h' := List.mem_of_getLast? h
  simpa using h'

theorem namedBy_none {cs : List SecretConf} :
    namedBy T s cs = none ↔ ∀ c ∈ cs, slotOfKey T c.key ≠ some s := by
  simp [namedBy]

theorem slotOfKey_configure {k : Key} (h : slotOfKey T k = some s) (c : SecretConf) (k' : Key) :
    slotOfKey (T.set s (configureSlot s c (T.slots s))) k' = slotOfKey T k' := by
  have hs := (slotOfKey_some h).2.1
  refine slotOfKey_congr (set_pinned T s _) (fun t => ?_) (fun t => ?_) k'
  · by_cases ht : t = s
    · subst ht
      simp [configureSlot,hs]
    · simp [ht]
  · by_cases ht : t = s
    · subst ht
      simp [configureSlot]
    · simp [ht]

theorem namedBy_configure {k : Key} (h : slotOfKey T k = some s) (c : SecretConf)
    (cs : List SecretConf) :
    namedBy (T.set s (configureSlot s c (T.slots s))) t cs = namedBy T t cs := by
  simp only [namedBy,slotOfKey_configure h]

theorem passB_spec (T : SlotTable) (candidate : Fin extSecretMaxSlots → Bool)
    (cs : List SecretConf) :
    (∀ s, (passB T candidate cs).table.slots s =
        match namedBy T s cs with
        | some c => configureSlot s c (T.slots s)
        | none => T.slots s) ∧
      (∀ s, (passB T candidate cs).candidate s = (candidate s && (namedBy T s cs).isNone)) ∧
      (passB T candidate cs).unplaced = cs.filter (fun c => (slotOfKey T c.key).isNone) ∧
      (passB T candidate cs).table.cnt = T.cnt ∧
      (passB T candidate cs).table.pinned = T.pinned := by
  induction cs generalizing T candidate with
  | nil => simp [passB,namedBy]
  | cons c cs ih =>
      cases hc : slotOfKey T c.key with
      | none =>
          have hn : ∀ s, namedBy T s (c::cs) = namedBy T s cs := by simp [namedBy,hc]
          obtain ⟨hs,hcand,hu,hcnt,hp⟩ := ih T candidate
          refine ⟨fun s => ?_,fun s => ?_,?_,?_,?_⟩
          · simpa only [passB,hc,hn] using hs s
          · simpa only [passB,hc,hn] using hcand s
          · simp [passB,hc,hu]
          · simpa only [passB,hc] using hcnt
          · simpa only [passB,hc] using hp
      | some t =>
          obtain ⟨hs,hcand,hu,hcnt,hp⟩ :=
            ih (T.set t (configureSlot t c (T.slots t))) (Function.update candidate t false)
          have hn : ∀ s, s ≠ t → namedBy T s (c::cs) = namedBy T s cs := by
            intro s hst
            simp [namedBy,hc,Ne.symm hst]
          have ht : namedBy T t (c::cs) = some ((namedBy T t cs).getD c) := by
            simp [namedBy,hc,List.getLast?_cons]
          refine ⟨fun s => ?_,fun s => ?_,?_,?_,?_⟩
          · simp only [passB,hc,hs,namedBy_configure hc]
            by_cases hst : s = t
            · subst hst
              rw [ht]
              cases namedBy T s cs <;> simp [configureSlot]
            · rw [hn s hst,set_slots_other _ _ hst]
          · simp only [passB,hc,hcand,namedBy_configure hc]
            by_cases hst : s = t
            · subst hst
              simp [ht]
            · rw [hn s hst,Function.update_of_ne hst]
          · simp only [passB,hc,hu,slotOfKey_configure hc]
            simp [hc]
          · simpa only [passB,hc,set_cnt] using hcnt
          · simpa only [passB,hc,set_pinned] using hp

/-- The new keys: entries that neither a pinned nor any other used slot holds. -/
def newKeys (T : SlotTable) (confs : List SecretConf) : List SecretConf :=
  (configured T confs).filter fun c => (slotOfKey T c.key).isNone

/-- The table after passes A, B and C. -/
def settle (preciseNow : ℚ) (confs : List SecretConf) (T : SlotTable) : SlotTable :=
  let b := passB T (passA T) (configured T confs)
  passC preciseNow b.candidate b.table

theorem settle_slots (preciseNow : ℚ) (confs : List SecretConf) (T : SlotTable)
    (s : Fin extSecretMaxSlots) :
    (settle preciseNow confs T).slots s =
      match namedBy T s (configured T confs) with
      | some c => configureSlot s c (T.slots s)
      | none =>
          if passA T s then {T.slots s with state := .draining, drainStartedAt := preciseNow}
          else T.slots s := by
  obtain ⟨hs,hcand,-⟩ := passB_spec T (passA T) (configured T confs)
  simp only [settle,passC,hs,hcand]
  cases namedBy T s (configured T confs) <;> simp

@[simp] theorem settle_cnt (preciseNow : ℚ) (confs : List SecretConf) (T : SlotTable) :
    (settle preciseNow confs T).cnt = T.cnt :=
  (passB_spec T (passA T) (configured T confs)).2.2.2.1

@[simp] theorem settle_pinned (preciseNow : ℚ) (confs : List SecretConf) (T : SlotTable) :
    (settle preciseNow confs T).pinned = T.pinned :=
  (passB_spec T (passA T) (configured T confs)).2.2.2.2

theorem reload_eq (preciseNow : ℚ) (confs : List SecretConf) (T : SlotTable) :
    tcpRpcsReloadExtSecrets preciseNow confs T =
      commit (passD (settle preciseNow confs T) (newKeys T confs)) := by
  rw [newKeys,← (passB_spec T (passA T) (configured T confs)).2.2.1]
  rfl

/-- The free slots in the order pass D takes them. -/
def freeSlots (T : SlotTable) : List (Fin extSecretMaxSlots) :=
  allSlots.filter fun s => T.pinned ≤ s.val && (T.slots s).state == .free

theorem freeSlot_eq (T : SlotTable) : freeSlot T = (freeSlots T).head? := by
  simp [freeSlot,freeSlots]

theorem mem_freeSlots : s ∈ freeSlots T ↔ T.pinned ≤ s.val ∧ (T.slots s).state = .free := by
  simp [freeSlots,allSlots]

theorem nodup_freeSlots (T : SlotTable) : (freeSlots T).Nodup :=
  (List.nodup_finRange _).filter _

/-- Filling the first free slot leaves the others, in order. -/
theorem freeSlots_place {rest : List (Fin extSecretMaxSlots)} (h : freeSlots T = s::rest)
    (c : SecretConf) (x : Slot) : freeSlots (T.set s (placeSlot s c x)) = rest := by
  have hn := nodup_freeSlots T
  rw [h,List.nodup_cons] at hn
  have hf : freeSlots (T.set s (placeSlot s c x)) = (freeSlots T).filter (· ≠ s) := by
    rw [freeSlots,freeSlots,List.filter_filter]
    refine List.filter_congr fun t _ => ?_
    by_cases ht : t = s
    · subst ht
      simp [placeSlot,configureSlot,zeroCounters,ipTrackClearSlot]
    · rw [set_slots_other _ _ ht,decide_eq_true ht,Bool.true_and]
      rfl
  rw [hf,h]
  have hrest : rest.filter (fun t => decide (t ≠ s)) = rest := by
    refine List.filter_eq_self.mpr fun t ht => ?_
    simp only [ne_eq,decide_eq_true_eq]
    rintro rfl
    exact hn.1 ht
  simpa using hrest

/-- The entry that pass D puts into a slot, if any. -/
def placedIn (T : SlotTable) (cs : List SecretConf) (t : Fin extSecretMaxSlots) :
    Option SecretConf :=
  ((freeSlots T).zip cs).lookup t

theorem placedIn_some {cs : List SecretConf} {c : SecretConf} (h : placedIn T cs t = some c) :
    t ∈ freeSlots T ∧ c ∈ cs := by
  obtain ⟨l₁,l₂,hl,-⟩ := List.lookup_eq_some_iff.mp h
  exact List.of_mem_zip (hl ▸ by simp)

theorem passD_spec (T : SlotTable) (cs : List SecretConf) :
    (∀ t, (passD T cs).1.slots t =
        match placedIn T cs t with
        | some c => placeSlot t c (T.slots t)
        | none => T.slots t) ∧
      (passD T cs).2 = decide (cs.length ≤ (freeSlots T).length) ∧
      (passD T cs).1.cnt = T.cnt ∧ (passD T cs).1.pinned = T.pinned := by
  induction cs generalizing T with
  | nil => simp [passD,placedIn]
  | cons c cs ih =>
      cases hf : freeSlots T with
      | nil => simp [passD,freeSlot_eq,hf,placedIn]
      | cons s rest =>
          have hrest := freeSlots_place hf c (T.slots s)
          have hnot : s ∉ rest := by
            have hn := nodup_freeSlots T
            rw [hf,List.nodup_cons] at hn
            exact hn.1
          obtain ⟨hs,hok,hcnt,hp⟩ := ih (T.set s (placeSlot s c (T.slots s)))
          have hstep : passD T (c::cs) = passD (T.set s (placeSlot s c (T.slots s))) cs := by
            simp [passD,freeSlot_eq,hf]
          rw [hstep]
          refine ⟨fun t => ?_,?_,?_,?_⟩
          · rw [hs t]
            by_cases hts : t = s
            · subst hts
              have hnone : placedIn (T.set t (placeSlot t c (T.slots t))) cs t = none := by
                cases hl : placedIn (T.set t (placeSlot t c (T.slots t))) cs t with
                | none => rfl
                | some c' => exact (hnot (hrest ▸ (placedIn_some hl).1)).elim
              rw [hnone]
              simp [placedIn,hf]
            · have heq : placedIn T (c::cs) t =
                  placedIn (T.set s (placeSlot s c (T.slots s))) cs t := by
                have hb : (t == s) = false := by simpa using hts
                simp [placedIn,hf,hrest,List.lookup_cons,hb]
              rw [heq,set_slots_other _ _ hts]
          · rw [hok,hrest]
            simp
          · rw [hcnt,set_cnt]
          · rw [hp,set_pinned]

end Passes

end Teleproxy.SecretReload
