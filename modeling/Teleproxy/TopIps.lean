import Teleproxy.AddressAccounting

/-!
# Traffic per address

Beside the tables of the limits, a worker keeps connections and bytes per client address
for the metrics. The module has a row of 64 entries for each of sixteen slots and returns
at once for the other sixteen, and nothing clears a row when its slot is given to another
secret. What is reported for a slot is compared here with what was accounted for it since
its secret was placed.

Counters are natural numbers; `bytes <= 0` is not accounted.
-/
namespace Teleproxy.TopIps
open SecretSlots SecretReload ReloadUniqueness StepSystem AddressAccounting

abbrev volumeRows : ℕ := 16
def ipVolumeStaleSec : ℚ := 5

structure VolumeEntry where
  ip : UInt32 := 0
  ipv6 : Ipv6 := zeroIpv6
  connections : ℕ := 0
  bytesIn : ℕ := 0
  bytesOut : ℕ := 0
  lastSeen : ℚ := 0
  deriving DecidableEq, Repr

abbrev Row := List VolumeEntry

def emptyRow : Row := List.replicate 64 {}

def VolumeEntry.unused (e : VolumeEntry) : Bool := e.ip == 0 && e.ipv6 == zeroIpv6

def VolumeEntry.isFor (a : Addr) (e : VolumeEntry) : Bool :=
  if a.ip ≠ 0 then e.ip == a.ip
  else if a.ipv6 ≠ zeroIpv6 then e.ip == 0 && e.ipv6 == a.ipv6 && e.ipv6 != zeroIpv6
  else false

def VolumeEntry.bytesTotal (e : VolumeEntry) : ℕ := e.bytesIn+e.bytesOut

def ipVolumeLookup (a : Addr) (row : Row) : Option ℕ := row.findIdx? (·.isFor a)

/-- The stale entry without connections that has the fewest bytes. -/
def victim (preciseNow : ℚ) (row : Row) : Option ℕ :=
  (row.zipIdx.foldl (fun (best : Option (ℕ × ℕ)) (p : VolumeEntry × ℕ) =>
    if 0 < p.1.connections then best
    else if preciseNow-ipVolumeStaleSec ≤ p.1.lastSeen then best
    else
      match best with
      | none => some (p.1.bytesTotal,p.2)
      | some b => if p.1.bytesTotal < b.1 then some (p.1.bytesTotal,p.2) else best) none).map Prod.snd

def ipVolumeAcquireSlot (preciseNow : ℚ) (row : Row) : Option (ℕ × Row) :=
  match row.findIdx? VolumeEntry.unused with
  | some i => some (i,row)
  | none => (victim preciseNow row).map fun i => (i,row.set i {})

/-- The entry written for an address. -/
def newEntry (preciseNow : ℚ) (a : Addr) : VolumeEntry :=
  {ip := a.ip, ipv6 := if a.ip = 0 then a.ipv6 else zeroIpv6, lastSeen := preciseNow}

def ipVolumeGetOrCreate (preciseNow : ℚ) (a : Addr) (row : Row) : Option (ℕ × Row) :=
  match ipVolumeLookup a row with
  | some i => some (i,row)
  | none => (ipVolumeAcquireSlot preciseNow row).map fun r => (r.1,r.2.set r.1 (newEntry preciseNow a))

/-- What is done to the entry of an address that is entered if need be. -/
def withEntry (preciseNow : ℚ) (a : Addr) (f : VolumeEntry → VolumeEntry) (row : Row) : Row :=
  match ipVolumeGetOrCreate preciseNow a row with
  | some (i,row) => row.modify i fun e => {f e with lastSeen := preciseNow}
  | none => row

def accountConnect (preciseNow : ℚ) (a : Addr) : Row → Row :=
  withEntry preciseNow a fun e => {e with connections := e.connections+1}

def accountDisconnect (preciseNow : ℚ) (a : Addr) (row : Row) : Row :=
  match ipVolumeLookup a row with
  | some i => row.modify i fun e => {e with connections := e.connections-1, lastSeen := preciseNow}
  | none => row

/-- Direction 0 is from the client. -/
def accountBytes (preciseNow : ℚ) (a : Addr) (bytes direction : ℤ) (row : Row) : Row :=
  if bytes ≤ 0 then row
  else withEntry preciseNow a (fun e =>
    if direction = 0 then {e with bytesIn := e.bytesIn+bytes.toNat}
    else {e with bytesOut := e.bytesOut+bytes.toNat}) row

inductive Account where
  | connect (a : Addr)
  | disconnect (a : Addr)
  | bytes (a : Addr) (n direction : ℤ)
  deriving DecidableEq, Repr

def accountRow (preciseNow : ℚ) : Account → Row → Row
  | .connect a => accountConnect preciseNow a
  | .disconnect a => accountDisconnect preciseNow a
  | .bytes a n direction => accountBytes preciseNow a n direction

/-- The array `ip_volume`. -/
abbrev Volume := Fin volumeRows → Row

/-- `tcp_rpcs_account_connect`, `tcp_rpcs_account_disconnect` and `tcp_rpcs_account_bytes`
with their guards; `top` is `top_ips_per_secret_runtime`. -/
def tcpRpcsAccount (top : ℤ) (preciseNow : ℚ) (sid : Fin extSecretMaxSlots) (x : Account)
    (v : Volume) : Volume :=
  if top ≤ 0 then v
  else if h : sid.val < volumeRows then
    Function.update v ⟨sid.val,h⟩ (accountRow preciseNow x (v ⟨sid.val,h⟩))
  else v

structure WorkerTopIp where
  ip : UInt32
  ipv6 : Ipv6
  connections : ℕ
  bytesIn : ℕ
  bytesOut : ℕ
  deriving DecidableEq, Repr

def VolumeEntry.report (e : VolumeEntry) : WorkerTopIp :=
  ⟨e.ip,e.ipv6,e.connections,e.bytesIn,e.bytesOut⟩

/-- An entry that has an address and something to report. -/
def VolumeEntry.reportable (e : VolumeEntry) : Bool :=
  !e.unused && !(e.bytesTotal == 0 && e.connections == 0)

def better (picked : List ℕ) (best : Option (ℕ × VolumeEntry)) (p : VolumeEntry × ℕ) :
    Option (ℕ × VolumeEntry) :=
  if p.2 ∈ picked then best
  else if p.1.reportable = false then best
  else
    match best with
    | none => some (p.2,p.1)
    | some b => if b.2.bytesTotal < p.1.bytesTotal then some (p.2,p.1) else best

/-- The first of the entries with the most bytes that are not picked yet. -/
def nextBest (row : Row) (picked : List ℕ) : Option (ℕ × VolumeEntry) :=
  row.zipIdx.foldl (better picked) none

def topEntries (row : Row) : ℕ → List ℕ → List WorkerTopIp
  | 0, _ => []
  | max+1, picked =>
      match nextBest row picked with
      | some (i,e) => e.report::topEntries row max (i::picked)
      | none => []

def tcpRpcsSnapshotTopIps (top : ℤ) (v : Volume) (sid : Fin extSecretMaxSlots) (max : ℕ) :
    List WorkerTopIp :=
  if top ≤ 0 then []
  else if h : sid.val < volumeRows then topEntries (v ⟨sid.val,h⟩) max [] else []

/-- The slot table and the metrics of a worker. `since` is not part of the program: it
lists what was accounted for each slot since a secret was placed in it. -/
structure State where
  table : SlotTable
  volume : Volume
  since : Fin extSecretMaxSlots → List Account

inductive Event where
  | connect (tls : Bool) (workers now : ℤ) (preciseNow : ℚ) (s : Fin extSecretMaxSlots) (a : Addr)
  | disconnect (preciseNow : ℚ) (s : Fin extSecretMaxSlots) (a : Addr)
  | relay (preciseNow : ℚ) (s : Fin extSecretMaxSlots) (a : Addr) (bytes direction : ℤ)
  | reload (preciseNow : ℚ) (confs : List SecretConf)
  | release (s : Fin extSecretMaxSlots)

def State.account (top : ℤ) (preciseNow : ℚ) (s : Fin extSecretMaxSlots) (x : Account) (w : State) :
    State :=
  {w with volume := tcpRpcsAccount top preciseNow s x w.volume,
          since := Function.update w.since s (x::w.since s)}

def countBytes (bytes direction : ℤ) (x : Slot) : Slot :=
  if direction = 0 then {x with bytesReceived := x.bytesReceived+bytes}
  else {x with bytesSent := x.bytesSent+bytes}

/-- A reload gives slot `s` to a new secret. -/
def Places (confs : List SecretConf) (T : SlotTable) (s : Fin extSecretMaxSlots) : Prop :=
  (placedIn T (newKeys T confs) s).isSome = true

instance (confs : List SecretConf) (T : SlotTable) (s : Fin extSecretMaxSlots) :
    Decidable (Places confs T s) := inferInstanceAs (Decidable (_ = true))

def step (top : ℤ) (w : State) : Event → State
  | .connect tls workers now preciseNow s a =>
      let x := w.table.slots s
      match if tls then none else rejection workers now x a with
      | some r => {w with table := w.table.set s (countRejection r x)}
      | none =>
          {w with table := w.table.set s (attachSlot workers preciseNow a x)}.account top preciseNow s
            (.connect a)
  | .disconnect preciseNow s a =>
      {w with table := w.table.set s (detachSlot a (w.table.slots s))}.account top preciseNow s
        (.disconnect a)
  | .relay preciseNow s a bytes direction =>
      if bytes ≤ 0 then w
      else
        {w with table := w.table.set s (countBytes bytes direction (w.table.slots s))}.account top
          preciseNow s (.bytes a bytes direction)
  | .reload preciseNow confs =>
      {w with table := (tcpRpcsReloadExtSecrets preciseNow confs w.table).2,
              since := fun s => if Places confs w.table s then [] else w.since s}
  | .release s => {w with table := tcpRpcsDrainReleaseSlotIfEmpty s w.table}

def start (cs : List SecretConf) : State := ⟨pinnedTable cs,fun _ => emptyRow,fun _ => []⟩

/-- What a call adds to the counters of the client `k`. -/
def Account.connects (k : Addr) : Account → ℕ
  | .connect a => if client a = k then 1 else 0
  | _ => 0

def Account.bytesIn (k : Addr) : Account → ℕ
  | .bytes a n direction => if client a = k ∧ direction = 0 then n.toNat else 0
  | _ => 0

def Account.bytesOut (k : Addr) : Account → ℕ
  | .bytes a n direction => if client a = k ∧ direction ≠ 0 then n.toNat else 0
  | _ => 0

/-- No more connections and bytes than the calls accounted for the client. -/
structure Within (k : Addr) (connections bytesIn bytesOut : ℕ) (log : List Account) : Prop where
  connections : connections ≤ (log.map (Account.connects k)).sum
  bytesIn : bytesIn ≤ (log.map (Account.bytesIn k)).sum
  bytesOut : bytesOut ≤ (log.map (Account.bytesOut k)).sum

/-- The per-address table of a slot. The slots from 16 on have none. -/
def tableOf (v : Volume) (s : Fin extSecretMaxSlots) : Row :=
  if h : s.val < volumeRows then v ⟨s.val,h⟩ else emptyRow

/-- Reports hold only what was accounted since the secret was placed, and accounting
changes the tables of all slots in use alike. -/
structure Clean (top : ℤ) (w : State) : Prop where
  reports : ∀ s max, ∀ r ∈ tcpRpcsSnapshotTopIps top w.volume s max,
    Within (client ⟨r.ip,r.ipv6⟩) r.connections r.bytesIn r.bytesOut (w.since s)
  alike : 0 < top → ∀ s, (w.table.slots s).state ≠ .free → ∀ preciseNow x,
    tableOf (tcpRpcsAccount top preciseNow s x w.volume) s =
      accountRow preciseNow x (tableOf w.volume s)

/-- New secrets are placed in slots that have a table, and one with nothing to report. -/
def Fresh (top : ℤ) (w : State) : Event → Prop
  | .reload _ confs => 0 < top → ∀ s, Places confs w.table s →
      s.val < volumeRows ∧ ∀ e ∈ tableOf w.volume s, e.reportable = false
  | _ => True

variable {top : ℤ} {w : State} {s t : Fin extSecretMaxSlots} {log : List Account} {row : Row}
  {k a : Addr} {e : VolumeEntry}

/-- Every entry with an address is within what was accounted for it. -/
def RowWithin (row : Row) (log : List Account) : Prop :=
  ∀ e ∈ row, e.unused = false →
    Within (client ⟨e.ip,e.ipv6⟩) e.connections e.bytesIn e.bytesOut log

theorem Within.more {c i o : ℕ} (h : Within k c i o log) (x : Account) :
    Within k c i o (x::log) := by
  have hc := h.connections
  have hi := h.bytesIn
  have ho := h.bytesOut
  constructor
  · rw [List.map_cons,List.sum_cons]
    omega
  · rw [List.map_cons,List.sum_cons]
    omega
  · rw [List.map_cons,List.sum_cons]
    omega

theorem within_zero (k : Addr) (log : List Account) : Within k 0 0 0 log :=
  ⟨Nat.zero_le _,Nat.zero_le _,Nat.zero_le _⟩

theorem client_of_isFor (h : e.isFor a = true) : client ⟨e.ip,e.ipv6⟩ = client a := by
  obtain ⟨ip,ipv6⟩ := a
  rw [VolumeEntry.isFor] at h
  by_cases hip : ip = 0
  · rw [if_neg (not_not.mpr hip)] at h
    split_ifs at h
    simp only [Bool.and_eq_true,beq_iff_eq] at h
    rw [h.1.1,h.1.2,hip]
  · rw [if_pos hip] at h
    rw [client,client,beq_iff_eq.mp h]
    dsimp only
    rw [if_pos hip,if_pos hip]

theorem client_newEntry (preciseNow : ℚ) (a : Addr) :
    client ⟨(newEntry preciseNow a).ip,(newEntry preciseNow a).ipv6⟩ = client a := by
  obtain ⟨ip,ipv6⟩ := a
  by_cases hip : ip = 0
  · simp [client,newEntry,hip]
  · simp [client,newEntry,hip]

/-- The row with an entry for the address at the place found. -/
structure Prepared (a : Addr) (log : List Account) (i : ℕ) (row : Row) : Prop where
  within : RowWithin row log
  entry : ∀ e, row[i]? = some e → client ⟨e.ip,e.ipv6⟩ = client a ∧
    Within (client a) e.connections e.bytesIn e.bytesOut log

theorem RowWithin.set (h : RowWithin row log) (i : ℕ)
    (he : e.unused = false → Within (client ⟨e.ip,e.ipv6⟩) e.connections e.bytesIn e.bytesOut log) :
    RowWithin (row.set i e) log := by
  intro e' he' hused
  rcases List.mem_or_eq_of_mem_set he' with hmem | rfl
  · exact h e' hmem hused
  · exact he hused

theorem unused_of_isFor (h : e.isFor a = true) : e.unused = false := by
  rw [VolumeEntry.isFor] at h
  rw [VolumeEntry.unused]
  split_ifs at h with hip hipv6
  · rw [beq_iff_eq.mp h]
    simp [hip]
  · simp only [Bool.and_eq_true,bne_iff_ne] at h
    simp [h.2]

theorem prepared_lookup (h : RowWithin row log) {i : ℕ} (hi : ipVolumeLookup a row = some i) :
    Prepared a log i row := by
  refine ⟨h,?_⟩
  intro e he
  rw [ipVolumeLookup,List.findIdx?_eq_some_iff_getElem] at hi
  obtain ⟨hlt,hfor,-⟩ := hi
  rw [List.getElem?_eq_getElem hlt,Option.some.injEq] at he
  rw [he] at hfor
  have hwithin := h e (he ▸ List.getElem_mem hlt) (unused_of_isFor hfor)
  rw [client_of_isFor hfor] at hwithin
  exact ⟨client_of_isFor hfor,hwithin⟩

theorem RowWithin.acquire {preciseNow : ℚ} (h : RowWithin row log) {i : ℕ} {row' : Row}
    (hrow : ipVolumeAcquireSlot preciseNow row = some (i,row')) : RowWithin row' log := by
  rw [ipVolumeAcquireSlot] at hrow
  split at hrow
  · cases hrow
    exact h
  · obtain ⟨j,-,heq⟩ := Option.map_eq_some_iff.mp hrow
    cases heq
    apply h.set
    intro hused
    cases hused

theorem prepared_getOrCreate {preciseNow : ℚ} (h : RowWithin row log) {i : ℕ} {row' : Row}
    (hrow : ipVolumeGetOrCreate preciseNow a row = some (i,row')) : Prepared a log i row' := by
  rw [ipVolumeGetOrCreate] at hrow
  split at hrow
  · next j hj =>
      cases hrow
      exact prepared_lookup h hj
  · obtain ⟨⟨j,row₁⟩,hacquire,heq⟩ := Option.map_eq_some_iff.mp hrow
    cases heq
    have hzero := within_zero (client a) log
    refine ⟨(h.acquire hacquire).set _ fun _ => within_zero _ _,?_⟩
    intro e he
    have hnew : e = newEntry preciseNow a := by
      rw [List.getElem?_set] at he
      split_ifs at he
      · exact (Option.some.inj he).symm
      · exact absurd rfl ‹_›
    subst hnew
    exact ⟨client_newEntry preciseNow a,hzero⟩

/-- The entry of the address is changed by what one call accounts. -/
theorem Prepared.modify {i : ℕ} (h : Prepared a log i row) (x : Account)
    {f : VolumeEntry → VolumeEntry} (hip : ∀ e, (f e).ip = e.ip) (hipv6 : ∀ e, (f e).ipv6 = e.ipv6)
    (hconn : ∀ e, (f e).connections ≤ e.connections+x.connects (client a))
    (hin : ∀ e, (f e).bytesIn ≤ e.bytesIn+x.bytesIn (client a))
    (hout : ∀ e, (f e).bytesOut ≤ e.bytesOut+x.bytesOut (client a)) :
    RowWithin (row.modify i f) (x::log) := by
  intro e he hused
  obtain ⟨j,hj,rfl⟩ := List.mem_iff_getElem.mp he
  rw [List.getElem_modify] at hused ⊢
  rw [List.length_modify] at hj
  split_ifs at hused ⊢ with hij
  · subst hij
    obtain ⟨hclient,hwithin⟩ := h.entry _ (List.getElem?_eq_getElem hj)
    rw [hip,hipv6,hclient]
    have hc := hconn row[i]
    have hi := hin row[i]
    have ho := hout row[i]
    have hc' := hwithin.connections
    have hi' := hwithin.bytesIn
    have ho' := hwithin.bytesOut
    constructor
    · rw [List.map_cons,List.sum_cons]
      omega
    · rw [List.map_cons,List.sum_cons]
      omega
    · rw [List.map_cons,List.sum_cons]
      omega
  · exact (h.within _ (List.getElem_mem hj) hused).more x

theorem RowWithin.more (h : RowWithin row log) (x : Account) : RowWithin row (x::log) :=
  fun e he hused => (h e he hused).more x

theorem RowWithin.withEntry {preciseNow : ℚ} (h : RowWithin row log) (x : Account)
    {f : VolumeEntry → VolumeEntry} (hip : ∀ e, (f e).ip = e.ip) (hipv6 : ∀ e, (f e).ipv6 = e.ipv6)
    (hconn : ∀ e, (f e).connections ≤ e.connections+x.connects (client a))
    (hin : ∀ e, (f e).bytesIn ≤ e.bytesIn+x.bytesIn (client a))
    (hout : ∀ e, (f e).bytesOut ≤ e.bytesOut+x.bytesOut (client a)) :
    RowWithin (TopIps.withEntry preciseNow a f row) (x::log) := by
  rw [TopIps.withEntry]
  split
  · next hrow => exact (prepared_getOrCreate h hrow).modify x hip hipv6 hconn hin hout
  · exact h.more x

/-- One call keeps a row within the calls, itself included. -/
theorem RowWithin.account {preciseNow : ℚ} (h : RowWithin row log) (x : Account) :
    RowWithin (accountRow preciseNow x row) (x::log) := by
  cases x with
  | connect a =>
      apply h.withEntry (.connect a) (a := a)
      · exact fun _ => rfl
      · exact fun _ => rfl
      · intro e
        rw [Account.connects,if_pos rfl]
      · exact fun _ => Nat.le_refl _
      · exact fun _ => Nat.le_refl _
  | disconnect a =>
      rw [accountRow,accountDisconnect]
      split
      · next i hi =>
          apply (prepared_lookup h hi).modify (.disconnect a)
          · exact fun _ => rfl
          · exact fun _ => rfl
          · exact fun _ => Nat.sub_le _ _
          · exact fun _ => Nat.le_refl _
          · exact fun _ => Nat.le_refl _
      · exact h.more _
  | bytes a n direction =>
      rw [accountRow,accountBytes]
      split_ifs with hn hdir
      · exact h.more _
      · apply h.withEntry (.bytes a n direction) (a := a)
        · exact fun _ => rfl
        · exact fun _ => rfl
        · exact fun _ => Nat.le_refl _
        · simp [Account.bytesIn,hdir]
        · exact fun _ => Nat.le_add_right _ _
      · apply h.withEntry (.bytes a n direction) (a := a)
        · exact fun _ => rfl
        · exact fun _ => rfl
        · exact fun _ => Nat.le_refl _
        · exact fun _ => Nat.le_add_right _ _
        · simp [Account.bytesOut,hdir]

theorem better_eq_some {picked : List ℕ} {best : Option (ℕ × VolumeEntry)} {p : VolumeEntry × ℕ}
    {r : ℕ × VolumeEntry} (h : better picked best p = some r) :
    best = some r ∨ (r.2 = p.1 ∧ p.1.reportable = true) := by
  unfold better at h
  split_ifs at h with h1 h2
  · exact .inl h
  · exact .inl h
  · rw [Bool.not_eq_false] at h2
    split at h
    · cases h
      exact .inr ⟨rfl,h2⟩
    · split_ifs at h
      · cases h
        exact .inr ⟨rfl,h2⟩
      · exact .inl h

theorem foldl_better {picked : List ℕ} {l : List (VolumeEntry × ℕ)}
    {best : Option (ℕ × VolumeEntry)} {r : ℕ × VolumeEntry}
    (h : l.foldl (better picked) best = some r) :
    best = some r ∨ ∃ p ∈ l, r.2 = p.1 ∧ p.1.reportable = true := by
  induction l generalizing best with
  | nil => exact .inl h
  | cons p l ih =>
      rcases ih h with hbest | ⟨q,hq,hr⟩
      · rcases better_eq_some hbest with hold | hnew
        · exact .inl hold
        · exact .inr ⟨p,List.mem_cons_self,hnew⟩
      · exact .inr ⟨q,List.mem_cons_of_mem _ hq,hr⟩

theorem nextBest_mem {picked : List ℕ} {r : ℕ × VolumeEntry} (h : nextBest row picked = some r) :
    r.2 ∈ row ∧ r.2.reportable = true := by
  rcases foldl_better h with hnone | ⟨p,hp,hr,hrep⟩
  · cases hnone
  · rw [hr]
    exact ⟨List.fst_mem_of_mem_zipIdx hp,hrep⟩

/-- Only entries with something to report are reported. -/
theorem mem_topEntries {max : ℕ} {picked : List ℕ} {r : WorkerTopIp}
    (h : r ∈ topEntries row max picked) : ∃ e ∈ row, e.reportable = true ∧ r = e.report := by
  induction max generalizing picked with
  | zero => cases h
  | succ max ih =>
      rw [topEntries] at h
      split at h
      · next i e hbest =>
          obtain ⟨hmem,hrep⟩ := nextBest_mem hbest
          rcases List.mem_cons.mp h with rfl | h
          · exact ⟨e,hmem,hrep,rfl⟩
          · exact ih h
      · cases h

theorem better_isSome {best : Option (ℕ × VolumeEntry)} {p : VolumeEntry × ℕ}
    (h : best.isSome = true ∨ p.1.reportable = true) : (better [] best p).isSome = true := by
  unfold better
  split_ifs with h1 h2
  · cases h1
  · rw [h2] at h
    exact h.resolve_right Bool.false_ne_true
  · split
    · rfl
    · split_ifs <;> rfl

theorem foldl_better_isSome {l : List (VolumeEntry × ℕ)} {best : Option (ℕ × VolumeEntry)}
    (h : best.isSome = true ∨ ∃ p ∈ l, p.1.reportable = true) :
    (l.foldl (better []) best).isSome = true := by
  induction l generalizing best with
  | nil =>
      rcases h with h | ⟨p,hp,-⟩
      · exact h
      · cases hp
  | cons p l ih =>
      apply ih
      rcases h with h | ⟨q,hq,hrep⟩
      · exact .inl (better_isSome (.inl h))
      · rcases List.mem_cons.mp hq with rfl | hq
        · exact .inl (better_isSome (.inr hrep))
        · exact .inr ⟨q,hq,hrep⟩

/-- A row with something to report has a report. -/
theorem topEntries_ne_nil (he : e ∈ row) (hrep : e.reportable = true) : topEntries row 1 [] ≠ [] := by
  have hsome : (nextBest row []).isSome = true := by
    apply foldl_better_isSome
    right
    obtain ⟨i,hi⟩ := List.mem_iff_getElem?.mp he
    exact ⟨(e,i),List.mem_zipIdx_iff_getElem?.mpr hi,hrep⟩
  obtain ⟨⟨i,e'⟩,hbest⟩ := Option.isSome_iff_exists.mp hsome
  rw [topEntries,hbest]
  exact List.cons_ne_nil _ _

/-- Nothing was accounted, so nothing is reported. -/
theorem not_within_nil (h : e.reportable = true) :
    ¬Within k e.connections e.bytesIn e.bytesOut [] := by
  intro hwithin
  have hc := hwithin.connections
  have hi := hwithin.bytesIn
  have ho := hwithin.bytesOut
  simp only [List.map_nil,List.sum_nil,Nat.le_zero] at hc hi ho
  rw [VolumeEntry.reportable,VolumeEntry.bytesTotal,hc,hi,ho] at h
  simp at h

/-- What a clean state keeps: all entries are within what was accounted, and the slots in
use have a table. -/
structure Sound (w : State) : Prop where
  rows : ∀ s, RowWithin (tableOf w.volume s) (w.since s)
  tables : ∀ s, (w.table.slots s).state ≠ .free → s.val < volumeRows

theorem tableOf_account (htop : 0 < top) (preciseNow : ℚ) (hs : s.val < volumeRows) (x : Account)
    (v : Volume) :
    tableOf (tcpRpcsAccount top preciseNow s x v) s = accountRow preciseNow x (tableOf v s) := by
  rw [tcpRpcsAccount,if_neg (not_le.mpr htop),dif_pos hs,tableOf,dif_pos hs,tableOf,dif_pos hs,
    Function.update_self]

theorem tableOf_account_other (preciseNow : ℚ) (hts : t ≠ s) (x : Account) (v : Volume) :
    tableOf (tcpRpcsAccount top preciseNow s x v) t = tableOf v t := by
  rw [tcpRpcsAccount]
  split_ifs with htop hs
  · rfl
  · rw [tableOf,tableOf]
    split_ifs with ht
    · rw [Function.update_of_ne]
      intro heq
      exact hts (Fin.ext (Fin.mk.inj heq))
    · rfl
  · rfl

theorem tableOf_account_beyond (preciseNow : ℚ) (hs : ¬s.val < volumeRows) (x : Account)
    (v : Volume) : tcpRpcsAccount top preciseNow s x v = v := by
  rw [tcpRpcsAccount,dif_neg hs,ite_self]

theorem Sound.clean (h : Sound w) : Clean top w := by
  constructor
  · intro s max r hr
    rw [tcpRpcsSnapshotTopIps] at hr
    split_ifs at hr with htop hs
    · cases hr
    · obtain ⟨e,he,hrep,rfl⟩ := mem_topEntries hr
      have hrow := h.rows s
      rw [tableOf,dif_pos hs] at hrow
      apply hrow e he
      rw [VolumeEntry.reportable,Bool.and_eq_true] at hrep
      simpa using hrep.1
    · cases hr
  · intro htop s hused preciseNow x
    exact tableOf_account htop preciseNow (h.tables s hused) x w.volume

theorem rowWithin_emptyRow (log : List Account) : RowWithin emptyRow log := by
  intro e he hused
  rw [List.eq_of_mem_replicate he] at hused
  cases hused

/-- A call keeps the rows within the calls, whatever else it changes. -/
theorem Sound.account (h : Sound w) (htop : 0 < top) (preciseNow : ℚ) (s : Fin extSecretMaxSlots)
    (x : Account) {T : SlotTable} (hstate : ∀ t, (T.slots t).state = (w.table.slots t).state) :
    Sound ({w with table := T}.account top preciseNow s x) := by
  constructor
  · intro t
    rw [State.account]
    by_cases hts : t = s
    · subst hts
      dsimp only
      rw [Function.update_self]
      by_cases ht : t.val < volumeRows
      · rw [tableOf_account htop preciseNow ht]
        exact (h.rows t).account x
      · rw [tableOf,dif_neg ht]
        exact rowWithin_emptyRow _
    · dsimp only
      rw [Function.update_of_ne hts,tableOf_account_other preciseNow hts]
      exact h.rows t
  · intro t hused
    exact h.tables t (fun hfree => hused ((hstate t).trans hfree))

theorem state_set {T : SlotTable} {y : Slot} (hy : y.state = (T.slots s).state)
    (t : Fin extSecretMaxSlots) : ((T.set s y).slots t).state = (T.slots t).state := by
  by_cases hts : t = s
  · subst hts
    rw [set_slots_same,hy]
  · rw [set_slots_other _ _ hts]

theorem state_countRejection (r : Rejection) (x : Slot) : (countRejection r x).state = x.state := by
  cases r <;> rfl

theorem state_countBytes (bytes direction : ℤ) (x : Slot) :
    (countBytes bytes direction x).state = x.state := by
  rw [countBytes]
  split_ifs <;> rfl

theorem release_used {T : SlotTable}
    (h : ((tcpRpcsDrainReleaseSlotIfEmpty s T).slots t).state ≠ .free) :
    (T.slots t).state ≠ .free := by
  rw [tcpRpcsDrainReleaseSlotIfEmpty] at h
  split_ifs at h
  · exact h
  · exact h
  · exact h
  · by_cases hts : t = s
    · subst hts
      dsimp only at h
      rw [set_slots_same] at h
      exact absurd rfl h
    · dsimp only at h
      rwa [set_slots_other _ _ hts] at h

/-- A slot in use after a reload was in use or has been given to a new secret. -/
theorem reload_used (preciseNow : ℚ) (confs : List SecretConf) (T : SlotTable)
    (h : ((tcpRpcsReloadExtSecrets preciseNow confs T).2.slots s).state ≠ .free) :
    Places confs T s ∨ (T.slots s).state ≠ .free := by
  rcases reload_slot_cases preciseNow confs T s with
    ⟨c,x,hc,-⟩ | ⟨-,⟨c,hc,-⟩ | ⟨-,-,hactive,-⟩ | ⟨-,-,hx⟩⟩
  · left
    rw [Places,hc]
    rfl
  · exact .inr (slotOfKey_some (namedBy_some hc).2).2.1
  · right
    rw [hactive]
    decide
  · right
    rwa [hx] at h

theorem places_used (preciseNow : ℚ) {confs : List SecretConf} {T : SlotTable}
    (h : Places confs T s) :
    ((tcpRpcsReloadExtSecrets preciseNow confs T).2.slots s).state ≠ .free := by
  rcases reload_slot_cases preciseNow confs T s with ⟨c,x,-,-,hx⟩ | ⟨hnone,-⟩
  · rw [hx]
    intro hfree
    cases hfree
  · rw [Places,hnone] at h
    cases h

theorem rowWithin_nil (h : ∀ e ∈ row, e.reportable = false) : RowWithin row [] := by
  intro e he hused
  have hnone := h e he
  simp only [VolumeEntry.reportable,hused,Bool.not_false,Bool.true_and,Bool.not_eq_false',
    Bool.and_eq_true,beq_iff_eq,VolumeEntry.bytesTotal] at hnone
  have hin : e.bytesIn = 0 := by omega
  have hout : e.bytesOut = 0 := by omega
  rw [hnone.2,hin,hout]
  exact within_zero _ _

theorem sound_step (htop : 0 < top) (h : Sound w) (e : Event) (hfresh : Fresh top w e) :
    Sound (step top w e) := by
  cases e with
  | connect tls workers now preciseNow s a =>
      rw [step]
      split
      · refine ⟨h.rows,fun t hused => h.tables t ?_⟩
        rwa [state_set (state_countRejection _ _)] at hused
      · apply h.account htop
        apply state_set
        exact (limits_connect _ _ _ _).2.2
  | disconnect preciseNow s a =>
      apply h.account htop
      apply state_set
      exact (limits_disconnect _ _).2.2
  | relay preciseNow s a bytes direction =>
      rw [step]
      split_ifs
      · exact h
      · apply h.account htop
        apply state_set
        exact state_countBytes _ _ _
  | reload preciseNow confs =>
      constructor
      · intro s
        rw [step]
        dsimp only
        split_ifs with hplaced
        · exact rowWithin_nil (hfresh htop s hplaced).2
        · exact h.rows s
      · intro s hused
        rcases reload_used preciseNow confs w.table hused with hplaced | hold
        · exact (hfresh htop s hplaced).1
        · exact h.tables s hold
  | release s => exact ⟨h.rows,fun t hused => h.tables t (release_used hused)⟩

/-- A slot without a table shows no call. -/
theorem accountRow_ne_emptyRow :
    accountRow 0 (.connect ⟨1,zeroIpv6⟩) emptyRow ≠ emptyRow := by decide +kernel

/-- The first state in which a new secret finds no table, or an old one's entries, is not
clean. -/
theorem fresh_of_clean (e : Event) (h : Clean top (step top w e)) : Fresh top w e := by
  cases e with
  | reload preciseNow confs =>
      intro htop s hplaced
      have hs : s.val < volumeRows := by
        by_contra hs
        have halike := h.alike htop s (places_used preciseNow hplaced) 0 (.connect ⟨1,zeroIpv6⟩)
        rw [tableOf_account_beyond 0 hs,tableOf,dif_neg hs] at halike
        exact accountRow_ne_emptyRow halike.symm
      refine ⟨hs,?_⟩
      intro e he
      by_contra hrep
      rw [Bool.not_eq_false] at hrep
      rw [tableOf,dif_pos hs] at he
      obtain ⟨r,hr⟩ := List.exists_mem_of_ne_nil _ (topEntries_ne_nil he hrep)
      have hsnap : r ∈ tcpRpcsSnapshotTopIps top w.volume s 1 := by
        rwa [tcpRpcsSnapshotTopIps,if_neg (not_le.mpr htop),dif_pos hs]
      have hwithin := h.reports s 1 r hsnap
      rw [step] at hwithin
      dsimp only at hwithin
      rw [if_pos hplaced] at hwithin
      obtain ⟨e',-,hrep',rfl⟩ := mem_topEntries hr
      exact not_within_nil hrep' hwithin
  | _ => trivial

theorem clean_of_off (htop : ¬0 < top) (w : State) : Clean top w := by
  constructor
  · intro s max r hr
    rw [tcpRpcsSnapshotTopIps,if_pos (not_lt.mp htop)] at hr
    cases hr
  · exact fun hon => absurd hon htop

theorem pinnedTable_used (cs : List SecretConf) (h : ((pinnedTable cs).slots s).state ≠ .free) :
    s.val < volumeRows := by
  have hfold : ∀ T : SlotTable, (∀ s, (T.slots s).state ≠ .free → s.val < volumeRows) →
      ∀ s, ((cs.foldl tcpRpcsSetExtSecret T).slots s).state ≠ .free → s.val < volumeRows := by
    clear h
    induction cs with
    | nil => exact fun T hT => hT
    | cons c cs ih =>
        intro T hT
        apply ih
        intro s hused
        rw [tcpRpcsSetExtSecret] at hused
        split_ifs at hused with hlt
        · by_cases hs : s = ⟨T.cnt,hlt.trans (by decide)⟩
          · rw [hs]
            exact hlt
          · dsimp only at hused
            rw [set_slots_other _ _ hs] at hused
            exact hT s hused
        · exact hT s hused
  exact hfold emptyTable (fun s hused => absurd rfl hused) s h

theorem sound_start (cs : List SecretConf) : Sound (start cs) := by
  constructor
  · intro s
    have hrow : tableOf (start cs).volume s = emptyRow := by
      rw [tableOf]
      split_ifs <;> rfl
    rw [hrow]
    exact rowWithin_emptyRow _
  · exact fun s => pinnedTable_used cs

/-- Exactly the runs that place new secrets in the first sixteen slots, and there only where
nothing is left to report, pass through clean states alone. -/
theorem clean_iff (top : ℤ) (cs : List SecretConf) (es : List Event) :
    Throughout (step top) (Clean top) (start cs) es ↔
      Meets (step top) (Fresh top) (start cs) es := by
  apply throughout_iff_meets (P := fun w => 0 < top → Sound w)
  · exact fun w e h hfresh htop => sound_step htop (h htop) e hfresh
  · intro w h
    by_cases htop : 0 < top
    · exact (h htop).clean
    · exact clean_of_off htop w
  · exact fun w e _ hclean => fresh_of_clean e hclean
  · exact fun _ => sound_start cs

/-- The secret of slot 0 is removed after a client has sent a hundred bytes, and another
secret takes the slot: the client is reported for that one. -/
theorem report_of_old_secret : ¬Clean 10 (run (step 10) (start [])
    [.reload 0 [someSecret],.connect false 1 0 0 0 ⟨1,zeroIpv6⟩,.relay 0 0 ⟨1,zeroIpv6⟩ 100 0,
      .disconnect 0 0 ⟨1,zeroIpv6⟩,.reload 0 [],.release 0,
      .reload 0 [{someSecret with key := Vector.replicate 16 2}]]) := by
  intro h
  have hbytes := (h.reports 0 1 ⟨1,zeroIpv6,0,100,0⟩ (by decide +kernel)).bytesIn
  revert hbytes
  decide +kernel

end Teleproxy.TopIps
