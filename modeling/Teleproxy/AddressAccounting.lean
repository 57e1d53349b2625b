import Teleproxy.Lib.StepSystem
import Teleproxy.Lib.Tally
import Teleproxy.ReloadUniqueness

/-!
# The address tables over runs

The address table of a slot is filled by connects and emptied by disconnects, but a connect
enters an address only while the secret has an address limit or a rate limit, and a reload
can change both under live connections. This module follows a slot table and the
connections that are live in it through arbitrary runs. While a limit is in force the
table is the exact tally of the live addresses, as long as limits are switched on only
over slots without connections, the table has room for each new address, and no client has
the address zero, which no scan of the table finds.
-/
namespace Teleproxy.AddressAccounting
open SecretSlots SecretReload ReloadUniqueness StepSystem FirstMatch Tally

/-- The slot table with the slot and address of every live connection. -/
structure State where
  table : SlotTable
  live : List (Fin extSecretMaxSlots × Addr)

/-- A TLS client was checked at its ClientHello, any other client is checked in the step
that attaches it. -/
inductive Event where
  | connect (tls : Bool) (workers now : ℤ) (preciseNow : ℚ) (s : Fin extSecretMaxSlots) (a : Addr)
  | disconnect (s : Fin extSecretMaxSlots) (a : Addr)
  | reload (preciseNow : ℚ) (confs : List SecretConf)
  | release (s : Fin extSecretMaxSlots)

def step (w : State) : Event → State
  | .connect tls workers now preciseNow s a =>
      let x := w.table.slots s
      match if tls then none else rejection workers now x a with
      | some r => {w with table := w.table.set s (countRejection r x)}
      | none => ⟨w.table.set s (attachSlot workers preciseNow a x),(s,a)::w.live⟩
  | .disconnect s a =>
      if (s,a) ∈ w.live then
        ⟨w.table.set s (detachSlot a (w.table.slots s)),w.live.erase (s,a)⟩
      else w
  | .reload preciseNow confs =>
      {w with table := (tcpRpcsReloadExtSecrets preciseNow confs w.table).2}
  | .release s => {w with table := tcpRpcsDrainReleaseSlotIfEmpty s w.table}

def start (cs : List SecretConf) : State := ⟨pinnedTable cs,[]⟩

/-- An IPv4 client is known by its `ip` alone. -/
def client (a : Addr) : Addr := if a.ip ≠ 0 then ⟨a.ip,zeroIpv6⟩ else a

def zeroAddr : Addr := ⟨0,zeroIpv6⟩

/-- An entry without connections is empty. -/
def entry (e : TrackedIp) : Option (Addr × ℤ) :=
  if 0 < e.connections then some (client ⟨e.ip,e.ipv6⟩,e.connections) else none

def entries (x : Slot) : List (Addr × ℤ) := x.ips.filterMap entry

/-- The addresses of the live connections of a slot, one for each connection. -/
def liveAt (s : Fin extSecretMaxSlots) (w : State) : List Addr :=
  (w.live.filter fun c => c.1 = s).map fun c => client c.2

/-- One entry for each different address, with the number of its connections. -/
structure Accounted (x : Slot) (live : List Addr) : Prop where
  entries : (entries x).Perm (live.dedup.map fun a => (a,(live.count a : ℤ)))
  unique : x.uniqueIpCount = live.dedup.length

def Accurate (w : State) : Prop :=
  ∀ s, (0 < (w.table.slots s).maxIps → Accounted (w.table.slots s) (liveAt s w)) ∧
    (liveAt s w = [] → (w.table.slots s).uniqueIpCount = 0)

/-- A connect enters the address into the table. -/
def Tracks (x : Slot) : Prop := 0 < x.maxIps ∨ 0 < x.rateLimit

/-- What keeps the tables accurate. -/
def Allowed (w : State) : Event → Prop
  | .connect _ _ _ _ s a => Tracks (w.table.slots s) → client a ≠ zeroAddr ∧
      ((w.table.slots s).ips.any (·.isFor a) ∨
        (w.table.slots s).ips.any (fun e => e.connections ≤ 0))
  | .reload preciseNow confs => ∀ s, liveAt s w ≠ [] →
      Tracks ((tcpRpcsReloadExtSecrets preciseNow confs w.table).2.slots s) →
        Tracks (w.table.slots s)
  | _ => True

variable {x y : Slot} {a : Addr} {e : TrackedIp} {live : List Addr}

theorem isFor_iff (ha : client a ≠ zeroAddr) :
    e.isFor a = true ↔ 0 < e.connections ∧ client ⟨e.ip,e.ipv6⟩ = client a := by
  obtain ⟨ip,ipv6⟩ := a
  rw [TrackedIp.isFor]
  by_cases hconn : e.connections ≤ 0
  · rw [if_pos hconn]
    simp [Int.not_lt.mpr hconn]
  · rw [if_neg hconn]
    have hpos : 0 < e.connections := by omega
    by_cases hip : ip = 0
    · have hipv6 : ipv6 ≠ zeroIpv6 := by
        intro hzero
        apply ha
        rw [client,if_neg (not_not.mpr hip),hip,hzero]
        rfl
      by_cases heip : e.ip = 0
      · have hne : e.ipv6 = ipv6 → e.ipv6 ≠ zeroIpv6 := by
          intro heq
          rwa [heq]
        simpa [client,hip,heip,hpos] using hne
      · simp [client,hip,heip]
    · by_cases heip : e.ip = 0
      · simp [client,hip,heip,Ne.symm hip]
      · simp [client,hip,heip,hpos]

theorem isFor_zero (ha : client a = zeroAddr) : e.isFor a = false := by
  obtain ⟨ip,ipv6⟩ := a
  have hip : ip = 0 := by
    by_contra hip
    rw [client,if_pos hip] at ha
    exact hip (congrArg Addr.ip ha)
  have hipv6 : ipv6 = zeroIpv6 := by
    rw [client,if_neg (not_not.mpr hip)] at ha
    exact congrArg Addr.ipv6 ha
  rw [TrackedIp.isFor,hip,hipv6,ite_not,if_pos rfl]
  by_cases hzero : e.ipv6 = zeroIpv6
  · simp [hzero]
  · simp [hzero]

theorem entry_of_isFor (ha : client a ≠ zeroAddr) (h : e.isFor a = true) :
    entry e = some (client a,e.connections) := by
  obtain ⟨hpos,hclient⟩ := (isFor_iff ha).mp h
  rw [entry,if_pos hpos,hclient]

/-- An address that no scan finds has no entry. -/
theorem notMem_entries (ha : client a ≠ zeroAddr) (h : ∀ e ∈ x.ips, e.isFor a = false) :
    client a ∉ (entries x).map Prod.fst := by
  intro hmem
  obtain ⟨⟨b,n⟩,hb,hba⟩ := List.mem_map.mp hmem
  obtain ⟨e,he,hentry⟩ := List.mem_filterMap.mp hb
  rw [entry] at hentry
  split_ifs at hentry with hpos
  cases hentry
  have hfor := (isFor_iff ha).mpr ⟨hpos,hba⟩
  rw [h e he] at hfor
  cases hfor

theorem filterMap_middle (pre post : List TrackedIp) (e : TrackedIp) :
    ((pre++e::post).filterMap entry).Perm
      ((entry e).toList++((pre++post).filterMap entry)) := by
  rw [List.filterMap_append,List.filterMap_append]
  cases h : entry e with
  | none => simp [h]
  | some p =>
      simp only [List.filterMap_cons,h,Option.toList_some,List.singleton_append]
      exact List.perm_middle

/-- A connect counts a known address once more, or enters a new one. -/
theorem entries_connect (workers : ℤ) (preciseNow : ℚ) (ht : Tracks x) (ha : client a ≠ zeroAddr)
    (hroom : x.ips.any (·.isFor a) ∨ x.ips.any (fun e => e.connections ≤ 0)) :
    (∃ n M, (entries x).Perm ((client a,n)::M) ∧
      (entries (ipTrackConnect workers preciseNow a x)).Perm ((client a,n+1)::M) ∧
      (ipTrackConnect workers preciseNow a x).uniqueIpCount = x.uniqueIpCount) ∨
    (client a ∉ (entries x).map Prod.fst ∧
      (entries (ipTrackConnect workers preciseNow a x)).Perm ((client a,1)::entries x) ∧
      (ipTrackConnect workers preciseNow a x).uniqueIpCount = x.uniqueIpCount+1) := by
  have hon : ¬(x.maxIps ≤ 0 ∧ x.rateLimit ≤ 0) := by
    rcases ht with h | h <;> omega
  rw [ipTrackConnect]
  dsimp only
  rw [if_neg hon]
  cases hknown : updateFirst (·.isFor a) (fun e => {e with connections := e.connections+1}) x.ips with
  | some ips =>
      obtain ⟨pre,e,post,hold,rfl,-,hfor⟩ := updateFirst_eq_some hknown
      left
      have hentry := entry_of_isFor ha hfor
      have hmore : entry {e with connections := e.connections+1} =
          some (client a,e.connections+1) := by
        obtain ⟨hpos,hclient⟩ := (isFor_iff ha).mp hfor
        rw [entry,if_pos (by dsimp only; omega),hclient]
      refine ⟨e.connections,(pre++post).filterMap entry,?_,?_,rfl⟩
      · have h := filterMap_middle pre post e
        rwa [hentry,← hold] at h
      · have h := filterMap_middle pre post {e with connections := e.connections+1}
        rwa [hmore] at h
  | none =>
      right
      have hnone := updateFirst_eq_none.mp hknown
      refine ⟨notMem_entries ha hnone,?_⟩
      cases hempty : updateFirst (fun e => e.connections ≤ 0)
          (TrackedIp.start workers preciseNow x.rateLimit a) x.ips with
      | some ips =>
          obtain ⟨pre,e,post,hold,rfl,-,hfree⟩ := updateFirst_eq_some hempty
          have hentry : entry e = none := by
            rw [entry,if_neg (by simpa using hfree)]
          have hstart : entry (TrackedIp.start workers preciseNow x.rateLimit a e) =
              some (client a,1) := by
            rw [TrackedIp.start]
            split_ifs <;> rfl
          refine ⟨?_,rfl⟩
          have h := filterMap_middle pre post e
          rw [hentry,← hold] at h
          have h' := filterMap_middle pre post (TrackedIp.start workers preciseNow x.rateLimit a e)
          rw [hstart] at h'
          exact h'.trans (h.symm.cons (client a,1))
      | none =>
          have hfull := updateFirst_eq_none.mp hempty
          simp only [List.any_eq_true] at hroom
          rcases hroom with ⟨e,he,h⟩ | ⟨e,he,h⟩
          · rw [hnone e he] at h
            cases h
          · rw [hfull e he] at h
            cases h

theorem entry_release (ha : client a ≠ zeroAddr) (h : e.isFor a = true) :
    entry e.release = if e.connections-1 ≤ 0 then none else some (client a,e.connections-1) := by
  obtain ⟨-,hclient⟩ := (isFor_iff ha).mp h
  rw [TrackedIp.release]
  split_ifs with hlast
  · rfl
  · rw [entry,if_pos (by dsimp only; omega),hclient]

/-- A disconnect takes one connection from the entry of its address, or finds none. -/
theorem entries_disconnect (x : Slot) (a : Addr) :
    (∃ n M, (entries x).Perm ((client a,n)::M) ∧
      (entries (ipTrackDisconnect a x)).Perm (dropHead (client a) n M) ∧
      (ipTrackDisconnect a x).uniqueIpCount =
        if n-1 ≤ 0 then x.uniqueIpCount-1 else x.uniqueIpCount) ∨
    (ipTrackDisconnect a x = x ∧
      (client a ∉ (entries x).map Prod.fst ∨ client a = zeroAddr)) := by
  cases hfound : updateFirst (·.isFor a) TrackedIp.release x.ips with
  | none =>
      right
      have hnone := updateFirst_eq_none.mp hfound
      constructor
      · rw [ipTrackDisconnect,hfound]
        cases x.ips.find? (·.isFor a) <;> rfl
      · by_cases ha : client a = zeroAddr
        · exact .inr ha
        · exact .inl (notMem_entries ha hnone)
  | some ips =>
      left
      obtain ⟨pre,e,post,hold,rfl,hfind,hfor⟩ := updateFirst_eq_some hfound
      have ha : client a ≠ zeroAddr := by
        intro hzero
        rw [isFor_zero hzero] at hfor
        cases hfor
      rw [ipTrackDisconnect,hfind,hfound]
      refine ⟨e.connections,(pre++post).filterMap entry,?_,?_,rfl⟩
      · have h := filterMap_middle pre post e
        rwa [entry_of_isFor ha hfor,← hold] at h
      · have h := filterMap_middle pre post e.release
        rw [entry_release ha hfor] at h
        rw [dropHead]
        split_ifs at h ⊢ with hlast
        · exact h
        · exact h

/-- What holds of a slot and the addresses of its live connections. -/
structure Kept (x : Slot) (live : List Addr) : Prop where
  under : Under (entries x) live
  exact : Tracks x → Exact (entries x) live
  nonzero : zeroAddr ∉ (entries x).map Prod.fst
  unique : x.uniqueIpCount = (entries x).length
  free : x.state = .free → ¬Tracks x

theorem Kept.perm {live' : List Addr} (h : Kept x live) (hp : live.Perm live') : Kept x live' :=
  ⟨h.under.perm (List.Perm.refl _) hp,fun ht => (h.exact ht).perm (List.Perm.refl _) hp,
    h.nonzero,h.unique,h.free⟩

theorem Kept.congr (h : Kept x live) (hips : y.ips = x.ips)
    (hcount : y.uniqueIpCount = x.uniqueIpCount) (ht : Tracks y → Tracks x ∨ live = [])
    (hfree : y.state = .free → ¬Tracks y) : Kept y live := by
  have hentries : entries y = entries x := by rw [entries,hips]; rfl
  refine ⟨hentries ▸ h.under,?_,hentries ▸ h.nonzero,by rw [hcount,h.unique,hentries],hfree⟩
  intro hy
  rw [hentries]
  rcases ht hy with hx | hlive
  · exact h.exact hx
  · subst hlive
    rw [h.under.eq_nil]
    exact exact_nil

theorem kept_empty (hips : entries x = []) (hcount : x.uniqueIpCount = 0)
    (ht : Tracks x → live = []) (hfree : x.state = .free → ¬Tracks x) : Kept x live := by
  refine ⟨?_,?_,?_,?_,hfree⟩
  · rw [hips]
    exact under_nil live
  · intro h
    rw [hips,ht h]
    exact exact_nil
  · rw [hips]
    exact List.not_mem_nil
  · rw [hips,hcount]
    rfl

theorem Kept.accounted (h : Kept x live) (hmax : 0 < x.maxIps) : Accounted x live := by
  have hexact := h.exact (.inl hmax)
  refine ⟨hexact.perm_dedup,?_⟩
  rw [h.unique,hexact.length]

theorem Kept.unique_zero (h : Kept x []) : x.uniqueIpCount = 0 := by
  rw [h.unique,h.under.eq_nil]
  rfl

theorem limits_connect (workers : ℤ) (preciseNow : ℚ) (a : Addr) (x : Slot) :
    (ipTrackConnect workers preciseNow a x).maxIps = x.maxIps ∧
      (ipTrackConnect workers preciseNow a x).rateLimit = x.rateLimit ∧
      (ipTrackConnect workers preciseNow a x).state = x.state := by
  rw [ipTrackConnect]
  dsimp only
  by_cases hoff : x.maxIps ≤ 0 ∧ x.rateLimit ≤ 0
  · rw [if_pos hoff]
    exact ⟨rfl,rfl,rfl⟩
  · rw [if_neg hoff]
    split
    · exact ⟨rfl,rfl,rfl⟩
    · split <;> exact ⟨rfl,rfl,rfl⟩

theorem limits_disconnect (a : Addr) (x : Slot) :
    (ipTrackDisconnect a x).maxIps = x.maxIps ∧
      (ipTrackDisconnect a x).rateLimit = x.rateLimit ∧
      (ipTrackDisconnect a x).state = x.state := by
  rw [ipTrackDisconnect]
  split <;> exact ⟨rfl,rfl,rfl⟩

theorem tracks_congr (hmax : y.maxIps = x.maxIps) (hrate : y.rateLimit = x.rateLimit) :
    Tracks y ↔ Tracks x := by
  rw [Tracks,Tracks,hmax,hrate]

theorem kept_connect (workers : ℤ) (preciseNow : ℚ) (h : Kept x live)
    (hok : Tracks x → client a ≠ zeroAddr ∧
      (x.ips.any (·.isFor a) ∨ x.ips.any (fun e => e.connections ≤ 0))) :
    Kept (ipTrackConnect workers preciseNow a x) (client a::live) := by
  obtain ⟨hmax,hrate,hstate⟩ := limits_connect workers preciseNow a x
  have htracks := tracks_congr hmax hrate
  have hfree : (ipTrackConnect workers preciseNow a x).state = .free →
      ¬Tracks (ipTrackConnect workers preciseNow a x) := by
    rw [hstate,htracks]
    exact h.free
  by_cases ht : Tracks x
  · obtain ⟨ha,hroom⟩ := hok ht
    rcases entries_connect workers preciseNow ht ha hroom with ⟨n,M,hx,hy,hu⟩ | ⟨hnew,hy,hu⟩
    · have hexact := ((h.exact ht).perm hx (List.Perm.refl _)).bump.perm hy.symm (List.Perm.refl _)
      refine ⟨hexact.toUnder,fun _ => hexact,?_,?_,hfree⟩
      · have hzero := h.nonzero
        rw [(hx.map Prod.fst).mem_iff] at hzero
        rw [(hy.map Prod.fst).mem_iff]
        exact hzero
      · rw [hu,h.unique,hx.length_eq,hy.length_eq]
        rfl
    · have hexact := ((h.exact ht).add hnew).perm hy.symm (List.Perm.refl _)
      refine ⟨hexact.toUnder,fun _ => hexact,?_,?_,hfree⟩
      · rw [(hy.map Prod.fst).mem_iff,List.map_cons,List.mem_cons,not_or]
        exact ⟨Ne.symm ha,h.nonzero⟩
      · rw [hu,h.unique,hy.length_eq,List.length_cons]
        push_cast
        rfl
  · have hoff : x.maxIps ≤ 0 ∧ x.rateLimit ≤ 0 := by
      rw [Tracks,not_or] at ht
      omega
    have hsame : (ipTrackConnect workers preciseNow a x).ips = x.ips ∧
        (ipTrackConnect workers preciseNow a x).uniqueIpCount = x.uniqueIpCount := by
      rw [ipTrackConnect]
      dsimp only
      rw [if_pos hoff]
      exact ⟨rfl,rfl⟩
    have hentries : entries (ipTrackConnect workers preciseNow a x) = entries x := by
      rw [entries,hsame.1]
      rfl
    refine ⟨?_,fun hy => absurd (htracks.mp hy) ht,hentries ▸ h.nonzero,?_,hfree⟩
    · rw [hentries]
      exact h.under.uncounted (client a)
    · rw [hsame.2,h.unique,hentries]

theorem kept_disconnect (h : Kept x (client a::live)) : Kept (ipTrackDisconnect a x) live := by
  obtain ⟨hmax,hrate,hstate⟩ := limits_disconnect a x
  have htracks := tracks_congr hmax hrate
  have hfree : (ipTrackDisconnect a x).state = .free → ¬Tracks (ipTrackDisconnect a x) := by
    rw [hstate,htracks]
    exact h.free
  rcases entries_disconnect x a with ⟨n,M,hx,hy,hu⟩ | ⟨hsame,hmiss⟩
  · have hunder := (h.under.perm hx (List.Perm.refl _)).drop.perm hy.symm (List.Perm.refl _)
    refine ⟨hunder,?_,?_,?_,hfree⟩
    · intro ht
      exact ((h.exact (htracks.mp ht)).perm hx (List.Perm.refl _)).drop.perm hy.symm
        (List.Perm.refl _)
    · have hzero := h.nonzero
      rw [(hx.map Prod.fst).mem_iff,List.map_cons,List.mem_cons,not_or] at hzero
      rw [(hy.map Prod.fst).mem_iff,dropHead]
      split_ifs
      · exact hzero.2
      · rw [List.map_cons,List.mem_cons,not_or]
        exact hzero
    · rw [hu,h.unique,hx.length_eq,hy.length_eq,dropHead]
      split_ifs
      · push_cast [List.length_cons]
        ring
      · rfl
  · have hnone : client a ∉ (entries x).map Prod.fst := by
      rcases hmiss with h' | h'
      · exact h'
      · rw [h']
        exact h.nonzero
    rw [hsame]
    refine ⟨h.under.miss hnone,?_,h.nonzero,h.unique,h.free⟩
    intro ht
    have hmem := (h.exact ht).all (client a) List.mem_cons_self
    exact absurd (List.mem_map_of_mem hmem) hnone

variable {w : State} {s t : Fin extSecretMaxSlots}

def AllKept (w : State) : Prop := ∀ s, Kept (w.table.slots s) (liveAt s w)

theorem Kept.congr_counters (h : Kept x live) (hips : y.ips = x.ips)
    (hcount : y.uniqueIpCount = x.uniqueIpCount) (hmax : y.maxIps = x.maxIps)
    (hrate : y.rateLimit = x.rateLimit) (hstate : y.state = x.state) : Kept y live := by
  have htracks := tracks_congr hmax hrate
  apply h.congr hips hcount
  · exact fun hy => .inl (htracks.mp hy)
  · rw [hstate,htracks]
    exact h.free

theorem kept_attachSlot (workers : ℤ) (preciseNow : ℚ) (h : Kept x live)
    (hok : Tracks x → client a ≠ zeroAddr ∧
      (x.ips.any (·.isFor a) ∨ x.ips.any (fun e => e.connections ≤ 0))) :
    Kept (attachSlot workers preciseNow a x) (client a::live) := by
  rw [attachSlot]
  apply kept_connect
  · exact h.congr_counters rfl rfl rfl rfl rfl
  · exact hok

theorem kept_detachSlot (h : Kept x (client a::live)) : Kept (detachSlot a x) live := by
  rw [detachSlot]
  apply kept_disconnect
  exact h.congr_counters rfl rfl rfl rfl rfl

theorem kept_countRejection (r : Rejection) (h : Kept x live) : Kept (countRejection r x) live := by
  cases r <;> exact h.congr_counters rfl rfl rfl rfl rfl

theorem entries_replicate (x : Slot) : entries (ipTrackClearSlot x) = [] := by
  rw [entries,List.filterMap_eq_nil_iff]
  intro e he
  rw [ipTrackClearSlot] at he
  rw [List.eq_of_mem_replicate he]
  rfl

theorem liveAt_cons_self (s : Fin extSecretMaxSlots) (a : Addr) (T : SlotTable)
    (l : List (Fin extSecretMaxSlots × Addr)) :
    liveAt s ⟨T,(s,a)::l⟩ = client a::liveAt s ⟨T,l⟩ := by
  simp [liveAt]

theorem liveAt_cons_of_ne (h : t ≠ s) (a : Addr) (T : SlotTable)
    (l : List (Fin extSecretMaxSlots × Addr)) :
    liveAt t ⟨T,(s,a)::l⟩ = liveAt t ⟨T,l⟩ := by
  simp [liveAt,Ne.symm h]

theorem liveAt_perm {l l' : List (Fin extSecretMaxSlots × Addr)} (h : l.Perm l') (T : SlotTable)
    (s : Fin extSecretMaxSlots) : (liveAt s ⟨T,l⟩).Perm (liveAt s ⟨T,l'⟩) :=
  (h.filter _).map _

theorem kept_reload (preciseNow : ℚ) (confs : List SecretConf) (T : SlotTable)
    (h : Kept (T.slots s) live)
    (hok : live ≠ [] → Tracks ((tcpRpcsReloadExtSecrets preciseNow confs T).2.slots s) →
      Tracks (T.slots s)) :
    Kept ((tcpRpcsReloadExtSecrets preciseNow confs T).2.slots s) live := by
  have hon : Tracks ((tcpRpcsReloadExtSecrets preciseNow confs T).2.slots s) →
      Tracks (T.slots s) ∨ live = [] := by
    intro ht
    by_cases hlive : live = []
    · exact .inr hlive
    · exact .inl (hok hlive ht)
  rcases reload_slot_cases preciseNow confs T s with ⟨c,x,-,hf,hx⟩ | ⟨-,⟨c,-,hx⟩ | ⟨-,-,-,hx⟩ | ⟨-,-,hx⟩⟩
  · rw [hx] at hon ⊢
    apply kept_empty
    · exact entries_replicate _
    · rfl
    · exact fun ht => (hon ht).resolve_left (h.free hf)
    · intro hfree
      cases hfree
  · rw [hx] at hon ⊢
    apply h.congr
    · rfl
    · rfl
    · exact hon
    · intro hfree
      cases hfree
  · rw [hx] at hon ⊢
    apply h.congr
    · rfl
    · rfl
    · exact hon
    · intro hfree
      cases hfree
  · rw [hx]
    exact h

theorem kept_release (T : SlotTable) (t : Fin extSecretMaxSlots) (h : Kept (T.slots s) live) :
    Kept ((tcpRpcsDrainReleaseSlotIfEmpty t T).slots s) live := by
  rw [tcpRpcsDrainReleaseSlotIfEmpty]
  split_ifs
  · exact h
  · exact h
  · exact h
  · by_cases hst : s = t
    · subst hst
      dsimp only
      rw [set_slots_same]
      have hoff : ¬Tracks (zeroCounters {T.slots s with
          state := .free, drainStartedAt := 0, key := zeroKey, label := [], limit := 0,
          quota := 0, rateLimit := 0, maxIps := 0, expires := 0}) := by
        rintro (h | h) <;> exact lt_irrefl 0 h
      apply kept_empty
      · exact entries_replicate _
      · rfl
      · exact fun ht => absurd ht hoff
      · exact fun _ => hoff
    · dsimp only
      rw [set_slots_other _ _ hst]
      exact h

theorem allKept_start (cs : List SecretConf) : AllKept (start cs) := by
  have hfold : ∀ T : SlotTable, (∀ s, Kept (T.slots s) []) →
      ∀ s, Kept ((cs.foldl tcpRpcsSetExtSecret T).slots s) [] := by
    induction cs with
    | nil => exact fun T hT => hT
    | cons c cs ih =>
        intro T hT
        apply ih
        intro s
        rw [tcpRpcsSetExtSecret]
        split_ifs with hlt
        · by_cases hs : s = ⟨T.cnt,hlt.trans (by decide)⟩
          · dsimp only
            rw [← hs,set_slots_same]
            apply kept_empty
            · exact entries_replicate _
            · rfl
            · exact fun _ => rfl
            · intro hfree
              cases hfree
          · dsimp only
            rw [set_slots_other _ _ hs]
            exact hT s
        · exact hT s
  intro s
  apply hfold
  intro s
  have hoff : ¬Tracks ({} : Slot) := by
    rintro (h | h) <;> exact lt_irrefl 0 h
  apply kept_empty
  · exact entries_replicate {}
  · rfl
  · exact fun _ => rfl
  · exact fun _ => hoff

theorem allKept_step (w : State) (e : Event) (h : AllKept w) (hok : Allowed w e) :
    AllKept (step w e) := by
  intro t
  cases e with
  | connect tls workers now preciseNow s a =>
      rw [step]
      split
      · by_cases hts : t = s
        · subst hts
          rw [set_slots_same]
          exact kept_countRejection _ (h t)
        · rw [set_slots_other _ _ hts]
          exact h t
      · by_cases hts : t = s
        · subst hts
          rw [set_slots_same,liveAt_cons_self]
          exact kept_attachSlot workers preciseNow (h t) hok
        · rw [set_slots_other _ _ hts,liveAt_cons_of_ne hts]
          exact h t
  | disconnect s a =>
      rw [step]
      split_ifs with hmem
      · have hp := liveAt_perm (List.perm_cons_erase hmem) w.table t
        by_cases hts : t = s
        · subst hts
          rw [liveAt_cons_self] at hp
          dsimp only
          rw [set_slots_same]
          exact kept_detachSlot ((h t).perm hp)
        · rw [liveAt_cons_of_ne hts] at hp
          dsimp only
          rw [set_slots_other _ _ hts]
          exact (h t).perm hp
      · exact h t
  | reload preciseNow confs => exact kept_reload preciseNow confs w.table (h t) (hok t)
  | release s => exact kept_release w.table s (h t)

/-- In every run that meets the condition, the table of each slot with an address limit has
one entry for each address with live connections, with their number, and counts them; and
a slot without connections counts none. -/
theorem accounting_accurate (cs : List SecretConf) (es : List Event)
    (hm : Meets step Allowed (start cs) es) : Accurate (run step (start cs) es) := by
  have hkept : AllKept (run step (start cs) es) :=
    run_invariant allKept_step (allKept_start cs) hm
  intro s
  constructor
  · exact fun hmax => (hkept s).accounted hmax
  · intro hlive
    have h := hkept s
    rw [hlive] at h
    exact h.unique_zero

def someSecret : SecretConf := {key := Vector.replicate 16 1}

/-- Two clients of a secret that allows two addresses; one of them has two connections and
closes one. -/
def twoClients : List Event :=
  [.reload 0 [{someSecret with maxIps := 2}],.connect false 1 0 0 0 ⟨1,zeroIpv6⟩,
    .connect true 1 0 0 0 ⟨0,Vector.replicate 16 7⟩,.connect false 1 0 0 0 ⟨1,zeroIpv6⟩,
    .disconnect 0 ⟨1,zeroIpv6⟩]

theorem accounting_accurate_two :
    Meets step Allowed (start []) twoClients ∧ Accurate (run step (start []) twoClients) ∧
      0 < ((run step (start []) twoClients).table.slots 0).maxIps ∧
      ((run step (start []) twoClients).table.slots 0).uniqueIpCount = 2 := by
  have hm : Meets step Allowed (start []) twoClients := by
    refine ⟨fun s hlive => absurd rfl hlive,fun _ => ⟨by decide,.inr (by decide +kernel)⟩,
      fun _ => ⟨by decide,.inr (by decide +kernel)⟩,
      fun _ => ⟨by decide,.inl (by decide +kernel)⟩,trivial,trivial⟩
  exact ⟨hm,accounting_accurate [] twoClients hm,by decide +kernel,by decide +kernel⟩

theorem length_ips_connect (workers : ℤ) (preciseNow : ℚ) (a : Addr) (x : Slot) :
    (ipTrackConnect workers preciseNow a x).ips.length = x.ips.length := by
  rw [ipTrackConnect]
  dsimp only
  by_cases hoff : x.maxIps ≤ 0 ∧ x.rateLimit ≤ 0
  · rw [if_pos hoff]
  · rw [if_neg hoff]
    split
    · next h => exact updateFirst_length h
    · split
      · next h => exact updateFirst_length h
      · rfl

/-- The clients of a run connect to slot 0, each from an address of its own. -/
def connects (addrs : List Addr) : List Event := addrs.map fun a => .connect true 1 0 0 0 a

theorem run_connects (w : State) (addrs : List Addr) :
    (run step w (connects addrs)).live = (addrs.map fun a => (0,a)).reverse++w.live ∧
      ((run step w (connects addrs)).table.slots 0).maxIps = (w.table.slots 0).maxIps ∧
      ((run step w (connects addrs)).table.slots 0).ips.length =
        (w.table.slots 0).ips.length := by
  induction addrs generalizing w with
  | nil => exact ⟨rfl,rfl,rfl⟩
  | cons a addrs ih =>
      have h := ih (step w (.connect true 1 0 0 0 a))
      have hslot : (step w (.connect true 1 0 0 0 a)).table.slots 0 =
          attachSlot 1 0 a (w.table.slots 0) := set_slots_same ..
      rw [hslot] at h
      refine ⟨?_,?_,?_⟩
      · refine h.1.trans ?_
        rw [List.map_cons,List.reverse_cons,List.append_assoc]
        rfl
      · exact h.2.1.trans (limits_connect _ _ _ _).1
      · exact h.2.2.trans (length_ips_connect _ _ _ _)

def manyAddrs : List Addr := (List.range 257).map fun i => ⟨UInt32.ofNat (i+1),zeroIpv6⟩

theorem nodup_manyAddrs : manyAddrs.Nodup := by
  apply List.Nodup.map_on
  · intro i hi j hj heq
    have hip := congrArg (fun a : Addr => a.ip.toNat) heq
    rw [List.mem_range] at hi hj
    simp only [UInt32.toNat_ofNat'] at hip
    omega
  · exact List.nodup_range

theorem client_manyAddrs (h : a ∈ manyAddrs) : client a = a := by
  obtain ⟨i,hi,rfl⟩ := List.mem_map.mp h
  rw [List.mem_range] at hi
  have hip : UInt32.ofNat (i+1) ≠ 0 := by
    intro heq
    have hnat := congrArg UInt32.toNat heq
    rw [UInt32.toNat_ofNat',UInt32.toNat_zero] at hnat
    omega
  rw [client,if_pos hip]

theorem liveAt_connects {w : State} {addrs : List Addr} (hself : ∀ a ∈ addrs, client a = a)
    (h : w.live = (addrs.map fun a => (0,a)).reverse) : liveAt 0 w = addrs.reverse := by
  have hall : (addrs.map fun a => ((0 : Fin extSecretMaxSlots),a)).filter (fun c => c.1 = 0) =
      addrs.map fun a => (0,a) := by
    apply List.filter_eq_self.mpr
    intro c hc
    obtain ⟨a,-,rfl⟩ := List.mem_map.mp hc
    rfl
  have hmap : addrs.map client = addrs := by
    rw [List.map_congr_left hself,List.map_id']
  rw [liveAt,h,List.filter_reverse,hall,List.map_reverse,List.map_map]
  exact congrArg List.reverse hmap

/-- The three things that the condition excludes. A client that connects while the secret
has no limit is not in the table after a reload has set one. A client with the address
zero stays in it. And with one client more than it has entries, the table is full. -/
theorem accounting_exceptions :
    ¬Accurate (run step (start [])
      [.reload 0 [someSecret],.connect false 1 0 0 0 ⟨1,zeroIpv6⟩,
        .reload 0 [{someSecret with maxIps := 2}]]) ∧
    ¬Accurate (run step (start [])
      [.reload 0 [{someSecret with maxIps := 2}],.connect false 1 0 0 0 zeroAddr,
        .disconnect 0 zeroAddr]) ∧
    ¬Accurate (run step (step (start []) (.reload 0 [{someSecret with maxIps := 300}]))
      (connects manyAddrs)) := by
  refine ⟨?_,?_,?_⟩
  · intro h
    have hacc := ((h 0).1 (by decide +kernel)).unique
    revert hacc
    decide +kernel
  · intro h
    have hacc := (h 0).2 (by decide +kernel)
    revert hacc
    decide +kernel
  · intro h
    obtain ⟨hlive,hmax,hlen⟩ := run_connects
      (step (start []) (.reload 0 [{someSecret with maxIps := 300}])) manyAddrs
    have hlimit : ((step (start []) (.reload 0 [{someSecret with maxIps := 300}])).table.slots 0).maxIps
        = 300 := by decide +kernel
    have hsize : ((step (start []) (.reload 0 [{someSecret with maxIps := 300}])).table.slots 0).ips.length
        = 256 := by decide +kernel
    have hacc := ((h 0).1 (by rw [hmax,hlimit]; decide)).entries.length_eq
    rw [liveAt_connects (fun _ => client_manyAddrs) (hlive.trans (List.append_nil _)),
      (List.nodup_reverse.mpr nodup_manyAddrs).dedup,List.length_map,List.length_reverse] at hacc
    have hfit := List.length_filterMap_le entry
      ((run step (step (start []) (.reload 0 [{someSecret with maxIps := 300}]))
        (connects manyAddrs)).table.slots 0).ips
    have hmany : manyAddrs.length = 257 := by rw [manyAddrs,List.length_map,List.length_range]
    rw [entries] at hacc
    omega

end Teleproxy.AddressAccounting
