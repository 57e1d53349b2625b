import Teleproxy.ExtStructures
import Mathlib.Data.Finset.Card

/-!
# The structures behind external connections agree

`Describes` says that the hash table, the table of identifiers, the lists of
clients and backends and the list for flood control are about the same records.
For each operation of the table there is one lemma that says that it returns,
what it does to the records and that the descriptions remain true.
-/
namespace Teleproxy.ExtConnections
open DoublyLinked Linked

variable {t : Tables} {a b h : ℕ} {e : Ext} {info : ℕ → Option Ext}

/-- The list a record is in by its client; the client with descriptor 0 has none. -/
def OfClient (info : ℕ → Option Ext) (a : ℕ) (p : Ptr) : Prop :=
  ∃ e, info a = some e ∧ p = .head e.inFd ∧ e.inFd ≠ 0

/-- The records in the lists of the backends are those that name a backend. -/
structure OfBackend (info : ℕ → Option Ext) (member : ℕ → Ptr → Prop) : Prop where
  named : ∀ a p, member a p → ∃ e, info a = some e ∧ p = .head e.outFd
  linked : ∀ a e, info a = some e → e.outFd ≠ 0 → member a (.head e.outFd)

/-- At most one record for each client, all with the connection number 0. -/
structure Keyed (info : ℕ → Option Ext) : Prop where
  connId : ∀ a e, info a = some e → e.inConnId = 0
  unique : ∀ a e b f, info a = some e → info b = some f → e.inFd = f.inFd → a = b
  range : ∀ a e, info a = some e → e.inFd < maxConnections ∧ e.outFd < maxConnections

/-- The hash table, the table of identifiers and the lists describe the same records. -/
structure Describes (t : Tables) : Prop where
  live : ∃ live : Finset ℕ, (∀ a, a ∈ live ↔ t.info a ≠ none) ∧ t.extConnections = live.card
  chained : ∃ bucket, Chained t.info t.hNext t.hash bucket
  placed : Placed t.info t.outRef t.outId
  clients : Listed t.i (OfClient t.info)
  backends : ∃ member, Listed t.o member ∧ OfBackend t.info member
  recent : ∃ member, Listed t.lru member ∧ t.lru.next .lru ≠ none ∧
    ∀ a p, member a p → p = .lru ∧ t.info a ≠ none
  keyed : Keyed t.info

theorem listed_null : Listed nullLinks fun _ _ => False := by
  refine ⟨∅,fun _ => [],⟨?_,?_,?_,?_,?_⟩,?_,?_⟩
  · simp
  · simp
  · simp
  · simp
  · exact fun c _ _ => ⟨rfl,rfl⟩
  · simp
  · simp

theorem initial_describes : Describes Tables.initial := by
  constructor
  · exact ⟨∅,by simp [Tables.initial],rfl⟩
  · refine ⟨fun _ => [],?_,?_,?_⟩
    · exact fun b => rfl
    · simp
    · simp [Tables.initial]
  · constructor
    · simp [Tables.initial]
    · simp [Tables.initial]
    · simp [Tables.initial]
  · apply listed_null.congr
    simp [OfClient,Tables.initial]
  · exact ⟨_,listed_null,by simp,by simp [Tables.initial]⟩
  · refine ⟨_,listed_null.openHead (by simp) rfl,?_,by simp⟩
    simp [Tables.initial,Links.openHead,Links.set]
  · constructor
    · simp [Tables.initial]
    · simp [Tables.initial]
    · simp [Tables.initial]

theorem bucket_length_le {bucket : ℕ → List ℕ} (hd : Describes t)
    (hc : Chained t.info t.hNext t.hash bucket) (b : ℕ) :
    (bucket b).length ≤ t.extConnections+1 := by
  obtain ⟨live,hlive,hcard⟩ := hd.live
  have hsub : (bucket b).toFinset ⊆ live := by
    intro a ha
    obtain ⟨e,he,-⟩ := (hc.mem b a).mp (List.mem_toFinset.mp ha)
    rw [hlive,he]
    exact Option.some_ne_none e
  have hle := Finset.card_le_card hsub
  rw [List.toFinset_card_of_nodup (hc.nodup b)] at hle
  omega

/-- The chain of a record that is live leads to it. -/
theorem walk_found {bucket : ℕ → List ℕ} (hd : Describes t)
    (hc : Chained t.info t.hNext t.hash bucket) (ha : t.info a = some e) :
    ∃ xs ys, bucket (extConnHash e.inFd e.inConnId) = xs++a::ys ∧
      t.walk e.inFd e.inConnId (t.extConnections+1) (.bucket (extConnHash e.inFd e.inConnId))
        (t.hash (extConnHash e.inFd e.inConnId)) =
        .ok (some (lastLink (.bucket (extConnHash e.inFd e.inConnId)) xs,a)) := by
  rcases walk_spec (hc.follows _) (bucket_length_le hd hc _) hd.placed.pos with
    ⟨-,hno⟩ | ⟨xs,c,ys,f,hb,hf,hfd,hid,hw⟩
  · have hmem := (hc.mem (extConnHash e.inFd e.inConnId) a).mpr ⟨e,ha,rfl⟩
    exact (hno a hmem e ha ⟨rfl,rfl⟩).elim
  · have hca : c = a := hd.keyed.unique c f a e hf ha hfd
    rw [hca] at hb hw
    exact ⟨xs,ys,hb,hw⟩

theorem walk_absent {inFd inConnId : ℕ} (hd : Describes t)
    (hno : ∀ a e, t.info a = some e → ¬ (e.inFd = inFd ∧ e.inConnId = inConnId)) :
    t.walk inFd inConnId (t.extConnections+1) (.bucket (extConnHash inFd inConnId))
      (t.hash (extConnHash inFd inConnId)) = .ok none := by
  obtain ⟨bucket,hc⟩ := hd.chained
  rcases walk_spec (hc.follows _) (bucket_length_le hd hc _) hd.placed.pos with
    ⟨hw,-⟩ | ⟨xs,c,ys,f,-,hf,hfd,hid,-⟩
  · exact hw
  · exact (hno c f hf ⟨hfd,hid⟩).elim

/-- What the removal of a record leaves behind. -/
structure Released (t : Tables) (a : ℕ) (t' : Tables) : Prop where
  describes : Describes t'
  info : t'.info = Function.update t.info a none
  outId : t'.outId = t.outId
  created : t'.extConnectionsCreated = t.extConnectionsCreated
  count : t'.extConnections+1 = t.extConnections
  backends : t.o.unlink (.entry a) = some t'.o
  heads : ∀ fd, t'.o.next (.head fd) = none ↔ t.o.next (.head fd) = none

theorem Keyed.erase (hk : Keyed info) (a : ℕ) : Keyed (Function.update info a none) := by
  constructor
  · exact fun c f hf => hk.connId c f (update_none_eq_some.mp hf).2
  · intro c f d g hf hg
    exact hk.unique c f d g (update_none_eq_some.mp hf).2 (update_none_eq_some.mp hg).2
  · exact fun c f hf => hk.range c f (update_none_eq_some.mp hf).2

theorem OfBackend.erase {member : ℕ → Ptr → Prop} (hm : OfBackend info member) (a : ℕ) :
    OfBackend (Function.update info a none) fun c q => member c q ∧ c ≠ a := by
  constructor
  · rintro c q ⟨hcq,hca⟩
    obtain ⟨f,hf,hq⟩ := hm.named c q hcq
    exact ⟨f,update_none_eq_some.mpr ⟨hca,hf⟩,hq⟩
  · intro c f hf hz
    obtain ⟨hca,hf⟩ := update_none_eq_some.mp hf
    exact ⟨hm.linked c f hf hz,hca⟩

theorem live_erase {live : Finset ℕ} {n : ℕ} (hl : ∀ a, a ∈ live ↔ info a ≠ none)
    (hn : n = live.card) (ha : info a ≠ none) :
    (∀ c, c ∈ live.erase a ↔ Function.update info a none c ≠ none) ∧
      n-1 = (live.erase a).card := by
  constructor
  · intro c
    rw [Finset.mem_erase,hl c]
    by_cases hca : c = a
    · simp [hca]
    · simp [hca]
  · rw [Finset.card_erase_of_mem ((hl a).mpr ha),hn]

/-- Nothing but the chains changes when a link of a chain is set. -/
theorem setLink_eq (t : Tables) (l : Link) (p : Option ℕ) :
    ∃ hash hNext, t.setLink l p = {t with hash := hash, hNext := hNext} := by
  cases l with
  | bucket h => exact ⟨_,_,rfl⟩
  | cell a => exact ⟨_,_,rfl⟩

theorem release_spec {bucket : ℕ → List ℕ} {xs ys : List ℕ} (hd : Describes t)
    (hc : Chained t.info t.hNext t.hash bucket) (ha : t.info a = some e)
    (hb : bucket b = xs++a::ys) :
    ∃ t', t.release (lastLink (.bucket b) xs) a = .ok t' ∧ Released t a t' := by
  obtain ⟨live,hlive,hcard⟩ := hd.live
  obtain ⟨i,hi,hclients,-⟩ := hd.clients.unlink a
  obtain ⟨member,hlo,hbackends⟩ := hd.backends
  obtain ⟨o,ho,hlo',hheads⟩ := hlo.unlink a
  obtain ⟨memberR,hlr,hlru,hrecent⟩ := hd.recent
  obtain ⟨lru,hr,hlr',hheadR⟩ := hlr.unlink a
  have hlrudel : Tables.lruDeleteExtConn t.lru a = some lru := by
    rw [Tables.lruDeleteExtConn,hr,Option.map_some,set_null (hlr'.null (by simp))]
  let u : Tables := {t with i := i, o := o, lru := lru}
  obtain ⟨hash,hNext,hset⟩ := setLink_eq u (lastLink (.bucket b) xs) (t.hNext a)
  have hchained : Chained (Function.update t.info a none) (Function.update hNext a none) hash
      (Function.update bucket b (xs++ys)) := by
    have hce := Chained.erase (t := u) hc hb
    change Chained _ (Function.update (u.setLink _ (t.hNext a)).hNext a none)
      (u.setLink _ (t.hNext a)).hash _ at hce
    rwa [hset] at hce
  obtain ⟨hlive',hcard'⟩ := live_erase hlive hcard (a := a) (by simp [ha])
  obtain ⟨href,hid⟩ := hd.placed.ref a e ha
  refine ⟨{u with
    hash := hash
    hNext := Function.update hNext a none
    outRef := Function.update t.outRef (e.outConnId%extConnTableSize) none
    info := Function.update t.info a none
    extConnections := t.extConnections-1},?_,?_⟩
  · simp only [Tables.release,ha,deref_some,ok_bind,hi,ho,hlrudel]
    change (do
      check ((u.setLink _ (t.hNext a)).outRef _ = some a)
      check ((u.setLink _ (t.hNext a)).outId _ = e.outConnId)
      Except.ok _) = _
    rw [hset,check_of href,check_of hid]
    rfl
  refine ⟨⟨⟨live.erase a,hlive',hcard'⟩,⟨_,hchained⟩,hd.placed.erase ha,?_,
    ⟨_,hlo',hbackends.erase a⟩,⟨_,hlr',?_,?_⟩,hd.keyed.erase a⟩,rfl,rfl,rfl,?_,ho,?_⟩
  · apply hclients.congr
    intro c q
    simp only [OfClient,update_none_eq_some]
    tauto
  · rw [ne_eq,hheadR .lru (by simp)]
    exact hlru
  · rintro c q ⟨hcq,hca⟩
    refine ⟨(hrecent c q hcq).1,?_⟩
    change Function.update t.info a none c ≠ none
    rw [Function.update_of_ne hca]
    exact (hrecent c q hcq).2
  · have hpos : 0 < live.card := Finset.card_pos.mpr ⟨a,(hlive a).mpr (by simp [ha])⟩
    change t.extConnections-1+1 = t.extConnections
    omega
  · exact fun fd => hheads (.head fd) (by simp)

/-- What a new record changes. -/
structure Registered (t : Tables) (a : ℕ) (e : Ext) (t' : Tables) : Prop where
  describes : Describes t'
  info : t'.info = Function.update t.info a (some e)
  outId : t'.outId = Function.update t.outId (e.outConnId%extConnTableSize) e.outConnId
  /-- The identifier follows the last one of its place. -/
  follows : e.outConnId = Tables.nextConnId (t.outId (e.outConnId%extConnTableSize))
    (e.outConnId%extConnTableSize)
  created : t'.extConnectionsCreated = t.extConnectionsCreated+1
  heads : ∀ fd, t'.o.next (.head fd) = none ↔ t.o.next (.head fd) = none

theorem probe_ok {ds : List ℕ} {n : ℕ} (hp : t.probe ds n = .ok h) :
    h < extConnTableSize ∧ t.outRef h = none := by
  have hlt : ∀ m, m%extConnTableSize < extConnTableSize := fun m => Nat.mod_lt m (by decide)
  induction ds generalizing n with
  | nil =>
      simp only [Tables.probe] at hp
      split_ifs at hp with hf
      rw [← Except.ok.inj hp]
      exact ⟨hlt n,hf⟩
  | cons d ds ih =>
      simp only [Tables.probe] at hp
      split_ifs at hp with hf
      · rw [← Except.ok.inj hp]
        exact ⟨hlt n,hf⟩
      · exact ih hp

theorem probe_congr {t' : Tables} (href : t'.outRef = t.outRef) (ds : List ℕ) (n : ℕ) :
    t'.probe ds n = t.probe ds n := by
  induction ds generalizing n with
  | nil => simp only [Tables.probe,href]
  | cons d ds ih => simp only [Tables.probe,href,ih]

/-- The probing ends at the latest with the draw of a free place. -/
theorem probe_ends {d : ℕ} (hf : t.outRef (d%extConnTableSize) = none) (ds : List ℕ) (n : ℕ) :
    ∃ h, t.probe (ds++[d]) n = .ok h := by
  induction ds generalizing n with
  | nil =>
      by_cases hn : t.outRef (n%extConnTableSize) = none
      · exact ⟨n%extConnTableSize,by simp only [List.nil_append,Tables.probe,if_pos hn]⟩
      · exact ⟨d%extConnTableSize,by simp only [List.nil_append,Tables.probe,if_neg hn,if_pos hf]⟩
  | cons c ds ih =>
      by_cases hn : t.outRef (n%extConnTableSize) = none
      · exact ⟨n%extConnTableSize,by simp only [List.cons_append,Tables.probe,if_pos hn]⟩
      · obtain ⟨h,hh⟩ := ih c
        exact ⟨h,by simpa only [List.cons_append,Tables.probe,if_neg hn] using hh⟩

/-- There is a free place as long as not every place has a record. -/
theorem exists_free_place (hd : Describes t) (hn : t.extConnections < extConnTableSize) :
    ∃ h < extConnTableSize, t.outRef h = none := by
  obtain ⟨live,hlive,hcard⟩ := hd.live
  by_contra hno
  push Not at hno
  have hsub : Finset.range extConnTableSize ⊆
      live.image fun a => ((t.info a).map fun e => e.outConnId%extConnTableSize).getD 0 := by
    intro h hh
    obtain ⟨a,ha⟩ := Option.ne_none_iff_exists'.mp (hno h (Finset.mem_range.mp hh))
    obtain ⟨e,he,heh⟩ := hd.placed.live h a ha
    refine Finset.mem_image.mpr ⟨a,?_,?_⟩
    · rw [hlive,he]
      exact Option.some_ne_none e
    · simp [he,heh]
  have hle := (Finset.card_le_card hsub).trans Finset.card_image_le
  rw [Finset.card_range] at hle
  omega

theorem calloc_eq (hd : Describes t) (ha : t.info a = none) (e : Ext) :
    t.calloc a e = {t with
      info := Function.update t.info a (some e)
      hNext := Function.update t.hNext a none} := by
  obtain ⟨member,hlo,hbackends⟩ := hd.backends
  obtain ⟨memberR,hlr,-,hrecent⟩ := hd.recent
  have hi := hd.clients.null (a := a) (by
    rintro p ⟨f,hf,-⟩
    rw [ha] at hf
    exact Option.some_ne_none f hf.symm)
  have ho := hlo.null (a := a) (by
    intro p hm
    obtain ⟨f,hf,-⟩ := hbackends.named a p hm
    rw [ha] at hf
    exact Option.some_ne_none f hf.symm)
  have hr := hlr.null (a := a) fun p hm => (hrecent a p hm).2 ha
  rw [Tables.calloc,set_null hi,set_null ho,set_null hr]

theorem linkClient_spec {member : ℕ → Ptr → Prop} {fd : ℕ} (hl : Listed t.i member)
    (hz : fd ≠ 0) (hfree : ∀ c, ¬ member c (.head fd)) (ha : ∀ q, ¬ member a q) :
    ∃ i, t.linkClient fd a = .ok {t with i := i} ∧
      Listed i fun c q => member c q ∨ (c = a ∧ q = .head fd) := by
  -- The head is opened when it was never used.
  obtain ⟨k,hk,hlk,hnext⟩ : ∃ k,
      (if t.i.next (.head fd) = none then t.i.openHead (.head fd) else t.i) = k ∧
      Listed k member ∧ k.next (.head fd) = some (.head fd) := by
    by_cases hnone : t.i.next (.head fd) = none
    · refine ⟨_,if_pos hnone,hl.openHead (by simp) hnone,?_⟩
      simp [Links.openHead,Links.set]
    · refine ⟨_,if_neg hnone,hl,?_⟩
      obtain ⟨q,hq⟩ := Option.ne_none_iff_exists'.mp hnone
      rcases hl.next_head (by simp) hq with ⟨rfl,-⟩ | ⟨c,-,hm⟩
      · exact hq
      · exact (hfree c hm).elim
  obtain ⟨i,hi,hli,-⟩ := hlk.pushBack (p := .head fd) (by simp) (by simp [hnext]) ha
  refine ⟨i,?_,hli⟩
  simp only [Tables.linkClient,if_neg hz,hk,check_of hnext,ok_bind,hi,deref_some]

theorem live_insert {live : Finset ℕ} {n : ℕ} (hl : ∀ a, a ∈ live ↔ info a ≠ none)
    (hn : n = live.card) (ha : info a = none) :
    (∀ c, c ∈ insert a live ↔ Function.update info a (some e) c ≠ none) ∧
      n+1 = (insert a live).card := by
  constructor
  · intro c
    rw [Finset.mem_insert,hl c]
    by_cases hca : c = a
    · simp [hca]
    · simp [hca]
  · rw [Finset.card_insert_of_notMem (fun hm => (hl a).mp hm ha),hn]

theorem Keyed.insert (hk : Keyed info) (hid : e.inConnId = 0)
    (hfree : ∀ c f, info c = some f → f.inFd ≠ e.inFd)
    (hr : e.inFd < maxConnections ∧ e.outFd < maxConnections) :
    Keyed (Function.update info a (some e)) := by
  constructor
  · intro c f hf
    rcases update_eq_some.mp hf with ⟨-,rfl⟩ | ⟨-,hf⟩
    · exact hid
    · exact hk.connId c f hf
  · intro c f d g hf hg hfd
    rcases update_eq_some.mp hf with ⟨rfl,rfl⟩ | ⟨-,hf⟩
    · rcases update_eq_some.mp hg with ⟨rfl,-⟩ | ⟨-,hg⟩
      · rfl
      · exact (hfree d g hg hfd.symm).elim
    · rcases update_eq_some.mp hg with ⟨-,hge⟩ | ⟨-,hg⟩
      · exact (hfree c f hf (hge ▸ hfd)).elim
      · exact hk.unique c f d g hf hg hfd
  · intro c f hf
    rcases update_eq_some.mp hf with ⟨-,rfl⟩ | ⟨-,hf⟩
    · exact hr
    · exact hk.range c f hf

theorem OfBackend.insert {member : ℕ → Ptr → Prop} (hm : OfBackend info member)
    (ha : info a = none) (hz : e.outFd = 0) :
    OfBackend (Function.update info a (some e)) member := by
  constructor
  · intro c q hcq
    obtain ⟨f,hf,hq⟩ := hm.named c q hcq
    have hca : c ≠ a := by
      rintro rfl
      rw [ha] at hf
      exact Option.some_ne_none f hf.symm
    exact ⟨f,update_eq_some.mpr (Or.inr ⟨hca,hf⟩),hq⟩
  · intro c f hf hfz
    rcases update_eq_some.mp hf with ⟨-,rfl⟩ | ⟨-,hf⟩
    · exact (hfz hz).elim
    · exact hm.linked c f hf hfz

theorem ofClient_insert (ha : info a = none) (c : ℕ) (q : Ptr) :
    OfClient (Function.update info a (some e)) c q ↔
      OfClient info c q ∨ (c = a ∧ q = .head e.inFd ∧ e.inFd ≠ 0) := by
  constructor
  · rintro ⟨f,hf,hq,hz⟩
    rcases update_eq_some.mp hf with ⟨rfl,rfl⟩ | ⟨-,hf⟩
    · exact Or.inr ⟨rfl,hq,hz⟩
    · exact Or.inl ⟨f,hf,hq,hz⟩
  · rintro (⟨f,hf,hq,hz⟩ | ⟨rfl,hq,hz⟩)
    · have hca : c ≠ a := by
        rintro rfl
        rw [ha] at hf
        exact Option.some_ne_none f hf.symm
      exact ⟨f,update_eq_some.mpr (Or.inr ⟨hca,hf⟩),hq,hz⟩
    · exact ⟨e,by simp,hq,hz⟩

/-- The record that a new external connection begins with. -/
def newExt (ci : Peer) (id : ℕ) : Ext :=
  {inFd := ci.fd, inGen := ci.gen, inConnId := 0, outConnId := id}

/-- The conditions under which `get_ext_connection_by_in_conn_id` makes a record. -/
structure MayRegister (t : Tables) (ci : Peer) (a : ℕ) : Prop where
  fresh : t.info a = none
  count : t.extConnections < extConnTableSize/2
  range : ci.fd < maxConnections
  free : ∀ c f, t.info c = some f → f.inFd ≠ ci.fd

theorem MayRegister.not_client {ci : Peer} (hm : MayRegister t ci a) (q : Ptr) :
    ¬ OfClient t.info a q := by
  rintro ⟨f,hf,-⟩
  rw [hm.fresh] at hf
  exact Option.some_ne_none f hf.symm

/-- The tables when the place of the new record is chosen. -/
def prepared (t : Tables) (ci : Peer) (a : ℕ) (i : Links Ptr) : Tables :=
  {t with
    info := Function.update t.info a (some (newExt ci 0))
    hNext := Function.update t.hNext a (t.hash (extConnHash ci.fd 0))
    hash := Function.update t.hash (extConnHash ci.fd 0) (some a)
    i := i}

theorem prepared_linkClient {ci : Peer} (hd : Describes t) (hm : MayRegister t ci a) :
    ∃ i, (prepared t ci a t.i).linkClient ci.fd a = .ok (prepared t ci a i) ∧
      ∀ id, Listed i (OfClient (Function.update t.info a (some (newExt ci id)))) := by
  by_cases hz : ci.fd = 0
  · refine ⟨t.i,if_pos hz,fun id => hd.clients.congr fun c q => ?_⟩
    rw [ofClient_insert hm.fresh]
    have hez : (newExt ci id).inFd = 0 := hz
    simp [hez]
  · have hnone : ∀ c, ¬ OfClient t.info c (.head ci.fd) := by
      rintro c ⟨f,hf,hq,-⟩
      rw [Ptr.head.injEq] at hq
      exact hm.free c f hf hq.symm
    obtain ⟨i,hi,hli⟩ :=
      linkClient_spec (t := prepared t ci a t.i) hd.clients hz hnone hm.not_client
    refine ⟨i,hi,fun id => hli.congr fun c q => ?_⟩
    rw [ofClient_insert hm.fresh]
    have hez : (newExt ci id).inFd = ci.fd := rfl
    simp [hez,hz]

/-- Only the choice of a place is left open by what comes before it. -/
theorem register_eq {ci : Peer} (hd : Describes t) (hm : MayRegister t ci a) :
    ∃ i, (∀ id, Listed i (OfClient (Function.update t.info a (some (newExt ci id))))) ∧
      ∀ draws, t.register ci.fd ci.gen 0 a draws =
        (t.probe draws ci.fd >>= fun h => (prepared t ci a i).assign a h) := by
  obtain ⟨i,hi,hli⟩ := prepared_linkClient hd hm
  refine ⟨i,hli,fun draws => ?_⟩
  have hchoose : (prepared t ci a i).chooseSlot ci.fd 0 draws = t.probe draws ci.fd := by
    simp only [Tables.chooseSlot,if_true]
    apply probe_congr
    rfl
  simp only [Tables.register,check_of hm.count,ok_bind,calloc_eq hd hm.fresh,
    Tables.setLink,Function.update_idem,check_of hm.range]
  change (do
    let t ← (prepared t ci a t.i).linkClient ci.fd a
    let h ← t.chooseSlot ci.fd 0 draws
    t.assign a h) = _
  rw [hi,ok_bind,hchoose]

theorem assign_spec {ci : Peer} {i : Links Ptr} (hd : Describes t) (hm : MayRegister t ci a)
    (hli : ∀ id, Listed i (OfClient (Function.update t.info a (some (newExt ci id)))))
    (hh : h < extConnTableSize) (hfree : t.outRef h = none)
    (hpos : Tables.nextConnId (t.outId h) h ≠ 0) :
    ∃ t' id, (prepared t ci a i).assign a h = .ok t' ∧ Registered t a (newExt ci id) t' ∧
      t'.o = t.o := by
  obtain ⟨live,hlive,hcard⟩ := hd.live
  obtain ⟨bucket,hc⟩ := hd.chained
  obtain ⟨member,hlo,hbackends⟩ := hd.backends
  obtain ⟨memberR,hlr,hlru,hrecent⟩ := hd.recent
  let e := newExt ci (Tables.nextConnId (t.outId h) h)
  have hmod : e.outConnId%extConnTableSize = h := nextConnId_mod (t.outId h) hh
  obtain ⟨hlive',hcard'⟩ := live_insert hlive hcard hm.fresh (e := e)
  refine ⟨{prepared t ci a i with
    outRef := Function.update t.outRef h (some a)
    outId := Function.update t.outId h e.outConnId
    info := Function.update t.info a (some e)
    extConnections := t.extConnections+1
    extConnectionsCreated := t.extConnectionsCreated+1},e.outConnId,?_,?_,rfl⟩
  · have hua : (prepared t ci a i).info a = some (newExt ci 0) := by simp [prepared]
    simp only [Tables.assign,hua,deref_some,ok_bind]
    change (check (Tables.nextConnId (t.outId h) h ≠ 0) >>= fun _ => Except.ok _) = _
    rw [check_of hpos]
    simp only [ok_bind,prepared,Function.update_idem]
    rfl
  · have hoz : e.outFd = 0 := rfl
    have hrange : e.inFd < maxConnections ∧ e.outFd < maxConnections :=
      ⟨hm.range,by rw [hoz]; decide⟩
    refine ⟨⟨⟨_,hlive',hcard'⟩,⟨_,hc.insert hm.fresh rfl⟩,hd.placed.insert hm.fresh hfree hmod hpos,
      hli _,⟨member,hlo,hbackends.insert hm.fresh hoz⟩,⟨memberR,hlr,hlru,?_⟩,
      hd.keyed.insert rfl hm.free hrange⟩,rfl,?_,?_,rfl,fun fd => Iff.rfl⟩
    · intro c q hcq
      refine ⟨(hrecent c q hcq).1,?_⟩
      change Function.update t.info a (some e) c ≠ none
      by_cases hca : c = a
      · simp [hca]
      · rw [Function.update_of_ne hca]
        exact (hrecent c q hcq).2
    · change Function.update t.outId h e.outConnId =
        Function.update t.outId (e.outConnId%extConnTableSize) e.outConnId
      rw [hmod]
    · change e.outConnId = Tables.nextConnId (t.outId (e.outConnId%extConnTableSize))
        (e.outConnId%extConnTableSize)
      rw [hmod]
      rfl

theorem probe_cases (t : Tables) (ds : List ℕ) (n : ℕ) :
    t.probe ds n = .error .drawing ∨ ∃ h, t.probe ds n = .ok h := by
  induction ds generalizing n with
  | nil =>
      simp only [Tables.probe]
      split_ifs with hf
      · exact Or.inr ⟨_,rfl⟩
      · exact Or.inl rfl
  | cons d ds ih =>
      simp only [Tables.probe]
      split_ifs with hf
      · exact Or.inr ⟨_,rfl⟩
      · exact ih d

/-- The outcomes of a call that makes a record, but for the record itself: the call waits
for another draw, or the place has run through all its identifiers. -/
def Unregistered {α : Type} (t : Tables) (fd : ℕ) (draws : List ℕ) (r : Except Fault α) : Prop :=
  (t.probe draws fd = .error .drawing ∧ r = .error .drawing) ∨
    ∃ h, t.probe draws fd = .ok h ∧ Tables.nextConnId (t.outId h) h = 0 ∧ r = .error .assertion

theorem register_spec {ci : Peer} (hd : Describes t) (hm : MayRegister t ci a)
    (draws : List ℕ) :
    Unregistered t ci.fd draws (t.register ci.fd ci.gen 0 a draws) ∨
    ∃ t' id, t.register ci.fd ci.gen 0 a draws = .ok t' ∧ Registered t a (newExt ci id) t' ∧
      t'.o = t.o := by
  obtain ⟨i,hli,heq⟩ := register_eq hd hm
  rw [heq]
  rcases probe_cases t draws ci.fd with hp | ⟨h,hp⟩
  · left
    left
    rw [hp]
    exact ⟨rfl,rfl⟩
  · obtain ⟨hh,hfree⟩ := probe_ok hp
    rw [hp,ok_bind]
    by_cases hpos : Tables.nextConnId (t.outId h) h = 0
    · left
      right
      refine ⟨h,hp,hpos,?_⟩
      have hua : (prepared t ci a i).info a = some (newExt ci 0) := by simp [prepared]
      simp only [Tables.assign,hua,deref_some,ok_bind]
      change (check (Tables.nextConnId (t.outId h) h ≠ 0) >>= fun _ => Except.ok _) = _
      rw [check,if_neg (not_not_intro hpos)]
      rfl
    · right
      exact assign_spec hd hm hli hh hfree hpos

theorem Unregistered.ne_ok {α : Type} {fd : ℕ} {draws : List ℕ} {r : Except Fault α}
    (hu : Unregistered t fd draws r) (x : α) : r ≠ .ok x := by
  rintro rfl
  rcases hu with ⟨-,hx⟩ | ⟨_,-,-,hx⟩
  · cases hx
  · cases hx

theorem Unregistered.bind {α β : Type} {fd : ℕ} {draws : List ℕ} {r : Except Fault α}
    {f : α → Except Fault β} (hu : Unregistered t fd draws r) :
    Unregistered t fd draws (r >>= f) := by
  rcases hu with ⟨hp,hr⟩ | ⟨h,hp,hz,hr⟩
  · rw [hr]
    exact Or.inl ⟨hp,rfl⟩
  · rw [hr]
    exact Or.inr ⟨h,hp,hz,rfl⟩

theorem Keyed.change {e' : Ext} (hk : Keyed info) (ha : info a = some e)
    (hfd : e'.inFd = e.inFd) (hid : e'.inConnId = e.inConnId)
    (hr : e'.outFd < maxConnections) : Keyed (Function.update info a (some e')) := by
  have hback : ∀ c f, Function.update info a (some e') c = some f →
      ∃ g, info c = some g ∧ f.inFd = g.inFd ∧ f.inConnId = g.inConnId := by
    intro c f hf
    rcases update_eq_some.mp hf with ⟨rfl,rfl⟩ | ⟨-,hf⟩
    · exact ⟨e,ha,hfd,hid⟩
    · exact ⟨f,hf,rfl,rfl⟩
  constructor
  · intro c f hf
    obtain ⟨g,hg,-,hgid⟩ := hback c f hf
    rw [hgid]
    exact hk.connId c g hg
  · intro c f d g hf hg hfg
    obtain ⟨f',hf',hff,-⟩ := hback c f hf
    obtain ⟨g',hg',hgg,-⟩ := hback d g hg
    exact hk.unique c f' d g' hf' hg' (by rw [← hff,← hgg,hfg])
  · intro c f hf
    rcases update_eq_some.mp hf with ⟨rfl,rfl⟩ | ⟨-,hf⟩
    · exact ⟨hfd ▸ (hk.range c e ha).1,hr⟩
    · exact hk.range c f hf

/-- A record may change in what the other structures do not depend on; its backend may
change together with the lists of the backends. -/
theorem Describes.change {o : Links Ptr} {member : ℕ → Ptr → Prop} (hd : Describes t)
    (ha : t.info a = some e) (e' : Ext) (hfd : e'.inFd = e.inFd) (hid : e'.inConnId = e.inConnId)
    (hout : e'.outConnId = e.outConnId) (hr : e'.outFd < maxConnections) (ho : Listed o member)
    (hm : OfBackend (Function.update t.info a (some e')) member) :
    Describes {t with info := Function.update t.info a (some e'), o := o} := by
  have hsome : ∀ c, Function.update t.info a (some e') c ≠ none ↔ t.info c ≠ none := by
    intro c
    by_cases hca : c = a
    · simp [hca,ha]
    · rw [Function.update_of_ne hca]
  obtain ⟨live,hlive,hcard⟩ := hd.live
  obtain ⟨bucket,hc⟩ := hd.chained
  obtain ⟨memberR,hlr,hlru,hrecent⟩ := hd.recent
  refine ⟨⟨live,fun c => (hlive c).trans (hsome c).symm,hcard⟩,⟨bucket,hc.change ha hfd hid⟩,
    hd.placed.change ha hout,?_,⟨member,ho,hm⟩,⟨memberR,hlr,hlru,?_⟩,hd.keyed.change ha hfd hid hr⟩
  · apply hd.clients.congr
    intro c q
    constructor
    · rintro ⟨f,hf,hq,hz⟩
      by_cases hca : c = a
      · subst hca
        rw [ha,Option.some.injEq] at hf
        rw [← hf,← hfd] at hq hz
        exact ⟨e',by simp,hq,hz⟩
      · exact ⟨f,update_eq_some.mpr (Or.inr ⟨hca,hf⟩),hq,hz⟩
    · rintro ⟨f,hf,hq,hz⟩
      rcases update_eq_some.mp hf with ⟨rfl,rfl⟩ | ⟨-,hf⟩
      · exact ⟨e,ha,by rw [← hfd,hq],by rwa [← hfd]⟩
      · exact ⟨f,hf,hq,hz⟩
  · exact fun c q hcq => ⟨(hrecent c q hcq).1,(hsome c).mpr (hrecent c q hcq).2⟩

theorem OfBackend.change {e' : Ext} {member : ℕ → Ptr → Prop} (hm : OfBackend info member)
    (ha : info a = some e) (hfd : e'.outFd = e.outFd) :
    OfBackend (Function.update info a (some e')) member := by
  constructor
  · intro c q hcq
    obtain ⟨f,hf,hq⟩ := hm.named c q hcq
    by_cases hca : c = a
    · subst hca
      rw [ha,Option.some.injEq] at hf
      exact ⟨e',by simp,by rw [hq,hfd,hf]⟩
    · exact ⟨f,update_eq_some.mpr (Or.inr ⟨hca,hf⟩),hq⟩
  · intro c f hf hz
    rcases update_eq_some.mp hf with ⟨rfl,rfl⟩ | ⟨-,hf⟩
    · rw [hfd] at hz ⊢
      exact hm.linked c e ha hz
    · exact hm.linked c f hf hz

/-- What changes when the record at `a` becomes `e`. -/
structure Changed (t : Tables) (a : ℕ) (e : Ext) (t' : Tables) : Prop where
  describes : Describes t'
  info : t'.info = Function.update t.info a (some e)
  outId : t'.outId = t.outId
  created : t'.extConnectionsCreated = t.extConnectionsCreated
  heads : ∀ fd, t'.o.next (.head fd) = none ↔ t.o.next (.head fd) = none

theorem setAuthKeyId_spec (hd : Describes t) (ha : t.info a = some e) (key : ℕ) :
    Changed t a {e with authKeyId := key} (t.setAuthKeyId a key) := by
  obtain ⟨member,hlo,hbackends⟩ := hd.backends
  rw [Tables.setAuthKeyId,ha,Option.map_some]
  refine ⟨?_,rfl,rfl,rfl,fun fd => Iff.rfl⟩
  exact hd.change ha {e with authKeyId := key} rfl rfl rfl (hd.keyed.range a e ha).2 hlo
    (hbackends.change ha rfl)

/-- The record enters the list of its backend, which must be open. -/
theorem linkBackend_spec {co : Peer} (hd : Describes t) (ha : t.info a = some e)
    (hnone : t.o.next (.entry a) = none) (hopen : t.o.next (.head co.fd) ≠ none)
    (hr : co.fd < maxConnections) :
    ∃ t', t.linkBackend a co = .ok t' ∧
      Changed t a {e with outFd := co.fd, outGen := co.gen} t' := by
  obtain ⟨member,hlo,hbackends⟩ := hd.backends
  have hnot : ∀ q, ¬ member a q := fun q hm => (hlo.linked hm).1 hnone
  obtain ⟨o,ho,hlo',hheads⟩ := hlo.pushBack (p := .head co.fd) (by simp) hopen hnot
  refine ⟨{t with
    info := Function.update t.info a (some {e with outFd := co.fd, outGen := co.gen})
    o := o},?_,?_,rfl,rfl,rfl,fun fd => hheads (.head fd) (by simp)⟩
  · simp only [Tables.linkBackend,ha,deref_some,ok_bind,check_of hopen,ho]
  apply hd.change ha {e with outFd := co.fd, outGen := co.gen} rfl rfl rfl hr hlo'
  constructor
  · rintro c q (hcq | ⟨rfl,rfl⟩)
    · obtain ⟨f,hf,hq⟩ := hbackends.named c q hcq
      have hca : c ≠ a := fun he => hnot q (he ▸ hcq)
      exact ⟨f,update_eq_some.mpr (Or.inr ⟨hca,hf⟩),hq⟩
    · exact ⟨_,by rw [Function.update_self],rfl⟩
  · intro c f hf hz
    rcases update_eq_some.mp hf with ⟨rfl,rfl⟩ | ⟨-,hf⟩
    · exact Or.inr ⟨rfl,rfl⟩
    · exact Or.inl (hbackends.linked c f hf hz)

/-- A new record may be completed before anyone looks at it. -/
theorem Registered.change {u w : Tables} {e' : Ext} (hreg : Registered t a e u)
    (hc : Changed u a e' w) (hid : e'.outConnId = e.outConnId) : Registered t a e' w := by
  refine ⟨hc.describes,?_,?_,?_,hc.created.trans hreg.created,
    fun fd => (hc.heads fd).trans (hreg.heads fd)⟩
  · rw [hc.info,hreg.info,Function.update_idem]
  · rw [hid,hc.outId]
    exact hreg.outId
  · rw [hid]
    exact hreg.follows

theorem getByInConnId_find (hd : Describes t) (ha : t.info a = some e) (inGen b : ℕ)
    (draws : List ℕ) :
    t.getByInConnId e.inFd inGen e.inConnId .find b draws = .ok (t,.entry a) ∧
      t.getByInConnId e.inFd inGen e.inConnId .findOrCreate b draws = .ok (t,.entry a) ∧
      t.getByInConnId e.inFd inGen e.inConnId .create b draws = .ok (t,.null) := by
  obtain ⟨bucket,hc⟩ := hd.chained
  obtain ⟨xs,ys,-,hw⟩ := walk_found hd hc ha
  simp only [Tables.getByInConnId,hw,ok_bind,and_self]

/-- Mode 1 on a live record. -/
theorem getByInConnId_delete (hd : Describes t) (ha : t.info a = some e) (inGen b : ℕ)
    (draws : List ℕ) :
    ∃ t', t.getByInConnId e.inFd inGen e.inConnId .delete b draws = .ok (t',.deleted) ∧
      Released t a t' := by
  obtain ⟨bucket,hc⟩ := hd.chained
  obtain ⟨xs,ys,hb,hw⟩ := walk_found hd hc ha
  obtain ⟨t',ht,hr⟩ := release_spec hd hc ha hb
  exact ⟨t',by simp only [Tables.getByInConnId,hw,ok_bind,ht],hr⟩

theorem getByInConnId_absent {inFd inConnId : ℕ} (hd : Describes t)
    (hno : ∀ a e, t.info a = some e → ¬ (e.inFd = inFd ∧ e.inConnId = inConnId))
    (inGen b : ℕ) (draws : List ℕ) :
    t.getByInConnId inFd inGen inConnId .find b draws = .ok (t,.null) ∧
      t.getByInConnId inFd inGen inConnId .delete b draws = .ok (t,.null) := by
  simp only [Tables.getByInConnId,walk_absent hd hno,ok_bind,and_self]

/-- Modes 2 and 3 for a client without a record. -/
theorem getByInConnId_create {ci : Peer} {mode : Mode} (hd : Describes t)
    (hm : MayRegister t ci a) (hmode : mode = .create ∨ mode = .findOrCreate)
    (draws : List ℕ) :
    Unregistered t ci.fd draws (t.getByInConnId ci.fd ci.gen 0 mode a draws) ∨
    ∃ t' id, t.getByInConnId ci.fd ci.gen 0 mode a draws = .ok (t',.entry a) ∧
      Registered t a (newExt ci id) t' ∧ t'.o = t.o := by
  have hno : ∀ c f, t.info c = some f → ¬ (f.inFd = ci.fd ∧ f.inConnId = 0) :=
    fun c f hf hk => hm.free c f hf hk.1
  have hget : t.getByInConnId ci.fd ci.gen 0 mode a draws =
      (t.register ci.fd ci.gen 0 a draws >>= fun t => .ok (t,.entry a)) := by
    rcases hmode with rfl | rfl
    · simp only [Tables.getByInConnId,walk_absent hd hno,ok_bind]
    · simp only [Tables.getByInConnId,walk_absent hd hno,ok_bind]
  rw [hget]
  rcases register_spec hd hm draws with hu | ⟨t',id,hr,hreg,ho⟩
  · exact Or.inl hu.bind
  · right
    rw [hr]
    exact ⟨t',id,rfl,hreg,ho⟩

/-- The record of a connection created between two peers. -/
def createdExt (ci : Peer) (co : Option Peer) (id key : ℕ) : Ext :=
  {newExt ci id with
    outFd := (co.map Peer.fd).getD 0
    outGen := (co.map Peer.gen).getD 0
    authKeyId := key}

theorem createExtConnection_spec {ci : Peer} {co : Option Peer} (hd : Describes t)
    (hm : MayRegister t ci a) (hopen : ∀ c ∈ co, t.o.next (.head c.fd) ≠ none)
    (hr : ∀ c ∈ co, c.fd < maxConnections) (hne : co ≠ some ci) (key : ℕ) (draws : List ℕ) :
    Unregistered t ci.fd draws (t.createExtConnection ci 0 co key a draws) ∨
    ∃ t' id, t.createExtConnection ci 0 co key a draws = .ok (t',a) ∧
      Registered t a (createdExt ci co id key) t' := by
  rcases getByInConnId_create hd hm (Or.inl rfl) draws with hu | ⟨u,id,hg,hreg,ho⟩
  · exact Or.inl hu.bind
  right
  have hua : u.info a = some (newExt ci id) := by rw [hreg.info,Function.update_self]
  have hnone : u.o.next (.entry a) = none := by
    obtain ⟨member,hlo,hbackends⟩ := hd.backends
    rw [ho]
    refine (hlo.null fun q hq => ?_).1
    obtain ⟨f,hf,-⟩ := hbackends.named a q hq
    rw [hm.fresh] at hf
    exact Option.some_ne_none f hf.symm
  have hfirst : (newExt ci id).outFd = 0 ∧ u.o.next (.entry a) = none ∧
      (newExt ci id).authKeyId = 0 := ⟨rfl,hnone,rfl⟩
  cases co with
  | none =>
      refine ⟨u.setAuthKeyId a key,id,?_,?_⟩
      · simp only [Tables.createExtConnection,hg,ok_bind,hua,deref_some,check_of hfirst,
          check_of hr,check_of hne]
      · exact hreg.change (setAuthKeyId_spec hreg.describes hua key) rfl
  | some c =>
      have hc := Option.mem_some_self c
      obtain ⟨w,hl,hw⟩ := linkBackend_spec hreg.describes hua hnone
        (by rw [ho]; exact hopen c hc) (hr c hc)
      have hreg' := hreg.change hw rfl
      have hwa : w.info a = some {newExt ci id with outFd := c.fd, outGen := c.gen} := by
        rw [hw.info,Function.update_self]
      refine ⟨w.setAuthKeyId a key,id,?_,?_⟩
      · simp only [Tables.createExtConnection,hg,ok_bind,hua,deref_some,check_of hfirst,
          check_of hr,check_of hne,hl]
      · exact hreg'.change (setAuthKeyId_spec hreg'.describes hwa key) rfl

/-- A call that returns has passed the assertions on its arguments. -/
theorem createExtConnection_ok {ci : Peer} {co : Option Peer} {key x : ℕ} {draws : List ℕ}
    {t' : Tables} (hd : Describes t) (hfresh : t.info a = none)
    (hfree : ∀ c f, t.info c = some f → f.inFd ≠ ci.fd)
    (hok : t.createExtConnection ci 0 co key a draws = .ok (t',x)) :
    x = a ∧ ∃ id, Registered t a (createdExt ci co id key) t' := by
  have hno : ∀ c f, t.info c = some f → ¬ (f.inFd = ci.fd ∧ f.inConnId = 0) :=
    fun c f hf hk => hfree c f hf hk.1
  obtain ⟨⟨u,r⟩,hget,hrest⟩ := bind_eq_ok.mp hok
  have hm : MayRegister t ci a := by
    simp only [Tables.getByInConnId,walk_absent hd hno,ok_bind] at hget
    obtain ⟨w,hreg,-⟩ := bind_eq_ok.mp hget
    simp only [Tables.register,check_bind_eq_ok] at hreg
    exact ⟨hfresh,hreg.1,hreg.2.1,hfree⟩
  rcases getByInConnId_create hd hm (Or.inl rfl) draws with hu | ⟨u',id,hg,-,ho⟩
  · exact (hu.ne_ok _ hget).elim
  rw [hget,Except.ok.injEq,Prod.mk.injEq] at hg
  obtain ⟨rfl,rfl⟩ := hg
  obtain ⟨e,he,hrest⟩ := bind_eq_ok.mp hrest
  simp only [check_bind_eq_ok] at hrest
  obtain ⟨-,hr,hne,hrest⟩ := hrest
  have hopen : ∀ c ∈ co, t.o.next (.head c.fd) ≠ none := by
    intro c hc
    cases co with
    | none => cases hc
    | some d =>
        rw [← Option.some.inj hc]
        obtain ⟨w,hlink,-⟩ := bind_eq_ok.mp hrest
        obtain ⟨f,-,hlink⟩ := bind_eq_ok.mp hlink
        rw [← ho]
        exact (check_bind_eq_ok.mp hlink).1
  rcases createExtConnection_spec hd hm hopen hr hne key draws with hu | ⟨t'',id',hc,hreg⟩
  · exact (hu.ne_ok _ hok).elim
  · rw [hok,Except.ok.injEq,Prod.mk.injEq] at hc
    rw [hc.1]
    exact ⟨hc.2,id',hreg⟩

/-- A second record for a client is refused. -/
theorem createExtConnection_free {ci : Peer} {co : Option Peer} {key x : ℕ} {draws : List ℕ}
    {t' : Tables} (hd : Describes t) (hok : t.createExtConnection ci 0 co key a draws = .ok (t',x)) :
    ∀ c f, t.info c = some f → f.inFd ≠ ci.fd := by
  intro c f hf hfd
  have hfind := (getByInConnId_find hd hf ci.gen a draws).2.2
  rw [hfd,hd.keyed.connId c f hf] at hfind
  simp [Tables.createExtConnection,hfind] at hok

/-- The record of a client is found by its descriptor. -/
theorem getByInFd_spec {fd : ℕ} (hd : Describes t) (hr : fd < maxConnections) :
    ∃ r, t.getByInFd fd = .ok r ∧
      ∀ a, r = some a ↔ fd ≠ 0 ∧ ∃ e, t.info a = some e ∧ e.inFd = fd := by
  by_cases hin : ∃ c, OfClient t.info c (.head fd)
  · obtain ⟨c,e,he,hp,hz⟩ := hin
    rw [Ptr.head.injEq] at hp
    have honly : ∀ d, OfClient t.info d (.head fd) → d = c := by
      rintro d ⟨f,hf,hq,-⟩
      rw [Ptr.head.injEq] at hq
      exact hd.keyed.unique d f c e hf he (hq.symm.trans hp)
    obtain ⟨hn,hpr⟩ := hd.clients.single ⟨e,he,by rw [hp],hz⟩ honly
    refine ⟨some c,?_,fun a => ?_⟩
    · simp [Tables.getByInFd,check_of hr,hn,hpr,check_of,he,hp.symm]
    · rw [Option.some.injEq]
      constructor
      · rintro rfl
        exact ⟨hp ▸ hz,e,he,hp.symm⟩
      · rintro ⟨-,f,hf,hfd⟩
        exact hd.keyed.unique c e a f he hf (hp.symm.trans hfd.symm)
  · push Not at hin
    have hnull : t.getByInFd fd = .ok none := by
      rcases hn : t.i.next (.head fd) with _ | q
      · have hpr := hd.clients.closed (by simp) hn
        simp [Tables.getByInFd,check_of hr,hn,hpr,check_of]
      · rcases hd.clients.next_head (by simp) hn with ⟨rfl,hpr,-⟩ | ⟨c,-,hm⟩
        · simp [Tables.getByInFd,check_of hr,hn,hpr,check_of]
        · exact (hin c hm).elim
    refine ⟨none,hnull,fun a => ?_⟩
    simp only [reduceCtorEq,false_iff]
    rintro ⟨hz,e,he,rfl⟩
    exact hin a ⟨e,he,rfl,hz⟩

/-- The list for flood control is no concern of the other structures. -/
theorem lruInsertConn_spec {c : Peer} (hd : Describes t) (hr : c.fd < maxConnections) :
    ∃ lru, t.lruInsertConn c = .ok {t with lru := lru} ∧ Describes {t with lru := lru} := by
  obtain ⟨r,hget,hspec⟩ := getByInFd_spec hd hr
  cases r with
  | none => exact ⟨t.lru,by simp [Tables.lruInsertConn,hget],hd⟩
  | some a =>
      obtain ⟨-,e,he,-⟩ := (hspec a).mp rfl
      by_cases hsame : e.inFd = c.fd ∧ e.inGen = c.gen
      · obtain ⟨member,hlr,hlru,hrecent⟩ := hd.recent
        obtain ⟨k,hk,hlk,hheads⟩ := hlr.unlink a
        have hdel : Tables.lruDeleteExtConn t.lru a = some k := by
          rw [Tables.lruDeleteExtConn,hk,Option.map_some,set_null (hlk.null (by simp))]
        have hopen : k.next .lru ≠ none := by
          rw [ne_eq,hheads .lru (by simp)]
          exact hlru
        obtain ⟨k',hk',hlk',hheads'⟩ := hlk.pushBack (a := a) (by simp) hopen (by simp)
        refine ⟨k',by simp [Tables.lruInsertConn,hget,he,hsame,hdel,hk'],?_⟩
        refine ⟨hd.live,hd.chained,hd.placed,hd.clients,hd.backends,⟨_,hlk',?_,?_⟩,hd.keyed⟩
        · rw [ne_eq,hheads' .lru (by simp)]
          exact hopen
        · rintro b p (⟨hb,-⟩ | ⟨rfl,rfl⟩)
          · exact hrecent b p hb
          · exact ⟨rfl,by simp [he]⟩
      · exact ⟨t.lru,by simp [Tables.lruInsertConn,hget,he,hsame],hd⟩

/-- Nothing was added: every record is one from before, as it was. -/
structure Kept (t t' : Tables) : Prop where
  describes : Describes t'
  info : ∀ c f, t'.info c = some f → t.info c = some f
  outId : t'.outId = t.outId
  created : t'.extConnectionsCreated = t.extConnectionsCreated

theorem Kept.refl (hd : Describes t) : Kept t t := ⟨hd,fun _ _ hf => hf,rfl,rfl⟩

theorem Kept.trans {u v : Tables} (h₁ : Kept t u) (h₂ : Kept u v) : Kept t v :=
  ⟨h₂.describes,fun c f hf => h₁.info c f (h₂.info c f hf),h₂.outId.trans h₁.outId,
    h₂.created.trans h₁.created⟩

theorem Released.kept {t' : Tables} (hr : Released t a t') : Kept t t' := by
  refine ⟨hr.describes,fun c f hf => ?_,hr.outId,hr.created⟩
  rw [hr.info] at hf
  exact (update_none_eq_some.mp hf).2

/-- Only the heads of the lists of backends change. -/
theorem Describes.setBackends {o : Links Ptr} (hd : Describes t)
    (hm : ∀ member, Listed t.o member → OfBackend t.info member → Listed o member) :
    Describes {t with o := o} := by
  obtain ⟨member,hlo,hbackends⟩ := hd.backends
  exact ⟨hd.live,hd.chained,hd.placed,hd.clients,⟨member,hm member hlo hbackends,hbackends⟩,
    hd.recent,hd.keyed⟩

end Teleproxy.ExtConnections
