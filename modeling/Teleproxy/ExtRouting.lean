import Teleproxy.ExtPackets
import Teleproxy.Lib.StepSystem

/-!
# Routing through external connections

A run is any sequence of calls that make, look up and remove external
connections, of packets from backends, of backends that become ready or close
and of connections that come and go. The history of the run is the list of the
identifiers given out, each with the record and the peers it was given for.

The callers keep to some rules: a record is made for a client that has none,
under the connection number 0, with a list open for its backend; there are
fewer than half as many records as places and fewer than 2^40 were ever made.
Under these rules no assertion fails, an identifier is never given out twice,
and it leads to its record as long as that is live and to nothing afterwards.
-/
namespace Teleproxy.ExtRouting
open ExtConnections DoublyLinked
open StepSystem (run Meets)

/-- An identifier that was given out. -/
structure Given where
  id : ℕ
  entry : ℕ
  client : Peer
  backend : Peer
  deriving DecidableEq, Repr

structure Routing where
  sys : Sys
  given : List Given

inductive Event where
  | create (ci : Peer) (inConnId : ℕ) (co : Option Peer) (authKeyId a : ℕ) (draws : List ℕ)
  | get (inFd inGen inConnId : ℕ) (mode : Mode) (a : ℕ) (draws : List ℕ)
  | remove (a notify : ℕ)
  | packet (c : Peer) (pkt : List UInt8) (full full' : Bool)
  | ready (c : Peer)
  | close (c : Peer)
  | connection (fd : ℕ) (conn : Option Conn)
  deriving DecidableEq, Repr

/-- The record at `a` is entered into the history. -/
def record (given : List Given) (t : Tables) (a : ℕ) : List Given :=
  match t.info a with
  | none => given
  | some e => given++[⟨e.outConnId,a,e.client,e.backend⟩]

def initial (conns : ℕ → Option Conn) : Routing :=
  ⟨⟨Tables.initial,conns,fun _ => 0,[]⟩,[]⟩

def perform (r : Routing) : Event → Except Fault Routing
  | .create ci inConnId co authKeyId a draws => do
      let (t,a) ← r.sys.tables.createExtConnection ci inConnId co authKeyId a draws
      .ok ⟨{r.sys with tables := t},record r.given t a⟩
  | .get inFd inGen inConnId mode a draws => do
      let (t,_) ← r.sys.tables.getByInConnId inFd inGen inConnId mode a draws
      let made := t.extConnectionsCreated ≠ r.sys.tables.extConnectionsCreated
      .ok ⟨{r.sys with tables := t},if made then record r.given t a else r.given⟩
  | .remove a notify => do
      let s ← r.sys.removeExtConnection a notify
      .ok ⟨s,r.given⟩
  | .packet c pkt full full' => do
      let s ← r.sys.processClientPacket c pkt full full'
      .ok ⟨s,r.given⟩
  | .ready c => do
      let s ← r.sys.mtfrontClientReady c
      .ok ⟨s,r.given⟩
  | .close c => do
      let s ← r.sys.mtfrontClientClose c
      .ok ⟨s,r.given⟩
  | .connection fd conn =>
      .ok ⟨{r.sys with conns := Function.update r.sys.conns fd conn},r.given⟩

/-- A fault ends the run. A call that still draws has not happened yet. -/
def step (s : Except Fault Routing) (ev : Event) : Except Fault Routing :=
  match s with
  | .error f => .error f
  | .ok r =>
      match perform r ev with
      | .error .drawing => .ok r
      | x => x

/-- What a caller grants when a record is made. -/
structure MayCreate (t : Tables) (ci : Peer) (inConnId a : ℕ) : Prop where
  connId : inConnId = 0
  may : MayRegister t ci a
  created : t.extConnectionsCreated < 2^40

/-- The rules for the callers. -/
def Granted (r : Routing) : Event → Prop
  | .create ci inConnId co _ a _ => MayCreate r.sys.tables ci inConnId a ∧ co ≠ some ci ∧
      ∀ c ∈ co, c.fd < maxConnections ∧ r.sys.tables.o.next (.head c.fd) ≠ none
  | .get inFd inGen inConnId mode a _ => (mode = .create ∨ mode = .findOrCreate) →
      (∀ b e, r.sys.tables.info b = some e → ¬ (e.inFd = inFd ∧ e.inConnId = inConnId)) →
      MayCreate r.sys.tables ⟨inFd,inGen⟩ inConnId a
  | .remove a _ => r.sys.tables.info a ≠ none
  | .ready c => c.fd < maxConnections ∧ r.sys.tag c = 0 ∧
      r.sys.tables.o.prev (.head c.fd) = none
  | .close c => c.fd < maxConnections ∧ (r.sys.tag c ≠ 0 → r.sys.tag c = Sys.connTag c ∧
      r.sys.tables.o.next (.head c.fd) ≠ none)
  | .packet .. | .connection .. => True

def Permitted (s : Except Fault Routing) (ev : Event) : Prop := ∀ r, s = .ok r → Granted r ev

/-- The client, the sender and the identifier of a delivery. -/
def delivery : Sent → Option (Peer×Peer×ℕ)
  | .answer dest source id _ _ => some (dest,source,id)
  | .ack dest source id _ => some (dest,source,id)
  | _ => none

structure Invariant (r : Routing) : Prop where
  describes : Describes r.sys.tables
  epochs : ∀ h, r.sys.tables.outId h/extConnTableSize ≤ r.sys.tables.extConnectionsCreated
  /-- The identifiers of a place grow. -/
  grown : ∀ g ∈ r.given, g.id ≤ r.sys.tables.outId (g.id%extConnTableSize)
  distinct : (r.given.map Given.id).Nodup
  recorded : ∀ a e, r.sys.tables.info a = some e →
    ⟨e.outConnId,a,e.client,e.backend⟩ ∈ r.given
  delivered : ∀ m ∈ r.sys.sent, ∀ dest source id, delivery m = some (dest,source,id) →
    ∃ g ∈ r.given, g.id = id ∧ g.client = dest ∧ g.backend = source

theorem initial_invariant (conns : ℕ → Option Conn) : Invariant (initial conns) := by
  constructor
  · exact initial_describes
  · simp [initial,Tables.initial]
  · simp [initial]
  · simp [initial]
  · simp [initial,Tables.initial]
  · simp [initial]

variable {r : Routing} {a : ℕ} {e : Ext}

/-- Steps that add no record. -/
theorem Invariant.keep (hi : Invariant r) {s : Sys} (hk : Kept r.sys.tables s.tables)
    (hs : ∃ ms, s.sent = r.sys.sent++ms ∧ ∀ m ∈ ms, ∀ dest source id,
      delivery m = some (dest,source,id) →
        ∃ g ∈ r.given, g.id = id ∧ g.client = dest ∧ g.backend = source) :
    Invariant ⟨s,r.given⟩ := by
  refine ⟨hk.describes,?_,?_,hi.distinct,?_,?_⟩
  · intro h
    simp only [hk.outId,hk.created]
    exact hi.epochs h
  · intro g hg
    simp only [hk.outId]
    exact hi.grown g hg
  · exact fun c f hf => hi.recorded c f (hk.info c f hf)
  · obtain ⟨ms,hms,hnew⟩ := hs
    intro m hm
    simp only [hms,List.mem_append] at hm
    rcases hm with hm | hm
    · exact hi.delivered m hm
    · exact hnew m hm

theorem record_eq {given : List Given} {t : Tables} (ha : t.info a = some e) :
    record given t a = given++[⟨e.outConnId,a,e.client,e.backend⟩] := by
  simp only [record,ha]

/-- An identifier follows all others of its place. -/
theorem registered_fresh (hi : Invariant r) {t' : Tables}
    (hreg : Registered r.sys.tables a e t')
    (hb : r.sys.tables.extConnectionsCreated < 2^40) :
    e.outConnId = (r.sys.tables.outId (e.outConnId%extConnTableSize)/extConnTableSize+1)*
      extConnTableSize+e.outConnId%extConnTableSize := by
  have hlt : e.outConnId%extConnTableSize < extConnTableSize := Nat.mod_lt _ (by decide)
  have hep := lt_of_le_of_lt (hi.epochs (e.outConnId%extConnTableSize)) hb
  exact hreg.follows.trans (nextConnId_eq hlt hep)

/-- Steps that add one. -/
theorem Invariant.register (hi : Invariant r) {t' : Tables}
    (hreg : Registered r.sys.tables a e t')
    (hb : r.sys.tables.extConnectionsCreated < 2^40) :
    Invariant ⟨{r.sys with tables := t'},record r.given t' a⟩ := by
  have ha : t'.info a = some e := by rw [hreg.info,Function.update_self]
  have hid := registered_fresh hi hreg hb
  have hgt : r.sys.tables.outId (e.outConnId%extConnTableSize) < e.outConnId := by
    simp only [extConnTableSize] at *
    omega
  have hnew : ∀ g ∈ r.given, g.id ≠ e.outConnId := by
    intro g hg he
    have hle := hi.grown g hg
    rw [he] at hle
    omega
  rw [record_eq ha]
  refine ⟨hreg.describes,?_,?_,?_,?_,?_⟩
  · intro h
    simp only [hreg.outId,hreg.created]
    have hep := hi.epochs h
    by_cases hh : h = e.outConnId%extConnTableSize
    · rw [hh,Function.update_self]
      have hep' := hi.epochs (e.outConnId%extConnTableSize)
      simp only [extConnTableSize] at *
      omega
    · rw [Function.update_of_ne hh]
      omega
  · intro g hg
    simp only [hreg.outId]
    rcases List.mem_append.mp hg with hg | hg
    · by_cases hh : g.id%extConnTableSize = e.outConnId%extConnTableSize
      · rw [hh,Function.update_self]
        have hle := hi.grown g hg
        rw [hh] at hle
        omega
      · rw [Function.update_of_ne hh]
        exact hi.grown g hg
    · rw [List.mem_singleton.mp hg,Function.update_self]
  · rw [List.map_append]
    apply List.Nodup.append hi.distinct (by simp)
    intro x hx hxe
    obtain ⟨g,hg,rfl⟩ := List.mem_map.mp hx
    exact hnew g hg (by simpa using hxe)
  · intro c f hf
    simp only [hreg.info] at hf
    rcases update_eq_some.mp hf with ⟨rfl,rfl⟩ | ⟨-,hf⟩
    · simp
    · exact List.mem_append_left _ (hi.recorded c f hf)
  · intro m hm dest source id hd
    obtain ⟨g,hg,hgd⟩ := hi.delivered m hm dest source id hd
    exact ⟨g,List.mem_append_left _ hg,hgd⟩

/-- The identifier was given out and its record is no more. -/
def Gone (r : Routing) (x : ℕ) : Prop :=
  (∃ g ∈ r.given, g.id = x) ∧ ∀ a e, r.sys.tables.info a = some e → e.outConnId ≠ x

/-- What a step does: the invariant remains, and so does what is gone. -/
structure Stepped (r r' : Routing) : Prop where
  invariant : Invariant r'
  gone : ∀ x, Gone r x → Gone r' x

theorem Invariant.keep_stepped (hi : Invariant r) {s : Sys} (hk : Kept r.sys.tables s.tables)
    (hs : ∃ ms, s.sent = r.sys.sent++ms ∧ ∀ m ∈ ms, ∀ dest source id,
      delivery m = some (dest,source,id) →
        ∃ g ∈ r.given, g.id = id ∧ g.client = dest ∧ g.backend = source) :
    Stepped r ⟨s,r.given⟩ :=
  ⟨hi.keep hk hs,fun _ hx => ⟨hx.1,fun c f hf => hx.2 c f (hk.info c f hf)⟩⟩

/-- Nothing is delivered by a message that only tells a backend of a closed connection. -/
theorem closing_delivers_nothing {ms : List Sent} (hms : ∀ m ∈ ms, ∃ p id, m = .closeConn p id) :
    ∀ m ∈ ms, ∀ dest source id, delivery m = some (dest,source,id) →
      ∃ g ∈ r.given, g.id = id ∧ g.client = dest ∧ g.backend = source := by
  intro m hm dest source id hd
  obtain ⟨p,x,rfl⟩ := hms m hm
  simp [delivery] at hd

theorem Invariant.remove_stepped (hi : Invariant r) {s : Sys} (hr : Removed r.sys a e s) :
    Stepped r ⟨s,r.given⟩ := by
  obtain ⟨ms,hms,hclose⟩ := hr.sent
  exact hi.keep_stepped hr.tables.kept ⟨ms,hms,closing_delivers_nothing hclose⟩

theorem Invariant.register_stepped (hi : Invariant r) {t' : Tables}
    (hreg : Registered r.sys.tables a e t')
    (hb : r.sys.tables.extConnectionsCreated < 2^40) :
    Stepped r ⟨{r.sys with tables := t'},record r.given t' a⟩ := by
  refine ⟨hi.register hreg hb,fun x hx => ?_⟩
  have ha : t'.info a = some e := by rw [hreg.info,Function.update_self]
  obtain ⟨⟨g,hg,rfl⟩,hlive⟩ := hx
  rw [record_eq ha]
  refine ⟨⟨g,List.mem_append_left _ hg,rfl⟩,fun c f hf => ?_⟩
  simp only [hreg.info] at hf
  rcases update_eq_some.mp hf with ⟨-,rfl⟩ | ⟨-,hf⟩
  · have hid := registered_fresh hi hreg hb
    have hle := hi.grown g hg
    intro he
    rw [← he] at hle
    simp only [extConnTableSize] at *
    omega
  · exact hlive c f hf

/-- With few epochs behind it, a call that makes no record only waits for a draw. -/
theorem unregistered_drawing {α : Type} {fd : ℕ} {draws : List ℕ} {x : Except Fault α}
    (hi : Invariant r) (hb : r.sys.tables.extConnectionsCreated < 2^40)
    (hu : Unregistered r.sys.tables fd draws x) : x = .error .drawing := by
  rcases hu with ⟨-,hx⟩ | ⟨h,hp,hz,-⟩
  · exact hx
  · have hlt := (probe_ok hp).1
    rw [nextConnId_eq hlt (lt_of_le_of_lt (hi.epochs h) hb)] at hz
    simp only [extConnTableSize] at hz
    omega

/-- The draws of a call that may make a record. -/
def Event.draws : Event → Option (List ℕ)
  | .create _ _ _ _ _ draws => some draws
  | .get _ _ _ _ _ draws => some draws
  | _ => none

/-- The event is a call that found no free place with its draws. -/
structure Waits (r : Routing) (ev : Event) : Prop where
  count : r.sys.tables.extConnections < extConnTableSize/2
  created : r.sys.tables.extConnectionsCreated < 2^40
  unregistered : ∃ fd, ∃ draws ∈ ev.draws, Unregistered r.sys.tables fd draws (perform r ev)

theorem Waits.drawing {ev : Event} (hi : Invariant r) (hw : Waits r ev) :
    perform r ev = .error .drawing := by
  obtain ⟨fd,draws,-,hu⟩ := hw.unregistered
  exact unregistered_drawing hi hw.created hu

theorem perform_get {inFd inGen inConnId : ℕ} {mode : Mode} {draws : List ℕ} (hi : Invariant r)
    (hg : Granted r (.get inFd inGen inConnId mode a draws)) :
    Waits r (.get inFd inGen inConnId mode a draws) ∨
      ∃ r', perform r (.get inFd inGen inConnId mode a draws) = .ok r' ∧ Stepped r r' := by
  have hd := hi.describes
  have hsame : Stepped r r := ⟨hi,fun _ hx => hx⟩
  by_cases hin : ∃ b e, r.sys.tables.info b = some e ∧ e.inFd = inFd ∧ e.inConnId = inConnId
  · right
    obtain ⟨b,e,hb,rfl,rfl⟩ := hin
    obtain ⟨hfind,hfoc,hcreate⟩ := getByInConnId_find hd hb inGen a draws
    cases mode with
    | find => exact ⟨r,by simp [perform,hfind],hsame⟩
    | findOrCreate => exact ⟨r,by simp [perform,hfoc],hsame⟩
    | create => exact ⟨r,by simp [perform,hcreate],hsame⟩
    | delete =>
        obtain ⟨t',ht,hrel⟩ := getByInConnId_delete hd hb inGen a draws
        refine ⟨⟨{r.sys with tables := t'},r.given⟩,?_,?_⟩
        · simp [perform,ht,hrel.created]
        · exact hi.keep_stepped hrel.kept ⟨[],by simp,by simp⟩
  · have hno : ∀ b e, r.sys.tables.info b = some e →
        ¬ (e.inFd = inFd ∧ e.inConnId = inConnId) := fun b e hb hk => hin ⟨b,e,hb,hk⟩
    obtain ⟨hfind,hdelete⟩ := getByInConnId_absent hd hno inGen a draws
    have hmake : mode = .create ∨ mode = .findOrCreate →
        Waits r (.get inFd inGen inConnId mode a draws) ∨
          ∃ r', perform r (.get inFd inGen inConnId mode a draws) = .ok r' ∧ Stepped r r' := by
      intro hmode
      obtain ⟨rfl,hmay,hb⟩ := hg hmode hno
      rcases getByInConnId_create hd hmay hmode draws with hu | ⟨t',id,ht,hreg,-⟩
      · left
        exact ⟨hmay.count,hb,_,draws,rfl,hu.bind⟩
      · right
        refine ⟨_,?_,hi.register_stepped hreg hb⟩
        simp only at ht
        simp [perform,ht,hreg.created]
    cases mode with
    | find => exact Or.inr ⟨r,by simp [perform,hfind],hsame⟩
    | delete => exact Or.inr ⟨r,by simp [perform,hdelete],hsame⟩
    | create => exact hmake (Or.inl rfl)
    | findOrCreate => exact hmake (Or.inr rfl)

/-- A granted event passes all assertions. -/
theorem perform_spec {ev : Event} (hi : Invariant r) (hg : Granted r ev) :
    Waits r ev ∨ ∃ r', perform r ev = .ok r' ∧ Stepped r r' := by
  have hd := hi.describes
  cases ev with
  | create ci inConnId co key a draws =>
      obtain ⟨⟨rfl,hmay,hb⟩,hne,hco⟩ := hg
      rcases createExtConnection_spec hd hmay (fun c hc => (hco c hc).2)
        (fun c hc => (hco c hc).1) hne key draws with hu | ⟨t',id,ht,hreg⟩
      · left
        exact ⟨hmay.count,hb,_,draws,rfl,hu.bind⟩
      · right
        exact ⟨_,by simp [perform,ht],hi.register_stepped hreg hb⟩
  | get inFd inGen inConnId mode a draws => exact perform_get hi hg
  | remove a notify =>
      right
      obtain ⟨e,he⟩ := Option.ne_none_iff_exists'.mp hg
      obtain ⟨s,hs,hrem⟩ := removeExtConnection_spec hd he notify
      exact ⟨⟨s,r.given⟩,by simp [perform,hs],hi.remove_stepped hrem⟩
  | packet c pkt full full' =>
      right
      obtain ⟨s,hs,hout⟩ := processClientPacket_spec hd c pkt full full'
      refine ⟨⟨s,r.given⟩,by simp [perform,hs],?_⟩
      rcases hout with ⟨hpass,-⟩ | ⟨id,a,e,-,-,-,hrem⟩
      · obtain ⟨ms,hms,hnew⟩ := hpass.sent
        have hk : Kept r.sys.tables s.tables := by
          rw [hpass.tables]
          exact Kept.refl hd
        refine hi.keep_stepped hk ⟨ms,hms,?_⟩
        intro m hm dest source id hdel
        rcases hnew m hm with ⟨p,x,rfl⟩ | ⟨a,e,ha,rfl,⟨flags,data,rfl⟩ | ⟨confirm,rfl⟩⟩
        · simp [delivery] at hdel
        · simp only [delivery,Option.some.injEq,Prod.mk.injEq] at hdel
          obtain ⟨rfl,rfl,rfl⟩ := hdel
          exact ⟨_,hi.recorded a e ha,rfl,rfl,rfl⟩
        · simp only [delivery,Option.some.injEq,Prod.mk.injEq] at hdel
          obtain ⟨rfl,rfl,rfl⟩ := hdel
          exact ⟨_,hi.recorded a e ha,rfl,rfl,rfl⟩
      · exact hi.remove_stepped hrem
  | ready c =>
      right
      obtain ⟨hfd,htag,hprev⟩ := hg
      obtain ⟨s,hs⟩ : ∃ s, r.sys.mtfrontClientReady c = .ok s := by
        simp only [Sys.mtfrontClientReady,check_of hfd,check_of htag,check_of hprev,ok_bind]
        exact ⟨_,rfl⟩
      obtain ⟨hk,-,hsent⟩ := mtfrontClientReady_spec hd hs
      exact ⟨⟨s,r.given⟩,by simp [perform,hs],hi.keep_stepped hk ⟨[],by simp [hsent],by simp⟩⟩
  | close c =>
      right
      obtain ⟨s,hs⟩ := mtfrontClientClose_returns hd hg.1 hg.2
      obtain ⟨hk,ms,hms,hclose⟩ := mtfrontClientClose_spec hd hs
      exact ⟨⟨s,r.given⟩,by simp [perform,hs],
        hi.keep_stepped hk ⟨ms,hms,closing_delivers_nothing hclose⟩⟩
  | connection fd conn =>
      right
      exact ⟨_,rfl,hi.keep_stepped (Kept.refl hd) ⟨[],by simp,by simp⟩⟩

theorem step_stepped {s : Except Fault Routing} {ev : Event} (hi : ∃ r, s = .ok r ∧ Invariant r)
    (hp : Permitted s ev) :
    ∃ r r', s = .ok r ∧ step s ev = .ok r' ∧ Stepped r r' := by
  obtain ⟨r,rfl,hi⟩ := hi
  rcases perform_spec hi (hp r rfl) with hw | ⟨r',hok,hst⟩
  · exact ⟨r,r,rfl,by simp [step,hw.drawing hi],hi,fun _ hx => hx⟩
  · exact ⟨r,r',rfl,by simp [step,hok],hst⟩

theorem run_invariant {s : Except Fault Routing} {es : List Event}
    (hi : ∃ r, s = .ok r ∧ Invariant r) (hm : Meets step Permitted s es) :
    ∃ r, run step s es = .ok r ∧ Invariant r := by
  apply StepSystem.run_invariant (P := fun s => ∃ r, s = .ok r ∧ Invariant r) _ hi hm
  intro s ev hs hp
  obtain ⟨r,r',-,hok,hst⟩ := step_stepped hs hp
  exact ⟨r',hok,hst.invariant⟩

theorem run_gone {x : ℕ} {s : Except Fault Routing} {es : List Event}
    (hi : ∃ r, s = .ok r ∧ Invariant r ∧ Gone r x) (hm : Meets step Permitted s es) :
    ∃ r, run step s es = .ok r ∧ Invariant r ∧ Gone r x := by
  apply StepSystem.run_invariant (P := fun s => ∃ r, s = .ok r ∧ Invariant r ∧ Gone r x) _ hi hm
  rintro s ev ⟨r₀,hs,hinv,hgone⟩ hp
  obtain ⟨r,r',hr,hok,hst⟩ := step_stepped ⟨r₀,hs,hinv⟩ hp
  have hrr : r₀ = r := Except.ok.inj (hs.symm.trans hr)
  exact ⟨r',hok,hst.invariant,hst.gone x (hrr ▸ hgone)⟩

/-- One more draw for a call that may make a record. -/
def Event.draw (d : ℕ) : Event → Event
  | .create ci inConnId co key a draws => .create ci inConnId co key a (draws++[d])
  | .get inFd inGen inConnId mode a draws => .get inFd inGen inConnId mode a (draws++[d])
  | ev => ev

theorem draws_draw (ev : Event) (d : ℕ) :
    (ev.draw d).draws = ev.draws.map fun draws => draws++[d] := by
  cases ev with
  | create => rfl
  | get => rfl
  | remove => rfl
  | packet => rfl
  | ready => rfl
  | close => rfl
  | connection => rfl

theorem granted_draw {ev : Event} (d : ℕ) (hg : Granted r ev) : Granted r (ev.draw d) := by
  cases ev with
  | create => exact hg
  | get => exact hg
  | remove => exact hg
  | packet => exact hg
  | ready => exact hg
  | close => exact hg
  | connection => exact hg

/-- A granted call returns, whatever was drawn, with the right next draw. -/
theorem perform_returns {ev : Event} (hi : Invariant r) (hg : Granted r ev) :
    ∃ d r', perform r (ev.draw d) = .ok r' := by
  by_cases hn : r.sys.tables.extConnections < extConnTableSize/2
  · have hlt : r.sys.tables.extConnections < extConnTableSize := by
      simp only [extConnTableSize] at *
      omega
    obtain ⟨d,hd,hfree⟩ := exists_free_place hi.describes hlt
    rw [← Nat.mod_eq_of_lt hd] at hfree
    refine ⟨d,?_⟩
    rcases perform_spec hi (granted_draw d hg) with hw | ⟨r',hok,-⟩
    · exfalso
      have hdraw := hw.drawing hi
      obtain ⟨fd,draws,hmem,hu⟩ := hw.unregistered
      rw [draws_draw] at hmem
      obtain ⟨ds,-,rfl⟩ := Option.mem_map.mp hmem
      obtain ⟨h,hh⟩ := probe_ends hfree ds fd
      rcases hu with ⟨hp,-⟩ | ⟨_,-,-,hx⟩
      · rw [hh] at hp
        cases hp
      · rw [hdraw] at hx
        cases hx
    · exact ⟨r',hok⟩
  · refine ⟨0,?_⟩
    rcases perform_spec hi (granted_draw 0 hg) with hw | ⟨r',hok,-⟩
    · exact (hn hw.count).elim
    · exact ⟨r',hok⟩

/-- The record that the identifier was given for is live, with the peers it was made for. -/
def Live (r : Routing) (g : Given) : Prop :=
  ∃ e, r.sys.tables.info g.entry = some e ∧ e.outConnId = g.id ∧ e.client = g.client ∧
    e.backend = g.backend

structure Routed (r : Routing) : Prop where
  /-- All structures are about the same live records. -/
  describes : Describes r.sys.tables
  /-- No identifier was given out twice. -/
  distinct : (r.given.map Given.id).Nodup
  /-- A lookup finds the record that was given the identifier, exactly while it is live. -/
  found : ∀ x a, r.sys.tables.findByOutConnId x = .ok (some a) ↔
    ∃ g ∈ r.given, g.id = x ∧ g.entry = a ∧ Live r g
  missing : ∀ x, (∀ g ∈ r.given, g.id = x → ¬ Live r g) →
    r.sys.tables.findByOutConnId x = .ok none
  /-- Answers and acks went to the client for whom the identifier was given, and came from
  its backend. -/
  delivered : ∀ m ∈ r.sys.sent, ∀ dest source id, delivery m = some (dest,source,id) →
    ∃ g ∈ r.given, g.id = id ∧ g.client = dest ∧ g.backend = source

theorem Invariant.live_of_info (hi : Invariant r) (ha : r.sys.tables.info a = some e) :
    ∃ g ∈ r.given, g.id = e.outConnId ∧ g.entry = a ∧ Live r g :=
  ⟨_,hi.recorded a e ha,rfl,rfl,e,ha,rfl,rfl,rfl⟩

theorem Invariant.routed (hi : Invariant r) : Routed r := by
  refine ⟨hi.describes,hi.distinct,fun x a => ?_,fun x hx => ?_,hi.delivered⟩
  · obtain ⟨o,ho,hspec⟩ := findByOutConnId_spec hi.describes.placed x
    rw [ho,Except.ok.injEq,hspec]
    constructor
    · rintro ⟨e,he,rfl⟩
      exact hi.live_of_info he
    · rintro ⟨g,-,rfl,rfl,e,he,hid,-⟩
      exact ⟨e,he,hid⟩
  · obtain ⟨o,ho,hspec⟩ := findByOutConnId_spec hi.describes.placed x
    cases o with
    | none => exact ho
    | some a =>
        obtain ⟨e,he,rfl⟩ := (hspec a).mp rfl
        obtain ⟨g,hg,hid,-,hlive⟩ := hi.live_of_info he
        exact (hx g hg hid hlive).elim

/-- When the record of an identifier is not live, no record has it. -/
theorem Invariant.gone (hi : Invariant r) {g : Given} (hg : g ∈ r.given) (hl : ¬ Live r g) :
    Gone r g.id := by
  refine ⟨⟨g,hg,rfl⟩,fun a e he hid => ?_⟩
  obtain ⟨g',hg',hid',-,hlive⟩ := hi.live_of_info he
  have hsame : g' = g := by
    apply List.inj_on_of_nodup_map hi.distinct hg' hg
    rw [hid',hid]
  exact hl (hsame ▸ hlive)

/-- In every run whose callers keep to the rules no assertion fails and every call returns.
In every state reached the structures agree, identifiers are distinct and lead to their
records while these are live; once a record is not live its identifier leads to nothing
for the rest of the run. -/
theorem run_routed (conns : ℕ → Option Conn) (es : List Event)
    (hm : Meets step Permitted (.ok (initial conns)) es) :
    ∃ r, run step (.ok (initial conns)) es = .ok r ∧ Routed r ∧
      (∀ ev, Granted r ev → ∃ d r', perform r (ev.draw d) = .ok r') ∧
      ∀ pre post, es = pre++post → ∃ r', run step (.ok (initial conns)) pre = .ok r' ∧
        ∀ g ∈ r'.given, ¬ Live r' g → r.sys.tables.findByOutConnId g.id = .ok none := by
  have hstart : ∃ r, (Except.ok (initial conns) : Except Fault Routing) = .ok r ∧ Invariant r :=
    ⟨_,rfl,initial_invariant conns⟩
  obtain ⟨r,hr,hi⟩ := run_invariant hstart hm
  refine ⟨r,hr,hi.routed,fun ev hg => perform_returns hi hg,?_⟩
  rintro pre post rfl
  obtain ⟨hpre,hpost⟩ := (StepSystem.meets_append _ pre post).mp hm
  obtain ⟨r',hr',hi'⟩ := run_invariant hstart hpre
  refine ⟨r',hr',fun g hg hl => ?_⟩
  obtain ⟨r'',hr'',hi'',hgone⟩ := run_gone ⟨r',hr',hi',hi'.gone hg hl⟩ hpost
  rw [← StepSystem.run_append,hr] at hr''
  rw [← Except.ok.inj hr''] at hgone
  obtain ⟨o,ho,hspec⟩ := findByOutConnId_spec hi.describes.placed g.id
  cases o with
  | none => exact ho
  | some a =>
      obtain ⟨e,he,hid⟩ := (hspec a).mp rfl
      exact (hgone.2 a e he hid).elim

/-- Two backends, and a client whose queries go to the first of them. -/
def sampleRun : List Event :=
  [.ready ⟨5,1⟩,.ready ⟨6,2⟩,.create ⟨7,3⟩ 0 (some ⟨5,1⟩) 9 100 []]

def sampleConns (fd : ℕ) : Option Conn :=
  if fd = 5 then some {gen := 1} else if fd = 7 then some {gen := 3} else none

theorem sampleRun_permitted : Meets step Permitted (.ok (initial sampleConns)) sampleRun := by
  refine ⟨?_,?_,?_,trivial⟩
  · rintro r hr
    rw [← Except.ok.inj hr]
    exact ⟨by decide,rfl,rfl⟩
  · rintro r hr
    have hr' := Except.ok.inj (show Except.ok _ = Except.ok r from hr)
    rw [← hr']
    exact ⟨by decide,rfl,rfl⟩
  · rintro r hr
    have hr' := Except.ok.inj (show Except.ok _ = Except.ok r from hr)
    rw [← hr']
    refine ⟨⟨rfl,⟨rfl,by decide,by decide,?_⟩,by decide⟩,by decide,?_⟩
    · intro c f hf
      exact (Option.some_ne_none f hf.symm).elim
    · intro c hc
      rw [← Option.some.inj hc]
      exact ⟨by decide,Option.some_ne_none _⟩

theorem sampleRun_given (hr : run step (.ok (initial sampleConns)) sampleRun = .ok r) :
    r.given = [⟨2^22+7,100,⟨7,3⟩,⟨5,1⟩⟩] := by
  have hr' := Except.ok.inj (show Except.ok _ = Except.ok r from hr)
  rw [← hr']
  decide +kernel

/-- An answer of four bytes for the record of the sample run. -/
def sampleAnswer : List UInt8 :=
  [0x0d,0xda,0x03,0x44,0,0,0,0,7,0,0x40,0,0,0,0,0,1,2,3,4]

/-- The record is removed behind an answer, and another answer comes. -/
def answeredRun : List Event :=
  sampleRun++[.packet ⟨5,1⟩ sampleAnswer false false,.remove 100 1,
    .packet ⟨5,1⟩ sampleAnswer false false]

theorem answeredRun_permitted : Meets step Permitted (.ok (initial sampleConns)) answeredRun := by
  refine (StepSystem.meets_append _ _ _).mpr ⟨sampleRun_permitted,fun _ _ => trivial,?_,
    fun _ _ => trivial,trivial⟩
  rintro r hr
  have hlive : ((step (run step (.ok (initial sampleConns)) sampleRun)
      (.packet ⟨5,1⟩ sampleAnswer false false)).toOption.bind
        fun r => r.sys.tables.info 100).isSome = true := by decide +kernel
  rw [hr] at hlive
  exact Option.isSome_iff_ne_none.mp hlive

/-- The first answer is delivered. At the removal and at the second answer the backend is told that
the connection is closed. -/
theorem run_routed_sample :
    ∃ r, run step (.ok (initial sampleConns)) answeredRun = .ok r ∧ Routed r ∧
      r.given = [⟨2^22+7,100,⟨7,3⟩,⟨5,1⟩⟩] ∧
      r.sys.sent = [.answer ⟨7,3⟩ ⟨5,1⟩ (2^22+7) 0 [1,2,3,4],.closeConn ⟨5,1⟩ (2^22+7),
        .closeConn ⟨5,1⟩ (2^22+7)] := by
  obtain ⟨r,hr,hrouted,-⟩ := run_routed sampleConns answeredRun answeredRun_permitted
  have hended : (run step (.ok (initial sampleConns)) answeredRun).toOption.map
      (fun r => (r.given,r.sys.sent)) = some ([⟨2^22+7,100,⟨7,3⟩,⟨5,1⟩⟩],
        [.answer ⟨7,3⟩ ⟨5,1⟩ (2^22+7) 0 [1,2,3,4],.closeConn ⟨5,1⟩ (2^22+7),
          .closeConn ⟨5,1⟩ (2^22+7)]) := by decide +kernel
  rw [hr] at hended
  obtain ⟨hgiven,hsent⟩ := Prod.mk.inj (Option.some.inj hended)
  exact ⟨r,hr,hrouted,hgiven,hsent⟩

/-- A packet, with the two results of `check_conn_buffers`. -/
abbrev Packet := List UInt8×Bool×Bool

/-- `process_client_packet` on one packet of `c` after the other. -/
def processPackets (c : Peer) : Sys → List Packet → Except Fault Sys
  | s, [] => .ok s
  | s, (pkt,full,full')::ps => do
      let s ← s.processClientPacket c pkt full full'
      processPackets c s ps

/-- The external connections of other backends than `c` are as before, their client
connections too, and nothing was delivered to these clients. -/
def OthersKept (c : Peer) (s s' : Sys) : Prop :=
  ∃ ms, s'.sent = s.sent++ms ∧ ∀ a e, s.tables.info a = some e → e.backend ≠ c →
    s'.tables.info a = some e ∧ s'.conns e.inFd = s.conns e.inFd ∧
      ∀ m ∈ ms, ∀ dest source id, delivery m = some (dest,source,id) → dest.fd ≠ e.inFd

/-- The packet closes no external connection of another backend. -/
def ClosesOwn (c : Peer) (s : Sys) (pkt : List UInt8) : Prop :=
  ∀ id, fetchPacket pkt = .closeExt id →
    ∀ a e, s.tables.info a = some e → e.outConnId = id → e.backend = c

variable {s s' s'' : Sys} {c : Peer}

theorem OthersKept.trans (h₁ : OthersKept c s s') (h₂ : OthersKept c s' s'') :
    OthersKept c s s'' := by
  obtain ⟨ms,hms,h₁⟩ := h₁
  obtain ⟨ms',hms',h₂⟩ := h₂
  refine ⟨ms++ms',by rw [hms',hms,List.append_assoc],fun a e ha hc => ?_⟩
  obtain ⟨ha₁,hc₁,hm₁⟩ := h₁ a e ha hc
  obtain ⟨ha₂,hc₂,hm₂⟩ := h₂ a e ha₁ hc
  refine ⟨ha₂,hc₂.trans hc₁,fun m hm => ?_⟩
  rcases List.mem_append.mp hm with hm | hm
  · exact hm₁ m hm
  · exact hm₂ m hm

/-- A packet that leaves the records alone only reaches clients of its sender. -/
theorem Passed.othersKept (hd : Describes s.tables) (hp : Passed s c s') :
    OthersKept c s s' := by
  obtain ⟨ms,hms,hnew⟩ := hp.sent
  refine ⟨ms,hms,fun a e ha hc => ⟨by rw [hp.tables,ha],?_,?_⟩⟩
  · rcases hp.conns e.inFd with hsame | ⟨b,f,hb,hfc,hfd⟩
    · exact hsame
    · have hba := hd.keyed.unique b f a e hb ha hfd
      rw [hba,ha,Option.some.injEq] at hb
      exact (hc (hb ▸ hfc)).elim
  · intro m hm dest source id hdel hdest
    have hown : ∀ b f, s.tables.info b = some f → f.backend = c → f.inFd ≠ e.inFd := by
      intro b f hb hfc hfd
      have hba := hd.keyed.unique b f a e hb ha hfd
      rw [hba,ha,Option.some.injEq] at hb
      exact hc (hb ▸ hfc)
    rcases hnew m hm with ⟨p,x,rfl⟩ | ⟨b,f,hb,hfc,⟨flags,data,rfl⟩ | ⟨confirm,rfl⟩⟩
    · simp [delivery] at hdel
    · simp only [delivery,Option.some.injEq,Prod.mk.injEq] at hdel
      rw [← hdel.1] at hdest
      exact hown b f hb hfc hdest
    · simp only [delivery,Option.some.injEq,Prod.mk.injEq] at hdel
      rw [← hdel.1] at hdest
      exact hown b f hb hfc hdest

/-- The removal of a record is no concern of the others. -/
theorem Removed.othersKept (hd : Describes s.tables) (hr : Removed s a e s')
    (ha : s.tables.info a = some e) (he : e.backend = c) : OthersKept c s s' := by
  obtain ⟨ms,hms,hclose⟩ := hr.sent
  refine ⟨ms,hms,fun b f hb hc => ?_⟩
  have hba : b ≠ a := by
    rintro rfl
    rw [ha,Option.some.injEq] at hb
    exact hc (hb ▸ he)
  have hfd : f.inFd ≠ e.inFd := fun hfd => hba (hd.keyed.unique b f a e hb ha hfd)
  refine ⟨?_,hr.conns_other hfd,fun m hm dest source id hdel => ?_⟩
  · rw [hr.tables.info,Function.update_of_ne hba,hb]
  · obtain ⟨p,x,rfl⟩ := hclose m hm
    simp [delivery] at hdel

/-- One packet: the records of others remain exactly when it closes none of them. -/
theorem processClientPacket_kept (hd : Describes s.tables) (c : Peer) (pkt : List UInt8)
    (full full' : Bool) :
    ∃ s', s.processClientPacket c pkt full full' = .ok s' ∧ Kept s.tables s'.tables ∧
      (∃ ms, s'.sent = s.sent++ms) ∧ (ClosesOwn c s pkt → OthersKept c s s') ∧
      (¬ ClosesOwn c s pkt → ∃ a e, s.tables.info a = some e ∧ e.backend ≠ c ∧
        s'.tables.info a = none) := by
  obtain ⟨s',hs,hout⟩ := processClientPacket_spec hd c pkt full full'
  refine ⟨s',hs,?_⟩
  rcases hout with ⟨hpass,hno⟩ | ⟨id,a,e,hpkt,ha,hid,hrem⟩
  · obtain ⟨ms,hms,-⟩ := hpass.sent
    refine ⟨?_,⟨ms,hms⟩,fun _ => Passed.othersKept hd hpass,fun hn => ?_⟩
    · rw [hpass.tables]
      exact Kept.refl hd
    · exact (hn fun id hpkt a e ha he => (hno id hpkt a e ha he).elim).elim
  · obtain ⟨ms,hms,-⟩ := hrem.sent
    refine ⟨hrem.tables.kept,⟨ms,hms⟩,fun hown => ?_,fun hn => ?_⟩
    · exact Removed.othersKept hd hrem ha (hown id hpkt a e ha hid)
    · refine ⟨a,e,ha,fun hec => hn fun id' hpkt' b f hb hf => ?_,?_⟩
      · rw [hpkt,ClientPacket.closeExt.injEq] at hpkt'
        obtain ⟨o,-,hspec⟩ := findByOutConnId_spec hd.placed id
        have h₁ := (hspec a).mpr ⟨e,ha,hid⟩
        have h₂ := (hspec b).mpr ⟨f,hb,hf.trans hpkt'.symm⟩
        have hba : b = a := Option.some.inj (h₂.symm.trans h₁)
        rw [hba,ha,Option.some.injEq] at hb
        exact hb ▸ hec
      · rw [hrem.tables.info,Function.update_self]

theorem processPackets_kept (hd : Describes s.tables) (c : Peer) (ps : List Packet) :
    ∃ s', processPackets c s ps = .ok s' ∧ Kept s.tables s'.tables ∧
      (∃ ms, s'.sent = s.sent++ms) ∧ (OthersKept c s s' ↔ ∀ p ∈ ps, ClosesOwn c s p.1) := by
  induction ps generalizing s with
  | nil =>
      refine ⟨s,rfl,Kept.refl hd,⟨[],by simp⟩,?_⟩
      simp only [List.not_mem_nil,false_implies,implies_true,iff_true]
      exact ⟨[],by simp,fun a e ha _ => ⟨ha,rfl,by simp⟩⟩
  | cons p ps ih =>
      obtain ⟨pkt,full,full'⟩ := p
      obtain ⟨s₁,hs₁,hk₁,⟨ms₁,hms₁⟩,hyes,hno⟩ := processClientPacket_kept hd c pkt full full'
      obtain ⟨s₂,hs₂,hk₂,⟨ms₂,hms₂⟩,hiff⟩ := ih hk₁.describes
      refine ⟨s₂,by simp [processPackets,hs₁,hs₂],hk₁.trans hk₂,
        ⟨ms₁++ms₂,by rw [hms₂,hms₁,List.append_assoc]⟩,?_⟩
      by_cases hown : ClosesOwn c s pkt
      · have hkept := hyes hown
        -- The records of others are the same before and after the first packet.
        have hsame : (∀ p ∈ ps, ClosesOwn c s₁ p.1) ↔ ∀ p ∈ ps, ClosesOwn c s p.1 := by
          obtain ⟨ms,-,hothers⟩ := hkept
          constructor
          · intro h q hq id hpkt a e ha hid
            by_contra hc
            exact hc (h q hq id hpkt a e (hothers a e ha hc).1 hid)
          · intro h q hq id hpkt a e ha hid
            exact h q hq id hpkt a e (hk₁.info a e ha) hid
        simp only [List.mem_cons,forall_eq_or_imp,hown,true_and]
        rw [← hsame,← hiff]
        constructor
        · rintro ⟨ms,hms,h⟩
          obtain ⟨_,_,h₁⟩ := hkept
          refine ⟨ms₂,hms₂,fun a e ha hc => ?_⟩
          have hold := hk₁.info a e ha
          obtain ⟨ha₂,hc₂,hm₂⟩ := h a e hold hc
          refine ⟨ha₂,hc₂.trans (h₁ a e hold hc).2.1.symm,fun m hm => hm₂ m ?_⟩
          have hsplit : ms = ms₁++ms₂ := by
            rw [hms₂,hms₁,List.append_assoc] at hms
            exact (List.append_cancel_left hms).symm
          rw [hsplit]
          exact List.mem_append_right _ hm
        · exact hkept.trans
      · have hfalse : ¬ ∀ p ∈ (pkt,full,full')::ps, ClosesOwn c s p.1 :=
          fun h => hown (h (pkt,full,full') (by simp))
        simp only [hfalse,iff_false]
        rintro ⟨ms,-,h⟩
        obtain ⟨a,e,ha,hc,hgone⟩ := hno hown
        have hback := hk₂.info a e (h a e ha hc).1
        rw [hgone] at hback
        exact Option.some_ne_none e hback.symm

/-- In every state that a run reaches, and for every sequence of packets of a backend: the
external connections of the other backends and their clients are left as they were if and
only if no packet closes an external connection under the identifier of a live record of
another backend. -/
theorem others_kept_iff (conns : ℕ → Option Conn) (es : List Event)
    (hm : Meets step Permitted (.ok (initial conns)) es) (c : Peer) (ps : List Packet) :
    ∃ r s', run step (.ok (initial conns)) es = .ok r ∧ processPackets c r.sys ps = .ok s' ∧
      (OthersKept c r.sys s' ↔ ∀ p ∈ ps, ∀ id, fetchPacket p.1 = .closeExt id →
        ∀ a e, r.sys.tables.info a = some e → e.outConnId = id → e.backend = c) := by
  obtain ⟨r,hr,hi⟩ := run_invariant ⟨_,rfl,initial_invariant conns⟩ hm
  obtain ⟨s',hs,-,-,hiff⟩ := processPackets_kept hi.describes c ps
  exact ⟨r,s',hr,hs,hiff⟩

/-- `RPC_CLOSE_EXT` for the identifier of the sample run. -/
def sampleClose : Packet :=
  ([0xa2,0x34,0xb6,0x5e,0x07,0x00,0x40,0x00,0x00,0x00,0x00,0x00],false,false)

theorem others_kept_sample :
    ∃ r s', run step (.ok (initial sampleConns)) sampleRun = .ok r ∧
      processPackets ⟨5,1⟩ r.sys [sampleClose] = .ok s' ∧ OthersKept ⟨5,1⟩ r.sys s' := by
  obtain ⟨r,s',hr,hs,hiff⟩ :=
    others_kept_iff sampleConns sampleRun sampleRun_permitted ⟨5,1⟩ [sampleClose]
  refine ⟨r,s',hr,hs,hiff.mpr ?_⟩
  intro p _ id _ a e ha _
  obtain ⟨r',hr',hi⟩ := run_invariant ⟨_,rfl,initial_invariant sampleConns⟩ sampleRun_permitted
  rw [Except.ok.inj (hr'.symm.trans hr)] at hi
  have hrec := hi.recorded a e ha
  rw [sampleRun_given hr,List.mem_singleton,Given.mk.injEq] at hrec
  exact hrec.2.2.2

/-- The second backend closes the external connection of the first and fails its client. -/
theorem foreign_backend_closes :
    Meets step Permitted (.ok (initial sampleConns)) sampleRun ∧
    ∃ r s', run step (.ok (initial sampleConns)) sampleRun = .ok r ∧
      processPackets ⟨6,2⟩ r.sys [sampleClose] = .ok s' ∧ ¬ OthersKept ⟨6,2⟩ r.sys s' ∧
      (r.sys.tables.info 100).map Ext.backend = some ⟨5,1⟩ ∧ s'.tables.info 100 = none ∧
      s'.conns 7 = some {gen := 3, error := some (-33)} := by
  refine ⟨sampleRun_permitted,_,_,rfl,rfl,?_,by decide +kernel,by decide +kernel,
    by decide +kernel⟩
  rintro ⟨ms,-,h⟩
  have hkept := (h 100 ⟨7,3,5,1,0,2^22+7,9⟩ (by decide +kernel) (by decide)).1
  revert hkept
  decide +kernel

end Teleproxy.ExtRouting
