import Teleproxy.ExtPackets
import Teleproxy.Lib.StepSystem

/-!
# Queries forwarded for the clients

A packet of a client becomes a job for the engine thread; the job holds a
reference to the connection. When the connection closes, a notification is put
into a queue of its own, and the engine thread closes the external connection
when it gets to it. Jobs and notifications run one at a time, but a job may run
before or after a notification that was queued later or earlier. A descriptor
is free again when nothing refers to its connection. The thread that reads the
packets of a client also rewrites the flags of its connection, by a load and a
store.

`forward_tcp_query` looks for the record of a client by the descriptor alone.
As long as no job of a connection is forwarded behind its close notification,
the record found is the client's own and none outlives its client.
-/
namespace Teleproxy.QueryForwarding
open ExtConnections DoublyLinked
open StepSystem (run Meets Throughout)

def codeReqPq : ℕ := 0x60469778
def codeReqPqMulti : ℕ := 0xbe7e8ef1
def codeReqDHParams : ℕ := 0xd712e4be
def codeSetClientDHParams : ℕ := 0xf5045f1f

/-- A four-byte number with its sign. -/
def signed32 (n : ℕ) : ℤ := if n < 2^31 then n else n-2^32

/-- The checks of `forward_mtproto_packet` and `forward_mtproto_enc_packet`: the
`auth_key_id` of a packet that goes on to `forward_tcp_query`. The sum `inner_len + 20` is one
of 32-bit integers and wraps. -/
def queryKey (msg : List UInt8) : Option ℕ :=
  let key := littleEndian (msg.take 8)
  let innerLen := signed32 (littleEndian ((msg.drop 16).take 4))
  let function := littleEndian ((msg.drop 20).take 4)
  if msg.length < 28 ∨ msg.length%4 ≠ 0 then none
  else if key ≠ 0 then if msg.length < 56 then none else some key
  else if msg.length < (innerLen+20).bmod (2^32) ∨ innerLen < 20 then none
  else if function ≠ codeReqPq ∧ function ≠ codeReqPqMulti ∧ function ≠ codeReqDHParams ∧
      function ≠ codeSetClientDHParams then none
  else some 0

/-- The state of the engine thread; `dropped` is `RPC_F_DROPPED` of a client. The type of a
client's connection is `ct_tcp_rpc_ext_server_mtfront`, or `ct_tcp_rpc_ext_server_drs` when it
speaks TLS. -/
structure Engine where
  sys : Sys
  dropped : Peer → Bool
  mtfront : Peer → Bool

namespace Engine

/-- The loop of five attempts over `rpc_target_choose_random_connections`, given what
these calls return; without a target there is no call. -/
def chooseConnection (g : Engine) (choices : List (Option Peer)) : Option Peer :=
  ((choices.take 5).filterMap id).find? fun d => g.sys.tag d = Sys.connTag d

/-- The part of `forward_tcp_query` for a client without a usable record; of the flags it
reads `RPC_F_DROPPED`. -/
def forwardNew (g : Engine) (c : Peer) (choices : List (Option Peer)) (flags : Bool) (key a : ℕ)
    (draws : List ℕ) : Except Fault Engine :=
  match g.chooseConnection choices with
  | none =>
      .ok {g with dropped := if g.mtfront c then Function.update g.dropped c true else g.dropped}
  | some d =>
      if flags then .ok {g with sys := g.sys.failConnection c (-35)}
      else do
        let (t,a) ← g.sys.tables.createExtConnection c 0 (some d) key a draws
        let e ← deref (t.info a)
        .ok {g with sys := Sys.send {g.sys with tables := t} (.proxyReq d c e)}

/-- The flags that `forward_tcp_query` goes by: those of the packet, and those of the connection
if it has the type for it. -/
def flagged (g : Engine) (c : Peer) (flags : Bool) : Bool := flags || (g.mtfront c && g.dropped c)

/-- `forward_tcp_query` -/
def forwardTcpQuery (g : Engine) (c : Peer) (choices : List (Option Peer)) (flags : Bool)
    (key a : ℕ) (draws : List ℕ) : Except Fault Engine := do
  match ← g.sys.tables.getByInFd c.fd with
  | none => g.forwardNew c choices (g.flagged c flags) key a draws
  | some b => do
      let s := {g.sys with tables := g.sys.tables.setAuthKeyId b key}
      let e ← deref (s.tables.info b)
      check (0 < e.outFd ∧ e.outFd < maxConnections)
      if (s.connection e.backend).map Conn.target = some true then
        .ok {g with sys := s.send (.proxyReq e.backend c e)}
      else do
        let s ← s.removeExtConnection b 1
        forwardNew {g with sys := s} c choices (g.flagged c flags) key a draws

/-- `do_rpcs_execute` -/
def doRpcsExecute (g : Engine) (c : Peer) (msg : List UInt8) (flags : Bool)
    (choices : List (Option Peer)) (a : ℕ) (draws : List ℕ) : Except Fault Engine := do
  let t ← g.sys.tables.lruInsertConn c
  let g := {g with sys := {g.sys with tables := t}}
  match queryKey msg with
  | none => .ok g
  | some key => g.forwardTcpQuery c choices flags key a draws

/-- `mtproto_ext_rpc_close`, but for the counters -/
def mtprotoExtRpcClose (g : Engine) (c : Peer) : Except Fault Engine := do
  match ← g.sys.tables.getByInFd c.fd with
  | none => .ok g
  | some b => do
      let s ← g.sys.removeExtConnection b 1
      .ok {g with sys := s}

end Engine

/-- A packet for `do_rpcs_execute`, with `RPC_F_DROPPED` of the flags that
`ext_rpcs_execute` found. -/
structure Job where
  msg : List UInt8
  flags : Bool
  deriving DecidableEq, Repr

/-- The connection that a descriptor belongs to. -/
structure Holder where
  gen : ℕ
  backend : Bool
  /-- The ready notification was queued. -/
  ready : Bool := false
  /-- The close notification was queued, and was processed. -/
  shut : Bool := false
  notified : Bool := false
  /-- The jobs that have not run yet. -/
  jobs : List Job := []
  /-- `RPC_F_DROPPED` in the flags that the reader has loaded and is to store again. -/
  loaded : Option Bool := none
  deriving DecidableEq, Repr

/-- A notification: ready or close, of a client or of a backend. -/
structure Note where
  who : Peer
  backend : Bool
  close : Bool
  deriving DecidableEq, Repr

structure World where
  engine : Engine
  holder : ℕ → Option Holder
  notes : List Note
  nextGen : ℕ
  /-- The clients whose close notification was processed. -/
  closed : List Peer

inductive Event where
  | accept (fd : ℕ) (backend : Bool)
  | connected (fd : ℕ)
  | load (fd : ℕ)
  | store (fd : ℕ)
  | receive (fd : ℕ) (msg : List UInt8)
  | shut (fd : ℕ)
  | runJob (fd i : ℕ) (choices : List (Option Peer)) (a : ℕ) (draws : List ℕ)
  | runNote
  | packet (c : Peer) (pkt : List UInt8) (full full' : Bool)
  | release (fd : ℕ)
  | connection (fd : ℕ) (conn : Option Conn)
  deriving DecidableEq, Repr

def initial (conns : ℕ → Option Conn) (mtfront : Peer → Bool) : World where
  engine := ⟨⟨Tables.initial,conns,fun _ => 0,[]⟩,fun _ => false,mtfront⟩
  holder _ := none
  notes := []
  nextGen := 0
  closed := []

/-- `run_notification_event` -/
def runNotificationEvent (g : Engine) (n : Note) : Except Fault Engine :=
  match n.backend, n.close with
  | false, false => do
      let t ← g.sys.tables.lruInsertConn n.who
      .ok {g with sys := {g.sys with tables := t}}
  | false, true => g.mtprotoExtRpcClose n.who
  | true, false => do
      let s ← g.sys.mtfrontClientReady n.who
      .ok {g with sys := s}
  | true, true => do
      let s ← g.sys.mtfrontClientClose n.who
      .ok {g with sys := s}

def setHolder (w : World) (fd : ℕ) (h : Option Holder) : World :=
  {w with holder := Function.update w.holder fd h}

/-- An event that is not possible changes nothing. -/
def perform (w : World) : Event → Except Fault World
  | .accept fd backend =>
      if fd < maxConnections ∧ w.holder fd = none then
        let notes := if backend then [] else [⟨⟨fd,w.nextGen⟩,false,false⟩]
        .ok {setHolder w fd (some {gen := w.nextGen, backend := backend}) with
          nextGen := w.nextGen+1
          notes := w.notes++notes}
      else .ok w
  | .connected fd =>
      match w.holder fd with
      | some h =>
          if h.backend ∧ ¬ h.ready ∧ ¬ h.shut then
            .ok {setHolder w fd (some {h with ready := true}) with
              notes := w.notes++[⟨⟨fd,h.gen⟩,true,false⟩]}
          else .ok w
      | none => .ok w
  | .load fd =>
      match w.holder fd with
      | some h =>
          if ¬ h.backend ∧ ¬ h.shut ∧ h.loaded = none then
            .ok (setHolder w fd (some {h with loaded := some (w.engine.dropped ⟨fd,h.gen⟩)}))
          else .ok w
      | none => .ok w
  | .store fd =>
      match w.holder fd with
      | some h =>
          match h.loaded with
          | some b =>
              .ok {setHolder w fd (some {h with loaded := none}) with
                engine := {w.engine with dropped := Function.update w.engine.dropped ⟨fd,h.gen⟩ b}}
          | none => .ok w
      | none => .ok w
  | .receive fd msg =>
      match w.holder fd with
      | some h =>
          if ¬ h.backend ∧ ¬ h.shut ∧ h.loaded = none then
            .ok (setHolder w fd
              (some {h with jobs := h.jobs++[⟨msg,w.engine.dropped ⟨fd,h.gen⟩⟩]}))
          else .ok w
      | none => .ok w
  | .shut fd =>
      match w.holder fd with
      | some h =>
          if h.shut then .ok w
          else .ok {setHolder w fd (some {h with shut := true}) with
            notes := w.notes++[⟨⟨fd,h.gen⟩,h.backend,true⟩]}
      | none => .ok w
  | .runJob fd i choices a draws =>
      match w.holder fd with
      | some h =>
          match h.jobs[i]? with
          | some job =>
              if w.engine.sys.tables.info a = none then do
                let g ← w.engine.doRpcsExecute ⟨fd,h.gen⟩ job.msg job.flags choices a draws
                .ok {setHolder w fd (some {h with jobs := h.jobs.eraseIdx i}) with engine := g}
              else .ok w
          | none => .ok w
      | none => .ok w
  | .runNote =>
      match w.notes with
      | [] => .ok w
      | n::notes => do
          let g ← runNotificationEvent w.engine n
          let mark := (w.holder n.who.fd).map fun h => {h with notified := h.notified || n.close}
          .ok {setHolder w n.who.fd mark with
            engine := g
            notes := notes
            closed := if n.close ∧ ¬ n.backend then w.closed++[n.who] else w.closed}
  | .packet c pkt full full' => do
      let s ← w.engine.sys.processClientPacket c pkt full full'
      .ok {w with engine := {w.engine with sys := s}}
  | .release fd =>
      match w.holder fd with
      | some h =>
          if h.notified ∧ h.jobs = [] ∧ ∀ n ∈ w.notes, n.who.fd ≠ fd then .ok (setHolder w fd none)
          else .ok w
      | none => .ok w
  | .connection fd conn =>
      let s := {w.engine.sys with conns := Function.update w.engine.sys.conns fd conn}
      .ok {w with engine := {w.engine with sys := s}}

/-- A fault ends the run; a call that still draws has not happened yet. -/
def step (s : Except Fault World) (ev : Event) : Except Fault World :=
  match s with
  | .error f => .error f
  | .ok w =>
      match perform w ev with
      | .error .drawing => .ok w
      | x => x

/-- A packet that makes `forward_tcp_query` open an external connection, when its client
has none. -/
def Forwarded (g : Engine) (c : Peer) (job : Job) (choices : List (Option Peer)) : Prop :=
  queryKey job.msg ≠ none ∧ g.chooseConnection choices ≠ none ∧ g.flagged c job.flags = false

/-- No job is forwarded behind the close notification of its client. The descriptor 0,
which the lists of the clients do not know, belongs to no client with queries. -/
def Timely (s : Except Fault World) (ev : Event) : Prop :=
  match s, ev with
  | .ok w, .runJob fd i choices _ _ => ∀ h job, w.holder fd = some h → h.jobs[i]? = some job →
      Forwarded w.engine ⟨fd,h.gen⟩ job choices → h.notified = false ∧ fd ≠ 0
  | _, _ => True

instance (g : Engine) (c : Peer) (job : Job) (choices : List (Option Peer)) :
    Decidable (Forwarded g c job choices) := by
  unfold Forwarded
  infer_instance

instance : ∀ s ev, Decidable (Timely s ev)
  | .error _, _ => isTrue trivial
  | .ok w, .runJob fd i choices _ _ =>
      match hh : w.holder fd with
      | none => isTrue fun h _ hk => absurd (hh.symm.trans hk) (Option.some_ne_none h).symm
      | some h =>
          match hm : h.jobs[i]? with
          | none => isTrue fun k job hk hkm => by
              rw [hh,Option.some.injEq] at hk
              rw [← hk,hm] at hkm
              exact absurd hkm (Option.some_ne_none job).symm
          | some job => decidable_of_iff
              (Forwarded w.engine ⟨fd,h.gen⟩ job choices → h.notified = false ∧ fd ≠ 0) (by
                constructor
                · intro hall k job' hk hkm
                  rw [hh,Option.some.injEq] at hk
                  subst hk
                  rw [hm,Option.some.injEq] at hkm
                  rw [← hkm]
                  exact hall
                · exact fun hall => hall h job hh hm)
  | .ok _, .accept _ _ => isTrue trivial
  | .ok _, .connected _ => isTrue trivial
  | .ok _, .load _ => isTrue trivial
  | .ok _, .store _ => isTrue trivial
  | .ok _, .receive _ _ => isTrue trivial
  | .ok _, .shut _ => isTrue trivial
  | .ok _, .runNote => isTrue trivial
  | .ok _, .packet _ _ _ _ => isTrue trivial
  | .ok _, .release _ => isTrue trivial
  | .ok _, .connection _ _ => isTrue trivial

/-- Queries went out under the records of their own clients only, and no record is left
of a client whose close notification was processed. -/
structure Own (w : World) : Prop where
  forwarded : ∀ d c e, .proxyReq d c e ∈ w.engine.sys.sent → e.inFd = c.fd ∧ e.inGen = c.gen
  closed : ∀ p ∈ w.closed, ∀ a e, w.engine.sys.tables.info a = some e → e.client ≠ p

/-- The records stay those of the same clients, or one of `c` is new; what is forwarded is
forwarded for `c` under a record of `c`. -/
structure Served (c : Peer) (new : Prop) (s s' : Sys) : Prop where
  describes : Describes s'.tables
  clients : ∀ a e, s'.tables.info a = some e →
    (∃ b f, s.tables.info b = some f ∧ f.client = e.client) ∨ (new ∧ e.client = c)
  sent : ∃ ms, s'.sent = s.sent++ms ∧
    ∀ d x e, .proxyReq d x e ∈ ms → x = c ∧ e.client = c

variable {g g' : Engine} {c : Peer} {flags : Bool} {a key : ℕ} {e : Ext} {new : Prop}
  {choices : List (Option Peer)} {draws : List ℕ}

theorem Served.refl {s : Sys} (hd : Describes s.tables) (c : Peer) (new : Prop) :
    Served c new s s :=
  ⟨hd,fun a e he => Or.inl ⟨a,e,he,rfl⟩,[],by simp,by simp⟩

theorem Served.trans {s s' s'' : Sys} (h₁ : Served c new s s') (h₂ : Served c new s' s'') :
    Served c new s s'' := by
  obtain ⟨ms,hms,hown⟩ := h₁.sent
  obtain ⟨ms',hms',hown'⟩ := h₂.sent
  refine ⟨h₂.describes,fun a e he => ?_,ms++ms',by rw [hms',hms,List.append_assoc],?_⟩
  · rcases h₂.clients a e he with ⟨b,f,hf,hfe⟩ | hnew
    · rw [← hfe]
      exact h₁.clients b f hf
    · exact Or.inr hnew
  · intro d x e he
    rcases List.mem_append.mp he with he | he
    · exact hown d x e he
    · exact hown' d x e he

/-- Steps that add no record and forward nothing. -/
theorem served_of_kept {s s' : Sys} (hk : Kept s.tables s'.tables)
    (hs : ∃ ms, s'.sent = s.sent++ms ∧ ∀ m ∈ ms, ∃ p id, m = .closeConn p id) (c : Peer)
    (new : Prop) : Served c new s s' := by
  obtain ⟨ms,hms,hclose⟩ := hs
  refine ⟨hk.describes,fun a e he => Or.inl ⟨a,e,hk.info a e he,rfl⟩,ms,hms,?_⟩
  intro d x e he
  obtain ⟨p,id,hp⟩ := hclose _ he
  exact Sent.noConfusion hp

/-- A query of `c` goes out to `d` under the record `e`. -/
def Engine.query (g : Engine) (t : Tables) (d c : Peer) (e : Ext) : Engine :=
  {g with sys := Sys.send {g.sys with tables := t} (.proxyReq d c e)}

/-- What `forward_tcp_query` does for a client without a usable record: it drops the query, fails
the connection or makes a record. -/
theorem forwardNew_cases (hd : Describes g.sys.tables) (ha : g.sys.tables.info a = none)
    (hok : g.forwardNew c choices flags key a draws = .ok g') :
    (g.chooseConnection choices = none ∧
      g' = {g with dropped := if g.mtfront c then Function.update g.dropped c true else g.dropped}) ∨
    (g.chooseConnection choices ≠ none ∧ flags = true ∧
      g' = {g with sys := g.sys.failConnection c (-35)}) ∨
    ∃ d t id, g.chooseConnection choices = some d ∧ flags = false ∧
      Registered g.sys.tables a (createdExt c (some d) id key) t ∧
      g' = g.query t d c (createdExt c (some d) id key) := by
  rw [Engine.forwardNew] at hok
  cases hd' : g.chooseConnection choices with
  | none =>
      rw [hd',Except.ok.injEq] at hok
      exact .inl ⟨rfl,hok.symm⟩
  | some d =>
      simp only [hd'] at hok
      split_ifs at hok with hflags
      · exact .inr (.inl ⟨by simp,hflags,(Except.ok.inj hok).symm⟩)
      · obtain ⟨⟨t,x⟩,hcreate,hrest⟩ := bind_eq_ok.mp hok
        obtain ⟨hx,id,hreg⟩ :=
          createExtConnection_ok hd ha (createExtConnection_free hd hcreate) hcreate
        subst hx
        have hta : t.info x = some (createdExt c (some d) id key) := by
          rw [hreg.info,Function.update_self]
        change (deref (t.info x) >>= fun e => Except.ok (g.query t d c e)) = .ok g' at hrest
        rw [hta,deref_some,ok_bind,Except.ok.injEq] at hrest
        exact .inr (.inr ⟨d,t,id,rfl,by simpa using hflags,hreg,hrest.symm⟩)

/-- The client has no record any more that it is found by. -/
structure Cleared (c : Peer) (s s' : Sys) : Prop where
  kept : Kept s.tables s'.tables
  tag : s'.tag = s.tag
  sent : ∃ ms, s'.sent = s.sent++ms ∧ ∀ m ∈ ms, ∃ p id, m = .closeConn p id
  free : ∀ x e, s'.tables.info x = some e → e.inFd = c.fd → c.fd = 0

theorem Cleared.fresh {s s' : Sys} (hc : Cleared c s s') (ha : s.tables.info a = none) :
    s'.tables.info a = none := by
  cases hx : s'.tables.info a with
  | none => rfl
  | some e => simp [hc.kept.info a e hx] at ha

/-- The record that a query goes out under, if its client has one whose backend is there. -/
def Usable (s : Sys) (c : Peer) (b : ℕ) (f : Ext) : Prop :=
  s.tables.info b = some f ∧ f.inFd = c.fd ∧ c.fd ≠ 0 ∧
    (s.connection f.backend).map Conn.target = some true

/-- A query goes out under the record of its client, or that is no use and is cleared away. -/
theorem forwardTcpQuery_cases (hd : Describes g.sys.tables)
    (hok : g.forwardTcpQuery c choices flags key a draws = .ok g') :
    (∃ b f, Usable g.sys c b f ∧
      g' = g.query (g.sys.tables.setAuthKeyId b key) f.backend c {f with authKeyId := key}) ∨
    ((∀ b f, ¬ Usable g.sys c b f) ∧ ∃ s, Cleared c g.sys s ∧
      Engine.forwardNew {g with sys := s} c choices (g.flagged c flags) key a draws = .ok g') := by
  rw [Engine.forwardTcpQuery] at hok
  obtain ⟨r,hget,hok⟩ := bind_eq_ok.mp hok
  have hrange : c.fd < maxConnections := by
    rw [Tables.getByInFd] at hget
    exact (check_bind_eq_ok.mp hget).1
  obtain ⟨r',hget',hspec⟩ := getByInFd_spec hd hrange
  have hrr : r = r' := Except.ok.inj (hget.symm.trans hget')
  subst hrr
  cases r with
  | none =>
      have hfree : ∀ x e, g.sys.tables.info x = some e → e.inFd = c.fd → c.fd = 0 := by
        intro x e he hfd
        by_contra hz
        have := (hspec x).mpr ⟨hz,e,he,hfd⟩
        exact Option.some_ne_none x this.symm
      refine .inr ⟨fun b f hu => hu.2.2.1 (hfree b f hu.1 hu.2.1),g.sys,?_,hok⟩
      exact ⟨Kept.refl hd,rfl,⟨[],by simp,by simp⟩,hfree⟩
  | some b =>
      obtain ⟨hz,f,hf,hfd⟩ := (hspec b).mp rfl
      have hchg := setAuthKeyId_spec hd hf key
      let s : Sys := {g.sys with tables := g.sys.tables.setAuthKeyId b key}
      have hsb : s.tables.info b = some {f with authKeyId := key} := by
        rw [hchg.info,Function.update_self]
      change (deref (s.tables.info b) >>= _) = _ at hok
      rw [hsb,deref_some,ok_bind,check_bind_eq_ok] at hok
      obtain ⟨-,hok⟩ := hok
      split_ifs at hok with hconn
      · exact .inl ⟨b,f,⟨hf,hfd,hz,hconn⟩,(Except.ok.inj hok).symm⟩
      · right
        have hunique : ∀ x e, g.sys.tables.info x = some e → e.inFd = c.fd → x = b :=
          fun x e he hefd => hd.keyed.unique x e b f he hf (hefd.trans hfd.symm)
        obtain ⟨s',hrem,hok⟩ := bind_eq_ok.mp hok
        obtain ⟨s'',hrem',hr⟩ := removeExtConnection_spec hchg.describes hsb 1
        have hss : s' = s'' := Except.ok.inj (hrem.symm.trans hrem')
        subst hss
        have hinfo : ∀ x e, s'.tables.info x = some e → x ≠ b ∧ g.sys.tables.info x = some e := by
          intro x e he
          rw [hr.tables.info,hchg.info,Function.update_idem] at he
          exact update_none_eq_some.mp he
        refine ⟨fun b' f' hu => ?_,s',⟨⟨hr.tables.describes,fun x e he => (hinfo x e he).2,?_,?_⟩,
          hr.tag,hr.sent,fun x e he hefd => ?_⟩,hok⟩
        · have hb := hunique b' f' hu.1 hu.2.1
          subst hb
          have hff : f' = f := Option.some.inj (hu.1.symm.trans hf)
          subst hff
          exact hconn hu.2.2.2
        · exact hr.tables.outId.trans hchg.outId
        · exact hr.tables.created.trans hchg.created
        · exact ((hinfo x e he).1 (hunique x e (hinfo x e he).2 hefd)).elim

theorem forwardTcpQuery_served (hd : Describes g.sys.tables) (ha : g.sys.tables.info a = none)
    (hown : ∀ b f, g.sys.tables.info b = some f → f.inFd = c.fd → f.client = c)
    (hok : g.forwardTcpQuery c choices flags key a draws = .ok g') :
    Served c (g.chooseConnection choices ≠ none ∧ g.flagged c flags = false) g.sys g'.sys := by
  cases forwardTcpQuery_cases hd hok with
  | inl hused =>
      obtain ⟨b,f,⟨hf,hfd,-⟩,hg⟩ := hused
      have hchg := setAuthKeyId_spec hd hf key
      rw [hg]
      refine ⟨hchg.describes,fun x e he => ?_,[_],rfl,?_⟩
      · have he' : (g.sys.tables.setAuthKeyId b key).info x = some e := he
        rw [hchg.info] at he'
        rcases update_eq_some.mp he' with ⟨-,rfl⟩ | ⟨-,he'⟩
        · exact Or.inl ⟨b,f,hf,rfl⟩
        · exact Or.inl ⟨x,e,he',rfl⟩
      · intro d x e he
        rw [List.mem_singleton,Sent.proxyReq.injEq] at he
        rw [he.2.1,he.2.2]
        exact ⟨rfl,hown b f hf hfd⟩
  | inr hnew =>
      obtain ⟨-,s,hc,hok⟩ := hnew
      have hkept := served_of_kept hc.kept hc.sent c
        (g.chooseConnection choices ≠ none ∧ g.flagged c flags = false)
      have hchoose : Engine.chooseConnection {g with sys := s} choices =
          g.chooseConnection choices := by
        simp only [Engine.chooseConnection,hc.tag]
      apply hkept.trans
      rcases forwardNew_cases hc.kept.describes (hc.fresh ha) hok with
        ⟨-,hg⟩ | ⟨-,-,hg⟩ | ⟨d,t,id,hd',hflags,hreg,hg⟩
      · rw [hg]
        exact Served.refl hc.kept.describes c _
      · rw [hg]
        exact ⟨hc.kept.describes,fun a e he => Or.inl ⟨a,e,he,rfl⟩,[],
          by simp [Sys.failConnection],by simp⟩
      · rw [hg]
        refine ⟨hreg.describes,fun b f hf => ?_,[_],rfl,?_⟩
        · have hf' : t.info b = some f := hf
          rw [hreg.info] at hf'
          rcases update_eq_some.mp hf' with ⟨-,rfl⟩ | ⟨-,hf'⟩
          · right
            rw [hchoose] at hd'
            exact ⟨⟨by simp [hd'],hflags⟩,rfl⟩
          · exact Or.inl ⟨b,f,hf',rfl⟩
        · intro d' x' e' he'
          rw [List.mem_singleton,Sent.proxyReq.injEq] at he'
          rw [he'.2.1,he'.2.2]
          exact ⟨rfl,rfl⟩

theorem getByInFd_range {t : Tables} {fd : ℕ} {r : Option ℕ} (hok : t.getByInFd fd = .ok r) :
    fd < maxConnections := by
  rw [Tables.getByInFd] at hok
  exact (check_bind_eq_ok.mp hok).1

/-- Only the list for flood control changes. -/
theorem lruInsertConn_kept {t t' : Tables} (hd : Describes t) (hok : t.lruInsertConn c = .ok t') :
    Kept t t' ∧ t'.info = t.info := by
  obtain ⟨r,hget,-⟩ := bind_eq_ok.mp hok
  obtain ⟨lru,hlru,hd'⟩ := lruInsertConn_spec hd (getByInFd_range hget)
  rw [hok,Except.ok.injEq] at hlru
  rw [hlru]
  exact ⟨⟨hd',fun _ _ hf => hf,rfl,rfl⟩,rfl⟩

theorem doRpcsExecute_served {job : Job} (hd : Describes g.sys.tables)
    (ha : g.sys.tables.info a = none)
    (hown : ∀ b f, g.sys.tables.info b = some f → f.inFd = c.fd → f.client = c)
    (hok : g.doRpcsExecute c job.msg job.flags choices a draws = .ok g') :
    Served c (Forwarded g c job choices) g.sys g'.sys := by
  obtain ⟨t,hlru,hrest⟩ := bind_eq_ok.mp hok
  obtain ⟨hk,hinfo⟩ := lruInsertConn_kept hd hlru
  have hfirst : Served c (Forwarded g c job choices) g.sys {g.sys with tables := t} :=
    served_of_kept hk ⟨[],by simp,by simp⟩ c _
  rcases hkey : queryKey job.msg with _ | key
  · rw [hkey,Except.ok.injEq] at hrest
    rw [← hrest]
    exact hfirst
  · rw [hkey] at hrest
    have hlast := forwardTcpQuery_served (g := {g with sys := {g.sys with tables := t}})
      hk.describes (by rw [hinfo,ha]) (by rw [hinfo]; exact hown) hrest
    refine hfirst.trans ⟨hlast.describes,fun b f hf => ?_,hlast.sent⟩
    rcases hlast.clients b f hf with hold | ⟨⟨hchoose,hdrop⟩,hc⟩
    · exact Or.inl hold
    · exact Or.inr ⟨⟨by simp [hkey],hchoose,hdrop⟩,hc⟩

/-- The record of a client is removed, if it is found. -/
theorem mtprotoExtRpcClose_cases (hd : Describes g.sys.tables)
    (hok : g.mtprotoExtRpcClose c = .ok g') :
    (g' = g ∧ ∀ b f, g.sys.tables.info b = some f → f.inFd = c.fd → c.fd = 0) ∨
    ∃ b f s, g.sys.tables.info b = some f ∧ f.inFd = c.fd ∧ Removed g.sys b f s ∧
      g' = {g with sys := s} := by
  obtain ⟨r,hget,hrest⟩ := bind_eq_ok.mp hok
  obtain ⟨r',hget',hspec⟩ := getByInFd_spec hd (getByInFd_range hget)
  have hrr : r = r' := Except.ok.inj (hget.symm.trans hget')
  subst hrr
  cases r with
  | none =>
      refine .inl ⟨(Except.ok.inj hrest).symm,fun b f hf hfd => ?_⟩
      by_contra hz
      have hsome := (hspec b).mpr ⟨hz,f,hf,hfd⟩
      exact Option.some_ne_none b hsome.symm
  | some b =>
      obtain ⟨-,f,hf,hfd⟩ := (hspec b).mp rfl
      obtain ⟨s,hrem,hrest⟩ := bind_eq_ok.mp hrest
      obtain ⟨s',hrem',hr⟩ := removeExtConnection_spec hd hf 1
      have hss : s = s' := Except.ok.inj (hrem.symm.trans hrem')
      subst hss
      exact .inr ⟨b,f,s,hf,hfd,hr,(Except.ok.inj hrest).symm⟩

/-- The record of a client is gone behind its close notification. -/
theorem mtprotoExtRpcClose_spec (hd : Describes g.sys.tables)
    (hzero : ∀ b f, g.sys.tables.info b = some f → f.inFd ≠ 0)
    (hok : g.mtprotoExtRpcClose c = .ok g') :
    Kept g.sys.tables g'.sys.tables ∧
      (∃ ms, g'.sys.sent = g.sys.sent++ms ∧ ∀ m ∈ ms, ∃ p id, m = .closeConn p id) ∧
      ∀ b f, g'.sys.tables.info b = some f → f.inFd ≠ c.fd := by
  obtain ⟨rfl,hno⟩ | ⟨b,f,s,hf,hfd,hr,rfl⟩ := mtprotoExtRpcClose_cases hd hok
  · refine ⟨Kept.refl hd,⟨[],by simp,by simp⟩,fun b f hf hfd => ?_⟩
    exact hzero b f hf (hfd.trans (hno b f hf hfd))
  · refine ⟨hr.tables.kept,hr.sent,fun x e he hefd => ?_⟩
    change s.tables.info x = some e at he
    rw [hr.tables.info,update_none_eq_some] at he
    exact he.1 (hd.keyed.unique x e b f he.2 hf (hefd.trans hfd.symm))

theorem runNotificationEvent_spec {n : Note} (hd : Describes g.sys.tables)
    (hzero : ∀ b f, g.sys.tables.info b = some f → f.inFd ≠ 0)
    (hok : runNotificationEvent g n = .ok g') :
    Kept g.sys.tables g'.sys.tables ∧
      (∃ ms, g'.sys.sent = g.sys.sent++ms ∧ ∀ m ∈ ms, ∃ p id, m = .closeConn p id) ∧
      (n.close = true → n.backend = false →
        ∀ b f, g'.sys.tables.info b = some f → f.inFd ≠ n.who.fd) := by
  obtain ⟨who,backend,close⟩ := n
  cases backend with
  | false =>
      cases close with
      | false =>
          obtain ⟨t,hlru,hrest⟩ := bind_eq_ok.mp hok
          rw [← Except.ok.inj hrest]
          exact ⟨(lruInsertConn_kept hd hlru).1,⟨[],by simp,by simp⟩,by simp⟩
      | true =>
          obtain ⟨hk,hs,hno⟩ := mtprotoExtRpcClose_spec hd hzero hok
          exact ⟨hk,hs,fun _ _ => hno⟩
  | true =>
      cases close with
      | false =>
          obtain ⟨s,hready,hrest⟩ := bind_eq_ok.mp hok
          obtain ⟨hk,-,hsent⟩ := mtfrontClientReady_spec hd hready
          rw [← Except.ok.inj hrest]
          exact ⟨hk,⟨[],by simp [hsent],by simp⟩,by simp⟩
      | true =>
          obtain ⟨s,hclose,hrest⟩ := bind_eq_ok.mp hok
          obtain ⟨hk,hs⟩ := mtfrontClientClose_spec hd hclose
          rw [← Except.ok.inj hrest]
          exact ⟨hk,hs,by simp⟩

/-- Every record belongs to the client that holds its descriptor, and that client has not
been notified. -/
structure Invariant (w : World) : Prop where
  describes : Describes w.engine.sys.tables
  owned : ∀ a e, w.engine.sys.tables.info a = some e → e.inFd ≠ 0 ∧
    ∃ h, w.holder e.inFd = some h ∧ h.gen = e.inGen ∧ h.backend = false ∧ h.notified = false
  noted : ∀ n ∈ w.notes, ∃ h, w.holder n.who.fd = some h ∧ h.gen = n.who.gen ∧
    h.backend = n.backend
  gens : ∀ fd h, w.holder fd = some h → h.gen < w.nextGen
  queued : ∀ fd h, w.holder fd = some h → h.jobs ≠ [] → h.backend = false
  closed : ∀ p ∈ w.closed, p.gen < w.nextGen ∧
    ∀ h, w.holder p.fd = some h → h.gen = p.gen → h.notified = true
  forwarded : ∀ d c e, .proxyReq d c e ∈ w.engine.sys.sent → e.client = c

theorem initial_invariant (conns : ℕ → Option Conn) (mtfront : Peer → Bool) :
    Invariant (initial conns mtfront) := by
  constructor
  · exact initial_describes
  · simp [initial,Tables.initial]
  · simp [initial]
  · simp [initial]
  · simp [initial]
  · simp [initial]
  · simp [initial]

variable {w w' : World}

theorem Invariant.own (hi : Invariant w) : Own w := by
  constructor
  · intro d c e he
    have hc := hi.forwarded d c e he
    rw [← hc]
    exact ⟨rfl,rfl⟩
  · rintro p hp a e he rfl
    obtain ⟨-,h,hh,hgen,-,hnot⟩ := hi.owned a e he
    rw [(hi.closed e.client hp).2 h hh hgen] at hnot
    exact Bool.noConfusion hnot

/-- The engine takes a step that adds no record and forwards nothing. -/
theorem Invariant.engine {s : Sys} {dropped mtfront : Peer → Bool} (hi : Invariant w)
    (hk : Kept w.engine.sys.tables s.tables)
    (hs : ∃ ms, s.sent = w.engine.sys.sent++ms ∧ ∀ d c e, .proxyReq d c e ∉ ms) :
    Invariant {w with engine := ⟨s,dropped,mtfront⟩} := by
  refine ⟨hk.describes,fun a e he => hi.owned a e (hk.info a e he),hi.noted,hi.gens,hi.queued,
    hi.closed,?_⟩
  obtain ⟨ms,hms,hno⟩ := hs
  intro d c e he
  change .proxyReq d c e ∈ s.sent at he
  rw [hms,List.mem_append] at he
  rcases he with he | he
  · exact hi.forwarded d c e he
  · exact (hno d c e he).elim

/-- A holder changes in what the records do not depend on; it may be notified when it has
no record. -/
theorem Invariant.holder {fd : ℕ} {h : Holder} (hi : Invariant w) (hh : w.holder fd = some h)
    (h' : Holder) (hgen : h'.gen = h.gen) (hback : h'.backend = h.backend)
    (hnot : h'.notified = h.notified ∨ (h'.notified = true ∧
      ∀ a e, w.engine.sys.tables.info a = some e → e.inFd ≠ fd))
    (hjobs : h'.jobs ≠ [] → h.backend = false) : Invariant (setHolder w fd (some h')) := by
  have hat : ∀ fd' k', (setHolder w fd (some h')).holder fd' = some k' →
      ∃ k, w.holder fd' = some k ∧ k'.gen = k.gen ∧
        (k.notified = true → k'.notified = true) ∧ (k'.jobs ≠ [] → k'.backend = false) := by
    intro fd' k' hk
    by_cases hfd : fd' = fd
    · subst hfd
      have hk' : some h' = some k' := by simpa [setHolder] using hk
      rw [← Option.some.inj hk']
      refine ⟨h,hh,hgen,fun hno => ?_,fun hj => hback.trans (hjobs hj)⟩
      rcases hnot with hsame | ⟨htrue,-⟩
      · rw [hsame,hno]
      · exact htrue
    · have hk' : w.holder fd' = some k' := by simpa [setHolder,hfd] using hk
      exact ⟨k',hk',rfl,fun hno => hno,hi.queued fd' k' hk'⟩
  have hof : ∀ fd' k, w.holder fd' = some k →
      ∃ k', (setHolder w fd (some h')).holder fd' = some k' ∧ k'.gen = k.gen ∧
        k'.backend = k.backend ∧ (fd' = fd → k = h ∧ k' = h') ∧ (fd' ≠ fd → k' = k) := by
    intro fd' k hk
    by_cases hfd : fd' = fd
    · subst hfd
      rw [hh,Option.some.injEq] at hk
      subst hk
      exact ⟨h',by simp [setHolder],hgen,hback,fun _ => ⟨rfl,rfl⟩,fun hne => (hne rfl).elim⟩
    · exact ⟨k,by simpa [setHolder,hfd] using hk,rfl,rfl,fun he => (hfd he).elim,fun _ => rfl⟩
  refine ⟨hi.describes,?_,?_,?_,?_,?_,hi.forwarded⟩
  · intro a e he
    obtain ⟨hz,k,hk,hg,hb,hn⟩ := hi.owned a e he
    obtain ⟨k',hk',hg',hb',hat',hother⟩ := hof _ k hk
    refine ⟨hz,k',hk',hg'.trans hg,hb'.trans hb,?_⟩
    by_cases hfd : e.inFd = fd
    · obtain ⟨rfl,rfl⟩ := hat' hfd
      rcases hnot with hsame | ⟨-,hno⟩
      · rw [hsame,hn]
      · exact (hno a e he hfd).elim
    · rw [hother hfd,hn]
  · intro n hn
    obtain ⟨k,hk,hg,hb⟩ := hi.noted n hn
    obtain ⟨k',hk',hg',hb',-⟩ := hof _ k hk
    exact ⟨k',hk',hg'.trans hg,hb'.trans hb⟩
  · intro fd' k' hk'
    obtain ⟨k,hk,hg,-⟩ := hat fd' k' hk'
    rw [hg]
    exact hi.gens fd' k hk
  · intro fd' k' hk'
    obtain ⟨k,-,-,-,hj⟩ := hat fd' k' hk'
    exact hj
  · intro p hp
    refine ⟨(hi.closed p hp).1,fun k' hk' hg' => ?_⟩
    obtain ⟨k,hk,hg,hn,-⟩ := hat p.fd k' hk'
    exact hn ((hi.closed p hp).2 k hk (hg.symm.trans hg'))

/-- A notification is queued for a holder. -/
theorem Invariant.note {n : Note} (hi : Invariant w)
    (hn : ∃ h, w.holder n.who.fd = some h ∧ h.gen = n.who.gen ∧ h.backend = n.backend) :
    Invariant {w with notes := w.notes++[n]} := by
  refine ⟨hi.describes,hi.owned,fun m hm => ?_,hi.gens,hi.queued,hi.closed,hi.forwarded⟩
  rcases List.mem_append.mp hm with hm | hm
  · exact hi.noted m hm
  · rw [List.mem_singleton.mp hm]
    exact hn

/-- A client with nothing left counts as closed. -/
theorem Invariant.close {p : Peer} (hi : Invariant w) (hgen : p.gen < w.nextGen)
    (hp : ∀ h, w.holder p.fd = some h → h.gen = p.gen → h.notified = true) :
    Invariant {w with closed := w.closed++[p]} := by
  refine ⟨hi.describes,hi.owned,hi.noted,hi.gens,hi.queued,fun q hq => ?_,hi.forwarded⟩
  rcases List.mem_append.mp hq with hq | hq
  · exact hi.closed q hq
  · rw [List.mem_singleton.mp hq]
    exact ⟨hgen,hp⟩

/-- A free descriptor gets a new connection. -/
theorem Invariant.accept {fd : ℕ} {backend : Bool} {notes : List Note} (hi : Invariant w)
    (hfree : w.holder fd = none)
    (hnotes : ∀ n ∈ notes, n.who = ⟨fd,w.nextGen⟩ ∧ n.backend = backend) :
    Invariant {setHolder w fd (some {gen := w.nextGen, backend := backend}) with
      nextGen := w.nextGen+1
      notes := w.notes++notes} := by
  have hne : ∀ fd' h, w.holder fd' = some h → fd' ≠ fd := by
    rintro fd' h hh rfl
    rw [hfree] at hh
    exact Option.some_ne_none h hh.symm
  refine ⟨hi.describes,?_,?_,?_,?_,?_,hi.forwarded⟩
  · intro a e he
    obtain ⟨hz,h,hh,hrest⟩ := hi.owned a e he
    exact ⟨hz,h,by simpa [setHolder,hne _ h hh] using hh,hrest⟩
  · intro n hn
    rcases List.mem_append.mp hn with hn | hn
    · obtain ⟨h,hh,hgen⟩ := hi.noted n hn
      exact ⟨h,by simpa [setHolder,hne _ h hh] using hh,hgen⟩
    · obtain ⟨hwho,hback⟩ := hnotes n hn
      rw [hwho,hback]
      exact ⟨{gen := w.nextGen, backend := backend},
        by simp only [setHolder,Function.update_self],rfl,rfl⟩
  · intro fd' h hh
    by_cases hfd : fd' = fd
    · have hh' : some {gen := w.nextGen, backend := backend} = some h := by
        simpa [setHolder,hfd] using hh
      rw [← Option.some.inj hh']
      exact Nat.lt_succ_self _
    · have hh' : w.holder fd' = some h := by simpa [setHolder,hfd] using hh
      exact Nat.lt_succ_of_lt (hi.gens fd' h hh')
  · intro fd' h hh
    by_cases hfd : fd' = fd
    · have hh' : some {gen := w.nextGen, backend := backend} = some h := by
        simpa [setHolder,hfd] using hh
      rw [← Option.some.inj hh']
      exact fun hj => (hj rfl).elim
    · exact hi.queued fd' h (by simpa [setHolder,hfd] using hh)
  · intro p hp
    obtain ⟨hlt,hall⟩ := hi.closed p hp
    refine ⟨Nat.lt_succ_of_lt hlt,fun h hh hgen => ?_⟩
    by_cases hfd : p.fd = fd
    · have hh' : some {gen := w.nextGen, backend := backend} = some h := by
        simpa [setHolder,hfd] using hh
      rw [← Option.some.inj hh'] at hgen
      exact absurd hgen (Nat.ne_of_gt hlt)
    · exact hall h (by simpa [setHolder,hfd] using hh) hgen

/-- A job of a client runs, not behind its close notification if it forwards a query. -/
theorem Invariant.runJob {fd : ℕ} {h : Holder} {job : Job} (hi : Invariant w)
    (hh : w.holder fd = some h) (hjob : h.backend = false)
    (ha : w.engine.sys.tables.info a = none)
    (ht : Forwarded w.engine ⟨fd,h.gen⟩ job choices → h.notified = false ∧ fd ≠ 0)
    (hok : w.engine.doRpcsExecute ⟨fd,h.gen⟩ job.msg job.flags choices a draws = .ok g') :
    Invariant {w with engine := g'} := by
  have hserved := doRpcsExecute_served hi.describes ha
    (by
      intro b f hf hfd
      obtain ⟨-,k,hk,hgen,-⟩ := hi.owned b f hf
      rw [hfd,hh,Option.some.injEq] at hk
      rw [Ext.client,← hgen,← hk]
      simp only at hfd
      rw [hfd]) hok
  obtain ⟨ms,hms,hown⟩ := hserved.sent
  refine ⟨hserved.describes,fun b f hf => ?_,hi.noted,hi.gens,hi.queued,hi.closed,
    fun d c e he => ?_⟩
  · rcases hserved.clients b f hf with ⟨b',f',hf',hsame⟩ | ⟨hfwd,hc⟩
    · have howned := hi.owned b' f' hf'
      rw [Ext.client,Ext.client,Peer.mk.injEq] at hsame
      rw [hsame.1,hsame.2] at howned
      exact howned
    · rw [Ext.client,Peer.mk.injEq] at hc
      rw [hc.1,hc.2]
      obtain ⟨hnot,hz⟩ := ht hfwd
      exact ⟨hz,h,hh,rfl,hjob,hnot⟩
  · change .proxyReq d c e ∈ g'.sys.sent at he
    rw [hms,List.mem_append] at he
    rcases he with he | he
    · exact hi.forwarded d c e he
    · obtain ⟨hc,hec⟩ := hown d c e he
      rw [hec,hc]

/-- The first notification of the queue is processed. -/
theorem Invariant.runNote {n : Note} {notes : List Note} (hi : Invariant w)
    (hn : w.notes = n::notes) (hok : runNotificationEvent w.engine n = .ok g') :
    Invariant {setHolder w n.who.fd
        ((w.holder n.who.fd).map fun h => {h with notified := h.notified || n.close}) with
      engine := g'
      notes := notes
      closed := if n.close ∧ ¬ n.backend then w.closed++[n.who] else w.closed} := by
  obtain ⟨hk,⟨ms,hms,hclose⟩,hgone⟩ :=
    runNotificationEvent_spec hi.describes (fun b f hf => (hi.owned b f hf).1) hok
  obtain ⟨h,hh,hgen,hback⟩ := hi.noted n (by simp [hn])
  have hengine : Invariant {w with engine := g'} := by
    apply hi.engine hk
    refine ⟨ms,hms,fun d c e he => ?_⟩
    obtain ⟨p,id,hp⟩ := hclose _ he
    exact Sent.noConfusion hp
  have hnotes : Invariant {w with engine := g', notes := notes} := by
    refine ⟨hengine.describes,hengine.owned,fun m hm => hi.noted m ?_,hi.gens,hi.queued,
      hi.closed,hengine.forwarded⟩
    rw [hn]
    exact List.mem_cons_of_mem _ hm
  rw [hh,Option.map_some]
  have hmark : Invariant (setHolder {w with engine := g', notes := notes} n.who.fd
      (some {h with notified := h.notified || n.close})) := by
    apply hnotes.holder hh {h with notified := h.notified || n.close} rfl rfl
    · cases hc : n.close with
      | false => exact Or.inl (by simp)
      | true =>
          refine Or.inr ⟨by simp,fun a e he hfd => ?_⟩
          obtain ⟨-,k,hk',-,hb,-⟩ := hnotes.owned a e he
          have hkh : k = h := by
            rw [hfd] at hk'
            exact Option.some.inj (hk'.symm.trans hh)
          rw [hkh,hback] at hb
          exact hgone hc hb a e he hfd
    · exact hi.queued n.who.fd h hh
  by_cases hc : n.close = true ∧ ¬ n.backend = true
  · rw [if_pos hc]
    refine hmark.close (hgen ▸ hi.gens n.who.fd h hh) fun k hk' _ => ?_
    have hk'' : some {h with notified := h.notified || n.close} = some k := by
      simpa [setHolder] using hk'
    rw [← Option.some.inj hk'']
    simp [hc.1]
  · rw [if_neg hc]
    exact hmark

/-- Nothing refers to a connection any more. -/
theorem Invariant.release {fd : ℕ} {h : Holder} (hi : Invariant w) (hh : w.holder fd = some h)
    (hnot : h.notified = true) (hnotes : ∀ n ∈ w.notes, n.who.fd ≠ fd) :
    Invariant (setHolder w fd none) := by
  have hback : ∀ fd' k, (setHolder w fd none).holder fd' = some k → w.holder fd' = some k := by
    intro fd' k hk
    by_cases hfd : fd' = fd
    · simp [setHolder,hfd] at hk
    · simpa [setHolder,hfd] using hk
  refine ⟨hi.describes,?_,?_,?_,?_,?_,hi.forwarded⟩
  · intro a e he
    obtain ⟨hz,k,hk,hgen,hb,hno⟩ := hi.owned a e he
    have hne : e.inFd ≠ fd := by
      intro hfd
      rw [hfd,hh,Option.some.injEq] at hk
      rw [← hk,hnot] at hno
      exact Bool.noConfusion hno
    exact ⟨hz,k,by simpa [setHolder,hne] using hk,hgen,hb,hno⟩
  · intro n hn
    obtain ⟨k,hk,hgen⟩ := hi.noted n hn
    exact ⟨k,by simpa [setHolder,hnotes n hn] using hk,hgen⟩
  · exact fun fd' k hk => hi.gens fd' k (hback fd' k hk)
  · exact fun fd' k hk => hi.queued fd' k (hback fd' k hk)
  · intro p hp
    exact ⟨(hi.closed p hp).1,fun k hk => (hi.closed p hp).2 k (hback p.fd k hk)⟩

/-- An event of a descriptor that is not possible changes nothing. -/
theorem of_guarded {o : Option Holder} {p : Holder → Prop} [DecidablePred p] {f : Holder → World}
    (hok : (match o with
      | some h => if p h then Except.ok (f h) else .ok w
      | none => (.ok w : Except Fault World)) = .ok w') :
    w' = w ∨ ∃ h, o = some h ∧ p h ∧ w' = f h := by
  cases o with
  | none => exact .inl (Except.ok.inj hok).symm
  | some h =>
      dsimp only at hok
      split_ifs at hok with hp
      · exact .inr ⟨h,rfl,hp,(Except.ok.inj hok).symm⟩
      · exact .inl (Except.ok.inj hok).symm

theorem perform_shut {fd : ℕ} (hok : perform w (.shut fd) = .ok w') :
    w' = w ∨ ∃ h, w.holder fd = some h ∧ w' = {setHolder w fd (some {h with shut := true}) with
      notes := w.notes++[⟨⟨fd,h.gen⟩,h.backend,true⟩]} := by
  simp only [perform] at hok
  cases hh : w.holder fd with
  | none =>
      rw [hh,Except.ok.injEq] at hok
      exact .inl hok.symm
  | some h =>
      simp only [hh] at hok
      split_ifs at hok
      · exact .inl (Except.ok.inj hok).symm
      · exact .inr ⟨h,rfl,(Except.ok.inj hok).symm⟩

theorem perform_store {fd : ℕ} (hok : perform w (.store fd) = .ok w') :
    w' = w ∨ ∃ h b, w.holder fd = some h ∧ h.loaded = some b ∧
      w' = {setHolder w fd (some {h with loaded := none}) with
        engine := {w.engine with dropped := Function.update w.engine.dropped ⟨fd,h.gen⟩ b}} := by
  simp only [perform] at hok
  cases hh : w.holder fd with
  | none =>
      rw [hh,Except.ok.injEq] at hok
      exact .inl hok.symm
  | some h =>
      simp only [hh] at hok
      cases hl : h.loaded with
      | none =>
          rw [hl,Except.ok.injEq] at hok
          exact .inl hok.symm
      | some b =>
          rw [hl,Except.ok.injEq] at hok
          exact .inr ⟨h,b,rfl,hl,hok.symm⟩

theorem perform_runJob {fd i : ℕ} (hok : perform w (.runJob fd i choices a draws) = .ok w') :
    (w' = w ∧ ∀ h job, w.holder fd = some h → h.jobs[i]? = some job →
      w.engine.sys.tables.info a ≠ none) ∨
    ∃ h job g', w.holder fd = some h ∧ h.jobs[i]? = some job ∧
      w.engine.sys.tables.info a = none ∧
      w.engine.doRpcsExecute ⟨fd,h.gen⟩ job.msg job.flags choices a draws = .ok g' ∧
      w' = {setHolder w fd (some {h with jobs := h.jobs.eraseIdx i}) with engine := g'} := by
  simp only [perform] at hok
  cases hh : w.holder fd with
  | none =>
      rw [hh,Except.ok.injEq] at hok
      exact .inl ⟨hok.symm,nofun⟩
  | some h =>
      simp only [hh] at hok
      cases hjob : h.jobs[i]? with
      | none =>
          rw [hjob,Except.ok.injEq] at hok
          refine .inl ⟨hok.symm,fun k job hk hkj => ?_⟩
          rw [← Option.some.inj hk,hjob] at hkj
          exact absurd hkj (Option.some_ne_none job).symm
      | some job =>
          simp only [hjob] at hok
          split_ifs at hok with ha
          · obtain ⟨g',hg,hok⟩ := bind_eq_ok.mp hok
            exact .inr ⟨h,job,g',rfl,hjob,ha,hg,(Except.ok.inj hok).symm⟩
          · exact .inl ⟨(Except.ok.inj hok).symm,fun _ _ _ _ => ha⟩

theorem perform_runNote (hok : perform w .runNote = .ok w') :
    w' = w ∨ ∃ n notes g', w.notes = n::notes ∧ runNotificationEvent w.engine n = .ok g' ∧
      w' = {setHolder w n.who.fd
          ((w.holder n.who.fd).map fun h => {h with notified := h.notified || n.close}) with
        engine := g'
        notes := notes
        closed := if n.close ∧ ¬ n.backend then w.closed++[n.who] else w.closed} := by
  simp only [perform] at hok
  cases hn : w.notes with
  | nil =>
      rw [hn,Except.ok.injEq] at hok
      exact .inl hok.symm
  | cons n notes =>
      simp only [hn] at hok
      obtain ⟨g',hg,hok⟩ := bind_eq_ok.mp hok
      exact .inr ⟨n,notes,g',rfl,hg,(Except.ok.inj hok).symm⟩

/-- A packet of a backend adds no record and sends no query. -/
theorem processClientPacket_quiet {s s' : Sys} {pkt : List UInt8} {full full' : Bool}
    (hd : Describes s.tables) (hs : s.processClientPacket c pkt full full' = .ok s') :
    Kept s.tables s'.tables ∧ ∃ ms, s'.sent = s.sent++ms ∧ ∀ d x e, .proxyReq d x e ∉ ms := by
  obtain ⟨s'',hs'',hspec⟩ := processClientPacket_spec hd c pkt full full'
  rw [hs,Except.ok.injEq] at hs''
  subst hs''
  obtain ⟨hp,-⟩ | ⟨id,b,f,-,-,-,hr⟩ := hspec
  · obtain ⟨ms,hms,hall⟩ := hp.sent
    refine ⟨by rw [hp.tables]; exact Kept.refl hd,ms,hms,fun d x e he => ?_⟩
    obtain ⟨p,id,hm⟩ | ⟨b,f,-,-,⟨flags,data,hm⟩ | ⟨confirm,hm⟩⟩ := hall _ he
    · exact Sent.noConfusion hm
    · exact Sent.noConfusion hm
    · exact Sent.noConfusion hm
  · obtain ⟨ms,hms,hall⟩ := hr.sent
    refine ⟨hr.tables.kept,ms,hms,fun d x e he => ?_⟩
    obtain ⟨p,id,hm⟩ := hall _ he
    exact Sent.noConfusion hm

theorem perform_invariant {ev : Event} (hi : Invariant w) (ht : Timely (.ok w) ev)
    (hok : perform w ev = .ok w') : Invariant w' := by
  cases ev with
  | accept fd backend =>
      simp only [perform] at hok
      split_ifs at hok with hfree hb
      · rw [← Except.ok.inj hok]
        exact hi.accept hfree.2 (by simp)
      · rw [← Except.ok.inj hok]
        exact hi.accept hfree.2 (by simpa using hb)
      · rw [← Except.ok.inj hok]
        exact hi
  | connected fd =>
      obtain rfl | ⟨h,hh,hc,rfl⟩ := of_guarded hok
      · exact hi
      · have hset := hi.holder hh {h with ready := true} rfl rfl (Or.inl rfl) (hi.queued fd h hh)
        exact hset.note ⟨{h with ready := true},by simp [setHolder],rfl,hc.1⟩
  | load fd =>
      obtain rfl | ⟨h,hh,-,rfl⟩ := of_guarded hok
      · exact hi
      · exact hi.holder hh _ rfl rfl (Or.inl rfl) (hi.queued fd h hh)
  | store fd =>
      obtain rfl | ⟨h,b,hh,-,rfl⟩ := perform_store hok
      · exact hi
      · have hset := hi.holder hh {h with loaded := none} rfl rfl (Or.inl rfl) (hi.queued fd h hh)
        exact hset.engine (Kept.refl hi.describes) ⟨[],by simp [setHolder],by simp⟩
  | receive fd msg =>
      obtain rfl | ⟨h,hh,hc,rfl⟩ := of_guarded hok
      · exact hi
      · exact hi.holder hh _ rfl rfl (Or.inl rfl) fun _ => by simpa using hc.1
  | shut fd =>
      obtain rfl | ⟨h,hh,rfl⟩ := perform_shut hok
      · exact hi
      · have hset := hi.holder hh {h with shut := true} rfl rfl (Or.inl rfl) (hi.queued fd h hh)
        exact hset.note ⟨{h with shut := true},by simp [setHolder],rfl,rfl⟩
  | runJob fd i choices a draws =>
      obtain ⟨rfl,-⟩ | ⟨h,job,g,hh,hjob,ha,hg,rfl⟩ := perform_runJob hok
      · exact hi
      · have hjobs : h.jobs ≠ [] := List.ne_nil_of_mem (List.mem_of_getElem? hjob)
        have hclient := hi.queued fd h hh hjobs
        have hrun := hi.runJob hh hclient ha (ht h job hh hjob) hg
        exact hrun.holder hh {h with jobs := h.jobs.eraseIdx i} rfl rfl (Or.inl rfl)
          fun _ => hclient
  | runNote =>
      obtain rfl | ⟨n,notes,g,hn,hg,rfl⟩ := perform_runNote hok
      · exact hi
      · exact hi.runNote hn hg
  | packet c pkt full full' =>
      simp only [perform] at hok
      obtain ⟨s,hs,hok⟩ := bind_eq_ok.mp hok
      rw [← Except.ok.inj hok]
      obtain ⟨hk,hsent⟩ := processClientPacket_quiet hi.describes hs
      exact hi.engine hk hsent
  | release fd =>
      obtain rfl | ⟨h,hh,hc,rfl⟩ := of_guarded hok
      · exact hi
      · exact hi.release hh hc.1 hc.2.2
  | connection fd conn =>
      rw [← Except.ok.inj hok]
      exact hi.engine (Kept.refl hi.describes) ⟨[],by simp,by simp⟩

theorem step_invariant {s : Except Fault World} {ev : Event}
    (hi : ∀ w, s = .ok w → Invariant w) (ht : Timely s ev) :
    ∀ w, step s ev = .ok w → Invariant w := by
  intro w' hok
  cases s with
  | error f => simp [step] at hok
  | ok w =>
      simp only [step] at hok
      split at hok
      · rw [← Except.ok.inj hok]
        exact hi w rfl
      · exact perform_invariant (hi w rfl) ht hok

/-- In every run whose forwarded jobs are timely, at every moment: queries went out under
the records of their own clients only, and no record is left of a client whose close
notification was processed. -/
theorem queries_own (conns : ℕ → Option Conn) (mtfront : Peer → Bool) (evs : List Event)
    (ht : Meets step Timely (.ok (initial conns mtfront)) evs) :
    Throughout step (fun s => ∀ w, s = .ok w → Own w) (.ok (initial conns mtfront)) evs := by
  apply StepSystem.throughout_of_invariant (P := fun s => ∀ w, s = .ok w → Invariant w) _ _ _ ht
  · exact fun s ev hi ht => step_invariant hi ht
  · exact fun s hi w hw => (hi w hw).own
  · intro w hw
    rw [← Except.ok.inj hw]
    exact initial_invariant conns mtfront

/-- A query under some key. -/
def sampleQuery : List UInt8 := List.replicate 56 1

/-- A backend and a client come; the client sends a query and leaves. -/
def sampleBefore : List Event :=
  [.accept 5 true,.connected 5,.runNote,.accept 7 false,.runNote,.receive 7 sampleQuery,.shut 7]

def sampleJob (a : ℕ) : Event := .runJob 7 0 [some ⟨5,0⟩] a []

/-- Another client gets the descriptor and sends a query. -/
def sampleAfter : List Event :=
  [.release 7,.accept 7 false,.runNote,.receive 7 sampleQuery,sampleJob 200]

/-- The first query goes out before the client is closed. -/
def sampleRun : List Event := sampleBefore++[sampleJob 100,.runNote]++sampleAfter

/-- The first query goes out after that. -/
def lateRun : List Event := sampleBefore++[.runNote,sampleJob 100]

def sampleConns (fd : ℕ) : Option Conn :=
  if fd = 5 then some {gen := 0, target := true} else none

/-- No client speaks TLS. -/
def sampleWorld : World := initial sampleConns fun _ => true

/-- A property of the state that a run ends in, when it can be computed. -/
theorem ends_of_any {α : Type} {s : Except Fault α} {p : α → Bool} (h : s.toOption.any p = true) :
    ∃ w, s = .ok w ∧ p w = true := by
  cases s with
  | error f => simp [Except.toOption] at h
  | ok w => exact ⟨w,rfl,by simpa [Except.toOption] using h⟩

theorem queries_own_sample :
    (∃ w, run step (.ok sampleWorld) sampleRun = .ok w ∧
      decide (w.closed = [⟨7,1⟩] ∧ w.engine.sys.sent.length = 3) = true) ∧
    Throughout step (fun s => ∀ w, s = .ok w → Own w) (.ok sampleWorld) sampleRun :=
  ⟨ends_of_any (by decide +kernel),queries_own sampleConns (fun _ => true) sampleRun (by decide +kernel)⟩

/-- The record that the late query leaves behind. -/
def lateExt : Ext := ⟨7,1,5,0,0,2^22+7,littleEndian (sampleQuery.take 8)⟩

/-- The record of a closed client is there, and the query of the next client with its
descriptor goes out under it. -/
theorem late_query_misrouted :
    (∃ w, run step (.ok sampleWorld) lateRun = .ok w ∧ ¬ Own w) ∧
    ∃ w, run step (.ok sampleWorld) (lateRun++sampleAfter) = .ok w ∧
      ∃ d c e, .proxyReq d c e ∈ w.engine.sys.sent ∧ e.inGen ≠ c.gen := by
  constructor
  · obtain ⟨w,hw,h⟩ := ends_of_any (s := run step (.ok sampleWorld) lateRun)
      (p := fun w => w.closed.contains ⟨7,1⟩ && w.engine.sys.tables.info 100 == some lateExt)
      (by decide +kernel)
    rw [Bool.and_eq_true,List.contains_iff_mem,beq_iff_eq] at h
    exact ⟨w,hw,fun hown => hown.closed _ h.1 100 _ h.2 rfl⟩
  · obtain ⟨w,hw,h⟩ := ends_of_any
      (s := run step (.ok sampleWorld) (lateRun++sampleAfter))
      (p := fun w => w.engine.sys.sent.contains (.proxyReq ⟨5,0⟩ ⟨7,2⟩ lateExt))
      (by decide +kernel)
    rw [List.contains_iff_mem] at h
    exact ⟨w,hw,⟨5,0⟩,⟨7,2⟩,lateExt,h,by decide⟩

end Teleproxy.QueryForwarding
