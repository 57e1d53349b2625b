import Teleproxy.QueryForwarding

/-!
# The queries of a client that are forwarded

A query that there is no backend for is dropped. From then on no query of that
client must be forwarded, or the backend would see a stream with a gap. The drop
is remembered in a flag of the connection, which `forward_tcp_query` reads for a
client without a usable record; with a backend at hand it then fails the
connection.

The flag is set for connections of the type `ct_tcp_rpc_ext_server_mtfront`
only, which those of TLS clients no longer have when they send queries. And the
reader of the client's packets loads and stores the word that holds the flag, so
a flag set in between is lost. Where neither happens, what is forwarded is the
beginning of what was received.
-/
namespace Teleproxy.ForwardedStream
open ExtConnections QueryForwarding
open StepSystem (run Meets Throughout)

/-- What became of a well-formed packet: whether a query went out, whether a backend was found
by drawing, and whether the connection is failed or gone. -/
structure Entry where
  msg : List UInt8
  sent : Bool
  found : Bool
  failed : Bool
  deriving DecidableEq, Repr

def Entry.dropped (e : Entry) : Bool := !e.sent && !e.found

/-- The program with a record of what was received and executed for each client. -/
structure Front where
  world : World
  received : Peer → List (List UInt8)
  log : Peer → List Entry

def isQuery : Sent → Bool
  | .proxyReq _ _ _ => true
  | _ => false

def entry (g g' : Engine) (c : Peer) (msg : List UInt8) (choices : List (Option Peer)) : Entry where
  msg := msg
  sent := (g'.sys.sent.drop g.sys.sent.length).any isQuery
  found := (g.chooseConnection choices).isSome
  failed := (g'.sys.connection c).all fun conn => conn.error.isSome

/-- The packets that `forward_mtproto_packet` passes on. -/
def wellFormed (msg : List UInt8) : Bool := (queryKey msg).isSome

/-- The program has come from `t.world` to `w`. -/
def Front.note (t : Front) (w : World) : Event → Front
  | .receive fd msg =>
      match t.world.holder fd with
      | some h =>
          if w.holder fd = some h then {t with world := w}
          else
            let c := ⟨fd,h.gen⟩
            {t with world := w, received := Function.update t.received c (t.received c++[msg])}
      | none => {t with world := w}
  | .runJob fd i choices a _ =>
      match t.world.holder fd with
      | some h =>
          match h.jobs[i]? with
          | some job =>
              if t.world.engine.sys.tables.info a = none ∧ wellFormed job.msg then
                let c := ⟨fd,h.gen⟩
                let e := entry t.world.engine w.engine c job.msg choices
                {t with world := w, log := Function.update t.log c (t.log c++[e])}
              else {t with world := w}
          | none => {t with world := w}
      | none => {t with world := w}
  | _ => {t with world := w}

def step (s : Except Fault Front) (ev : Event) : Except Fault Front :=
  match s with
  | .error f => .error f
  | .ok t =>
      match perform t.world ev with
      | .error .drawing => .ok t
      | .error f => .error f
      | .ok w => .ok (t.note w ev)

def start (conns : ℕ → Option Conn) (mtfront : Peer → Bool) : Front :=
  ⟨initial conns mtfront,fun _ => [],fun _ => []⟩

/-- Behind a drop nothing is forwarded, and the connection is failed once there is a backend. What
is forwarded is the beginning of what was received. -/
structure Unbroken (t : Front) : Prop where
  stopped : ∀ c, (t.log c).Pairwise fun x y =>
    x.dropped → y.sent = false ∧ (y.found → y.failed)
  leading : ∀ c, ((t.log c).filter Entry.sent).map Entry.msg <+: (t.received c).filter wellFormed

/-- The jobs of a client run in their order. -/
def InOrder : Event → Prop
  | .runJob _ i _ _ _ => i = 0
  | _ => True

/-- Whether the client has a record whose backend connection is there. -/
def routed (g : Engine) (c : Peer) : Bool :=
  match g.sys.tables.getByInFd c.fd with
  | .ok (some b) => (g.sys.tables.info b).any fun e =>
      (g.sys.connection e.backend).any Conn.target
  | _ => false

/-- A query that is dropped is one of a client without TLS, and not while the reader is rewriting
the flags. -/
def Remembers (s : Except Fault Front) (ev : Event) : Prop :=
  match s, ev with
  | .ok t, .runJob fd i choices _ _ => ∀ h ∈ t.world.holder fd, ∀ job ∈ h.jobs[i]?,
      wellFormed job.msg → t.world.engine.chooseConnection choices = none →
      routed t.world.engine ⟨fd,h.gen⟩ = false →
      t.world.engine.mtfront ⟨fd,h.gen⟩ = true ∧ h.loaded = none
  | _, _ => True

instance : ∀ ev, Decidable (InOrder ev)
  | .runJob _ i _ _ _ => inferInstanceAs (Decidable (i = 0))
  | .accept _ _ | .connected _ | .load _ | .store _ | .receive _ _ | .shut _ | .runNote
  | .packet _ _ _ _ | .release _ | .connection _ _ => isTrue trivial

instance : ∀ s ev, Decidable (Remembers s ev)
  | .ok t, .runJob fd i choices _ _ => inferInstanceAs (Decidable
      (∀ h ∈ t.world.holder fd, ∀ job ∈ h.jobs[i]?, wellFormed job.msg →
        t.world.engine.chooseConnection choices = none →
        routed t.world.engine ⟨fd,h.gen⟩ = false →
        t.world.engine.mtfront ⟨fd,h.gen⟩ = true ∧ h.loaded = none))
  | .error _, _ => isTrue trivial
  | .ok _, .accept _ _ | .ok _, .connected _ | .ok _, .load _ | .ok _, .store _
  | .ok _, .receive _ _ | .ok _, .shut _ | .ok _, .runNote | .ok _, .packet _ _ _ _
  | .ok _, .release _ | .ok _, .connection _ _ => isTrue trivial

section Jobs
variable {g g' : Engine} {c : Peer} {flags : Bool} {a key : ℕ} {msg : List UInt8}
  {choices : List (Option Peer)} {draws : List ℕ}

theorem exists_usable_of_routed (hd : Describes g.sys.tables) (hr : routed g c = true) :
    ∃ b f, Usable g.sys c b f := by
  rw [routed] at hr
  split at hr
  · next b hget =>
      obtain ⟨r,hget',hspec⟩ := getByInFd_spec hd (getByInFd_range hget)
      rw [hget,Except.ok.injEq] at hget'
      obtain ⟨hz,f,hf,hfd⟩ := (hspec b).mp hget'.symm
      rw [hf,Option.any_some] at hr
      refine ⟨b,f,hf,hfd,hz,?_⟩
      cases hconn : g.sys.connection f.backend with
      | none => simp [hconn] at hr
      | some conn =>
          rw [hconn,Option.any_some] at hr
          rw [Option.map_some,hr]
  · exact Bool.noConfusion hr

theorem sent_entry {m : List Sent} (hs : g'.sys.sent = g.sys.sent++m) :
    (entry g g' c msg choices).sent = m.any isQuery := by
  rw [entry,hs,List.drop_left]

theorem not_query_of_closes {ms : List Sent} (hms : ∀ m ∈ ms, ∃ p id, m = .closeConn p id) :
    ms.any isQuery = false := by
  rw [List.any_eq_false]
  intro m hm
  obtain ⟨p,id,rfl⟩ := hms m hm
  simp [isQuery]

theorem failed_of_failConnection {s : Sys} (hg : g'.sys = s.failConnection c (-35)) :
    (entry g g' c msg choices).failed = true := by
  simp only [entry,hg,Sys.connection,Sys.failConnection,Function.update_self]
  cases hc : s.conns c.fd with
  | none => rfl
  | some conn =>
      by_cases hgen : conn.gen = c.gen
      · cases herr : conn.error with
        | none => simp [hgen,herr]
        | some err => simp [hgen,herr]
      · simp [hgen]

/-- The four ends of a job. -/
inductive Ran (g g' : Engine) (c : Peer) (flags : Bool) (msg : List UInt8)
    (choices : List (Option Peer)) : Prop where
  | ignored (hkey : wellFormed msg = false) (hk : Kept g.sys.tables g'.sys.tables)
      (hdrop : g'.dropped = g.dropped)
  | sent (hkey : wellFormed msg = true) (hd : Describes g'.sys.tables)
      (hdrop : g'.dropped = g.dropped)
      (hinfo : ∀ x e, g'.sys.tables.info x = some e →
        e.inFd = c.fd ∨ g.sys.tables.info x = some e)
      (hsent : (entry g g' c msg choices).sent = true)
      (hfree : (∃ b f, Usable g.sys c b f) ∨ g.flagged c flags = false)
  | dropped (hkey : wellFormed msg = true) (hk : Kept g.sys.tables g'.sys.tables)
      (hdrop : g'.dropped =
        if g.mtfront c then Function.update g.dropped c true else g.dropped)
      (hnone : g.chooseConnection choices = none) (hno : ∀ b f, ¬ Usable g.sys c b f)
      (hfree : ∀ x e, g'.sys.tables.info x = some e → e.inFd = c.fd → c.fd = 0)
      (hsent : (entry g g' c msg choices).sent = false)
  | failed (hkey : wellFormed msg = true) (hk : Kept g.sys.tables g'.sys.tables)
      (hdrop : g'.dropped = g.dropped) (hsome : g.chooseConnection choices ≠ none)
      (hflag : g.flagged c flags = true)
      (hsent : (entry g g' c msg choices).sent = false)
      (hfailed : (entry g g' c msg choices).failed = true)

theorem wellFormed_of_key (hkey : queryKey msg = some key) : wellFormed msg = true := by
  rw [wellFormed,hkey,Option.isSome_some]

/-- The record is used, or there is none and the rest is decided by the draw and the flags. -/
theorem forwardTcpQuery_ran (hd : Describes g.sys.tables) (ha : g.sys.tables.info a = none)
    (hkey : queryKey msg = some key)
    (hok : g.forwardTcpQuery c choices flags key a draws = .ok g') :
    Ran g g' c flags msg choices ∧ g'.mtfront = g.mtfront := by
  have hwf := wellFormed_of_key hkey
  cases forwardTcpQuery_cases hd hok with
  | inl hused =>
      obtain ⟨b,f,hu,rfl⟩ := hused
      have hchg := setAuthKeyId_spec hd hu.1 key
      refine ⟨.sent hwf hchg.describes rfl (fun x e he => ?_) ?_ (.inl ⟨b,f,hu⟩),rfl⟩
      · have he' : (g.sys.tables.setAuthKeyId b key).info x = some e := he
        rw [hchg.info] at he'
        cases update_eq_some.mp he' with
        | inl hx => exact .inl (hx.2 ▸ hu.2.1)
        | inr hx => exact .inr hx.2
      · rw [sent_entry (m := [.proxyReq f.backend c {f with authKeyId := key}]) rfl]
        rfl
  | inr hnew =>
      obtain ⟨hno,s,hc,hok⟩ := hnew
      obtain ⟨ms,hms,hcloses⟩ := hc.sent
      have hchoose : Engine.chooseConnection {g with sys := s} choices =
          g.chooseConnection choices := by
        simp only [Engine.chooseConnection,hc.tag]
      obtain hdrop | hfail | hmade := forwardNew_cases hc.kept.describes (hc.fresh ha) hok
      · obtain ⟨hnone,rfl⟩ := hdrop
        rw [hchoose] at hnone
        refine ⟨.dropped hwf hc.kept rfl hnone hno hc.free ?_,rfl⟩
        rw [sent_entry hms,not_query_of_closes hcloses]
      · obtain ⟨hsome,hflag,rfl⟩ := hfail
        rw [hchoose] at hsome
        refine ⟨.failed hwf hc.kept rfl hsome hflag ?_ (failed_of_failConnection rfl),rfl⟩
        rw [sent_entry hms,not_query_of_closes hcloses]
      · obtain ⟨d,t,id,-,hflag,hreg,rfl⟩ := hmade
        refine ⟨.sent hwf hreg.describes rfl (fun x e he => ?_) ?_ (.inr hflag),rfl⟩
        · have he' : t.info x = some e := he
          rw [hreg.info] at he'
          cases update_eq_some.mp he' with
          | inl hx => exact .inl (hx.2 ▸ rfl)
          | inr hx => exact .inr (hc.kept.info x e hx.2)
        · have hs : (Engine.query {g with sys := s} t d c (createdExt c (some d) id key)).sys.sent =
              g.sys.sent++(ms++[.proxyReq d c (createdExt c (some d) id key)]) := by
            rw [← List.append_assoc,← hms]
            rfl
          rw [sent_entry hs,List.any_append]
          simp [isQuery]

/-- A change of the list for flood control matters to none of this. -/
theorem Ran.of_tables {t : Tables} (hk : Kept g.sys.tables t) (hinfo : t.info = g.sys.tables.info)
    (hr : Ran {g with sys := {g.sys with tables := t}} g' c flags msg choices) :
    Ran g g' c flags msg choices := by
  have husable : ∀ b f, Usable {g.sys with tables := t} c b f ↔ Usable g.sys c b f := by
    intro b f
    simp only [Usable,hinfo]
    exact Iff.rfl
  cases hr with
  | ignored hkey hk' hdrop => exact .ignored hkey (hk.trans hk') hdrop
  | sent hkey hd' hdrop hnew hsent hfree =>
      refine .sent hkey hd' hdrop (fun x e he => ?_) hsent ?_
      · exact (hnew x e he).imp_right (hk.info x e)
      · exact hfree.imp_left fun ⟨b,f,hu⟩ => ⟨b,f,(husable b f).mp hu⟩
  | dropped hkey hk' hdrop hnone hno hfree hsent =>
      exact .dropped hkey (hk.trans hk') hdrop hnone
        (fun b f hu => hno b f ((husable b f).mpr hu)) hfree hsent
  | failed hkey hk' hdrop hsome hflag hsent hfailed =>
      exact .failed hkey (hk.trans hk') hdrop hsome hflag hsent hfailed

theorem doRpcsExecute_ran (hd : Describes g.sys.tables) (ha : g.sys.tables.info a = none)
    (hok : g.doRpcsExecute c msg flags choices a draws = .ok g') :
    Ran g g' c flags msg choices ∧ g'.mtfront = g.mtfront := by
  obtain ⟨t,hlru,hrest⟩ := bind_eq_ok.mp hok
  obtain ⟨hk,hinfo⟩ := lruInsertConn_kept hd hlru
  cases hkey : queryKey msg with
  | none =>
      rw [hkey,Except.ok.injEq] at hrest
      rw [← hrest]
      exact ⟨.ignored (by simp [wellFormed,hkey]) hk rfl,rfl⟩
  | some key =>
      rw [hkey] at hrest
      have hran := forwardTcpQuery_ran (g := {g with sys := {g.sys with tables := t}})
        hk.describes (by rw [hinfo,ha]) hkey hrest
      exact ⟨hran.1.of_tables hk hinfo,hran.2⟩

/-- A notification adds no record and leaves the flags. -/
theorem runNotificationEvent_kept {n : Note} (hd : Describes g.sys.tables)
    (hok : runNotificationEvent g n = .ok g') :
    Kept g.sys.tables g'.sys.tables ∧ g'.dropped = g.dropped ∧ g'.mtfront = g.mtfront := by
  obtain ⟨who,backend,close⟩ := n
  cases backend with
  | false =>
      cases close with
      | false =>
          obtain ⟨t,hlru,hrest⟩ := bind_eq_ok.mp hok
          rw [← Except.ok.inj hrest]
          exact ⟨(lruInsertConn_kept hd hlru).1,rfl,rfl⟩
      | true =>
          obtain ⟨rfl,-⟩ | ⟨b,f,s,-,-,hr,rfl⟩ := mtprotoExtRpcClose_cases hd hok
          · exact ⟨Kept.refl hd,rfl,rfl⟩
          · exact ⟨hr.tables.kept,rfl,rfl⟩
  | true =>
      cases close with
      | false =>
          obtain ⟨s,hready,hrest⟩ := bind_eq_ok.mp hok
          rw [← Except.ok.inj hrest]
          exact ⟨(mtfrontClientReady_spec hd hready).1,rfl,rfl⟩
      | true =>
          obtain ⟨s,hclose,hrest⟩ := bind_eq_ok.mp hok
          rw [← Except.ok.inj hrest]
          exact ⟨(mtfrontClientClose_spec hd hclose).1,rfl,rfl⟩

end Jobs

/-- A query of the client was dropped. -/
def Drops (log : Peer → List Entry) (c : Peer) : Prop := ∃ e ∈ log c, e.dropped = true

/-- The well-formed packets of a client that are still to be executed. -/
def pending (holder : ℕ → Option Holder) (c : Peer) : List (List UInt8) :=
  match holder c.fd with
  | some h => if h.gen = c.gen then (h.jobs.map Job.msg).filter wellFormed else []
  | none => []

/-- What is known about the drops. -/
structure Inv (g : Engine) (holder : ℕ → Option Holder) (nextGen : ℕ)
    (received : Peer → List (List UInt8)) (log : Peer → List Entry) : Prop where
  describes : Describes g.sys.tables
  gens : ∀ fd h, holder fd = some h → h.gen < nextGen
  known : ∀ c, nextGen ≤ c.gen → received c = [] ∧ log c = []
  /-- The flag stands for a drop, wherever it is. -/
  marked : ∀ c, g.dropped c = true → Drops log c
  carried : ∀ fd h, holder fd = some h →
    (∀ job ∈ h.jobs, job.flags = true → Drops log ⟨fd,h.gen⟩) ∧
    (h.loaded = some true → Drops log ⟨fd,h.gen⟩)
  /-- A drop is remembered, and its client has no record that it is found by. -/
  remembered : ∀ c, Drops log c → g.mtfront c = true ∧ g.dropped c = true
  held : ∀ fd h, holder fd = some h → Drops log ⟨fd,h.gen⟩ → h.loaded ≠ some false ∧
    ∀ x e, g.sys.tables.info x = some e → e.inFd = fd → fd = 0
  stopped : ∀ c, (log c).Pairwise fun x y => x.dropped → y.sent = false ∧ (y.found → y.failed)
  unsent : ∀ c, ∀ e ∈ log c, e.sent = false → Drops log c
  sorted : ∀ c, (log c).Pairwise fun x y => x.sent = false → y.sent = false
  stream : ∀ c, (log c).map Entry.msg++pending holder c = (received c).filter wellFormed

section Steps
variable {g g' : Engine} {holder : ℕ → Option Holder} {nextGen : ℕ}
  {received : Peer → List (List UInt8)} {log : Peer → List Entry}

/-- The engine takes a step that adds no record and leaves the flags. -/
theorem Inv.engine (hi : Inv g holder nextGen received log)
    (hk : Kept g.sys.tables g'.sys.tables) (hdrop : g'.dropped = g.dropped)
    (hmt : g'.mtfront = g.mtfront) : Inv g' holder nextGen received log := by
  refine ⟨hk.describes,hi.gens,hi.known,?_,hi.carried,?_,?_,hi.stopped,hi.unsent,hi.sorted,
    hi.stream⟩
  · rw [hdrop]
    exact hi.marked
  · rw [hdrop,hmt]
    exact hi.remembered
  · intro fd h hh hd
    obtain ⟨hl,hno⟩ := hi.held fd h hh hd
    exact ⟨hl,fun x e he => hno x e (hk.info x e he)⟩

theorem update_holder {fd fd' : ℕ} {h' k : Holder}
    (hk : Function.update holder fd (some h') fd' = some k) :
    (fd' = fd ∧ k = h') ∨ (fd' ≠ fd ∧ holder fd' = some k) := by
  by_cases hfd : fd' = fd
  · subst hfd
    rw [Function.update_self,Option.some.injEq] at hk
    exact .inl ⟨rfl,hk.symm⟩
  · rw [Function.update_of_ne hfd] at hk
    exact .inr ⟨hfd,hk⟩

theorem pending_update_of_ne {fd : ℕ} {c : Peer} (hfd : c.fd ≠ fd) (h' : Option Holder) :
    pending (Function.update holder fd h') c = pending holder c := by
  rw [pending,pending,Function.update_of_ne hfd]

theorem pending_update {fd : ℕ} {c : Peer} (hfd : c.fd = fd) (h' : Holder) :
    pending (Function.update holder fd (some h')) c =
      if h'.gen = c.gen then (h'.jobs.map Job.msg).filter wellFormed else [] := by
  rw [pending,hfd,Function.update_self]

theorem pending_eq {fd : ℕ} {c : Peer} {h : Holder} (hfd : c.fd = fd) (hh : holder fd = some h) :
    pending holder c =
      if h.gen = c.gen then (h.jobs.map Job.msg).filter wellFormed else [] := by
  rw [pending,hfd,hh]

/-- A holder changes while its jobs to be logged stay the same. -/
theorem Inv.setHolder (hi : Inv g holder nextGen received log) {fd : ℕ} {h m : Holder}
    (hh : holder fd = some h) (hgen : m.gen = h.gen) (hsub : m.jobs ⊆ h.jobs)
    (hjobs : (m.jobs.map Job.msg).filter wellFormed = (h.jobs.map Job.msg).filter wellFormed)
    (hl : m.loaded = some true → Drops log ⟨fd,h.gen⟩)
    (hl' : Drops log ⟨fd,h.gen⟩ → m.loaded ≠ some false) :
    Inv g (Function.update holder fd (some m)) nextGen received log := by
  refine ⟨hi.describes,?_,hi.known,hi.marked,?_,hi.remembered,?_,hi.stopped,hi.unsent,hi.sorted,?_⟩
  · intro fd' k hk
    obtain ⟨-,rfl⟩ | ⟨-,hk⟩ := update_holder hk
    · exact hgen ▸ hi.gens fd h hh
    · exact hi.gens fd' k hk
  · intro fd' k hk
    obtain ⟨rfl,rfl⟩ | ⟨-,hk⟩ := update_holder hk
    · rw [hgen]
      exact ⟨fun job hj => (hi.carried fd' h hh).1 job (hsub hj),hl⟩
    · exact hi.carried fd' k hk
  · intro fd' k hk hd
    obtain ⟨rfl,rfl⟩ | ⟨-,hk⟩ := update_holder hk
    · rw [hgen] at hd
      exact ⟨hl' hd,(hi.held fd' h hh hd).2⟩
    · exact hi.held fd' k hk hd
  · intro c
    rw [← hi.stream c]
    by_cases hfd : c.fd = fd
    · rw [pending_update hfd,pending_eq hfd hh,hgen,hjobs]
    · rw [pending_update_of_ne hfd]

theorem Inv.notify (hi : Inv g holder nextGen received log) (fd : ℕ) (close : Bool) :
    Inv g (Function.update holder fd
      ((holder fd).map fun h => {h with notified := h.notified || close})) nextGen received log := by
  cases hh : holder fd with
  | none =>
      rw [Option.map_none,← hh,Function.update_eq_self]
      exact hi
  | some h =>
      exact hi.setHolder (m := {h with notified := h.notified || close}) hh rfl (fun _ hj => hj) rfl
        (hi.carried fd h hh).2 fun hd => (hi.held fd h hh hd).1

/-- The reader stores what it has loaded. -/
theorem Inv.store (hi : Inv g holder nextGen received log) {c : Peer} {b : Bool}
    (hb : b = true → Drops log c) (hb' : Drops log c → b = true) :
    Inv {g with dropped := Function.update g.dropped c b} holder nextGen received log := by
  refine ⟨hi.describes,hi.gens,hi.known,?_,hi.carried,?_,hi.held,hi.stopped,hi.unsent,hi.sorted,
    hi.stream⟩
  · intro d hd
    by_cases hdc : d = c
    · subst hdc
      apply hb
      simpa using hd
    · exact hi.marked d (by simpa [hdc] using hd)
  · intro d hd
    refine ⟨(hi.remembered d hd).1,?_⟩
    by_cases hdc : d = c
    · subst hdc
      simpa using hb' hd
    · simpa [hdc] using (hi.remembered d hd).2

theorem Inv.receive (hi : Inv g holder nextGen received log) {fd : ℕ} {h : Holder}
    (hh : holder fd = some h) (msg : List UInt8) :
    Inv g (Function.update holder fd
        (some {h with jobs := h.jobs++[⟨msg,g.dropped ⟨fd,h.gen⟩⟩]})) nextGen
      (Function.update received ⟨fd,h.gen⟩ (received ⟨fd,h.gen⟩++[msg])) log := by
  refine ⟨hi.describes,?_,?_,hi.marked,?_,hi.remembered,?_,hi.stopped,hi.unsent,hi.sorted,?_⟩
  · intro fd' k hk
    obtain ⟨-,rfl⟩ | ⟨-,hk⟩ := update_holder hk
    · exact hi.gens fd h hh
    · exact hi.gens fd' k hk
  · intro c hc
    have hne : c ≠ ⟨fd,h.gen⟩ := by
      rintro rfl
      exact absurd (hi.gens fd h hh) (Nat.not_lt.mpr hc)
    rw [Function.update_of_ne hne]
    exact hi.known c hc
  · intro fd' k hk
    obtain ⟨rfl,rfl⟩ | ⟨-,hk⟩ := update_holder hk
    · refine ⟨fun job hj hflags => ?_,(hi.carried fd' h hh).2⟩
      rw [List.mem_append,List.mem_singleton] at hj
      cases hj with
      | inl hj => exact (hi.carried fd' h hh).1 job hj hflags
      | inr hj =>
          rw [hj] at hflags
          exact hi.marked _ hflags
    · exact hi.carried fd' k hk
  · intro fd' k hk hd
    obtain ⟨rfl,rfl⟩ | ⟨-,hk⟩ := update_holder hk
    · exact hi.held fd' h hh hd
    · exact hi.held fd' k hk hd
  · intro c
    by_cases hc : c = ⟨fd,h.gen⟩
    · have hfd : c.fd = fd := by rw [hc]
      have hgen : h.gen = c.gen := by rw [hc]
      rw [← hc,Function.update_self,List.filter_append,← hi.stream,pending_update hfd,
        pending_eq hfd hh,if_pos hgen,if_pos hgen,List.map_append,List.filter_append,
        List.append_assoc]
      rfl
    · rw [Function.update_of_ne hc,← hi.stream c]
      by_cases hfd : c.fd = fd
      · have hgen : h.gen ≠ c.gen := by
          intro hg
          apply hc
          rw [hg,← hfd]
        rw [pending_update hfd,pending_eq hfd hh,if_neg hgen,if_neg hgen]
      · rw [pending_update_of_ne hfd]

/-- A free descriptor gets a connection. -/
theorem Inv.accept (hi : Inv g holder nextGen received log) {fd : ℕ} (backend : Bool)
    (hfree : holder fd = none) :
    Inv g (Function.update holder fd (some {gen := nextGen, backend := backend})) (nextGen+1)
      received log := by
  have hnew : ¬ Drops log ⟨fd,nextGen⟩ := by
    rintro ⟨e,he,-⟩
    rw [(hi.known ⟨fd,nextGen⟩ le_rfl).2] at he
    exact absurd he List.not_mem_nil
  refine ⟨hi.describes,?_,?_,hi.marked,?_,hi.remembered,?_,hi.stopped,hi.unsent,hi.sorted,?_⟩
  · intro fd' k hk
    obtain ⟨-,rfl⟩ | ⟨-,hk⟩ := update_holder hk
    · exact Nat.lt_succ_self _
    · exact Nat.lt_succ_of_lt (hi.gens fd' k hk)
  · exact fun c hc => hi.known c (Nat.le_of_succ_le hc)
  · intro fd' k hk
    obtain ⟨-,rfl⟩ | ⟨-,hk⟩ := update_holder hk
    · exact ⟨nofun,nofun⟩
    · exact hi.carried fd' k hk
  · intro fd' k hk hd
    obtain ⟨rfl,rfl⟩ | ⟨-,hk⟩ := update_holder hk
    · exact (hnew hd).elim
    · exact hi.held fd' k hk hd
  · intro c
    rw [← hi.stream c]
    by_cases hfd : c.fd = fd
    · rw [pending_update hfd,pending,hfd,hfree]
      simp
    · rw [pending_update_of_ne hfd]

theorem Inv.release (hi : Inv g holder nextGen received log) {fd : ℕ} {h : Holder}
    (hh : holder fd = some h) (hjobs : h.jobs = []) :
    Inv g (Function.update holder fd none) nextGen received log := by
  have hback : ∀ fd' k, Function.update holder fd none fd' = some k → holder fd' = some k := by
    intro fd' k hk
    by_cases hfd : fd' = fd
    · simp [hfd] at hk
    · simpa [hfd] using hk
  refine ⟨hi.describes,?_,hi.known,hi.marked,?_,hi.remembered,?_,hi.stopped,hi.unsent,hi.sorted,?_⟩
  · exact fun fd' k hk => hi.gens fd' k (hback fd' k hk)
  · exact fun fd' k hk => hi.carried fd' k (hback fd' k hk)
  · exact fun fd' k hk => hi.held fd' k (hback fd' k hk)
  · intro c
    rw [← hi.stream c]
    by_cases hfd : c.fd = fd
    · rw [pending_eq hfd hh,hjobs,pending,hfd,Function.update_self]
      simp
    · rw [pending_update_of_ne hfd]

/-- A job that is not logged is taken from the queue. -/
theorem Inv.skip (hi : Inv g holder nextGen received log) {fd : ℕ} {h : Holder} {job : Job}
    {rest : List Job} (hh : holder fd = some h) (hjobs : h.jobs = job::rest)
    (hwf : wellFormed job.msg = false) :
    Inv g (Function.update holder fd (some {h with jobs := rest})) nextGen received log := by
  refine hi.setHolder hh rfl ?_ ?_ ?_ ?_
  · rw [hjobs]
    exact List.subset_cons_self job rest
  · rw [hjobs,List.map_cons,List.filter_cons_of_neg (by simp [hwf])]
  · exact (hi.carried fd h hh).2
  · exact fun hd => (hi.held fd h hh hd).1

theorem Drops.mono {c d : Peer} {e : Entry} (hd : Drops log d) :
    Drops (Function.update log c (log c++[e])) d := by
  obtain ⟨x,hx,hdrop⟩ := hd
  by_cases hdc : d = c
  · subst hdc
    exact ⟨x,by simp [hx],hdrop⟩
  · exact ⟨x,by simpa [hdc] using hx,hdrop⟩

theorem Drops.of_update {c d : Peer} {e : Entry}
    (hd : Drops (Function.update log c (log c++[e])) d) :
    Drops log d ∨ (d = c ∧ e.dropped = true) := by
  obtain ⟨x,hx,hdrop⟩ := hd
  by_cases hdc : d = c
  · subst hdc
    rw [Function.update_self,List.mem_append,List.mem_singleton] at hx
    cases hx with
    | inl hx => exact .inl ⟨x,hx,hdrop⟩
    | inr hx => exact .inr ⟨rfl,hx ▸ hdrop⟩
  · exact .inl ⟨x,by simpa [hdc] using hx,hdrop⟩

/-- The first job of a client is executed and logged. -/
theorem Inv.append (hi : Inv g holder nextGen received log) {fd : ℕ} {h : Holder} {job : Job}
    {rest : List Job} {e : Entry} {log' : Peer → List Entry} (hh : holder fd = some h)
    (hjobs : h.jobs = job::rest) (hwf : wellFormed job.msg = true) (he : e.msg = job.msg)
    (hlog : log' = Function.update log ⟨fd,h.gen⟩ (log ⟨fd,h.gen⟩++[e]))
    (hd : Describes g'.sys.tables)
    (hmark : ∀ c, g'.dropped c = true → Drops log' c)
    (hrem : ∀ c, Drops log' c → g'.mtfront c = true ∧ g'.dropped c = true)
    (hheld : Drops log' ⟨fd,h.gen⟩ → h.loaded ≠ some false ∧
      ∀ x f, g'.sys.tables.info x = some f → f.inFd = fd → fd = 0)
    (hinfo : ∀ x f, g'.sys.tables.info x = some f → f.inFd = fd ∨ g.sys.tables.info x = some f)
    (hstop : Drops log ⟨fd,h.gen⟩ → e.sent = false ∧ (e.found → e.failed))
    (hunsent : e.sent = false → Drops log' ⟨fd,h.gen⟩) :
    Inv g' (Function.update holder fd (some {h with jobs := rest})) nextGen received log' := by
  have hmono : ∀ {c}, Drops log c → Drops log' c := fun hd => hlog ▸ hd.mono
  have hsame : ∀ {c}, c ≠ ⟨fd,h.gen⟩ → log' c = log c := by
    intro c hc
    rw [hlog,Function.update_of_ne hc]
  have hself : log' ⟨fd,h.gen⟩ = log ⟨fd,h.gen⟩++[e] := by rw [hlog,Function.update_self]
  constructor
  · exact hd
  · intro fd' k hk
    obtain ⟨-,rfl⟩ | ⟨-,hk⟩ := update_holder hk
    · exact hi.gens fd h hh
    · exact hi.gens fd' k hk
  · intro c hc
    have hne : c ≠ ⟨fd,h.gen⟩ := by
      rintro rfl
      exact absurd (hi.gens fd h hh) (Nat.not_lt.mpr hc)
    rw [hsame hne]
    exact hi.known c hc
  · exact hmark
  · intro fd' k hk
    obtain ⟨rfl,rfl⟩ | ⟨-,hk⟩ := update_holder hk
    · obtain ⟨hflags,hloaded⟩ := hi.carried fd' h hh
      refine ⟨fun job' hj hf => hmono (hflags job' ?_ hf),fun hl => hmono (hloaded hl)⟩
      rw [hjobs]
      exact List.mem_cons_of_mem job hj
    · obtain ⟨hflags,hloaded⟩ := hi.carried fd' k hk
      exact ⟨fun job' hj hf => hmono (hflags job' hj hf),fun hl => hmono (hloaded hl)⟩
  · exact hrem
  · intro fd' k hk hd
    obtain ⟨rfl,rfl⟩ | ⟨hfd,hk⟩ := update_holder hk
    · exact hheld hd
    · have hne : (⟨fd',k.gen⟩ : Peer) ≠ ⟨fd,h.gen⟩ := by
        intro heq
        exact hfd (congrArg Peer.fd heq)
      have hd' : Drops log ⟨fd',k.gen⟩ := by
        rw [Drops,hsame hne] at hd
        exact hd
      obtain ⟨hl,hno⟩ := hi.held fd' k hk hd'
      refine ⟨hl,fun x f hf hffd => ?_⟩
      cases hinfo x f hf with
      | inl hx => exact (hfd (hffd.symm.trans hx)).elim
      | inr hx => exact hno x f hx hffd
  · intro c
    by_cases hc : c = ⟨fd,h.gen⟩
    · rw [hc,hself,List.pairwise_append]
      refine ⟨hi.stopped _,List.pairwise_singleton _ _,fun x hx y hy hdrop => ?_⟩
      rw [List.mem_singleton] at hy
      exact hy ▸ hstop ⟨x,hx,hdrop⟩
    · rw [hsame hc]
      exact hi.stopped c
  · intro c x hx hsent
    by_cases hc : c = ⟨fd,h.gen⟩
    · rw [hc,hself,List.mem_append,List.mem_singleton] at hx
      rw [hc]
      cases hx with
      | inl hx => exact hmono (hi.unsent _ x hx hsent)
      | inr hx => exact hunsent (hx ▸ hsent)
    · rw [hsame hc] at hx
      exact hmono (hi.unsent c x hx hsent)
  · intro c
    by_cases hc : c = ⟨fd,h.gen⟩
    · rw [hc,hself,List.pairwise_append]
      refine ⟨hi.sorted _,List.pairwise_singleton _ _,fun x hx y hy hsent => ?_⟩
      rw [List.mem_singleton] at hy
      exact hy ▸ (hstop (hi.unsent _ x hx hsent)).1
    · rw [hsame hc]
      exact hi.sorted c
  · intro c
    rw [← hi.stream c]
    by_cases hc : c = ⟨fd,h.gen⟩
    · have hfd : c.fd = fd := by rw [hc]
      have hgen : h.gen = c.gen := by rw [hc]
      have hfirst : (h.jobs.map Job.msg).filter wellFormed =
          job.msg::(rest.map Job.msg).filter wellFormed := by
        rw [hjobs,List.map_cons,List.filter_cons_of_pos hwf]
      rw [pending_update hfd,pending_eq hfd hh,if_pos hgen,if_pos hgen,hc,hself,hfirst,← he,
        List.map_append,List.append_assoc]
      rfl
    · rw [hsame hc]
      by_cases hfd : c.fd = fd
      · have hgen : h.gen ≠ c.gen := by
          intro hg
          apply hc
          rw [hg,← hfd]
        rw [pending_update hfd,pending_eq hfd hh,if_neg hgen,if_neg hgen]
      · rw [pending_update_of_ne hfd]

/-- A client with a drop has no record to be found by, so the flags decide. -/
theorem Inv.not_sent (hi : Inv g holder nextGen received log) {fd : ℕ} {h : Holder} {flags : Bool}
    (hh : holder fd = some h) (hd : Drops log ⟨fd,h.gen⟩) :
    ¬ ((∃ b f, Usable g.sys ⟨fd,h.gen⟩ b f) ∨ g.flagged ⟨fd,h.gen⟩ flags = false) := by
  intro hor
  cases hor with
  | inl hu =>
      obtain ⟨b,f,hf,hfd,hz,-⟩ := hu
      exact hz ((hi.held fd h hh hd).2 b f hf hfd)
  | inr hflag =>
      obtain ⟨hmt,hdrop⟩ := hi.remembered _ hd
      simp [Engine.flagged,hmt,hdrop] at hflag

/-- The flags stand for a drop. -/
theorem Inv.drops_of_flagged (hi : Inv g holder nextGen received log) {fd : ℕ} {h : Holder}
    {job : Job} (hh : holder fd = some h) (hj : job ∈ h.jobs)
    (hflag : g.flagged ⟨fd,h.gen⟩ job.flags = true) : Drops log ⟨fd,h.gen⟩ := by
  rw [Engine.flagged,Bool.or_eq_true,Bool.and_eq_true] at hflag
  cases hflag with
  | inl hf => exact (hi.carried fd h hh).1 job hj hf
  | inr hf => exact hi.marked _ hf.2

/-- The first job of a client is executed. -/
theorem Inv.run (hi : Inv g holder nextGen received log) {fd : ℕ} {h : Holder} {job : Job}
    {rest : List Job} {choices : List (Option Peer)} (hh : holder fd = some h)
    (hjobs : h.jobs = job::rest) (hmt : g'.mtfront = g.mtfront)
    (hran : Ran g g' ⟨fd,h.gen⟩ job.flags job.msg choices)
    (hok : wellFormed job.msg = true → g.chooseConnection choices = none →
      (∀ b f, ¬ Usable g.sys ⟨fd,h.gen⟩ b f) → g.mtfront ⟨fd,h.gen⟩ = true ∧ h.loaded = none) :
    Inv g' (Function.update holder fd (some {h with jobs := rest})) nextGen received
      (if wellFormed job.msg then Function.update log ⟨fd,h.gen⟩
        (log ⟨fd,h.gen⟩++[entry g g' ⟨fd,h.gen⟩ job.msg choices]) else log) := by
  have hj : job ∈ h.jobs := by simp [hjobs]
  cases hran with
  | ignored hkey hk hdrop =>
      rw [if_neg (by simp [hkey])]
      exact (hi.engine hk hdrop hmt).skip hh hjobs hkey
  | sent hkey hd hdrop hinfo hsent hfree =>
      rw [if_pos hkey]
      have hnd : (entry g g' ⟨fd,h.gen⟩ job.msg choices).dropped = false := by
        simp [Entry.dropped,hsent]
      have hnone : ∀ {c}, Drops (Function.update log ⟨fd,h.gen⟩
          (log ⟨fd,h.gen⟩++[entry g g' ⟨fd,h.gen⟩ job.msg choices])) c → Drops log c := by
        intro c hc
        exact hc.of_update.resolve_right fun hx => by simp [hnd] at hx
      refine hi.append hh hjobs hkey rfl rfl hd ?_ ?_ ?_ hinfo ?_ ?_
      · rw [hdrop]
        exact fun c hc => (hi.marked c hc).mono
      · rw [hdrop,hmt]
        exact fun c hc => hi.remembered c (hnone hc)
      · exact fun hc => (hi.not_sent hh (hnone hc) hfree).elim
      · exact fun hc => (hi.not_sent hh hc hfree).elim
      · simp [hsent]
  | dropped hkey hk hdrop hchoose hno hfree hsent =>
      rw [if_pos hkey]
      obtain ⟨hfront,hloaded⟩ := hok hkey hchoose hno
      rw [if_pos hfront] at hdrop
      have hself : Drops (Function.update log ⟨fd,h.gen⟩
          (log ⟨fd,h.gen⟩++[entry g g' ⟨fd,h.gen⟩ job.msg choices])) ⟨fd,h.gen⟩ := by
        refine ⟨entry g g' ⟨fd,h.gen⟩ job.msg choices,by simp,?_⟩
        rw [Entry.dropped,hsent]
        simp [entry,hchoose]
      refine hi.append hh hjobs hkey rfl rfl hk.describes ?_ ?_ ?_ ?_ ?_ (fun _ => hself)
      · intro c hc
        by_cases hcc : c = ⟨fd,h.gen⟩
        · rw [hcc]
          exact hself
        · rw [hdrop,Function.update_of_ne hcc] at hc
          exact (hi.marked c hc).mono
      · intro c hc
        by_cases hcc : c = ⟨fd,h.gen⟩
        · rw [hcc,hdrop,hmt,Function.update_self]
          exact ⟨hfront,rfl⟩
        · rw [hdrop,hmt,Function.update_of_ne hcc]
          exact hi.remembered c (hc.of_update.resolve_right fun hx => hcc hx.1)
      · exact fun _ => ⟨by simp [hloaded],hfree⟩
      · exact fun x f hf => .inr (hk.info x f hf)
      · exact fun _ => ⟨hsent,fun hf => by simp [entry,hchoose] at hf⟩
  | failed hkey hk hdrop hsome hflag hsent hfailed =>
      rw [if_pos hkey]
      have hold := hi.drops_of_flagged hh hj hflag
      have hnd : (entry g g' ⟨fd,h.gen⟩ job.msg choices).dropped = false := by
        rw [Entry.dropped,hsent]
        simpa [entry,Option.isSome_iff_ne_none] using hsome
      have hnone : ∀ {c}, Drops (Function.update log ⟨fd,h.gen⟩
          (log ⟨fd,h.gen⟩++[entry g g' ⟨fd,h.gen⟩ job.msg choices])) c → Drops log c := by
        intro c hc
        exact hc.of_update.resolve_right fun hx => by simp [hnd] at hx
      refine hi.append hh hjobs hkey rfl rfl hk.describes ?_ ?_ ?_ ?_ ?_ (fun _ => hold.mono)
      · rw [hdrop]
        exact fun c hc => (hi.marked c hc).mono
      · rw [hdrop,hmt]
        exact fun c hc => hi.remembered c (hnone hc)
      · intro _
        obtain ⟨hl,hno⟩ := hi.held fd h hh hold
        exact ⟨hl,fun x f hf => hno x f (hk.info x f hf)⟩
      · exact fun x f hf => .inr (hk.info x f hf)
      · exact fun _ => ⟨hsent,fun _ => hfailed⟩

end Steps

def Front.Inv (t : Front) : Prop :=
  ForwardedStream.Inv t.world.engine t.world.holder t.world.nextGen t.received t.log

theorem start_inv (conns : ℕ → Option Conn) (mtfront : Peer → Bool) :
    (start conns mtfront).Inv := by
  refine ⟨initial_describes,nofun,fun _ _ => ⟨rfl,rfl⟩,nofun,nofun,?_,nofun,?_,?_,?_,fun _ => rfl⟩
  · rintro c ⟨e,he,-⟩
    exact absurd he List.not_mem_nil
  · exact fun _ => List.Pairwise.nil
  · exact fun _ e he => absurd he List.not_mem_nil
  · exact fun _ => List.Pairwise.nil

theorem filter_sent_prefix {l : List Entry}
    (hl : l.Pairwise fun x y => x.sent = false → y.sent = false) : l.filter Entry.sent <+: l := by
  induction l with
  | nil => exact List.prefix_rfl
  | cons x l ih =>
      rw [List.pairwise_cons] at hl
      cases hx : x.sent with
      | true =>
          rw [List.filter_cons_of_pos hx,List.cons_prefix_cons]
          exact ⟨rfl,ih hl.2⟩
      | false =>
          have hnil : l.filter Entry.sent = [] := by
            rw [List.filter_eq_nil_iff]
            intro y hy
            simp [hl.1 y hy hx]
          rw [List.filter_cons_of_neg (by simp [hx]),hnil]
          exact List.nil_prefix

theorem Front.Inv.unbroken {t : Front} (hi : t.Inv) : Unbroken t := by
  refine ⟨hi.stopped,fun c => ?_⟩
  rw [← hi.stream c]
  apply List.IsPrefix.trans _ (List.prefix_append _ _)
  apply List.IsPrefix.map
  exact filter_sent_prefix (hi.sorted c)

/-- A receive event that is not possible is not noted. -/
theorem note_receive_self (t : Front) (fd : ℕ) (msg : List UInt8) :
    t.note t.world (.receive fd msg) = t := by
  rw [Front.note]
  cases hh : t.world.holder fd with
  | none => rfl
  | some h => exact if_pos rfl

theorem Front.Inv.receive {t : Front} (hi : t.Inv) {fd : ℕ} {h : Holder} {msg : List UInt8}
    (hh : t.world.holder fd = some h) {w : World} (hw : w = setHolder t.world fd
      (some {h with jobs := h.jobs++[⟨msg,t.world.engine.dropped ⟨fd,h.gen⟩⟩]})) :
    (t.note w (.receive fd msg)).Inv := by
  have hne : w.holder fd ≠ some h := by
    intro heq
    simp only [hw,setHolder,Function.update_self,Option.some.injEq] at heq
    have hjobs := congrArg (fun k => k.jobs.length) heq
    simp at hjobs
  rw [Front.note]
  simp only [hh,if_neg hne]
  rw [hw]
  exact ForwardedStream.Inv.receive hi hh msg

theorem Front.Inv.runJob {t : Front} (hi : t.Inv) {fd i : ℕ} {choices : List (Option Peer)} {a : ℕ}
    {draws : List ℕ} {w : World} (ho : i = 0)
    (hr : Remembers (.ok t) (.runJob fd i choices a draws))
    (hok : perform t.world (.runJob fd i choices a draws) = .ok w) :
    (t.note w (.runJob fd i choices a draws)).Inv := by
  obtain ⟨rfl,hno⟩ | ⟨h,job,g,hh,hjob,ha,hg,rfl⟩ := perform_runJob hok
  · have hsame : t.note t.world (.runJob fd i choices a draws) = t := by
      rw [Front.note]
      split
      · next h hh =>
          split
          · next job hjob => exact if_neg fun hc => hno h job hh hjob hc.1
          · rfl
      · rfl
    rw [hsame]
    exact hi
  · subst ho
    obtain ⟨hran,hmt⟩ := doRpcsExecute_ran hi.describes ha hg
    have hr' := hr h hh job hjob
    cases hjobs : h.jobs with
    | nil => simp [hjobs] at hjob
    | cons first rest =>
        have hfirst : first = job := by simpa [hjobs] using hjob
        subst hfirst
        have hrun := ForwardedStream.Inv.run hi hh hjobs hmt hran fun hwf hnone hnu => by
          refine hr' hwf hnone ?_
          cases hroute : routed t.world.engine ⟨fd,h.gen⟩ with
          | false => rfl
          | true =>
              obtain ⟨b,f,hu⟩ := exists_usable_of_routed hi.describes hroute
              exact (hnu b f hu).elim
        rw [Front.note]
        simp only [hh,hjob,ha,true_and]
        split_ifs with hwf
        · rw [if_pos hwf] at hrun
          simpa only [Front.Inv,setHolder,hjobs,List.eraseIdx_zero,List.tail_cons] using hrun
        · rw [if_neg hwf] at hrun
          simpa only [Front.Inv,setHolder,hjobs,List.eraseIdx_zero,List.tail_cons] using hrun

theorem perform_inv {t : Front} {w : World} {ev : Event} (hi : t.Inv) (ho : InOrder ev)
    (hr : Remembers (.ok t) ev) (hok : perform t.world ev = .ok w) : (t.note w ev).Inv := by
  cases ev with
  | accept fd backend =>
      simp only [perform] at hok
      split_ifs at hok with hfree
      · rw [← Except.ok.inj hok]
        exact hi.accept backend hfree.2
      · rw [← Except.ok.inj hok]
        exact hi.accept backend hfree.2
      · rw [← Except.ok.inj hok]
        exact hi
  | connected fd =>
      obtain rfl | ⟨h,hh,-,rfl⟩ := of_guarded hok
      · exact hi
      · exact hi.setHolder (m := {h with ready := true}) hh rfl (fun _ hj => hj) rfl
          (hi.carried fd h hh).2 fun hd => (hi.held fd h hh hd).1
  | load fd =>
      obtain rfl | ⟨h,hh,-,rfl⟩ := of_guarded hok
      · exact hi
      · refine hi.setHolder (m := {h with loaded := _}) hh rfl (fun _ hj => hj) rfl ?_ ?_
        · exact fun hl => hi.marked _ (Option.some.inj hl)
        · intro hd
          simp [(hi.remembered _ hd).2]
  | store fd =>
      obtain rfl | ⟨h,b,hh,hl,rfl⟩ := perform_store hok
      · exact hi
      · have hset := hi.setHolder (m := {h with loaded := none}) hh rfl (fun _ hj => hj) rfl
          (fun hd => by cases hd) (fun _ hd => by cases hd)
        refine hset.store (fun hb => (hi.carried fd h hh).2 (hb ▸ hl)) fun hd => ?_
        have hne := (hi.held fd h hh hd).1
        cases b with
        | true => rfl
        | false => exact (hne hl).elim
  | receive fd msg =>
      obtain rfl | ⟨h,hh,-,hw⟩ := of_guarded hok
      · rw [note_receive_self]
        exact hi
      · exact hi.receive hh hw
  | shut fd =>
      obtain rfl | ⟨h,hh,rfl⟩ := perform_shut hok
      · exact hi
      · exact hi.setHolder (m := {h with shut := true}) hh rfl (fun _ hj => hj) rfl
          (hi.carried fd h hh).2 fun hd => (hi.held fd h hh hd).1
  | runJob fd i choices a draws => exact hi.runJob ho hr hok
  | runNote =>
      obtain rfl | ⟨n,notes,g,-,hg,rfl⟩ := perform_runNote hok
      · exact hi
      · obtain ⟨hk,hdrop,hmt⟩ := runNotificationEvent_kept hi.describes hg
        exact (ForwardedStream.Inv.engine hi hk hdrop hmt).notify n.who.fd n.close
  | packet c pkt full full' =>
      simp only [perform] at hok
      obtain ⟨s,hs,hok⟩ := bind_eq_ok.mp hok
      rw [← Except.ok.inj hok]
      exact ForwardedStream.Inv.engine hi (processClientPacket_quiet hi.describes hs).1 rfl rfl
  | release fd =>
      obtain rfl | ⟨h,hh,hc,rfl⟩ := of_guarded hok
      · exact hi
      · exact ForwardedStream.Inv.release hi hh hc.2.1
  | connection fd conn =>
      rw [← Except.ok.inj hok]
      exact ForwardedStream.Inv.engine hi (Kept.refl hi.describes) rfl rfl

theorem step_inv {s : Except Fault Front} {ev : Event} (hi : ∀ t, s = .ok t → t.Inv)
    (hok : InOrder ev ∧ Remembers s ev) : ∀ t, step s ev = .ok t → t.Inv := by
  intro t' ht
  cases s with
  | error f => simp [step] at ht
  | ok t =>
      simp only [step] at ht
      split at ht
      · rw [← Except.ok.inj ht]
        exact hi t rfl
      · simp at ht
      · next w hw =>
          rw [← Except.ok.inj ht]
          exact perform_inv (hi t rfl) hok.1 hok.2 hw

/-- In every run that executes the jobs of each client in their order, and in which every drop is
one of a client without TLS that happens while the reader does not rewrite the flags: behind a drop
no query of the client is forwarded, and what is forwarded is the beginning of what was received. -/
theorem forwarded_unbroken (conns : ℕ → Option Conn) (mtfront : Peer → Bool) (evs : List Event)
    (hr : Meets step (fun s ev => InOrder ev ∧ Remembers s ev) (.ok (start conns mtfront)) evs) :
    Throughout step (fun s => ∀ t, s = .ok t → Unbroken t) (.ok (start conns mtfront)) evs := by
  apply StepSystem.throughout_of_invariant (P := fun s => ∀ t, s = .ok t → t.Inv) _ _ _ hr
  · exact fun s ev hi hok => step_inv hi hok
  · exact fun s hi t ht => (hi t ht).unbroken
  · intro t ht
    rw [← Except.ok.inj ht]
    exact start_inv conns mtfront

/-- A backend is ready, and a client comes. -/
def sampleArrivals : List Event :=
  [.accept 5 true,.connected 5,.runNote,.accept 7 false,.runNote]

/-- A packet is read, and its job runs with some draws. -/
def samplePacket (choices : List (Option Peer)) (a : ℕ) : List Event :=
  [.load 7,.store 7,.receive 7 sampleQuery,.runJob 7 0 choices a []]

/-- The job of the second packet finds no backend. -/
def streamRun : List Event :=
  sampleArrivals++samplePacket [some ⟨5,0⟩] 100++[.connection 5 none]++samplePacket [] 101++
    samplePacket [some ⟨5,0⟩] 102

/-- The reader rewrites the flags for the second packet while the job of the first one finds no
backend. -/
def racingRun : List Event :=
  sampleArrivals++[.load 7,.store 7,.receive 7 sampleQuery,.load 7,.runJob 7 0 [] 100 [],
    .store 7,.receive 7 sampleQuery,.runJob 7 0 [some ⟨5,0⟩] 101 []]

def streamConns (fd : ℕ) : Option Conn :=
  if fd = 5 then some {gen := 0, target := true} else if fd = 7 then some {gen := 1} else none

theorem forwarded_unbroken_sample :
    (∃ t, run step (.ok (start streamConns fun _ => true)) streamRun = .ok t ∧
      ((t.log ⟨7,1⟩).map Entry.sent == [true,false,false] &&
        (t.log ⟨7,1⟩).map Entry.found == [true,false,true]) = true) ∧
    Throughout step (fun s => ∀ t, s = .ok t → Unbroken t)
      (.ok (start streamConns fun _ => true)) streamRun :=
  ⟨ends_of_any (by decide +kernel),
    forwarded_unbroken streamConns (fun _ => true) streamRun (by decide +kernel)⟩

theorem not_unbroken {t : Front} {c : Peer} (h : (t.log c).map Entry.dropped = [true,false])
    (hs : (t.log c).map Entry.sent = [false,true]) : ¬ Unbroken t := by
  intro hu
  have hstop := hu.stopped c
  cases hl : t.log c with
  | nil => simp [hl] at h
  | cons x l =>
      cases l with
      | nil => simp [hl] at h
      | cons y l =>
          simp only [hl,List.map_cons,List.cons.injEq] at h hs
          rw [hl,List.pairwise_cons] at hstop
          have hy := (hstop.1 y (by simp) h.1).1
          rw [hs.2.1] at hy
          exact Bool.noConfusion hy

/-- The drop of a TLS client's query is forgotten, and so is one of another client's that happens
while the reader rewrites the flags: the next query is forwarded. -/
theorem drops_forgotten :
    (∃ t, run step (.ok (start streamConns fun _ => false))
      (sampleArrivals++samplePacket [] 100++samplePacket [some ⟨5,0⟩] 101) = .ok t ∧
      ¬ Unbroken t) ∧
    ∃ t, run step (.ok (start streamConns fun _ => true)) racingRun = .ok t ∧ ¬ Unbroken t := by
  constructor
  · obtain ⟨t,ht,h⟩ := ends_of_any
      (s := run step (.ok (start streamConns fun _ => false))
        (sampleArrivals++samplePacket [] 100++samplePacket [some ⟨5,0⟩] 101))
      (p := fun t => (t.log ⟨7,1⟩).map Entry.dropped == [true,false] &&
        (t.log ⟨7,1⟩).map Entry.sent == [false,true]) (by decide +kernel)
    rw [Bool.and_eq_true,beq_iff_eq,beq_iff_eq] at h
    exact ⟨t,ht,not_unbroken h.1 h.2⟩
  · obtain ⟨t,ht,h⟩ := ends_of_any
      (s := run step (.ok (start streamConns fun _ => true)) racingRun)
      (p := fun t => (t.log ⟨7,1⟩).map Entry.dropped == [true,false] &&
        (t.log ⟨7,1⟩).map Entry.sent == [false,true]) (by decide +kernel)
    rw [Bool.and_eq_true,beq_iff_eq,beq_iff_eq] at h
    exact ⟨t,ht,not_unbroken h.1 h.2⟩

end Teleproxy.ForwardedStream
