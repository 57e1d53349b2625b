import Teleproxy.ExtTables

/-!
# Packets from backends

A backend knows a client by the identifier of its external connection. It sends
answers and quick acks for it, and it may close it. `process_client_packet`
looks the identifier up and finds the client connection through the file
descriptor and the generation in the record. A record is removed with
`remove_ext_connection`, which may tell the backend or fail the client.

What `connection_get_by_fd` finds is a map from descriptors to connections. The
framing of what is sent is left out, and so are the buffers behind
`check_conn_buffers`: whether they are full is part of the event.
-/
namespace Teleproxy.ExtConnections
open DoublyLinked

structure Conn where
  gen : ℕ
  /-- The code of `fail_connection`, once the connection has `C_ERROR`. -/
  error : Option ℤ := none
  /-- `RPC_F_COMPACT` -/
  compact : Bool := false
  /-- Whether `CONN_INFO(d)->target` is set. -/
  target : Bool := false
  deriving DecidableEq, Repr

/-- What is sent to a connection. An answer, an ack and a query also carry where they
come from. -/
inductive Sent where
  | closeConn (dest : Peer) (outConnId : ℕ)
  | answer (dest source : Peer) (outConnId flags : ℕ) (data : List UInt8)
  | ack (dest source : Peer) (outConnId confirm : ℕ)
  | proxyReq (dest source : Peer) (entry : Ext)
  deriving DecidableEq, Repr

structure Sys where
  tables : Tables
  conns : ℕ → Option Conn
  /-- `extra_int` of a backend connection -/
  tag : Peer → ℕ
  sent : List Sent

/-- A little-endian number. -/
def littleEndian : List UInt8 → ℕ
  | [] => 0
  | b::bs => b.toNat+256*littleEndian bs

def rpcPong : ℕ := 0x8430eaa7
def rpcProxyAns : ℕ := 0x4403da0d
def rpcCloseExt : ℕ := 0x5eb634a2
def rpcSimpleAck : ℕ := 0x3bac409b

/-- A packet as `process_client_packet` takes it apart. -/
inductive ClientPacket where
  | pong
  | proxyAns (flags outConnId : ℕ) (data : List UInt8)
  | simpleAck (outConnId : ℕ) (confirm : List UInt8)
  | closeExt (outConnId : ℕ)
  | ignored
  deriving DecidableEq, Repr

def fetchPacket (pkt : List UInt8) : ClientPacket :=
  let op := littleEndian (pkt.take 4)
  if op = rpcPong then .pong
  else if op = rpcProxyAns ∧ 16 ≤ pkt.length then
    .proxyAns (littleEndian ((pkt.drop 4).take 4)) (littleEndian ((pkt.drop 8).take 8)) (pkt.drop 16)
  else if op = rpcSimpleAck ∧ pkt.length = 16 then
    .simpleAck (littleEndian ((pkt.drop 4).take 8)) (pkt.drop 12)
  else if op = rpcCloseExt ∧ pkt.length = 12 then .closeExt (littleEndian (pkt.drop 4))
  else .ignored

namespace Sys

/-- `connection_get_by_fd_generation` -/
def connection (s : Sys) (p : Peer) : Option Conn :=
  (s.conns p.fd).filter fun c => c.gen == p.gen

def failConnection (s : Sys) (p : Peer) (err : ℤ) : Sys :=
  {s with conns := Function.update s.conns p.fd ((s.conns p.fd).map fun c =>
    if c.gen = p.gen ∧ c.error = none then {c with error := some err} else c)}

def send (s : Sys) (m : Sent) : Sys := {s with sent := s.sent++[m]}

/-- The part of `remove_ext_connection` about the backend. -/
def notifyBackend (s : Sys) (a : ℕ) (e : Ext) (notify : ℕ) : Except Fault Sys :=
  if e.outFd = 0 then .ok s
  else do
    check (e.outFd < maxConnections)
    check (s.tables.o.next (.entry a) ≠ none)
    .ok (if notify.testBit 0 ∧ (s.connection e.backend).isSome then
      s.send (.closeConn e.backend e.outConnId) else s)

/-- The part about the client. -/
def failClient (s : Sys) (a : ℕ) (e : Ext) (notify : ℕ) : Except Fault Sys :=
  if e.inFd = 0 then .ok s
  else do
    check (e.inFd < maxConnections)
    check (s.tables.i.next (.entry a) ≠ none)
    check (notify.testBit 1 → e.inConnId = 0)
    .ok (if notify.testBit 1 ∧ (s.connection e.client).isSome then
      s.failConnection e.client (-33) else s)

/-- `remove_ext_connection` -/
def removeExtConnection (s : Sys) (a notify : ℕ) : Except Fault Sys := do
  let e ← deref (s.tables.info a)
  check (e.outConnId ≠ 0)
  let found ← s.tables.findByOutConnId e.outConnId
  check (found = some a)
  let s ← s.notifyBackend a e notify
  let s ← s.failClient a e notify
  let r ← s.tables.getByInConnId e.inFd e.inGen e.inConnId .delete 0 []
  check (r.2 = .deleted)
  .ok {s with tables := r.1}

/-- The record that a packet of `c` is for, and its client if that is still there. -/
def addressee (s : Sys) (c : Peer) (outConnId : ℕ) : Except Fault (Option (Ext×Conn)) := do
  match ← s.tables.findByOutConnId outConnId with
  | none => .ok none
  | some a => do
      let e ← deref (s.tables.info a)
      .ok (if e.backend = c then (s.connection e.client).map fun d => (e,d) else none)

/-- `client_send_message`, with the results of the two calls of `check_conn_buffers`. -/
def clientSendMessage (s : Sys) (p : Peer) (inConnId : ℕ) (m : Sent) (full full' : Bool) :
    Except Fault Sys :=
  if full then .ok (s.failConnection p (-429))
  else do
    check (inConnId = 0)
    .ok (if full' then (s.send m).failConnection p (-429) else s.send m)

/-- `process_client_packet` -/
def processClientPacket (s : Sys) (c : Peer) (pkt : List UInt8) (full full' : Bool) :
    Except Fault Sys :=
  match fetchPacket pkt with
  | .pong => .ok s
  | .proxyAns flags id data => do
      match ← s.addressee c id with
      | some (e,_) =>
          let m := Sent.answer e.client c id flags data
          s.clientSendMessage e.client e.inConnId m full full'
      | none => .ok (s.send (.closeConn c id))
  | .simpleAck id confirm => do
      match ← s.addressee c id with
      | some (e,d) => do
          check (e.inConnId = 0)
          let confirm := littleEndian (if d.compact then confirm.reverse else confirm)
          .ok (s.send (.ack e.client c id confirm))
      | none => .ok (s.send (.closeConn c id))
  | .closeExt id => do
      match ← s.tables.findByOutConnId id with
      | some a => s.removeExtConnection a 2
      | none => .ok s
  | .ignored => .ok s

/-- `get_conn_tag` -/
def connTag (c : Peer) : ℕ := 1+c.gen%2^24

/-- `mtfront_client_ready` -/
def mtfrontClientReady (s : Sys) (c : Peer) : Except Fault Sys := do
  check (c.fd < maxConnections)
  check (s.tag c = 0)
  check (s.tables.o.prev (.head c.fd) = none)
  .ok {s with
    tag := Function.update s.tag c (connTag c)
    tables := {s.tables with o := s.tables.o.openHead (.head c.fd)}}

/-- The loop of `mtfront_client_close` over the records of the backend. -/
def closeRecords (fd : ℕ) : ℕ → Sys → Option Ptr → Except Fault Sys
  | _, _, none => .error .pointer
  | n, s, some p =>
      if p = .head fd then .ok s
      else match n, p with
        | n+1, .entry a => do
            let e ← deref (s.tables.info a)
            let next := s.tables.o.next (.entry a)
            check (e.outFd = fd)
            let s ← s.removeExtConnection a 2
            closeRecords fd n s next
        | 0, .entry _ => .error .endless
        | _, _ => .error .pointer

/-- `mtfront_client_close` -/
def mtfrontClientClose (s : Sys) (c : Peer) : Except Fault Sys := do
  check (c.fd < maxConnections)
  let head := Ptr.head c.fd
  let clear : Sys → Sys := fun s => {s with tag := Function.update s.tag c 0}
  if s.tag c = 0 then .ok (clear s)
  else do
    check (s.tag c = connTag c)
    check (s.tables.o.next head ≠ none)
    let s ← closeRecords c.fd s.tables.extConnections s (s.tables.o.next head)
    check (s.tables.o.next head = some head ∧ s.tables.o.prev head = some head)
    .ok (clear {s with tables := {s.tables with o := s.tables.o.set head none none}})

end Sys

variable {s : Sys} {a : ℕ} {e : Ext} {c : Peer}

/-- What the removal of a record does to the rest. -/
structure Removed (s : Sys) (a : ℕ) (e : Ext) (s' : Sys) : Prop where
  tables : Released s.tables a s'.tables
  conns : s'.conns = s.conns ∨ s'.conns = (s.failConnection e.client (-33)).conns
  tag : s'.tag = s.tag
  sent : ∃ ms, s'.sent = s.sent++ms ∧ ∀ m ∈ ms, ∃ p id, m = .closeConn p id

theorem notifyBackend_spec (hd : Describes s.tables) (ha : s.tables.info a = some e) (n : ℕ) :
    ∃ ms, s.notifyBackend a e n = .ok {s with sent := s.sent++ms} ∧
      ∀ m ∈ ms, ∃ p id, m = .closeConn p id := by
  by_cases hz : e.outFd = 0
  · exact ⟨[],by simp [Sys.notifyBackend,hz],by simp⟩
  · obtain ⟨member,hlo,hbackends⟩ := hd.backends
    have hlink := (hlo.linked (hbackends.linked a e ha hz)).1
    have hr := (hd.keyed.range a e ha).2
    by_cases hn : n.testBit 0 ∧ (s.connection e.backend).isSome
    · refine ⟨[.closeConn e.backend e.outConnId],?_,by simp⟩
      simp only [Sys.notifyBackend,if_neg hz,check_of hr,check_of hlink,ok_bind,if_pos hn,Sys.send]
    · refine ⟨[],?_,by simp⟩
      simp only [Sys.notifyBackend,if_neg hz,check_of hr,check_of hlink,ok_bind,if_neg hn,
        List.append_nil]

theorem failClient_spec (hd : Describes s.tables) (ha : s.tables.info a = some e) (n : ℕ) :
    s.failClient a e n = .ok s ∨ s.failClient a e n = .ok (s.failConnection e.client (-33)) := by
  by_cases hz : e.inFd = 0
  · exact Or.inl (if_pos hz)
  · have hlink := (hd.clients.linked ⟨e,ha,rfl,hz⟩).1
    have hr := (hd.keyed.range a e ha).1
    have hid : n.testBit 1 → e.inConnId = 0 := fun _ => hd.keyed.connId a e ha
    by_cases hn : n.testBit 1 ∧ (s.connection e.client).isSome
    · right
      simp only [Sys.failClient,if_neg hz,check_of hr,check_of hlink,check_of hid,ok_bind,if_pos hn]
    · left
      simp only [Sys.failClient,if_neg hz,check_of hr,check_of hlink,check_of hid,ok_bind,if_neg hn]

/-- The removal of a live record passes all its assertions. -/
theorem removeExtConnection_spec (hd : Describes s.tables) (ha : s.tables.info a = some e)
    (n : ℕ) : ∃ s', s.removeExtConnection a n = .ok s' ∧ Removed s a e s' := by
  obtain ⟨r,hfind,hr⟩ := findByOutConnId_spec hd.placed e.outConnId
  have hra : r = some a := (hr a).mpr ⟨e,ha,rfl⟩
  obtain ⟨ms,hms,hclose⟩ := notifyBackend_spec hd ha n
  obtain ⟨t',ht,hrel⟩ := getByInConnId_delete hd ha e.inGen 0 []
  let u : Sys := {s with sent := s.sent++ms}
  have hstart : s.removeExtConnection a n = (do
      let s ← u.failClient a e n
      let r ← s.tables.getByInConnId e.inFd e.inGen e.inConnId .delete 0 []
      check (r.2 = .deleted)
      .ok {s with tables := r.1}) := by
    simp only [Sys.removeExtConnection,ha,deref_some,ok_bind,check_of (hd.placed.pos a e ha),
      hfind,check_of hra,hms,u]
  rw [hstart]
  rcases failClient_spec (s := u) hd ha n with hf | hf
  · refine ⟨{u with tables := t'},?_,hrel,Or.inl rfl,rfl,ms,rfl,hclose⟩
    simp [hf,u,ht,check_of]
  · refine ⟨{u.failConnection e.client (-33) with tables := t'},?_,hrel,Or.inr rfl,rfl,
      ms,rfl,hclose⟩
    have htables : (u.failConnection e.client (-33)).tables = s.tables := rfl
    simp [hf,htables,ht,check_of]

/-- All but one connection are as before. -/
theorem failConnection_other (s : Sys) (p : Peer) (err : ℤ) {fd : ℕ} (hne : fd ≠ p.fd) :
    (s.failConnection p err).conns fd = s.conns fd := by
  simp [Sys.failConnection,hne]

theorem Removed.conns_other {s' : Sys} (hr : Removed s a e s') {fd : ℕ} (hne : fd ≠ e.inFd) :
    s'.conns fd = s.conns fd := by
  rcases hr.conns with h | h
  · rw [h]
  · rw [h]
    exact failConnection_other s e.client (-33) hne

/-- A backend that is ready has an empty list. -/
theorem mtfrontClientReady_spec (hd : Describes s.tables) {s' : Sys}
    (hok : s.mtfrontClientReady c = .ok s') :
    Kept s.tables s'.tables ∧ s'.tables.info = s.tables.info ∧ s'.sent = s.sent := by
  simp only [Sys.mtfrontClientReady,check_bind_eq_ok,Except.ok.injEq] at hok
  obtain ⟨-,-,hprev,rfl⟩ := hok
  refine ⟨⟨?_,fun _ _ hf => hf,rfl,rfl⟩,rfl,rfl⟩
  apply hd.setBackends
  intro member hlo _
  exact hlo.openHead (by simp) (hlo.opened (by simp) hprev)

/-- The loop of `mtfront_client_close` returns and leaves the list of the backend empty. -/
theorem closeRecords_spec {fd n : ℕ} {p : Ptr} (hd : Describes s.tables)
    (hn : s.tables.extConnections ≤ n) (hp : s.tables.o.next (.head fd) = some p) :
    ∃ s', Sys.closeRecords fd n s (some p) = .ok s' ∧ Kept s.tables s'.tables ∧
      s'.tables.o.next (.head fd) = some (.head fd) ∧ s'.tag = s.tag ∧
      ∃ ms, s'.sent = s.sent++ms ∧ ∀ m ∈ ms, ∃ p id, m = .closeConn p id := by
  induction n generalizing s p with
  | zero =>
      obtain ⟨member,hlo,hbackends⟩ := hd.backends
      rcases hlo.next_head (by simp) hp with ⟨rfl,-⟩ | ⟨a,rfl,hm⟩
      · exact ⟨s,by simp [Sys.closeRecords],Kept.refl hd,hp,rfl,[],by simp,by simp⟩
      · obtain ⟨live,hlive,hcard⟩ := hd.live
        obtain ⟨e,he,-⟩ := hbackends.named a _ hm
        have hpos : 0 < live.card := Finset.card_pos.mpr ⟨a,(hlive a).mpr (by simp [he])⟩
        omega
  | succ n ih =>
      obtain ⟨member,hlo,hbackends⟩ := hd.backends
      rcases hlo.next_head (by simp) hp with ⟨rfl,-⟩ | ⟨a,rfl,hm⟩
      · exact ⟨s,by simp [Sys.closeRecords],Kept.refl hd,hp,rfl,[],by simp,by simp⟩
      · obtain ⟨e,he,hfd⟩ := hbackends.named a _ hm
        rw [Ptr.head.injEq] at hfd
        obtain ⟨u,hu,hrem⟩ := removeExtConnection_spec hd he 2
        have hrel := hrem.tables
        -- The head of the list moves on to the record that the loop visits next.
        have hnext := hlo.unlink_first (by simp) hp hrel.backends
        obtain ⟨q,hq⟩ : ∃ q, s.tables.o.next (.entry a) = some q :=
          Option.ne_none_iff_exists'.mp (hlo.linked hm).1
        rw [hq] at hnext
        obtain ⟨v,hv,hkept,hend,htag,ms,hms,hclose⟩ := ih hrel.describes
          (by have := hrel.count; omega) hnext
        obtain ⟨ms',hms',hclose'⟩ := hrem.sent
        refine ⟨v,?_,hrel.kept.trans hkept,hend,htag.trans hrem.tag,ms'++ms,?_,?_⟩
        · simp [Sys.closeRecords,he,hfd.symm,check_of,hu,hq,hv]
        · rw [hms,hms',List.append_assoc]
        · intro m hmem
          rcases List.mem_append.mp hmem with hmem | hmem
          · exact hclose' m hmem
          · exact hclose m hmem

/-- A backend that is gone leaves no list behind. -/
theorem mtfrontClientClose_spec (hd : Describes s.tables) {s' : Sys}
    (hok : s.mtfrontClientClose c = .ok s') :
    Kept s.tables s'.tables ∧
      ∃ ms, s'.sent = s.sent++ms ∧ ∀ m ∈ ms, ∃ p id, m = .closeConn p id := by
  rw [Sys.mtfrontClientClose,check_bind_eq_ok] at hok
  obtain ⟨-,hok⟩ := hok
  by_cases htag : s.tag c = 0
  · simp only [htag,if_true,Except.ok.injEq] at hok
    rw [← hok]
    exact ⟨Kept.refl hd,[],by simp,by simp⟩
  · simp only [if_neg htag,check_bind_eq_ok] at hok
    obtain ⟨-,hopen,hok⟩ := hok
    obtain ⟨p,hp⟩ := Option.ne_none_iff_exists'.mp hopen
    obtain ⟨u,hu,hkept,hend,-,ms,hms,hclose⟩ := closeRecords_spec hd le_rfl hp
    rw [hp,hu,ok_bind,check_bind_eq_ok,Except.ok.injEq] at hok
    rw [← hok.2]
    refine ⟨hkept.trans ⟨?_,fun _ _ hf => hf,rfl,rfl⟩,ms,hms,hclose⟩
    apply hkept.describes.setBackends
    intro member hlo _
    apply hlo.closeHead (by simp) (by simp [hend])
    rcases hlo.next_head (by simp) hend with ⟨-,-,hnone⟩ | ⟨a,ha,-⟩
    · exact hnone
    · exact Ptr.noConfusion ha

/-- The assertions of `mtfront_client_close` hold when the list of the backend is open. -/
theorem mtfrontClientClose_returns (hd : Describes s.tables) (hfd : c.fd < maxConnections)
    (hopen : s.tag c ≠ 0 → s.tag c = Sys.connTag c ∧ s.tables.o.next (.head c.fd) ≠ none) :
    ∃ s', s.mtfrontClientClose c = .ok s' := by
  by_cases htag : s.tag c = 0
  · exact ⟨_,by simp only [Sys.mtfrontClientClose,check_of hfd,ok_bind,htag,if_true]; rfl⟩
  · obtain ⟨hconn,hnext⟩ := hopen htag
    obtain ⟨p,hp⟩ := Option.ne_none_iff_exists'.mp hnext
    obtain ⟨u,hu,hkept,hend,-⟩ := closeRecords_spec hd le_rfl hp
    obtain ⟨member,hlo,-⟩ := hkept.describes.backends
    have hboth : u.tables.o.next (.head c.fd) = some (.head c.fd) ∧
        u.tables.o.prev (.head c.fd) = some (.head c.fd) := by
      rcases hlo.next_head (by simp) hend with ⟨-,hprev,-⟩ | ⟨a,ha,-⟩
      · exact ⟨hend,hprev⟩
      · exact Ptr.noConfusion ha
    rw [Sys.mtfrontClientClose,check_of hfd,ok_bind]
    simp only [if_neg htag]
    rw [check_of hconn,ok_bind,check_of hnext,ok_bind,hp,hu,ok_bind,check_of hboth,ok_bind]
    exact ⟨_,rfl⟩

/-- A message of the kind that delivers something to a client. -/
def Sent.Delivers (m : Sent) (e : Ext) (c : Peer) : Prop :=
  (∃ flags data, m = .answer e.client c e.outConnId flags data) ∨
    ∃ confirm, m = .ack e.client c e.outConnId confirm

/-- A packet of `c` that leaves the records alone: what it sends to clients goes to those
whose record names `c`, and only their connections may fail. -/
structure Passed (s : Sys) (c : Peer) (s' : Sys) : Prop where
  tables : s'.tables = s.tables
  tag : s'.tag = s.tag
  conns : ∀ fd, s'.conns fd = s.conns fd ∨
    ∃ a e, s.tables.info a = some e ∧ e.backend = c ∧ e.inFd = fd
  sent : ∃ ms, s'.sent = s.sent++ms ∧ ∀ m ∈ ms, (∃ p id, m = .closeConn p id) ∨
    ∃ a e, s.tables.info a = some e ∧ e.backend = c ∧ m.Delivers e c

theorem Passed.refl (s : Sys) (c : Peer) : Passed s c s :=
  ⟨rfl,rfl,fun _ => Or.inl rfl,[],by simp,by simp⟩

theorem Passed.closeConn (s : Sys) (c p : Peer) (id : ℕ) : Passed s c (s.send (.closeConn p id)) :=
  ⟨rfl,rfl,fun _ => Or.inl rfl,[.closeConn p id],rfl,by simp⟩

theorem Passed.deliver {m : Sent} (ha : s.tables.info a = some e) (hc : e.backend = c)
    (hm : m.Delivers e c) : Passed s c (s.send m) := by
  refine ⟨rfl,rfl,fun _ => Or.inl rfl,[m],rfl,fun x hx => Or.inr ?_⟩
  rw [List.mem_singleton.mp hx]
  exact ⟨a,e,ha,hc,hm⟩

theorem Passed.fail {s' : Sys} (hp : Passed s c s') (ha : s.tables.info a = some e)
    (hc : e.backend = c) (err : ℤ) : Passed s c (s'.failConnection e.client err) := by
  refine ⟨hp.tables,hp.tag,fun fd => ?_,hp.sent⟩
  by_cases hfd : fd = e.inFd
  · exact Or.inr ⟨a,e,ha,hc,hfd.symm⟩
  · rw [failConnection_other s' e.client err hfd]
    exact hp.conns fd

/-- Only a record that names the sender is found, and only with a client. -/
theorem addressee_spec (hd : Describes s.tables) (c : Peer) (id : ℕ) :
    ∃ r, s.addressee c id = .ok r ∧ ∀ e d, r = some (e,d) →
      ∃ a, s.tables.info a = some e ∧ e.outConnId = id ∧ e.backend = c := by
  obtain ⟨r,hfind,hr⟩ := findByOutConnId_spec hd.placed id
  cases r with
  | none => exact ⟨none,by simp [Sys.addressee,hfind],by simp⟩
  | some a =>
      obtain ⟨e,he,hid⟩ := (hr a).mp rfl
      refine ⟨if e.backend = c then (s.connection e.client).map fun d => (e,d) else none,
        by simp [Sys.addressee,hfind,he],fun e' d hs => ?_⟩
      split_ifs at hs with hc
      simp only [Option.map_eq_some_iff,Prod.mk.injEq] at hs
      obtain ⟨d',-,rfl,-⟩ := hs
      exact ⟨a,he,hid,hc⟩

theorem clientSendMessage_spec {m : Sent} (hd : Describes s.tables)
    (ha : s.tables.info a = some e) (hc : e.backend = c) (hm : m.Delivers e c)
    (full full' : Bool) :
    ∃ s', s.clientSendMessage e.client e.inConnId m full full' = .ok s' ∧ Passed s c s' := by
  have hid := hd.keyed.connId a e ha
  have hsend := Passed.deliver ha hc hm
  cases full with
  | true => exact ⟨_,rfl,(Passed.refl s c).fail ha hc (-429)⟩
  | false =>
      cases full' with
      | true =>
          exact ⟨(s.send m).failConnection e.client (-429),
            by simp [Sys.clientSendMessage,hid,check_of],hsend.fail ha hc (-429)⟩
      | false => exact ⟨s.send m,by simp [Sys.clientSendMessage,hid,check_of],hsend⟩

/-- Every packet is processed. It closes the external connection with the identifier it
names, whoever sent it, or leaves the records alone. -/
theorem processClientPacket_spec (hd : Describes s.tables) (c : Peer) (pkt : List UInt8)
    (full full' : Bool) :
    ∃ s', s.processClientPacket c pkt full full' = .ok s' ∧
      ((Passed s c s' ∧ ∀ id, fetchPacket pkt = .closeExt id →
          ∀ a e, s.tables.info a = some e → e.outConnId ≠ id) ∨
        ∃ id a e, fetchPacket pkt = .closeExt id ∧ s.tables.info a = some e ∧
          e.outConnId = id ∧ Removed s a e s') := by
  rcases hp : fetchPacket pkt with _ | ⟨flags,id,data⟩ | ⟨id,confirm⟩ | ⟨id⟩ | _
  · exact ⟨s,by simp [Sys.processClientPacket,hp],Or.inl ⟨Passed.refl s c,by simp⟩⟩
  · obtain ⟨r,hr,hspec⟩ := addressee_spec hd c id
    rcases r with _ | ⟨e,d⟩
    · refine ⟨s.send (.closeConn c id),by simp [Sys.processClientPacket,hp,hr],
        Or.inl ⟨?_,by simp⟩⟩
      exact Passed.closeConn s c c id
    · obtain ⟨a,ha,rfl,hc⟩ := hspec e d rfl
      obtain ⟨s',hs,hpass⟩ := clientSendMessage_spec hd ha hc
        (Or.inl ⟨flags,data,rfl⟩) full full'
      exact ⟨s',by simpa [Sys.processClientPacket,hp,hr] using hs,Or.inl ⟨hpass,by simp⟩⟩
  · obtain ⟨r,hr,hspec⟩ := addressee_spec hd c id
    rcases r with _ | ⟨e,d⟩
    · refine ⟨s.send (.closeConn c id),by simp [Sys.processClientPacket,hp,hr],
        Or.inl ⟨?_,by simp⟩⟩
      exact Passed.closeConn s c c id
    · obtain ⟨a,ha,rfl,hc⟩ := hspec e d rfl
      have hid := hd.keyed.connId a e ha
      refine ⟨s.send (.ack e.client c e.outConnId
          (littleEndian (if d.compact then confirm.reverse else confirm))),
        by simp [Sys.processClientPacket,hp,hr,hid,check_of],
        Or.inl ⟨Passed.deliver ha hc (Or.inr ⟨_,rfl⟩),by simp⟩⟩
  · obtain ⟨r,hfind,hr⟩ := findByOutConnId_spec hd.placed id
    rcases r with _ | a
    · refine ⟨s,by simp [Sys.processClientPacket,hp,hfind],Or.inl ⟨Passed.refl s c,?_⟩⟩
      intro id' hid' a e ha hae
      rw [ClientPacket.closeExt.injEq] at hid'
      have := (hr a).mpr ⟨e,ha,hae.trans hid'.symm⟩
      exact Option.some_ne_none a this.symm
    · obtain ⟨e,he,hid⟩ := (hr a).mp rfl
      obtain ⟨s',hs,hrem⟩ := removeExtConnection_spec hd he 2
      exact ⟨s',by simpa [Sys.processClientPacket,hp,hfind] using hs,
        Or.inr ⟨id,a,e,rfl,he,hid,hrem⟩⟩
  · exact ⟨s,by simp [Sys.processClientPacket,hp],Or.inl ⟨Passed.refl s c,by simp⟩⟩

end Teleproxy.ExtConnections
