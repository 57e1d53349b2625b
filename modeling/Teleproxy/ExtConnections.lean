import Teleproxy.Lib.DoublyLinked
import Teleproxy.Lib.Linked
import Mathlib.Data.Nat.Bitwise

/-!
# The table of external connections

An external connection ties a client connection to the backend connection that
its queries go to. The record of one, a `struct ext_connection`, is found in
four ways: by the pair of its client's file descriptor and a connection number
through a hash table with chains, by the identifier the backend knows it under
through `OutExtConnections`, and by either descriptor through the circular
lists behind `ExtConnectionHead`. A fifth list, `ConnLRU`, is for flood control.

The heap is a map for each field, with the addresses of `calloc` for the
records. Assertions are faults of the model, and so are null and freed
pointers, a chain with no end, and a draw of `lrand48` that the event does not
supply: the last one only says that the call has not returned yet. The fields
of the list heads that nothing reads are left out.
-/
namespace Teleproxy.ExtConnections
open DoublyLinked

def extConnTableSize : ℕ := 2^22
def extConnHashShift : ℕ := 20
def maxConnections : ℕ := 65536

inductive Fault where
  | assertion | pointer | endless | drawing
  deriving DecidableEq, Repr

def check (p : Prop) [Decidable p] : Except Fault Unit :=
  if p then .ok () else .error .assertion

def deref {α : Type} (p : Option α) : Except Fault α :=
  match p with
  | none => .error .pointer
  | some a => .ok a

/-- What a list field points to: `&ExtConnectionHead[fd]`, a record or `&ConnLRU`. -/
inductive Ptr where
  | head (fd : ℕ) | entry (a : ℕ) | lru
  deriving DecidableEq, Repr

/-- The fields of `struct ext_connection` that are no links. -/
structure Ext where
  inFd : ℕ
  inGen : ℕ
  outFd : ℕ := 0
  outGen : ℕ := 0
  inConnId : ℕ
  outConnId : ℕ := 0
  authKeyId : ℕ := 0
  deriving DecidableEq, Repr

/-- A connection, as `fd` and `generation` name it. -/
structure Peer where
  fd : ℕ
  gen : ℕ
  deriving DecidableEq, Repr

/-- The peers that a record names. -/
def Ext.client (e : Ext) : Peer := ⟨e.inFd,e.inGen⟩
def Ext.backend (e : Ext) : Peer := ⟨e.outFd,e.outGen⟩

structure Tables where
  info : ℕ → Option Ext
  o : Links Ptr
  i : Links Ptr
  lru : Links Ptr
  hNext : ℕ → Option ℕ
  /-- `InExtConnectionHash` -/
  hash : ℕ → Option ℕ
  /-- `OutExtConnections[h].ref` and `OutExtConnections[h].out_conn_id` -/
  outRef : ℕ → Option ℕ
  outId : ℕ → ℕ
  extConnections : ℕ
  extConnectionsCreated : ℕ

def nullLinks : Links Ptr := ⟨fun _ => none,fun _ => none⟩

/-- All zero but for `ConnLRU`. -/
def Tables.initial : Tables where
  info _ := none
  o := nullLinks
  i := nullLinks
  lru := nullLinks.openHead .lru
  hNext _ := none
  hash _ := none
  outRef _ := none
  outId _ := 0
  extConnections := 0
  extConnectionsCreated := 0

def extConnHash (inFd inConnId : ℕ) : ℕ :=
  (inFd*11400714819323198485+inConnId*13043817825332782213)%2^64/2^(64-extConnHashShift)

inductive Mode where
  | find | delete | create | findOrCreate
  deriving DecidableEq, Repr

/-- The results `0`, a record and `(void *) -1L`. -/
inductive Found where
  | null | entry (a : ℕ) | deleted
  deriving DecidableEq, Repr

/-- What `prev` points to while a chain is walked. -/
inductive Link where
  | bucket (h : ℕ) | cell (a : ℕ)
  deriving DecidableEq, Repr

namespace Tables

def setLink (t : Tables) (l : Link) (p : Option ℕ) : Tables :=
  match l with
  | .bucket h => {t with hash := Function.update t.hash h p}
  | .cell a => {t with hNext := Function.update t.hNext a p}

/-- The loop over a chain: the record looked for, with the link that leads to it. -/
def walk (t : Tables) (inFd inConnId : ℕ) :
    ℕ → Link → Option ℕ → Except Fault (Option (Link×ℕ))
  | _, _, none => .ok none
  | 0, _, some _ => .error .endless
  | n+1, prev, some a => do
      let e ← deref (t.info a)
      if e.inFd = inFd ∧ e.inConnId = inConnId then
        check (e.outConnId ≠ 0)
        .ok (some (prev,a))
      else t.walk inFd inConnId n (.cell a) (t.hNext a)

def lruDeleteExtConn (k : Links Ptr) (a : ℕ) : Option (Links Ptr) :=
  (k.unlink (.entry a)).map fun k => k.set (.entry a) none none

/-- The branch of mode 1: the record is taken out of every structure and freed. -/
def release (t : Tables) (prev : Link) (a : ℕ) : Except Fault Tables := do
  let e ← deref (t.info a)
  let i ← deref (t.i.unlink (.entry a))
  let o ← deref (t.o.unlink (.entry a))
  let lru ← deref (lruDeleteExtConn t.lru a)
  let t := {t with i := i, o := o, lru := lru}.setLink prev (t.hNext a)
  let h := e.outConnId%extConnTableSize
  check (t.outRef h = some a)
  check (t.outId h = e.outConnId)
  .ok {t with
    hNext := Function.update t.hNext a none
    outRef := Function.update t.outRef h none
    info := Function.update t.info a none
    extConnections := t.extConnections-1}

/-- `calloc`: a record with all fields zero but for those set at once. -/
def calloc (t : Tables) (a : ℕ) (e : Ext) : Tables :=
  {t with
    info := Function.update t.info a (some e)
    o := t.o.set (.entry a) none none
    i := t.i.set (.entry a) none none
    lru := t.lru.set (.entry a) none none
    hNext := Function.update t.hNext a none}

/-- The new record becomes the only one in the list of its client. -/
def linkClient (t : Tables) (inFd a : ℕ) : Except Fault Tables :=
  if inFd = 0 then .ok t
  else do
    let k := if t.i.next (.head inFd) = none then t.i.openHead (.head inFd) else t.i
    check (k.next (.head inFd) = some (.head inFd))
    let i ← deref (k.pushBack (.head inFd) (.entry a))
    .ok {t with i := i}

/-- The search for a free place in `OutExtConnections`, by random probing. -/
def probe (t : Tables) : List ℕ → ℕ → Except Fault ℕ
  | [], h =>
      if t.outRef (h%extConnTableSize) = none then .ok (h%extConnTableSize)
      else .error .drawing
  | d::ds, h =>
      if t.outRef (h%extConnTableSize) = none then .ok (h%extConnTableSize)
      else t.probe ds d

/-- `h = in_conn_id ? lrand48() : in_fd` and the loop behind it. -/
def chooseSlot (t : Tables) (inFd inConnId : ℕ) (draws : List ℕ) : Except Fault ℕ :=
  if inConnId = 0 then t.probe draws inFd
  else match draws with
    | [] => .error .drawing
    | d::ds => t.probe ds d

/-- The next identifier of a place: its number under an epoch one higher. -/
def nextConnId (old h : ℕ) : ℕ := ((old ||| (extConnTableSize-1))+1+h)%2^64

/-- The identifier is given to the record, and the place to the identifier. -/
def assign (t : Tables) (a h : ℕ) : Except Fault Tables := do
  let e ← deref (t.info a)
  let id := nextConnId (t.outId h) h
  check (id ≠ 0)
  .ok {t with
    outRef := Function.update t.outRef h (some a)
    outId := Function.update t.outId h id
    info := Function.update t.info a (some {e with outConnId := id})
    extConnections := t.extConnections+1
    extConnectionsCreated := t.extConnectionsCreated+1}

/-- The part behind the loop, for modes 2 and 3; `a` is the address that `calloc` gives. -/
def register (t : Tables) (inFd inGen inConnId a : ℕ) (draws : List ℕ) :
    Except Fault Tables := do
  check (t.extConnections < extConnTableSize/2)
  let h := extConnHash inFd inConnId
  let t := t.calloc a {inFd := inFd, inGen := inGen, inConnId := inConnId}
  let t := {t with hNext := Function.update t.hNext a (t.hash h)}.setLink (.bucket h) (some a)
  check (inFd < maxConnections)
  let t ← t.linkClient inFd a
  let h ← t.chooseSlot inFd inConnId draws
  t.assign a h

/-- `get_ext_connection_by_in_conn_id` -/
def getByInConnId (t : Tables) (inFd inGen inConnId : ℕ) (mode : Mode) (a : ℕ)
    (draws : List ℕ) : Except Fault (Tables×Found) := do
  let h := extConnHash inFd inConnId
  match ← t.walk inFd inConnId (t.extConnections+1) (.bucket h) (t.hash h) with
  | some (prev,cur) =>
      match mode with
      | .find | .findOrCreate => .ok (t,.entry cur)
      | .create => .ok (t,.null)
      | .delete => do
          let t ← t.release prev cur
          .ok (t,.deleted)
  | none =>
      match mode with
      | .find | .delete => .ok (t,.null)
      | .create | .findOrCreate => do
          let t ← t.register inFd inGen inConnId a draws
          .ok (t,.entry a)

/-- `get_ext_connection_by_in_fd` -/
def getByInFd (t : Tables) (inFd : ℕ) : Except Fault (Option ℕ) := do
  check (inFd < maxConnections)
  check (t.i.next (.head inFd) = t.i.prev (.head inFd))
  match t.i.next (.head inFd) with
  | none => .ok none
  | some p =>
      if p = .head inFd then .ok none
      else match p with
        | .entry a => do
            let e ← deref (t.info a)
            check (e.inFd = inFd)
            .ok (some a)
        | _ => .error .pointer

/-- `find_ext_connection_by_out_conn_id` -/
def findByOutConnId (t : Tables) (outConnId : ℕ) : Except Fault (Option ℕ) :=
  let h := outConnId%extConnTableSize
  match t.outRef h with
  | none => .ok none
  | some a =>
      if t.outId h ≠ outConnId then .ok none
      else do
        let e ← deref (t.info a)
        check (e.outConnId = outConnId)
        .ok (some a)

/-- `lru_insert_conn`: the record of a connection becomes the most recent one. Unlike the
lookup it rests on, it compares generations. -/
def lruInsertConn (t : Tables) (c : Peer) : Except Fault Tables := do
  match ← t.getByInFd c.fd with
  | none => .ok t
  | some a => do
      let e ← deref (t.info a)
      if e.inFd = c.fd ∧ e.inGen = c.gen then
        let lru ← deref (lruDeleteExtConn t.lru a)
        let lru ← deref (lru.pushBack .lru (.entry a))
        .ok {t with lru := lru}
      else .ok t

/-- The list of the backend and the fields that name it. -/
def linkBackend (t : Tables) (a : ℕ) (co : Peer) : Except Fault Tables := do
  let e ← deref (t.info a)
  check (t.o.next (.head co.fd) ≠ none)
  let o ← deref (t.o.pushBack (.head co.fd) (.entry a))
  .ok {t with
    o := o
    info := Function.update t.info a (some {e with outFd := co.fd, outGen := co.gen})}

def setAuthKeyId (t : Tables) (a key : ℕ) : Tables :=
  {t with info := Function.update t.info a ((t.info a).map fun e => {e with authKeyId := key})}

/-- `create_ext_connection` -/
def createExtConnection (t : Tables) (ci : Peer) (inConnId : ℕ) (co : Option Peer)
    (authKeyId a : ℕ) (draws : List ℕ) : Except Fault (Tables×ℕ) := do
  match ← t.getByInConnId ci.fd ci.gen inConnId .create a draws with
  | (t,.entry a) => do
      let e ← deref (t.info a)
      check (e.outFd = 0 ∧ t.o.next (.entry a) = none ∧ e.authKeyId = 0)
      check (∀ c ∈ co, c.fd < maxConnections)
      check (co ≠ some ci)
      let t ← match co with
        | none => .ok t
        | some c => t.linkBackend a c
      .ok (t.setAuthKeyId a authKeyId,a)
  | _ => .error .assertion

end Tables

end Teleproxy.ExtConnections
