import Mathlib.Data.Rat.Defs
import Teleproxy.Lib.FirstMatch

/-!
# Secret slots and their admission checks

One `Slot` gathers the entries that the arrays `ext_secret_*`, `per_secret_*`,
`per_secret_ips` and the Bloom filter keep for one index. The admission checks
read only the slot they are asked about, the address of the client, the clock
`now` and the process-wide variable `workers`, so they are functions of these.

Counters are unbounded integers here. Times taken from `precise_now` are exact
rationals; nothing below depends on rounding. The per-address volume table of
the metrics sidecar takes part in no decision and is not part of a slot.
-/
namespace Teleproxy.SecretSlots
open FirstMatch

abbrev extSecretMaxActive : ℕ := 16
abbrev extSecretMaxSlots : ℕ := 32
abbrev secretMaxTrackedIps : ℕ := 256

abbrev Key := Vector UInt8 16
abbrev Ipv6 := Vector UInt8 16
abbrev Label := List Char

def zeroKey : Key := Vector.replicate 16 0
def zeroIpv6 : Ipv6 := Vector.replicate 16 0

inductive SlotState where
  | free | active | draining
  deriving DecidableEq, Repr

/-- A client address as the code passes it: `ip` is zero for an IPv6 client. -/
structure Addr where
  ip : UInt32
  ipv6 : Ipv6
  deriving DecidableEq, Repr

structure TrackedIp where
  ip : UInt32 := 0
  ipv6 : Ipv6 := zeroIpv6
  connections : ℤ := 0
  tokens : ℤ := 0
  lastRefillTime : ℚ := 0
  deriving DecidableEq, Repr

structure Slot where
  key : Key := zeroKey
  state : SlotState := .free
  label : Label := []
  limit : ℤ := 0
  quota : ℤ := 0
  rateLimit : ℤ := 0
  maxIps : ℤ := 0
  expires : ℤ := 0
  drainStartedAt : ℚ := 0
  connections : ℤ := 0
  connectionsCreated : ℤ := 0
  connectionsRejected : ℤ := 0
  bytesReceived : ℤ := 0
  bytesSent : ℤ := 0
  rejectedQuota : ℤ := 0
  rejectedIps : ℤ := 0
  rejectedExpired : ℤ := 0
  uniqueIps : ℤ := 0
  rateLimited : ℤ := 0
  rejectedDraining : ℤ := 0
  drainForced : ℤ := 0
  ips : List TrackedIp := List.replicate secretMaxTrackedIps {}
  uniqueIpCount : ℤ := 0
  bloom : ℕ := 0
  deriving DecidableEq, Repr

/-- The share of a configured limit that one process enforces. -/
def perWorker (workers limit : ℤ) : ℤ :=
  let eff := if workers > 1 then limit / workers else limit
  if eff < 1 then 1 else eff

def secretOverLimit (workers : ℤ) (s : Slot) : Bool :=
  if s.limit ≤ 0 then false else s.connections ≥ perWorker workers s.limit

def secretExpired (now : ℤ) (s : Slot) : Bool := s.expires > 0 && now ≥ s.expires

def secretOverQuota (workers : ℤ) (s : Slot) : Bool :=
  if s.quota ≤ 0 then false else s.bytesReceived+s.bytesSent ≥ perWorker workers s.quota

/-- The comparison repeated in every scan of the address table. An all-zero
IPv6 address matches no entry. -/
def TrackedIp.isFor (a : Addr) (e : TrackedIp) : Bool :=
  if e.connections ≤ 0 then false
  else if a.ip ≠ 0 then e.ip == a.ip
  else e.ip == 0 && e.ipv6 != zeroIpv6 && e.ipv6 == a.ipv6

def ipOverLimit (workers : ℤ) (s : Slot) (a : Addr) : Bool :=
  if s.maxIps ≤ 0 then false
  else if s.ips.any (·.isFor a) then false
  else s.uniqueIpCount ≥ perWorker workers s.maxIps

/-- Bit positions of an address in the 65536-bit Bloom filter. -/
def bloomHashes (a : Addr) : List UInt32 :=
  let mask : UInt32 := 65535
  if a.ip ≠ 0 then
    let x := a.ip
    [(x*2654435761) &&& mask,(x*40503+0x9e3779b9) &&& mask,
      ((x ^^^ (x >>> 16))*0x85ebca6b) &&& mask,((x ^^^ (x >>> 13))*0xc2b2ae35) &&& mask]
  else
    let word (i : ℕ) : UInt32 :=
      (a.ipv6.toList.getD i 0).toUInt32 <<< 24 ||| (a.ipv6.toList.getD (i+1) 0).toUInt32 <<< 16 |||
        (a.ipv6.toList.getD (i+2) 0).toUInt32 <<< 8 ||| (a.ipv6.toList.getD (i+3) 0).toUInt32
    [(word 0 ^^^ (word 4*2654435761)) &&& mask,(word 4 ^^^ (word 8*40503)) &&& mask,
      (word 8 ^^^ (word 12*0x85ebca6b)) &&& mask,(word 12 ^^^ (word 0*0xc2b2ae35)) &&& mask]

/-- Sets the bits of an address; the flag tells whether one was still clear. -/
def uniqBloomTestAndSet (bloom : ℕ) (a : Addr) : Bool × ℕ :=
  (bloomHashes a).foldl
    (fun r h => if r.2.testBit h.toNat then r else (true,r.2 ||| (1 <<< h.toNat))) (false,bloom)

/-- The entry written for an address that was not tracked before. The token
bucket is filled only when the slot has a rate limit; otherwise the old
contents of these two fields stay. -/
def TrackedIp.start (workers : ℤ) (preciseNow : ℚ) (rateLimit : ℤ) (a : Addr) (e : TrackedIp) :
    TrackedIp :=
  let e := {e with ip := a.ip, ipv6 := a.ipv6, connections := 1}
  if rateLimit > 0 then
    {e with tokens := perWorker workers rateLimit, lastRefillTime := preciseNow}
  else e

def ipTrackConnect (workers : ℤ) (preciseNow : ℚ) (a : Addr) (s : Slot) : Slot :=
  let b := uniqBloomTestAndSet s.bloom a
  let s := {s with bloom := b.2, uniqueIps := s.uniqueIps + if b.1 then 1 else 0}
  if s.maxIps ≤ 0 ∧ s.rateLimit ≤ 0 then s else
    match updateFirst (·.isFor a) (fun e => {e with connections := e.connections+1}) s.ips with
    | some ips => {s with ips := ips}
    | none =>
      match updateFirst (fun e => e.connections ≤ 0)
          (TrackedIp.start workers preciseNow s.rateLimit a) s.ips with
      | some ips => {s with ips := ips, uniqueIpCount := s.uniqueIpCount+1}
      | none => s

/-- One connection less; the entry is emptied with its last connection. -/
def TrackedIp.release (e : TrackedIp) : TrackedIp :=
  if e.connections-1 ≤ 0 then {e with ip := 0, ipv6 := zeroIpv6, connections := 0}
  else {e with connections := e.connections-1}

def ipTrackDisconnect (a : Addr) (s : Slot) : Slot :=
  match s.ips.find? (·.isFor a), updateFirst (·.isFor a) TrackedIp.release s.ips with
  | some e, some ips =>
    {s with ips := ips,
            uniqueIpCount := if e.connections-1 ≤ 0 then s.uniqueIpCount-1 else s.uniqueIpCount}
  | _, _ => s

def ipTrackClearSlot (s : Slot) : Slot :=
  {s with ips := List.replicate secretMaxTrackedIps {}, bloom := 0, uniqueIpCount := 0}

/-- Why a connection was turned away, in the order the checks are made. -/
inductive Rejection where
  | draining | expired | limit | quota | ips
  deriving DecidableEq, Repr

/-- The five checks made for a slot, at the ClientHello of a TLS client and at
the obfs2 header of any other client. -/
def rejection (workers now : ℤ) (s : Slot) (a : Addr) : Option Rejection :=
  if s.state = .draining then some .draining
  else if secretExpired now s then some .expired
  else if secretOverLimit workers s then some .limit
  else if secretOverQuota workers s then some .quota
  else if ipOverLimit workers s a then some .ips
  else none

/-- Every rejection increments the counter of its own reason. -/
def countRejection (r : Rejection) (s : Slot) : Slot :=
  match r with
  | .draining => {s with rejectedDraining := s.rejectedDraining+1}
  | .expired => {s with rejectedExpired := s.rejectedExpired+1}
  | .limit => {s with connectionsRejected := s.connectionsRejected+1}
  | .quota => {s with rejectedQuota := s.rejectedQuota+1}
  | .ips => {s with rejectedIps := s.rejectedIps+1}

/-- The attach at the end of the obfs2 branch. -/
def attachSlot (workers : ℤ) (preciseNow : ℚ) (a : Addr) (s : Slot) : Slot :=
  ipTrackConnect workers preciseNow a
    {s with connections := s.connections+1, connectionsCreated := s.connectionsCreated+1}

/-- The matching decrement in both close handlers. -/
def detachSlot (a : Addr) (s : Slot) : Slot :=
  ipTrackDisconnect a {s with connections := s.connections-1}

end Teleproxy.SecretSlots
