import Mathlib.Algebra.Order.Ring.Int
import Teleproxy.Lib.Linked
import Teleproxy.SecretSlots

/-!
# The cache of client randoms

Every ClientHello whose first sixteen random bytes are not cached is cached
under the time it arrived. An entry sits in two linked lists: the list of all
entries by time, with a pointer to each end, and the chain of its bucket, where
new entries go to the front. Old entries are taken off the front of the time
list and cut off the end of their chain; the code asserts that they are the
last there and never looks at the rest of the chain.

Pointers are natural numbers and `malloc` returns a new one each time. Reading
through a null pointer or one that was freed, a failed assertion and a loop
that does not end are the result `none`. Times are integers far from the limits
of `int`, so sums of them are taken in the integers.
-/
namespace Teleproxy.ClientRandoms
open SecretSlots Linked

abbrev maxClientRandomCacheTime : ℤ := 2*86400
abbrev maxAllowedTimestampError : ℤ := 2*60
abbrev randomHashBits : ℕ := 14

structure Entry where
  random : Key
  nextByTime : Option ℕ := none
  nextByHash : Option ℕ := none
  time : ℤ
  deriving DecidableEq, Repr

structure Cache where
  heap : ℕ → Option Entry := fun _ => none
  fresh : ℕ := 0
  clientRandoms : ℕ → Option ℕ := fun _ => none
  firstClientRandom : Option ℕ := none
  lastClientRandom : Option ℕ := none

/-- The bucket number: eight bits of the first byte, then six of the second. -/
def getClientRandomBucket (random : Key) : ℕ :=
  [(0,8),(1,6)].foldl
    (fun id (pos,bits) => (id <<< bits) ||| ((random.toList.getD pos 0).toNat &&& ((1 <<< bits)-1))) 0

/-- The assertion at the end of the hash function. -/
theorem getClientRandomBucket_lt (random : Key) :
    getClientRandomBucket random < 1 <<< randomHashBits := by
  simp only [getClientRandomBucket,List.foldl_cons,List.foldl_nil,Nat.zero_shiftLeft,Nat.zero_or]
  apply Nat.or_lt_two_pow (n := 14)
  · have h := Nat.and_lt_two_pow (n := 8) (random.toList.getD 0 0).toNat
      (show (1 <<< 8)-1 < 2^8 by decide)
    rw [Nat.shiftLeft_eq]
    omega
  · have h := Nat.and_lt_two_pow (n := 6) (random.toList.getD 1 0).toNat
      (show (1 <<< 6)-1 < 2^6 by decide)
    omega

def Cache.write (c : Cache) (i : ℕ) (f : Entry → Entry) : Option Cache :=
  (c.heap i).map fun e => {c with heap := Function.update c.heap i (some (f e))}

/-- The walk along a chain; `fuel` bounds the number of cells it visits. -/
def haveFrom (c : Cache) (random : Key) : ℕ → Option ℕ → Option Bool
  | _, none => some false
  | 0, some _ => none
  | fuel+1, some i =>
      match c.heap i with
      | none => none
      | some e => if random = e.random then some true else haveFrom c random fuel e.nextByHash

def haveClientRandom (c : Cache) (random : Key) : Option Bool :=
  haveFrom c random c.fresh (c.clientRandoms (getClientRandomBucket random))

/-- The new entry behind the last one of the time list. -/
def Cache.linkByTime (c : Cache) (i : ℕ) : Option Cache :=
  match c.lastClientRandom with
  | none =>
      if c.firstClientRandom = none then
        some {c with firstClientRandom := some i, lastClientRandom := some i}
      else none
  | some j =>
      (c.write j fun e => {e with nextByTime := some i}).map fun c => {c with lastClientRandom := some i}

def addClientRandom (now : ℤ) (random : Key) (c : Cache) : Option Cache := do
  let i := c.fresh
  let entry : Entry := {random := random, time := now}
  let c ← Cache.linkByTime {c with heap := Function.update c.heap i (some entry), fresh := i+1} i
  let bucket := getClientRandomBucket random
  let c ← c.write i fun e => {e with nextByHash := c.clientRandoms bucket}
  return {c with clientRandoms := Function.update c.clientRandoms bucket (some i)}

/-- A place that holds a chain pointer: a bucket or the field of an entry. -/
inductive Link where
  | bucket (b : ℕ)
  | nextByHash (i : ℕ)
  deriving DecidableEq, Repr

def Cache.readLink (c : Cache) : Link → Option (Option ℕ)
  | .bucket b => some (c.clientRandoms b)
  | .nextByHash i => (c.heap i).map Entry.nextByHash

def Cache.clearLink (c : Cache) : Link → Option Cache
  | .bucket b => some {c with clientRandoms := Function.update c.clientRandoms b none}
  | .nextByHash i => c.write i fun e => {e with nextByHash := none}

/-- The loop `while (*cur != entry)`. -/
def findLink (c : Cache) (entry : ℕ) : ℕ → Link → Option Link
  | 0, _ => none
  | fuel+1, cur =>
      match c.readLink cur with
      | none => none
      | some none => none
      | some (some i) => if i = entry then some cur else findLink c entry fuel (.nextByHash i)

def Cache.free (c : Cache) (i : ℕ) : Cache := {c with heap := Function.update c.heap i none}

/-- One round of the loop for the entry `i` with contents `e`. -/
def deleteEntry (i : ℕ) (e : Entry) (c : Cache) : Option Cache :=
  if e.nextByHash ≠ none then none else do
    let c := {c with firstClientRandom := e.nextByTime}
    let cur ← findLink c i c.fresh (.bucket (getClientRandomBucket e.random))
    let c ← c.clearLink cur
    return c.free i

def deleteOldFrom (now : ℤ) (fuel : ℕ) (c : Cache) : Option Cache :=
  if c.firstClientRandom = c.lastClientRandom then some c else
    match fuel, c.firstClientRandom with
    | fuel+1, some i =>
        match c.heap i with
        | none => none
        | some e =>
            if e.time > now-maxClientRandomCacheTime then some c
            else (deleteEntry i e c).bind (deleteOldFrom now fuel)
    | _, _ => none

def deleteOldClientRandoms (now : ℤ) (c : Cache) : Option Cache := deleteOldFrom now c.fresh c

def isAllowedTimestamp (now : ℤ) (c : Cache) (timestamp : ℤ) : Option Bool :=
  if timestamp > now+3 then some false else
    match c.firstClientRandom with
    | none => some (timestamp > now-maxAllowedTimestampError)
    | some i =>
        (c.heap i).map fun e =>
          if timestamp > e.time+3 then true else timestamp > now-maxAllowedTimestampError

/-- A ClientHello that reached the cache. `timestamp` is what its random bytes
decode to under the first secret whose HMAC they match, if they match one. -/
structure Arrival where
  now : ℤ
  random : Key
  timestamp : Option ℤ
  deriving DecidableEq, Repr

/-- The gate: whether the hello passes, and the cache after it. -/
def gate (a : Arrival) (c : Cache) : Option (Cache × Bool) := do
  if ← haveClientRandom c a.random then return (c,false)
  let c ← addClientRandom a.now a.random c
  let c ← deleteOldClientRandoms a.now c
  match a.timestamp with
  | none => return (c,false)
  | some timestamp => return (c,← isAllowedTimestamp a.now c timestamp)

/-- All arrivals in turn, with the verdict on each. -/
def runGate : List Arrival → Cache → Option (Cache × List Bool)
  | [], c => some (c,[])
  | a::as, c => do
      let (c,passed) ← gate a c
      let (c,verdicts) ← runGate as c
      return (c,passed::verdicts)

end Teleproxy.ClientRandoms
