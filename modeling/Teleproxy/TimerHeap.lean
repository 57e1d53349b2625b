import Mathlib.Data.Finset.Card
import Mathlib.Data.Finset.Dedup
import Mathlib.Order.WithBot
import Mathlib.Data.List.Infix
import Mathlib.Algebra.Group.Nat.Defs
import Teleproxy.Lib.Heap

/-!
# The heap of event timers

The timers of a thread are kept in an array of pointers, used from index one,
with the index of each timer stored back in its `h_idx`; zero stands for a timer
that is not in the heap. `basic_et_adjust` moves a timer up and then down from a
given index, and the timer is absent from the array while it moves. The array
has `MAX_EVENT_TIMERS` entries counted from zero, so its last index is one less
than the number of timers that the check of `insert_event_timer` lets in.
-/
namespace Teleproxy.TimerHeap
open Function

def maxEventTimers : ℕ := 2^19

/-- What ends a call: a failed assertion, an index outside the array, an entry
that holds no timer, or a loop that does not end. -/
inductive Fault
  | assertion
  | outside (i : ℕ)
  | null
  | endless
  deriving DecidableEq

/-- The heap of one thread and the fields of the timers that it reads and
writes. The array is `calloc`ed on first use. -/
structure Timers (T W : Type) where
  allocated : Bool
  etHeap : ℕ → Option T
  etHeapSize : ℕ
  hIdx : T → ℕ
  wakeupTime : T → W

section
variable {T W : Type}

def load (s : Timers T W) (i : ℕ) : Except Fault (Option T) :=
  if s.allocated = true ∧ i < maxEventTimers then .ok (s.etHeap i) else .error (.outside i)

/-- The timer an entry points to. -/
def deref (s : Timers T W) (i : ℕ) : Except Fault T := do
  match ← load s i with
  | some et => .ok et
  | none => .error .null

variable [DecidableEq T]

/-- `et_heap[i] = et` followed by `et->h_idx = i`. -/
def setEntry (s : Timers T W) (i : ℕ) (et : T) : Timers T W :=
  {s with etHeap := update s.etHeap i (some et), hIdx := update s.hIdx et i}

def put (s : Timers T W) (i : ℕ) (et : T) : Except Fault (Timers T W) :=
  if s.allocated = true ∧ i < maxEventTimers then .ok (setEntry s i et) else .error (.outside i)

variable [LinearOrder W]

/-- The first loop of `basic_et_adjust`. -/
def adjustUp (et : T) (s : Timers T W) (i : ℕ) : Except Fault (Timers T W × ℕ) :=
  if 1 < i then do
    let parent ← deref s (i/2)
    if s.wakeupTime parent ≤ s.wakeupTime et then
      .ok (s,i)
    else
      let s ← put s i parent
      adjustUp et s (i/2)
  else .ok (s,i)
termination_by i

/-- The child that the second loop compares with: the right one if it wakes
before the left one. -/
def earlier (s : Timers T W) (j : ℕ) : Except Fault ℕ :=
  if j < s.etHeapSize then do
    let left ← deref s j
    let right ← deref s (j+1)
    .ok (if s.wakeupTime right < s.wakeupTime left then j+1 else j)
  else .ok j

/-- The second loop of `basic_et_adjust`. -/
def adjustDown (et : T) : ℕ → Timers T W → ℕ → Except Fault (Timers T W × ℕ)
  | 0, _, _ => .error .endless
  | fuel+1, s, i =>
      if 2*i ≤ s.etHeapSize then do
        let j ← earlier s (2*i)
        let child ← deref s j
        if s.wakeupTime et ≤ s.wakeupTime child then
          .ok (s,i)
        else
          let s ← put s i child
          adjustDown et fuel s j
      else .ok (s,i)

def basicEtAdjust (s : Timers T W) (et : T) (i : ℕ) : Except Fault (Timers T W × ℕ) := do
  let (s,i) ← adjustUp et s i
  let (s,i) ← adjustDown et (s.etHeapSize+1) s i
  let s ← put s i et
  .ok (s,i)

/-- `et_heap = calloc (sizeof (void *), MAX_EVENT_TIMERS)` when there is no
array yet. -/
def allocate (s : Timers T W) : Timers T W :=
  if s.allocated then s else {s with allocated := true, etHeap := fun _ => none}

/-- `assert (i > 0 && i <= et_heap_size && et_heap[i] == et)`. -/
def assertAt (s : Timers T W) (i : ℕ) (et : T) : Except Fault Unit :=
  if 0 < i ∧ i ≤ s.etHeapSize then do
    if (← load s i) = some et then .ok () else .error .assertion
  else .error .assertion

def insertEventTimer (s : Timers T W) (et : T) : Except Fault (Timers T W × ℕ) :=
  let s := allocate s
  if s.hIdx et ≠ 0 then do
    assertAt s (s.hIdx et) et
    basicEtAdjust s et (s.hIdx et)
  else if s.etHeapSize < maxEventTimers then
    basicEtAdjust {s with etHeapSize := s.etHeapSize+1} et (s.etHeapSize+1)
  else .error .assertion

/-- `et->h_idx = 0` and `et_heap_size--`. -/
def forget (s : Timers T W) (et : T) : Timers T W :=
  {s with hIdx := update s.hIdx et 0, etHeapSize := s.etHeapSize-1}

def removeEventTimer (s : Timers T W) (et : T) : Except Fault (Timers T W × ℕ) :=
  let s := allocate s
  let i := s.hIdx et
  if i = 0 then .ok (s,0) else do
    assertAt s i et
    let last ← load s s.etHeapSize
    let s := forget s et
    if s.etHeapSize < i then
      .ok (s,1)
    else
      match last with
      | some et => do
          let (s,_) ← basicEtAdjust s et i
          .ok (s,1)
      | none => .error .null

/-- A timer is inserted, for the first time or again, with the wakeup time it
was just given, or removed. -/
inductive Event (T W : Type)
  | insert (et : T) (wakeupTime : W)
  | remove (et : T)

def step (s : Timers T W) : Event T W → Except Fault (Timers T W)
  | .insert et w => do
      let (s,_) ← insertEventTimer {s with wakeupTime := update s.wakeupTime et w} et
      .ok s
  | .remove et => do
      let (s,_) ← removeEventTimer s et
      .ok s

/-- A thread that has used no timer yet. -/
def start (wakeupTime : T → W) : Timers T W :=
  {allocated := false, etHeap := fun _ => none, etHeapSize := 0, hIdx := fun _ => 0,
   wakeupTime := wakeupTime}

def runTimers (wakeupTime : T → W) (events : List (Event T W)) : Except Fault (Timers T W) :=
  events.foldlM step (start wakeupTime)

/-- The timers that are live after an event. -/
def liveStep (live : Finset T) : Event T W → Finset T
  | .insert et _ => insert et live
  | .remove et => live.erase et

def liveAfter (events : List (Event T W)) : Finset T := events.foldl liveStep ∅

/-- The wakeup times that the callers have set. -/
def timesStep (times : T → W) : Event T W → T → W
  | .insert et w => update times et w
  | .remove _ => times

def timesAfter (times : T → W) (events : List (Event T W)) : T → W := events.foldl timesStep times

/-- The array holds the live timers, each at the index stored in it, and no
parent wakes after its child. -/
structure Holds (s : Timers T W) (live : Finset T) (times : T → W) : Prop where
  clock : s.wakeupTime = times
  size : s.etHeapSize = live.card
  held : ∀ j, 1 ≤ j → j ≤ s.etHeapSize → ∃ et ∈ live, s.etHeap j = some et ∧ s.hIdx et = j
  placed : ∀ et ∈ live, 1 ≤ s.hIdx et ∧ s.hIdx et ≤ s.etHeapSize ∧
    s.etHeap (s.hIdx et) = some et
  absent : ∀ et ∉ live, s.hIdx et = 0
  ordered : ∀ c parent child, 2 ≤ c → c ≤ s.etHeapSize → s.etHeap (c/2) = some parent →
    s.etHeap c = some child → times parent ≤ times child

/-- The key at an index of the array. -/
def key (s : Timers T W) (j : ℕ) : WithBot W :=
  match s.etHeap j with
  | some et => s.wakeupTime et
  | none => ⊥

/-- The heap while `et` is moved: the entry at `i` is out of date and `et` is
nowhere in the array. -/
structure Sifting (s : Timers T W) (et : T) (i : ℕ) (live : Finset T) (times : T → W) : Prop where
  allocated : s.allocated = true
  clock : s.wakeupTime = times
  size : s.etHeapSize = live.card
  first : 1 ≤ i
  last : i ≤ s.etHeapSize
  mem : et ∈ live
  held : ∀ j, 1 ≤ j → j ≤ s.etHeapSize → j ≠ i →
    ∃ t ∈ live, t ≠ et ∧ s.etHeap j = some t ∧ s.hIdx t = j
  placed : ∀ t ∈ live, t ≠ et → 1 ≤ s.hIdx t ∧ s.hIdx t ≤ s.etHeapSize ∧ s.hIdx t ≠ i ∧
    s.etHeap (s.hIdx t) = some t
  absent : ∀ t ∉ live, s.hIdx t = 0
  order : Heap.Holed (key s) s.etHeapSize i

variable {s : Timers T W} {et : T} {i : ℕ} {live : Finset T} {times : T → W}

theorem max_pos : 1 < maxEventTimers := by decide

omit [DecidableEq T] [LinearOrder W] in
theorem key_of_entry {j : ℕ} {t : T} (h : s.etHeap j = some t) : key s j = s.wakeupTime t := by
  simp [key,h]

omit [LinearOrder W] in
theorem key_setEntry (s : Timers T W) (i : ℕ) (et : T) :
    key (setEntry s i et) = update (key s) i (s.wakeupTime et : WithBot W) := by
  funext j
  by_cases hj : j = i
  · rw [hj,update_self]
    simp [key,setEntry]
  · simp [key,setEntry,update_of_ne hj]

omit [LinearOrder W] in
theorem put_inside (ha : s.allocated = true) (hi : i < maxEventTimers) (et : T) :
    put s i et = .ok (setEntry s i et) := by
  simp [put,ha,hi]

omit [LinearOrder W] in
theorem put_outside (hi : ¬ i < maxEventTimers) (et : T) :
    put s i et = .error (.outside i) := by
  simp [put,hi]

omit [DecidableEq T] in
/-- Every entry off the hole holds a timer that its index points back to. -/
theorem Sifting.entry (h : Sifting s et i live times) {j : ℕ} (h1 : 1 ≤ j)
    (hn : j ≤ s.etHeapSize) (hj : j ≠ i) (hmax : j < maxEventTimers) :
    ∃ t ∈ live, t ≠ et ∧ s.etHeap j = some t ∧ s.hIdx t = j ∧ deref s j = .ok t := by
  obtain ⟨t,ht,hne,hat,hidx⟩ := h.held j h1 hn hj
  refine ⟨t,ht,hne,hat,hidx,?_⟩
  simp [deref,load,h.allocated,hmax,hat,bind,Except.bind]

/-- The timer at `j` moves into the hole, which is then at `j`. -/
theorem Sifting.move (h : Sifting s et i live times) {j : ℕ} {t : T} (h1 : 1 ≤ j)
    (hn : j ≤ s.etHeapSize) (hj : j ≠ i) (hat : s.etHeap j = some t)
    (horder : Heap.Holed (update (key s) i (key s j)) s.etHeapSize j) :
    Sifting (setEntry s i t) et j live times := by
  obtain ⟨t',ht,hne,hat',hidx⟩ := h.held j h1 hn hj
  obtain rfl : t = t' := Option.some.inj (hat.symm.trans hat')
  refine ⟨h.allocated,h.clock,h.size,h1,hn,h.mem,?_,?_,?_,?_⟩
  · intro k hk1 hkn hkj
    by_cases hki : k = i
    · exact ⟨t,ht,hne,by simp [setEntry,hki],by simp [setEntry,hki]⟩
    · obtain ⟨u,hu,hune,huat,huidx⟩ := h.held k hk1 hkn hki
      have hut : u ≠ t := by
        rintro rfl
        exact hkj (huidx.symm.trans hidx)
      exact ⟨u,hu,hune,by simp [setEntry,update_of_ne hki,huat],
        by simp [setEntry,update_of_ne hut,huidx]⟩
  · intro u hu hune
    by_cases hut : u = t
    · simp only [hut,setEntry,update_self]
      exact ⟨h.first,h.last,hj.symm,trivial⟩
    · obtain ⟨hu1,hun,hui,huat⟩ := h.placed u hu hune
      have huj : s.hIdx u ≠ j := by
        intro hc
        rw [hc,hat] at huat
        exact hut (Option.some.inj huat).symm
      simp only [setEntry,update_of_ne hut,update_of_ne hui]
      exact ⟨hu1,hun,huj,huat⟩
  · intro u hu
    have hut : u ≠ t := by
      rintro rfl
      exact hu ht
    simpa [setEntry,update_of_ne hut] using h.absent u hu
  · rw [key_setEntry,← key_of_entry hat]
    exact horder

theorem adjustUp_spec (hmax : s.etHeapSize < maxEventTimers)
    (h : Sifting s et i live times) :
    ∃ s' j, adjustUp et s i = .ok (s',j) ∧ Sifting s' et j live times ∧
      (2 ≤ j → key s' (j/2) ≤ (times et : WithBot W)) := by
  induction i using Nat.strongRecOn generalizing s with
  | ind i ih =>
      rw [adjustUp]
      by_cases hi : 1 < i
      · obtain ⟨t,_,_,hat,_,hload⟩ :=
          h.entry (j := i/2) (by omega) (by have := h.last; omega) (by omega)
            (by have := h.last; omega)
        have hkey : key s (i/2) = (times t : WithBot W) := by rw [key_of_entry hat,h.clock]
        by_cases hle : s.wakeupTime t ≤ s.wakeupTime et
        · refine ⟨s,i,by simp [hi,hload,hle,bind,Except.bind],h,fun _ => ?_⟩
          rw [hkey]
          exact_mod_cast h.clock ▸ hle
        · have hmoved := h.move (by omega) (by have := h.last; omega) (by omega) hat
            (h.order.up hi h.last)
          obtain ⟨s',j,hrun,hs',hj⟩ := ih (i/2) (by omega) (s := setEntry s i t) hmax hmoved
          have hput := put_inside h.allocated (Nat.lt_of_le_of_lt h.last hmax) t
          exact ⟨s',j,by simp [hi,hload,hle,hput,hrun,bind,Except.bind],hs',hj⟩
      · exact ⟨s,i,by simp [hi],h,fun h2 => absurd h2 hi⟩

omit [DecidableEq T] in
theorem earlier_spec (hmax : s.etHeapSize < maxEventTimers)
    (h : Sifting s et i live times) (hi : 2*i ≤ s.etHeapSize) :
    ∃ j, earlier s (2*i) = .ok j ∧ j/2 = i ∧ j ≤ s.etHeapSize ∧
      ∀ d, d ≤ s.etHeapSize → d/2 = i → key s j ≤ key s d := by
  have hpos := h.first
  obtain ⟨l,_,_,hatl,_,hl⟩ := h.entry (j := 2*i) (by omega) hi (by omega) (by omega)
  by_cases hlt : 2*i < s.etHeapSize
  · obtain ⟨r,_,_,hatr,_,hr⟩ := h.entry (j := 2*i+1) (by omega) hlt (by omega) (by omega)
    have hkl := key_of_entry hatl
    have hkr := key_of_entry hatr
    have hchild : ∀ d, d/2 = i → d = 2*i ∨ d = 2*i+1 := by omega
    by_cases hw : s.wakeupTime r < s.wakeupTime l
    · refine ⟨2*i+1,by simp [earlier,hlt,hl,hr,hw,bind,Except.bind],by omega,hlt,?_⟩
      intro d _ hd
      rcases hchild d hd with rfl | rfl
      · rw [hkl,hkr]
        exact_mod_cast hw.le
      · exact le_rfl
    · refine ⟨2*i,by simp [earlier,hlt,hl,hr,hw,bind,Except.bind],by omega,hi,?_⟩
      intro d _ hd
      rcases hchild d hd with rfl | rfl
      · exact le_rfl
      · rw [hkl,hkr]
        exact_mod_cast not_lt.mp hw
  · refine ⟨2*i,by simp [earlier,hlt],by omega,hi,?_⟩
    intro d hd hdi
    rw [show d = 2*i by omega]

theorem adjustDown_spec {fuel : ℕ} (hmax : s.etHeapSize < maxEventTimers)
    (hfuel : s.etHeapSize < fuel+i) (h : Sifting s et i live times)
    (hup : 2 ≤ i → key s (i/2) ≤ (times et : WithBot W)) :
    ∃ s' j, adjustDown et fuel s i = .ok (s',j) ∧ Sifting s' et j live times ∧
      (2 ≤ j → key s' (j/2) ≤ (times et : WithBot W)) ∧
      ∀ d, d ≤ s'.etHeapSize → d/2 = j → (times et : WithBot W) ≤ key s' d := by
  induction fuel generalizing s i with
  | zero => exact absurd h.last (by omega)
  | succ fuel ih =>
      rw [adjustDown]
      have hpos := h.first
      by_cases hi : 2*i ≤ s.etHeapSize
      · obtain ⟨c,hearlier,hci,hcn,hmin⟩ := earlier_spec hmax h hi
        obtain ⟨t,_,_,hat,_,hload⟩ := h.entry (j := c) (by omega) hcn (by omega) (by omega)
        have hkey : key s c = (times t : WithBot W) := by rw [key_of_entry hat,h.clock]
        by_cases hle : s.wakeupTime et ≤ s.wakeupTime t
        · refine ⟨s,i,by simp [hi,hearlier,hload,hle,bind,Except.bind],h,hup,?_⟩
          intro d hd hdi
          have htc : (times et : WithBot W) ≤ key s c := by
            rw [hkey]
            exact_mod_cast h.clock ▸ hle
          exact htc.trans (hmin d hd hdi)
        · have hmoved := h.move (by omega) hcn (by omega) hat (h.order.down hci hmin hcn)
          have habove : 2 ≤ c → key (setEntry s i t) (c/2) ≤ (times et : WithBot W) := by
            intro _
            rw [key_setEntry,hci,update_self,h.clock]
            have := (not_le.mp hle).le
            rw [h.clock] at this
            exact_mod_cast this
          obtain ⟨s',j,hrun,hs'⟩ := ih (s := setEntry s i t) hmax
            (by show s.etHeapSize < fuel+c; omega) hmoved habove
          have hput := put_inside h.allocated (Nat.lt_of_le_of_lt h.last hmax) t
          exact ⟨s',j,by simp [hi,hearlier,hload,hle,hput,hrun,bind,Except.bind],hs'⟩
      · exact ⟨s,i,by simp [hi],h,hup,fun d hd hdi => absurd hd (by omega)⟩

/-- The moved timer is put into the hole. -/
theorem Sifting.finish (h : Sifting s et i live times)
    (hup : 2 ≤ i → key s (i/2) ≤ (times et : WithBot W))
    (hdown : ∀ d, d ≤ s.etHeapSize → d/2 = i → (times et : WithBot W) ≤ key s d) :
    Holds (setEntry s i et) live times := by
  have horder : Heap.Ordered (key (setEntry s i et)) s.etHeapSize := by
    rw [key_setEntry,h.clock]
    exact h.order.fill hup hdown
  refine ⟨h.clock,h.size,?_,?_,?_,?_⟩
  · intro j h1 hn
    by_cases hj : j = i
    · exact ⟨et,h.mem,by simp [setEntry,hj],by simp [setEntry,hj]⟩
    · obtain ⟨t,ht,hne,hat,hidx⟩ := h.held j h1 hn hj
      exact ⟨t,ht,by simp [setEntry,update_of_ne hj,hat],by simp [setEntry,update_of_ne hne,hidx]⟩
  · intro t ht
    by_cases hte : t = et
    · simp only [hte,setEntry,update_self]
      exact ⟨h.first,h.last,trivial⟩
    · obtain ⟨h1,hn,hi,hat⟩ := h.placed t ht hte
      simp only [setEntry,update_of_ne hte,update_of_ne hi]
      exact ⟨h1,hn,hat⟩
  · intro t ht
    have hte : t ≠ et := by
      rintro rfl
      exact ht h.mem
    simpa [setEntry,update_of_ne hte] using h.absent t ht
  · intro c parent child hc hcn hp hchild
    have hle := horder c hc hcn
    rw [key_of_entry hp,key_of_entry hchild] at hle
    rw [← h.clock]
    exact_mod_cast hle

theorem basic_et_adjust_spec (hmax : s.etHeapSize < maxEventTimers)
    (h : Sifting s et i live times) :
    ∃ s' j, basicEtAdjust s et i = .ok (s',j) ∧ Holds s' live times ∧ s'.allocated = true := by
  obtain ⟨s₁,i₁,hup,h₁,habove⟩ := adjustUp_spec hmax h
  have hmax₁ : s₁.etHeapSize < maxEventTimers := by rw [h₁.size,← h.size]; exact hmax
  obtain ⟨s₂,i₂,hdown,h₂,habove₂,hbelow₂⟩ :=
    adjustDown_spec hmax₁ (show s₁.etHeapSize < s₁.etHeapSize+1+i₁ by omega) h₁ habove
  have hmax₂ : i₂ < maxEventTimers := by
    have hlast := h₂.last
    rw [h₂.size,← h₁.size] at hlast
    exact Nat.lt_of_le_of_lt hlast hmax₁
  exact ⟨setEntry s₂ i₂ et,i₂,
    by simp [basicEtAdjust,hup,hdown,put_inside h₂.allocated hmax₂ et,bind,Except.bind],
    h₂.finish habove₂ hbelow₂,h₂.allocated⟩

/-- With as many live timers as the array has entries, the entry behind the
array is written. -/
theorem basic_et_adjust_full (hsize : s.etHeapSize = maxEventTimers)
    (h : Sifting s et maxEventTimers live times) :
    basicEtAdjust s et maxEventTimers = .error (.outside maxEventTimers) := by
  have hpos := max_pos
  obtain ⟨t,_,_,_,_,hload⟩ := h.entry (j := maxEventTimers/2) (by omega) (by omega) (by omega)
    (by omega)
  have hput := put_outside (s := s) (lt_irrefl maxEventTimers)
  by_cases hle : s.wakeupTime t ≤ s.wakeupTime et
  · have hup : adjustUp et s maxEventTimers = .ok (s,maxEventTimers) := by
      rw [adjustUp]
      simp [hpos,hload,hle,bind,Except.bind]
    have hdown : adjustDown et (s.etHeapSize+1) s maxEventTimers =
        .ok (s,maxEventTimers) := by
      rw [adjustDown,if_neg (by omega)]
    simp [basicEtAdjust,hup,hdown,hput,bind,Except.bind]
  · have hup : adjustUp et s maxEventTimers = .error (.outside maxEventTimers) := by
      rw [adjustUp]
      simp [hpos,hload,hle,hput,bind,Except.bind]
    simp [basicEtAdjust,hup,bind,Except.bind]

/-- The state between two calls: an array that was not allocated is empty. -/
structure Between (s : Timers T W) (live : Finset T) (times : T → W) : Prop
    extends Holds s live times where
  ready : s.allocated = false → s.etHeapSize = 0

theorem Between.allocate (h : Between s live times) :
    Between (allocate s) live times ∧ (allocate s).allocated = true := by
  unfold TimerHeap.allocate
  cases ha : s.allocated with
  | true => exact ⟨by simpa [ha] using h,by simp [ha]⟩
  | false =>
      have hzero := h.ready ha
      have hlive : live = ∅ := Finset.card_eq_zero.mp (h.size.symm.trans hzero)
      refine ⟨⟨⟨h.clock,h.size,?_,?_,h.absent,?_⟩,by simp⟩,by simp⟩
      · intro j h1 hn
        simp only [Bool.false_eq_true,if_false,hzero] at hn
        omega
      · simp [hlive]
      · intro c parent child hc hn
        simp only [Bool.false_eq_true,if_false,hzero] at hn
        omega

omit [DecidableEq T] in
theorem Holds.key_ordered (h : Holds s live times) : Heap.Ordered (key s) s.etHeapSize := by
  intro c hc hn
  obtain ⟨parent,_,hp,_⟩ := h.held (c/2) (by omega) (by omega)
  obtain ⟨child,_,hchild,_⟩ := h.held c (by omega) hn
  rw [key_of_entry hp,key_of_entry hchild,h.clock]
  exact_mod_cast h.ordered c parent child hc hn hp hchild

omit [LinearOrder W] in
theorem key_retimed {c : ℕ} {t : T} (w : W) (hat : s.etHeap c = some t) (hne : t ≠ et) :
    key {s with wakeupTime := update s.wakeupTime et w} c = key s c := by
  simp [key,hat,update_of_ne hne]

/-- A wakeup time does not count for the heap while its timer is moved. -/
theorem Holds.lift (h : Holds s live times) (ha : s.allocated = true) (het : et ∈ live) (w : W) :
    Sifting {s with wakeupTime := update s.wakeupTime et w} et (s.hIdx et) live
      (update times et w) := by
  obtain ⟨h1,hn,hat⟩ := h.placed et het
  have hoff : ∀ t ∈ live, s.hIdx t = s.hIdx et → t = et := by
    intro t ht hidx
    have hbt := (h.placed t ht).2.2
    rw [hidx,hat] at hbt
    exact (Option.some.inj hbt).symm
  refine ⟨ha,by simp [h.clock],h.size,h1,hn,het,?_,?_,h.absent,?_⟩
  · intro j hj1 hjn hj
    obtain ⟨t,ht,htat,hidx⟩ := h.held j hj1 hjn
    exact ⟨t,ht,fun hte => hj (by rw [← hidx,hte]),htat,hidx⟩
  · intro t ht hne
    obtain ⟨ht1,htn,htat⟩ := h.placed t ht
    exact ⟨ht1,htn,fun hidx => hne (hoff t ht hidx),htat⟩
  · apply (h.key_ordered.hole (s.hIdx et)).congr
    intro c hc1 hcn hc
    obtain ⟨t,_,hat,hidx⟩ := h.held c hc1 hcn
    exact key_retimed w hat fun hte => hc (by rw [← hidx,hte])

/-- The place of a new timer is the one behind the last. -/
theorem Holds.append (h : Holds s live times) (ha : s.allocated = true) (het : et ∉ live) (w : W) :
    Sifting {s with wakeupTime := update s.wakeupTime et w, etHeapSize := s.etHeapSize+1} et
      (s.etHeapSize+1) (insert et live) (update times et w) := by
  refine ⟨ha,by simp [h.clock],?_,by omega,le_rfl,Finset.mem_insert_self et live,?_,?_,?_,?_⟩
  · rw [Finset.card_insert_of_notMem het,← h.size]
  · intro j h1 hn hj
    obtain ⟨t,ht,hat,hidx⟩ := h.held j h1 (by simp only at hn; omega)
    exact ⟨t,Finset.mem_insert_of_mem ht,fun hte => het (hte ▸ ht),hat,hidx⟩
  · intro t ht hne
    obtain ⟨h1,hn,hat⟩ := h.placed t (Finset.mem_of_mem_insert_of_ne ht hne)
    exact ⟨h1,Nat.le_succ_of_le hn,Nat.ne_of_lt (Nat.lt_succ_of_le hn),hat⟩
  · intro t ht
    exact h.absent t fun hc => ht (Finset.mem_insert_of_mem hc)
  · apply h.key_ordered.grow.congr
    intro c hc1 hcn hc
    obtain ⟨t,ht,hat,_⟩ := h.held c hc1 (by omega)
    exact key_retimed w hat fun hte => het (hte ▸ ht)

omit [LinearOrder W] in
theorem forget_absent (h : ∀ t ∉ live, s.hIdx t = 0) {t : T} (ht : t ∉ live.erase et) :
    (forget s et).hIdx t = 0 := by
  by_cases hte : t = et
  · simp [forget,hte]
  · have htl : t ∉ live := fun hc => ht (Finset.mem_erase.mpr ⟨hte,hc⟩)
    simpa [forget,update_of_ne hte] using h t htl

/-- The place of a removed timer is the hole that the last timer goes to. -/
theorem Holds.takeOut (h : Holds s live times) (ha : s.allocated = true) (het : et ∈ live)
    (hlast : s.hIdx et ≤ s.etHeapSize-1) {moved : T}
    (hmoved : s.etHeap s.etHeapSize = some moved) :
    Sifting (forget s et) moved (s.hIdx et) (live.erase et) times := by
  obtain ⟨h1,hn,hat⟩ := h.placed et het
  obtain ⟨m,hm,hmat,hmidx⟩ := h.held s.etHeapSize (by omega) le_rfl
  obtain rfl : moved = m := Option.some.inj (hmoved.symm.trans hmat)
  refine ⟨ha,h.clock,?_,h1,hlast,?_,?_,?_,?_,?_⟩
  · simp only [forget,Finset.card_erase_of_mem het,h.size]
  · refine Finset.mem_erase.mpr ⟨?_,hm⟩
    rintro rfl
    omega
  · intro j hj1 hjn hj
    obtain ⟨t,ht,htat,hidx⟩ := h.held j hj1 (by simp only [forget] at hjn; omega)
    have hte : t ≠ et := fun hc => hj (by rw [← hidx,hc])
    have htm : t ≠ moved := by
      rintro rfl
      simp only [forget] at hjn
      omega
    exact ⟨t,Finset.mem_erase.mpr ⟨hte,ht⟩,htm,htat,by simp [forget,update_of_ne hte,hidx]⟩
  · intro t ht htm
    obtain ⟨hte,ht⟩ := Finset.mem_erase.mp ht
    obtain ⟨ht1,htn,htat⟩ := h.placed t ht
    have hlt : s.hIdx t ≠ s.etHeapSize := by
      intro hc
      rw [hc,hmoved] at htat
      exact htm (Option.some.inj htat).symm
    have hti : s.hIdx t ≠ s.hIdx et := by
      intro hc
      rw [hc,hat] at htat
      exact hte (Option.some.inj htat).symm
    simp only [forget,update_of_ne hte]
    exact ⟨ht1,by omega,hti,htat⟩
  · exact fun t ht => forget_absent h.absent ht
  · exact (h.key_ordered.mono (Nat.sub_le _ 1)).hole (s.hIdx et)

/-- When the removed timer is the last of the array no other timer moves. -/
theorem Holds.dropLast (h : Holds s live times) (het : et ∈ live)
    (hlast : s.hIdx et = s.etHeapSize) : Holds (forget s et) (live.erase et) times := by
  obtain ⟨h1,hn,hat⟩ := h.placed et het
  refine ⟨h.clock,?_,?_,?_,?_,?_⟩
  · simp only [forget,Finset.card_erase_of_mem het,h.size]
  · intro j hj1 hjn
    simp only [forget] at hjn
    obtain ⟨t,ht,htat,hidx⟩ := h.held j hj1 (by omega)
    have hte : t ≠ et := by
      rintro rfl
      omega
    exact ⟨t,Finset.mem_erase.mpr ⟨hte,ht⟩,htat,by simp [forget,update_of_ne hte,hidx]⟩
  · intro t ht
    obtain ⟨hte,ht⟩ := Finset.mem_erase.mp ht
    obtain ⟨ht1,htn,htat⟩ := h.placed t ht
    have hlt : s.hIdx t ≠ s.etHeapSize := by
      intro hc
      rw [hc,← hlast,hat] at htat
      exact hte (Option.some.inj htat).symm
    simp only [forget,update_of_ne hte]
    exact ⟨ht1,by omega,htat⟩
  · exact fun t ht => forget_absent h.absent ht
  · intro c parent child hc hcn
    exact h.ordered c parent child hc (by simp only [forget] at hcn; omega)

omit [LinearOrder W] in
theorem assertAt_ok (ha : s.allocated = true) (h1 : 1 ≤ i) (hn : i ≤ s.etHeapSize)
    (hmax : i < maxEventTimers) (hat : s.etHeap i = some et) : assertAt s i et = .ok () := by
  have hpos : 0 < i := h1
  simp [assertAt,load,ha,hpos,hn,hmax,hat,bind,Except.bind]

omit [LinearOrder W] in
theorem allocate_retimed (s : Timers T W) (et : T) (w : W) :
    allocate {s with wakeupTime := update s.wakeupTime et w} =
      {allocate s with wakeupTime := update (allocate s).wakeupTime et w} := by
  unfold allocate
  split <;> rfl

theorem step_insert (h : Between s live times) (hlive : live.card < maxEventTimers) (w : W)
    (hroom : (insert et live).card < maxEventTimers) :
    ∃ s', step s (.insert et w) = .ok s' ∧ Between s' (insert et live) (update times et w) := by
  obtain ⟨h',ha⟩ := h.allocate
  have hmax : (allocate s).etHeapSize < maxEventTimers := by rw [h'.size]; exact hlive
  have hret := allocate_retimed s et w
  by_cases het : et ∈ live
  · obtain ⟨h1,hn,hat⟩ := h'.placed et het
    have hassert := assertAt_ok (s := {allocate s with
      wakeupTime := update (allocate s).wakeupTime et w}) ha h1 hn
      (Nat.lt_of_le_of_lt hn hmax) hat
    obtain ⟨s',j,hrun,hs',ha'⟩ := basic_et_adjust_spec (by exact hmax) (h'.lift ha het w)
    refine ⟨s',?_,by simpa [het] using hs',by simp [ha']⟩
    have hidx : (allocate s).hIdx et ≠ 0 := by omega
    simp [step,insertEventTimer,hret,hidx,hassert,hrun,bind,Except.bind]
  · have hidx : (allocate s).hIdx et = 0 := h'.absent et het
    have hroom' : (allocate s).etHeapSize+1 < maxEventTimers := by
      rwa [Finset.card_insert_of_notMem het,← h'.size] at hroom
    obtain ⟨s',j,hrun,hs',ha'⟩ := basic_et_adjust_spec hroom' (h'.append ha het w)
    refine ⟨s',?_,hs',by simp [ha']⟩
    simp [step,insertEventTimer,hret,hidx,hmax,hrun,bind,Except.bind]

theorem step_remove (h : Between s live times) (hlive : live.card < maxEventTimers) :
    ∃ s', step s (.remove et) = .ok s' ∧ Between s' (live.erase et) times := by
  obtain ⟨h',ha⟩ := h.allocate
  have hmax : (allocate s).etHeapSize < maxEventTimers := by rw [h'.size]; exact hlive
  by_cases het : et ∈ live
  · obtain ⟨h1,hn,hat⟩ := h'.placed et het
    have hassert := assertAt_ok ha h1 hn (Nat.lt_of_le_of_lt hn hmax) hat
    have hidx : (allocate s).hIdx et ≠ 0 := by omega
    obtain ⟨moved,_,hmoved,_⟩ := h'.held (allocate s).etHeapSize (by omega) le_rfl
    have hload : load (allocate s) (allocate s).etHeapSize = .ok (some moved) := by
      simp [load,ha,hmax,hmoved]
    by_cases hlast : (allocate s).hIdx et = (allocate s).etHeapSize
    · refine ⟨forget (allocate s) et,?_,h'.dropLast het hlast,by simp [forget,ha]⟩
      have hlt : (forget (allocate s) et).etHeapSize < (allocate s).hIdx et := by
        simp only [forget]
        omega
      simp [step,removeEventTimer,hidx,hassert,hload,hlt,bind,Except.bind]
    · have hle : (allocate s).hIdx et ≤ (allocate s).etHeapSize-1 := by omega
      have hsize : (forget (allocate s) et).etHeapSize < maxEventTimers := by
        simp only [forget]
        omega
      obtain ⟨s',j,hrun,hs',ha'⟩ := basic_et_adjust_spec hsize (h'.takeOut ha het hle hmoved)
      refine ⟨s',?_,hs',by simp [ha']⟩
      have hlt : ¬ (forget (allocate s) et).etHeapSize < (allocate s).hIdx et := by
        simp only [forget]
        omega
      simp [step,removeEventTimer,hidx,hassert,hload,hlt,hrun,bind,Except.bind]
  · have hidx : (allocate s).hIdx et = 0 := h'.absent et het
    refine ⟨allocate s,by simp [step,removeEventTimer,hidx,bind,Except.bind],?_⟩
    simpa [het] using h'

/-- One event where the array has room: the call returns and the heap holds the
live timers again. -/
theorem step_ok (h : Between s live times) (hlive : live.card < maxEventTimers)
    (a : Event T W) (hroom : (liveStep live a).card < maxEventTimers) :
    ∃ s', step s a = .ok s' ∧ Between s' (liveStep live a) (timesStep times a) := by
  cases a with
  | insert et w => exact step_insert h hlive w hroom
  | remove et => exact step_remove h hlive

/-- The event that makes the number of live timers that of the entries. -/
theorem step_full (h : Between s live times) (hlive : live.card < maxEventTimers)
    (a : Event T W) (hfull : ¬ (liveStep live a).card < maxEventTimers) :
    step s a = .error (.outside maxEventTimers) := by
  obtain ⟨h',ha⟩ := h.allocate
  cases a with
  | remove et => exact absurd (Nat.lt_of_le_of_lt Finset.card_erase_le hlive) hfull
  | insert et w =>
      have het : et ∉ live := by
        intro hc
        rw [liveStep,Finset.insert_eq_of_mem hc] at hfull
        exact hfull hlive
      have hsize : (allocate s).etHeapSize+1 = maxEventTimers := by
        rw [liveStep,Finset.card_insert_of_notMem het] at hfull
        have := h'.size
        omega
      have hidx : (allocate s).hIdx et = 0 := h'.absent et het
      have hret := allocate_retimed s et w
      have happend := h'.append ha het w
      rw [hsize] at happend
      have hrun := basic_et_adjust_full rfl happend
      have hmax : (allocate s).etHeapSize < maxEventTimers := by omega
      simp [step,insertEventTimer,hret,hidx,hmax,hsize,hrun,bind,Except.bind]

omit [DecidableEq T] in
theorem start_between (times : T → W) : Between (start times) ∅ times :=
  ⟨⟨rfl,rfl,fun j h1 hn => absurd (h1.trans hn) (Nat.not_succ_le_zero 0),by simp,
    fun _ _ => rfl,fun c _ _ hc hn => absurd (hc.trans hn) (Nat.not_succ_le_zero 1)⟩,fun _ => rfl⟩

theorem runTimers_concat (times : T → W) (events : List (Event T W)) (a : Event T W) :
    runTimers times (events++[a]) = (runTimers times events).bind fun s => step s a := by
  simp only [runTimers,List.foldlM_append,List.foldlM_cons,List.foldlM_nil,bind_pure]
  rfl

omit [LinearOrder W] in
theorem liveAfter_concat (events : List (Event T W)) (a : Event T W) :
    liveAfter (events++[a]) = liveStep (liveAfter events) a := by
  simp [liveAfter]

omit [LinearOrder W] in
theorem timesAfter_concat (times : T → W) (events : List (Event T W)) (a : Event T W) :
    timesAfter times (events++[a]) = timesStep (timesAfter times events) a := by
  simp [timesAfter]

/-- A run that returns has left room in the array after each of its events. -/
theorem between_of_run {events : List (Event T W)} (h : runTimers times events = .ok s) :
    Between s (liveAfter events) (timesAfter times events) ∧
      (liveAfter events).card < maxEventTimers := by
  induction events using List.reverseRecOn generalizing s with
  | nil =>
      have hs : s = start times := (Except.ok.inj h).symm
      exact ⟨hs ▸ start_between times,by simp [liveAfter,maxEventTimers]⟩
  | append_singleton events a ih =>
      rw [runTimers_concat] at h
      cases hrun : runTimers times events with
      | error e => simp [hrun,Except.bind] at h
      | ok s₀ =>
          obtain ⟨hbetween,hlive⟩ := ih hrun
          have hstep : step s₀ a = .ok s := by simpa [hrun,Except.bind] using h
          rw [liveAfter_concat,timesAfter_concat]
          by_cases hroom : (liveStep (liveAfter events) a).card < maxEventTimers
          · obtain ⟨s',hs',hbetween'⟩ := step_ok hbetween hlive a hroom
            obtain rfl : s' = s := Except.ok.inj (hs'.symm.trans hstep)
            exact ⟨hbetween',hroom⟩
          · rw [step_full hbetween hlive a hroom] at hstep
            cases hstep

/-- A run that leaves room after each of its events returns. -/
theorem run_returns (times : T → W) {events : List (Event T W)}
    (h : ∀ pre, pre <+: events → (liveAfter pre).card < maxEventTimers) :
    ∃ s, runTimers times events = .ok s := by
  induction events using List.reverseRecOn with
  | nil => exact ⟨start times,rfl⟩
  | append_singleton events a ih =>
      obtain ⟨s,hrun⟩ := ih fun pre hpre => h pre (hpre.trans (List.prefix_append events [a]))
      obtain ⟨hbetween,hlive⟩ := between_of_run hrun
      have hroom := h (events++[a]) (List.prefix_refl _)
      rw [liveAfter_concat] at hroom
      obtain ⟨s',hs',_⟩ := step_ok hbetween hlive a hroom
      exact ⟨s',by rw [runTimers_concat,hrun,Except.bind,hs']⟩

omit [DecidableEq T] in
/-- No timer of a heap wakes before the one at index one. -/
theorem Holds.first_le (h : Holds s live times) (het : et ∈ live) :
    ∃ first, s.etHeap 1 = some first ∧ times first ≤ times et := by
  obtain ⟨h1,hn,hat⟩ := h.placed et het
  obtain ⟨first,_,hfirst,_⟩ := h.held 1 le_rfl (h1.trans hn)
  have hle := h.key_ordered.root_le h1 hn
  rw [key_of_entry hfirst,key_of_entry hat,h.clock] at hle
  exact ⟨first,hfirst,by exact_mod_cast hle⟩

/-- After every event of the run no call has failed an assertion or used an
index outside the array, the array holds the live timers in heap order, and the
timer at index one is one that wakes first. -/
def KeepsHeap (times : T → W) (events : List (Event T W)) : Prop :=
  ∀ pre, pre <+: events → ∃ s, runTimers times pre = .ok s ∧
    Holds s (liveAfter pre) (timesAfter times pre) ∧
    ∀ et ∈ liveAfter pre, ∃ first, s.etHeap 1 = some first ∧
      timesAfter times pre first ≤ timesAfter times pre et

theorem KeepsHeap.room {events pre : List (Event T W)} (h : KeepsHeap times events)
    (hpre : pre <+: events) : (liveAfter pre).card < maxEventTimers := by
  obtain ⟨s,hrun,_⟩ := h pre hpre
  exact (between_of_run hrun).2

/-- The heap of timers is kept in exactly the runs in which fewer than
`MAX_EVENT_TIMERS` timers are live at a time. -/
theorem timer_heap_kept_iff (times : T → W) (events : List (Event T W)) :
    KeepsHeap times events ↔
      ∀ pre, pre <+: events → (liveAfter pre).card < maxEventTimers := by
  constructor
  · intro h pre hpre
    exact h.room hpre
  · intro h pre hpre
    obtain ⟨s,hrun⟩ := run_returns times fun pre' h' => h pre' (h'.trans hpre)
    have hbetween := (between_of_run hrun).1
    exact ⟨s,hrun,hbetween.toHolds,fun _ het => hbetween.first_le het⟩

omit [LinearOrder W] in
theorem liveAfter_inserts (ts : List T) (w : W) :
    liveAfter (ts.map fun et => Event.insert et w) = ts.toFinset := by
  induction ts using List.reverseRecOn with
  | nil => rfl
  | append_singleton ts t ih =>
      rw [List.map_append,List.map_singleton,liveAfter_concat,ih,liveStep]
      ext u
      simp

omit [LinearOrder W] in
theorem card_liveAfter_le (events : List (Event T W)) :
    (liveAfter events).card ≤ events.length := by
  induction events using List.reverseRecOn with
  | nil => exact le_rfl
  | append_singleton events a ih =>
      rw [liveAfter_concat,List.length_append,List.length_singleton]
      cases a with
      | insert et w => exact (Finset.card_insert_le _ _).trans (Nat.succ_le_succ ih)
      | remove et => exact Finset.card_erase_le.trans (ih.trans (Nat.le_succ _))

end

/-- The insertions of as many timers as the array has entries. -/
def fillingRun : List (Event ℕ ℕ) :=
  (List.range maxEventTimers).map fun et => Event.insert et 0

theorem fillingRun_card : (liveAfter fillingRun).card = maxEventTimers := by
  rw [fillingRun,liveAfter_inserts,List.toFinset_card_of_nodup List.nodup_range,List.length_range]

/-- The check of `insert_event_timer` lets in one timer more than there are
entries behind index zero. -/
theorem last_timer_outside :
    (∀ pre, pre <+: fillingRun → (liveAfter pre).card ≤ maxEventTimers) ∧
      ¬ KeepsHeap (fun _ => 0) fillingRun := by
  constructor
  · intro pre hpre
    have hlen : fillingRun.length = maxEventTimers := by simp [fillingRun]
    exact (card_liveAfter_le pre).trans (hlen ▸ hpre.length_le)
  · intro h
    exact absurd (h.room (List.prefix_refl _)) (by rw [fillingRun_card]; exact lt_irrefl _)

end Teleproxy.TimerHeap
