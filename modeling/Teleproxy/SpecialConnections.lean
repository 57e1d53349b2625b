import Teleproxy.Lib.Store
import Teleproxy.Lib.StepSystem

/-!
# The limit on special connections

A special listening socket is taken out of `epoll` when an accept on it brings
`active_special_connections` to the limit or above. The close that brings it below the
limit sends `JS_AUX` to all special listening sockets, and each of them puts itself back
into `epoll` when it gets the signal, whatever has happened since.

A close sends its signals in the step in which it lowers the counter; a signal is pending
from then on until the handler has run. Signals are bits, so a second one changes nothing.
Connections that are refused before they are counted change nothing here, and the sockets
that are not special are one event.
-/
namespace Teleproxy.SpecialConnections
open StepSystem Counting

structure Conn (n : ℕ) where
  /-- The special listening socket it came through. -/
  listening : Option (Fin n)
  /-- `C_SPECIAL` -/
  special : Bool := false
  closed : Bool := false

structure State (n : ℕ) where
  activeSpecialConnections : ℤ := 0
  conns : Store (Conn n) := Store.empty
  /-- `EVT_IN_EPOLL` of the socket -/
  inEpoll : Fin n → Bool := fun _ => true
  /-- `JS_AUX` is pending -/
  aux : Fin n → Bool := fun _ => false

variable {n : ℕ}

/-- What `alloc_new_connection` does for a connection of a listening socket. -/
def allocNewConnection (maxSpecialConnections : ℤ) (s : State n) : Option (Fin n) → State n
  | none => {s with conns := s.conns.push {listening := none}}
  | some i =>
      let active := s.activeSpecialConnections+1
      {s with
        conns := s.conns.push {listening := some i, special := true}
        activeSpecialConnections := active
        inEpoll := if maxSpecialConnections ≤ active then Function.update s.inEpoll i false
          else s.inEpoll}

/-- One round of the loop of `net_accept_new_connections`. -/
def netAcceptNewConnection (maxSpecialConnections : ℤ) (s : State n) (i : Fin n) : State n :=
  if s.inEpoll i then allocNewConnection maxSpecialConnections s (some i) else s

def Conn.close (c : Conn n) : Conn n := {c with special := false, closed := true}

def cpuServerCloseConnection (maxSpecialConnections : ℤ) (s : State n) (k : ℕ) : State n :=
  match s.conns.get k with
  | none => s
  | some c =>
      if c.closed then s
      else
        let s' := {s with conns := s.conns.modify k Conn.close}
        if c.special then
          let orig := s.activeSpecialConnections
          {s' with
            activeSpecialConnections := orig-1
            aux := if orig = maxSpecialConnections then fun _ => true else s.aux}
        else s'

/-- `JS_AUX` in `do_listening_connection_job`. -/
def listeningConnectionAux (s : State n) (i : Fin n) : State n :=
  if s.aux i then
    {s with aux := Function.update s.aux i false, inEpoll := Function.update s.inEpoll i true}
  else s

inductive Event (n : ℕ) where
  | accept (i : Fin n)
  | acceptOther
  | close (k : ℕ)
  | aux (i : Fin n)

def step (maxSpecialConnections : ℤ) (s : State n) : Event n → State n
  | .accept i => netAcceptNewConnection maxSpecialConnections s i
  | .acceptOther => allocNewConnection maxSpecialConnections s none
  | .close k => cpuServerCloseConnection maxSpecialConnections s k
  | .aux i => listeningConnectionAux s i

/-- A connection that came through a special socket and is not closed. -/
def Conn.liveSpecial (c : Conn n) : Bool := c.listening.isSome && !c.closed

structure Inv (maxSpecialConnections : ℤ) (s : State n) : Prop where
  flags : ∀ k c, s.conns.get k = some c → c.special = c.liveSpecial
  counted : s.activeSpecialConnections = s.conns.count Conn.liveSpecial
  /-- A socket out of `epoll` waits for a signal, or for the counter to fall to the limit. -/
  awake : ∀ i, s.inEpoll i = false → s.aux i = false →
    maxSpecialConnections ≤ s.activeSpecialConnections
  /-- Above the limit a socket has one accept left for being in `epoll` and one for a signal. -/
  bounded : maxSpecialConnections ≤ s.activeSpecialConnections →
    s.activeSpecialConnections+trues s.inEpoll+trues s.aux ≤ maxSpecialConnections+2*n-1

variable {m : ℤ} {s : State n}

theorem inv_start (hm : 1 ≤ m) : Inv m ({} : State n) where
  flags := by
    intro k c hc
    cases hc
  counted := rfl
  awake := by
    intro i hi
    cases hi
  bounded := by
    intro hle
    have : m ≤ 0 := hle
    omega

theorem flags_push {c : Conn n} (h : Inv m s) (hc : c.special = c.liveSpecial) :
    ∀ k d, (s.conns.push c).get k = some d → d.special = d.liveSpecial := by
  intro k d hd
  rw [Store.get_push] at hd
  split_ifs at hd
  · cases hd
    exact hc
  · exact h.flags k d hd

theorem Inv.acceptOther (h : Inv m s) : Inv m (allocNewConnection m s none) where
  flags := flags_push h rfl
  counted := by
    rw [allocNewConnection,Store.count_push]
    exact h.counted
  awake := h.awake
  bounded := h.bounded

theorem Inv.accept (h : Inv m s) (i : Fin n) : Inv m (netAcceptNewConnection m s i) := by
  rw [netAcceptNewConnection]
  split_ifs with hi
  · have hcounted : s.activeSpecialConnections+1 =
        ((s.conns.push {listening := some i, special := true}).count Conn.liveSpecial : ℤ) := by
      rw [Store.count_push,h.counted]
      rfl
    rw [allocNewConnection]
    by_cases hfull : m ≤ s.activeSpecialConnections+1
    · simp only [if_pos hfull]
      refine ⟨flags_push h rfl,hcounted,fun _ _ _ => hfull,fun _ => ?_⟩
      have hin := trues_update s.inEpoll i false
      have haux := trues_le s.aux
      have hall := trues_le s.inEpoll
      rw [hi] at hin
      simp only [Bool.toNat_true,Bool.toNat_false] at hin
      by_cases hover : m ≤ s.activeSpecialConnections
      · have hbound := h.bounded hover
        dsimp only
        omega
      · dsimp only
        omega
    · simp only [if_neg hfull]
      refine ⟨flags_push h rfl,hcounted,fun j hj haux => ?_,fun hover => absurd hover hfull⟩
      have hover := h.awake j hj haux
      omega
  · exact h

theorem flags_close (h : Inv m s) (k : ℕ) :
    ∀ j d, (s.conns.modify k Conn.close).get j = some d → d.special = d.liveSpecial := by
  intro j d hd
  rw [Store.get_modify] at hd
  split_ifs at hd
  · obtain ⟨c,-,rfl⟩ := Option.map_eq_some_iff.mp hd
    simp [Conn.close,Conn.liveSpecial]
  · exact h.flags j d hd

theorem Inv.close (h : Inv m s) (k : ℕ) : Inv m (cpuServerCloseConnection m s k) := by
  rw [cpuServerCloseConnection]
  cases hk : s.conns.get k with
  | none => exact h
  | some c =>
      have hcount := Store.count_modify hk Conn.liveSpecial Conn.close
      have hafter : c.close.liveSpecial = false := by simp [Conn.close,Conn.liveSpecial]
      have hflag := h.flags k c hk
      have hcounted := h.counted
      simp only [hafter,Bool.false_eq_true,if_false] at hcount
      dsimp only
      split_ifs with hclosed hspecial hcross
      · exact h
      · rw [if_pos (hflag.symm.trans hspecial)] at hcount
        refine ⟨flags_close h k,?_,?_,?_⟩
        · dsimp only
          omega
        · intro i _ haux
          cases haux
        · intro hover
          dsimp only at hover
          omega
      · rw [if_pos (hflag.symm.trans hspecial)] at hcount
        refine ⟨flags_close h k,?_,?_,?_⟩
        · dsimp only
          omega
        · intro i hi haux
          have hover := h.awake i hi haux
          dsimp only
          omega
        · intro hover
          dsimp only at hover ⊢
          have hbound := h.bounded (by omega)
          omega
      · rw [if_neg (fun hlive => hspecial (hflag.trans hlive))] at hcount
        refine ⟨flags_close h k,?_,h.awake,h.bounded⟩
        dsimp only
        omega

theorem Inv.aux (h : Inv m s) (i : Fin n) : Inv m (listeningConnectionAux s i) := by
  rw [listeningConnectionAux]
  split_ifs with hi
  · refine ⟨h.flags,h.counted,?_,?_⟩
    · intro j hin haux
      have hne : j ≠ i := by
        intro heq
        subst heq
        exact absurd (hin.symm.trans (Function.update_self ..)) (by decide)
      dsimp only at hin haux
      rw [Function.update_of_ne hne] at hin haux
      exact h.awake j hin haux
    · intro hover
      have hbound := h.bounded hover
      have hin := trues_update s.inEpoll i true
      have haux := trues_update s.aux i false
      rw [hi] at haux
      simp only [Bool.toNat_true,Bool.toNat_false] at hin haux
      dsimp only
      omega
  · exact h

theorem inv_step (h : Inv m s) (e : Event n) : Inv m (step m s e) := by
  cases e with
  | accept i => exact h.accept i
  | acceptOther => exact h.acceptOther
  | close k => exact h.close k
  | aux i => exact h.aux i

/-- In every state that is reached the counter is the number of live special connections
and at most `2*n-1` above the limit, and no socket is left out of `epoll` below it. -/
theorem admission (n : ℕ) (maxSpecialConnections : ℤ) (hmax : 1 ≤ maxSpecialConnections)
    (events : List (Event n)) :
    let s := run (step maxSpecialConnections) ({} : State n) events
    s.activeSpecialConnections = s.conns.count Conn.liveSpecial ∧
      s.activeSpecialConnections ≤ maxSpecialConnections+2*n-1 ∧
      (s.activeSpecialConnections < maxSpecialConnections → (∀ i, s.aux i = false) →
        ∀ i, s.inEpoll i = true) := by
  have h := run_preserves (P := Inv maxSpecialConnections) (fun _ e hs => inv_step hs e) events
    (inv_start (n := n) hmax)
  intro s
  change Inv maxSpecialConnections s at h
  refine ⟨h.counted,?_,?_⟩
  · by_cases hover : maxSpecialConnections ≤ s.activeSpecialConnections
    · have hbound := h.bounded hover
      omega
    · omega
  · intro hbelow hquiet i
    by_contra hout
    have hover := h.awake i (Bool.eq_false_of_not_eq_true hout) (hquiet i)
    omega

local instance neZero_sockets : NeZero 2 := ⟨by decide⟩

/-- A close below the limit between two accepts on different sockets, twice: all sockets are
in `epoll` and have a signal pending when the counter reaches the limit again. -/
def lateSignals : List (Event 2) :=
  [.accept 0,.close 0,.accept 1,.aux 0,.aux 1,.close 1,.accept 0,.accept 1,.aux 0,.aux 1,
    .accept 0,.accept 1]

theorem admission_late :
    (run (step 1) ({} : State 2) lateSignals).activeSpecialConnections ≤ 4 :=
  (admission 2 1 (by decide) lateSignals).2.1

/-- More than the number of sockets above the limit. -/
theorem late_signals_exceed :
    (run (step 1) ({} : State 2) lateSignals).activeSpecialConnections = 4 ∧ (1 : ℤ)+2 < 4 := by
  decide

end Teleproxy.SpecialConnections
