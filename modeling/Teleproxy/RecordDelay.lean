import Teleproxy.DirectRetry
import Teleproxy.TlsRecords

/-!
# One timer for four features

A fake TLS connection has one job timer. It is armed for the handshake timeout,
for the pause between two records, for the end of a rate-limit pause and for
the next attempt to reach a DC, each time without regard to what it was armed
for before; the packet reader of the ext server removes it. What the alarm does
is decided by the state of the connection at that time.

A pending record delay stops all output, so it needs an alarm that ends it.

A client whose first attempt to reach the DC gets no socket keeps the RPC function
table in `extra`, and its alarm makes no further attempt. Its parser then takes the
table for a connection, which is undefined in C and here has no effect.
-/
namespace Teleproxy.RecordDelay
open ClientInput ServerOutput TlsRecords StepSystem
open DirectRetry (directMaxRetries)

structure Conn where
  writer : Writer
  /-- `ct_direct_client_drs`, else the ext server. -/
  direct : Bool := false
  /-- `in_packet_num` is still -3. -/
  handshake : Bool := true
  proxyProtocol : Bool := false
  stopRead : Bool := false
  /-- The DC connection, if there is one: whether its cipher is set. -/
  dc : Option Bool := none
  /-- `extra` is still the RPC function table. -/
  table : Bool := true
  extraInt : ℕ := 0
  /-- The connection is failed or was handed over. -/
  gone : Bool := false
  /-- How often the writer got past a pending delay. -/
  writerRuns : ℕ := 0

def Conn.setTimer (c : Conn) (timer : Option ℚ) : Conn :=
  {c with writer := {c.writer with timer := timer}}

def Conn.delayPending (c : Conn) : Bool := c.writer.drs.delayPending

/-- The next alarm makes an attempt to reach the DC. -/
def Conn.retrying (c : Conn) : Bool := c.direct && c.dc == none && !c.table && 0 < c.extraInt

/-- `direct_schedule_retry` -/
def Conn.scheduleRetry (now : ℚ) (attempt : ℕ) (c : Conn) : Conn :=
  if directMaxRetries ≤ attempt then {c with gone := true}
  else {c.setTimer (some (now+2^attempt/5)) with extraInt := attempt+1}

/-- An attempt to reach the DC: whether it is known and whether it gives a socket. -/
structure Attempt where
  known : Bool := true
  socket : Bool := true

def Conn.retry (now : ℚ) (a : Attempt) (c : Conn) : Conn :=
  if a.known then
    if a.socket then {c with dc := some false, table := false, extraInt := 0}
    else c.scheduleRetry now c.extraInt
  else {c with extraInt := 0, gone := true}

/-- The end of the handshake, with or without direct mode. -/
def Conn.accept (now : ℚ) (direct : Bool) (a : Attempt) (c : Conn) : Conn :=
  let c := {c with handshake := false, direct := direct,
                   writer := {c.writer with drs := {lastRecordTime := now}}}
  if direct then
    if a.known then
      if a.socket then {c with dc := some false, table := false} else c.scheduleRetry now 0
    else {c with gone := true}
  else c.setTimer none

/-- One call of the parser. In direct mode the relay may end in a pause of the given length. -/
def Conn.parse (now : ℚ) (pause : Option ℚ) (c : Conn) : Conn :=
  if c.stopRead then c
  else if c.direct then
    match c.dc, pause with
    | none, _ => if c.table ∨ 0 < c.extraInt then c else {c with gone := true}
    | some false, _ => c
    | some true, none => c
    | some true, some d => {c.setTimer (some (now+d)) with stopRead := true}
  else if c.handshake then c
  else c.setTimer none

/-- Bytes are written and the writer runs. -/
def Conn.write (delays : Bool) (now : ℚ) (bs : Bytes) (d : DrsDraws) (c : Conn) : Conn :=
  let w := {c.writer with output := {c.writer.output with out := c.writer.output.out++bs}}
  {c with writer := encryptOutputDrs true delays now d w,
          writerRuns := if c.delayPending then c.writerRuns else c.writerRuns+1}

/-- What the code called from an alarm meets. -/
structure Alarm where
  now : ℚ
  attempt : Attempt := {}
  pause : Option ℚ := none
  bytes : Bytes := []
  draws : DrsDraws := {}

/-- `tcp_rpcs_ext_drs_alarm`, behind `job_timer_check`. -/
def Conn.fire (delays : Bool) (a : Alarm) (c : Conn) : Conn :=
  let c := c.setTimer none
  if c.gone then c
  else if c.stopRead then {c with stopRead := false}
  else if c.retrying then c.retry a.now a.attempt
  else if c.proxyProtocol then {c with gone := true}
  else if c.handshake then {c with gone := true}
  else if c.delayPending then
    let c := {c with writer := {c.writer with drs := {c.writer.drs with delayPending := false}}}
    (c.parse a.now a.pause).write delays a.now a.bytes a.draws
  else c

inductive Event where
  | proxyHeader
  | accept (now : ℚ) (direct : Bool) (a : Attempt)
  | read (now : ℚ) (pause : Option ℚ)
  | write (now : ℚ) (bs : Bytes) (d : DrsDraws)
  | dcReady
  | dcClosed (now : ℚ)
  | alarm (a : Alarm)

def step (delays : Bool) (c : Conn) : Event → Conn
  | .proxyHeader => {c with proxyProtocol := false}
  | .accept now direct a =>
      if c.gone ∨ c.proxyProtocol ∨ c.handshake = false then c else c.accept now direct a
  | .read now pause => if c.gone then c else c.parse now pause
  | .write now bs d => if c.gone ∨ c.handshake then c else c.write delays now bs d
  | .dcReady => if c.dc = some false then {c with dc := some true} else c
  | .dcClosed now =>
      match c.dc with
      | none => c
      | some true => {c with dc := none, gone := true}
      | some false =>
          if c.extraInt < directMaxRetries then Conn.scheduleRetry now c.extraInt {c with dc := none}
          else {c with dc := none, gone := true}
  | .alarm a =>
      match c.writer.timer with
      | none => c
      | some w => if a.now < w then c else c.fire delays a

/-- A connection that was accepted at time `t`. -/
def start (k : Cipher) (t : ℚ) (proxyProtocol : Bool) : Conn :=
  {writer := {output := {crypto := k}, timer := some (t+10)}, proxyProtocol := proxyProtocol}

/-- Behind a pending delay the timer is armed, and when it fires the writer runs or the timer is
armed again. -/
def Backed (delays : Bool) (c : Conn) : Prop :=
  c.gone = false → c.delayPending = true → c.writer.timer ≠ none ∧
    ∀ a : Alarm, (c.fire delays a).writerRuns = c.writerRuns+1 ∨ (c.fire delays a).writer.timer ≠ none

/-- The writer starts a delay: delays are on, none is pending, and the first record leaves a tail
that is not a bulk transfer, while the record sizes and the count of records are fresh. -/
def startsDelay (delays : Bool) (now : ℚ) (d : DrsDraws) (w : Writer) : Bool :=
  !w.drs.delayPending && w.output.out != [] &&
    (w.nextRecord now (d.noise (w.output.out.length-1))).pauses delays

/-- Behind the first record of a call no delay starts. -/
theorem drsLoop_runs_on (delays : Bool) (now : ℚ) (d : DrsDraws) (fuel : ℕ) {w : Writer}
    (hindex : 1 ≤ w.drs.recordIndex) (htime : w.drs.lastRecordTime = now)
    (hpending : w.drs.delayPending = false) :
    (drsLoop delays now d fuel w).drs.delayPending = false ∧
      (drsLoop delays now d fuel w).timer = w.timer := by
  induction fuel generalizing w with
  | zero => exact ⟨hpending,rfl⟩
  | succ fuel ih =>
      rw [drsLoop]
      split_ifs with hnil
      · exact ⟨hpending,rfl⟩
      · have hreset : w.drs.reset now = w.drs := by
          unfold Drs.reset
          dsimp only
          rw [htime,sub_self,if_neg (by decide +kernel),if_neg (by decide +kernel)]
        have hpauses : (w.nextRecord now (d.noise fuel)).pauses delays = false := by
          have hlate : (w.nextRecord now (d.noise fuel)).drs.recordIndex > drsDelayRecords := by
            change (w.drs.reset now).recordIndex+1 > 1
            rw [hreset]
            omega
          rw [Writer.pauses,decide_eq_true hlate,Bool.or_true,Bool.not_true,Bool.and_false]
        dsimp only
        rw [hpauses,if_neg (by simp)]
        refine ih (w := w.nextRecord now (d.noise fuel)) ?_ rfl ?_
        · exact Nat.succ_pos _
        · simp [Writer.nextRecord,hreset,hpending]

theorem nextRecord_drs (now : ℚ) (draw : ℕ) {w : Writer} (hpending : w.drs.delayPending = false) :
    1 ≤ (w.nextRecord now draw).drs.recordIndex ∧
      (w.nextRecord now draw).drs.lastRecordTime = now ∧
      (w.nextRecord now draw).drs.delayPending = false := by
  refine ⟨Nat.succ_pos _,rfl,?_⟩
  simp only [Writer.nextRecord,Drs.reset]
  split_ifs
  all_goals simp [hpending]

/-- The writer arms the timer exactly when it starts a delay. -/
theorem encryptOutputDrs_timer (delays : Bool) (now : ℚ) (d : DrsDraws) (w : Writer) :
    (encryptOutputDrs true delays now d w).drs.delayPending =
        (w.drs.delayPending || startsDelay delays now d w) ∧
      (encryptOutputDrs true delays now d w).timer =
        if startsDelay delays now d w then some (now+d.delay) else w.timer := by
  cases hpending : w.drs.delayPending with
  | true => simp [encryptOutputDrs,startsDelay,hpending]
  | false =>
      simp only [encryptOutputDrs,if_true,hpending,Bool.false_eq_true,if_false,Bool.false_or]
      by_cases hnil : w.output.out = []
      · simp [hnil,drsLoop,startsDelay,hpending]
      · obtain ⟨n,hn⟩ := Nat.exists_eq_succ_of_ne_zero
          (Nat.pos_iff_ne_zero.mp (List.length_pos_of_ne_nil hnil))
        obtain ⟨hindex,htime,hcleared⟩ := nextRecord_drs now (d.noise n) hpending
        have hstarts : startsDelay delays now d w =
            (w.nextRecord now (d.noise n)).pauses delays := by
          simp [startsDelay,hpending,hnil,hn]
        rw [hn,drsLoop,if_neg hnil,hstarts]
        dsimp only
        split_ifs with hpauses
        · exact ⟨hpauses.symm,rfl⟩
        · obtain ⟨hno,htimer⟩ := drsLoop_runs_on delays now d n hindex htime hcleared
          exact ⟨hno.trans (Bool.not_eq_true _ ▸ hpauses).symm,htimer⟩

/-- A run of the reader that removes the timer or arms it for a pause. -/
def Conn.takesTimer (pause : Option ℚ) (c : Conn) : Bool :=
  if c.direct then c.dc == some true && pause.isSome else true

/-- While a delay is pending, no reader run of the ext server, no throttling and no retry takes
its timer; no delay starts while the connection is throttled or waits for a retry. -/
def Clear (delays : Bool) (c : Conn) : Event → Prop
  | .read _ pause => c.delayPending = true → c.takesTimer pause = false
  | .write now bs d =>
      startsDelay delays now d
        {c.writer with output := {c.writer.output with out := c.writer.output.out++bs}} = true →
      c.stopRead = false ∧ c.retrying = false
  | .dcClosed _ => c.delayPending = true → c.dc ≠ some false
  | .alarm a =>
      c.delayPending = true → (c.direct && c.dc == some true && a.pause.isSome) = true →
      startsDelay delays a.now a.draws
        {c.writer with output := {c.writer.output with out := c.writer.output.out++a.bytes},
                       drs := {c.writer.drs with delayPending := false}} = false
  | _ => True

instance (delays : Bool) (c : Conn) : ∀ e, Decidable (Clear delays c e)
  | .read _ pause => inferInstanceAs (Decidable (c.delayPending = true → c.takesTimer pause = false))
  | .write _ _ _ => inferInstanceAs (Decidable (_ = true → _ ∧ _))
  | .dcClosed _ => inferInstanceAs (Decidable (c.delayPending = true → c.dc ≠ some false))
  | .alarm _ => inferInstanceAs (Decidable (c.delayPending = true → _ = true → _ = false))
  | .proxyHeader => isTrue trivial
  | .accept _ _ _ => isTrue trivial
  | .dcReady => isTrue trivial

/-- The alarm of a pending delay goes to the writer. -/
structure Ready (c : Conn) : Prop where
  armed : c.writer.timer ≠ none
  accepted : c.handshake = false
  reading : c.stopRead = false
  connected : c.retrying = false

structure Held (c : Conn) : Prop where
  header : c.handshake = false → c.proxyProtocol = false
  ready : c.gone = false → c.delayPending = true → Ready c

variable {c : Conn} {delays : Bool}

/-- The connection without its pending delay, as the alarm leaves it to the writer. -/
def Conn.resumed (c : Conn) : Conn :=
  {c with writer := {c.writer with drs := {c.writer.drs with delayPending := false}, timer := none}}

theorem fire_resumed (h : Held c) (hgone : c.gone = false) (hpending : c.delayPending = true)
    (a : Alarm) :
    c.fire delays a = (c.resumed.parse a.now a.pause).write delays a.now a.bytes a.draws := by
  have hr := h.ready hgone hpending
  have hretrying : (c.setTimer none).retrying = false := hr.connected
  have hstill : (c.setTimer none).delayPending = true := hpending
  unfold Conn.fire
  dsimp only
  rw [if_neg (by simp [Conn.setTimer,hgone]),if_neg (by simp [Conn.setTimer,hr.reading]),
    if_neg (by simp [hretrying]),if_neg (by simp [Conn.setTimer,h.header hr.accepted]),
    if_neg (by simp [Conn.setTimer,hr.accepted]),if_pos hstill]
  rfl

/-- What a run of the reader can do. -/
theorem parse_cases (now : ℚ) (pause : Option ℚ) (c : Conn) :
    c.parse now pause = c ∨ c.parse now pause = {c with gone := true} ∨
      c.takesTimer pause = true ∧ c.direct = false ∧ c.parse now pause = c.setTimer none ∨
      (c.direct && c.dc == some true && pause.isSome) = true ∧
        ∃ d, c.parse now pause = {c.setTimer (some (now+d)) with stopRead := true} := by
  unfold Conn.parse Conn.takesTimer
  cases c.stopRead with
  | true => exact Or.inl rfl
  | false =>
      cases c.direct with
      | false =>
          cases c.handshake with
          | true => exact Or.inl rfl
          | false => exact Or.inr (Or.inr (Or.inl ⟨rfl,rfl,rfl⟩))
      | true =>
          cases c.dc with
          | none =>
              by_cases hwait : c.table ∨ 0 < c.extraInt
              · exact Or.inl (by simp [hwait])
              · exact Or.inr (Or.inl (by simp [hwait]))
          | some ready =>
              cases ready with
              | false => exact Or.inl rfl
              | true =>
                  cases pause with
                  | none => exact Or.inl rfl
                  | some d => exact Or.inr (Or.inr (Or.inr ⟨rfl,d,rfl⟩))

/-- A run of the reader does not touch the record state. -/
theorem parse_frame (now : ℚ) (pause : Option ℚ) (c : Conn) :
    (c.parse now pause).writer.drs = c.writer.drs ∧
      (c.parse now pause).writer.output = c.writer.output ∧
      (c.parse now pause).writerRuns = c.writerRuns ∧
      (c.parse now pause).handshake = c.handshake ∧
      (c.parse now pause).proxyProtocol = c.proxyProtocol ∧
      (c.parse now pause).retrying = c.retrying := by
  rcases parse_cases now pause c with h | h | ⟨-,-,h⟩ | ⟨-,d,h⟩
  · simp [h]
  · rw [h]
    exact ⟨rfl,rfl,rfl,rfl,rfl,rfl⟩
  · rw [h]
    exact ⟨rfl,rfl,rfl,rfl,rfl,rfl⟩
  · rw [h]
    exact ⟨rfl,rfl,rfl,rfl,rfl,rfl⟩

theorem Held.backed (h : Held c) : Backed delays c := by
  intro hgone hpending
  refine ⟨(h.ready hgone hpending).armed,fun a => Or.inl ?_⟩
  rw [fire_resumed h hgone hpending]
  obtain ⟨hdrs,-,hruns,-⟩ := parse_frame a.now a.pause c.resumed
  have hcleared : (c.resumed.parse a.now a.pause).delayPending = false := by
    rw [Conn.delayPending,hdrs]
    rfl
  rw [Conn.write,hcleared]
  dsimp only
  rw [hruns]
  rfl

/-- What the writer does to a connection whose delay, if one starts, meets nothing else. -/
theorem write_held {now : ℚ} {bs : Bytes} {d : DrsDraws} (hheader : c.handshake = false →
    c.proxyProtocol = false) (haccepted : c.handshake = false)
    (hready : c.gone = false → c.delayPending = true → Ready c)
    (hclear : c.gone = false → startsDelay delays now d
      {c.writer with output := {c.writer.output with out := c.writer.output.out++bs}} = true →
      c.stopRead = false ∧ c.retrying = false) : Held (c.write delays now bs d) := by
  obtain ⟨hpending,htimer⟩ := encryptOutputDrs_timer delays now d
    {c.writer with output := {c.writer.output with out := c.writer.output.out++bs}}
  refine ⟨hheader,fun hgone hp => ?_⟩
  have hor := hpending.symm.trans hp
  cases hstarts : startsDelay delays now d
      {c.writer with output := {c.writer.output with out := c.writer.output.out++bs}} with
  | true =>
      rw [hstarts,if_pos rfl] at htimer
      obtain ⟨hread,hretry⟩ := hclear hgone hstarts
      exact ⟨by rw [Conn.write]; simp [htimer],haccepted,hread,hretry⟩
  | false =>
      rw [hstarts,if_neg (by simp)] at htimer
      rw [hstarts,Bool.or_false] at hor
      have hr := hready hgone hor
      exact ⟨by rw [Conn.write]; simp [htimer,hr.armed],haccepted,hr.reading,hr.connected⟩

theorem parse_held (h : Held c) {now : ℚ} {pause : Option ℚ}
    (hclear : c.delayPending = true → c.takesTimer pause = false) : Held (c.parse now pause) := by
  obtain ⟨hdrs,-,-,hhandshake,hproxy,-⟩ := parse_frame now pause c
  refine ⟨by rw [hhandshake,hproxy]; exact h.header,fun hgone hpending => ?_⟩
  have hpending' : c.delayPending = true := by
    rw [Conn.delayPending,← hdrs]
    exact hpending
  have huntaken := hclear hpending'
  rcases parse_cases now pause c with hp | hp | ⟨htakes,-,-⟩ | ⟨htakes,-,-⟩
  · rw [hp] at hgone ⊢
    exact h.ready hgone hpending'
  · simp [hp] at hgone
  · simp [htakes] at huntaken
  · simp only [Bool.and_eq_true] at htakes
    simp [Conn.takesTimer,htakes] at huntaken

/-- The record state after a retry is the one before it. -/
theorem retry_frame (now : ℚ) (a : Attempt) (c : Conn) :
    (c.retry now a).delayPending = c.delayPending ∧ (c.retry now a).handshake = c.handshake ∧
      (c.retry now a).proxyProtocol = c.proxyProtocol := by
  unfold Conn.retry Conn.scheduleRetry
  split_ifs
  · exact ⟨rfl,rfl,rfl⟩
  · exact ⟨rfl,rfl,rfl⟩
  · exact ⟨rfl,rfl,rfl⟩
  · exact ⟨rfl,rfl,rfl⟩

theorem held_of_not_pending (hheader : c.handshake = false → c.proxyProtocol = false)
    (hpending : c.delayPending = false) : Held c :=
  ⟨hheader,fun _ hp => by simp [hpending] at hp⟩

theorem held_of_gone (hheader : c.handshake = false → c.proxyProtocol = false)
    (hgone : c.gone = true) : Held c :=
  ⟨hheader,fun hg => by simp [hgone] at hg⟩

/-- The alarm of a pending delay. -/
theorem fire_pending_held (h : Held c) (hgone : c.gone = false) (hpending : c.delayPending = true)
    {a : Alarm} (hclear : Clear delays c (.alarm a)) : Held (c.fire delays a) := by
  have hr := h.ready hgone hpending
  rw [fire_resumed h hgone hpending]
  obtain ⟨hdrs,hout,-,hhandshake,hproxy,hretrying⟩ := parse_frame a.now a.pause c.resumed
  have hcleared : (c.resumed.parse a.now a.pause).delayPending = false := by
    rw [Conn.delayPending,hdrs]
    rfl
  refine write_held (by rw [hhandshake,hproxy]; exact h.header)
    (by rw [hhandshake]; exact hr.accepted) (fun _ hp => by simp [hcleared] at hp) ?_
  intro hstays hstarts
  refine ⟨?_,hretrying.trans hr.connected⟩
  rcases parse_cases a.now a.pause c.resumed with hp | hp | ⟨-,-,hp⟩ | ⟨htakes,d,hp⟩
  · rw [hp]
    exact hr.reading
  · simp [hp] at hstays
  · rw [hp]
    exact hr.reading
  · -- the relay ended in a pause, so by the condition no delay starts
    have hno := hclear hpending htakes
    rw [hp] at hstarts
    have hsame : startsDelay delays a.now a.draws
        {c.writer with output := {c.writer.output with out := c.writer.output.out++a.bytes},
                       drs := {c.writer.drs with delayPending := false}} = true := hstarts
    simp [hno] at hsame

theorem fire_held (h : Held c) {a : Alarm} (hclear : Clear delays c (.alarm a)) :
    Held (c.fire delays a) := by
  cases hgone : c.gone with
  | true =>
      unfold Conn.fire
      rw [if_pos (by exact hgone)]
      exact held_of_gone h.header hgone
  | false =>
      cases hpending : c.delayPending with
      | true => exact fire_pending_held h hgone hpending hclear
      | false =>
          have hstill : (c.setTimer none).delayPending = false := hpending
          unfold Conn.fire
          dsimp only
          split_ifs
          · exact held_of_not_pending h.header hpending
          · exact held_of_not_pending h.header hpending
          · obtain ⟨hp,hh,hx⟩ := retry_frame a.now a.attempt (c.setTimer none)
            exact held_of_not_pending (by rw [hh,hx]; exact h.header) (by rw [hp]; exact hpending)
          · exact held_of_gone h.header rfl
          · exact held_of_gone h.header rfl
          · simp_all
          · exact held_of_not_pending h.header hpending

/-- The record state is fresh behind the handshake. -/
theorem accept_held (hproxy : c.proxyProtocol = false) (now : ℚ) (direct : Bool) (a : Attempt) :
    Held (c.accept now direct a) := by
  unfold Conn.accept Conn.scheduleRetry
  dsimp only
  split_ifs
  · exact held_of_not_pending (fun _ => hproxy) rfl
  · exact held_of_not_pending (fun _ => hproxy) rfl
  · exact held_of_not_pending (fun _ => hproxy) rfl
  · exact held_of_not_pending (fun _ => hproxy) rfl
  · exact held_of_not_pending (fun _ => hproxy) rfl

theorem dcClosed_held (h : Held c) (now : ℚ) (hclear : Clear delays c (.dcClosed now)) :
    Held (step delays c (.dcClosed now)) := by
  rw [step]
  cases hdc : c.dc with
  | none => exact h
  | some ready =>
      cases ready with
      | true => exact held_of_gone h.header rfl
      | false =>
          have hpending : c.delayPending = false := by
            cases hp : c.delayPending with
            | true => exact (hclear hp hdc).elim
            | false => rfl
          dsimp only
          unfold Conn.scheduleRetry
          split_ifs
          · exact held_of_gone h.header rfl
          · exact held_of_not_pending h.header hpending
          · exact held_of_gone h.header rfl

theorem step_held (h : Held c) (e : Event) (hclear : Clear delays c e) : Held (step delays c e) := by
  cases e with
  | proxyHeader =>
      refine ⟨fun _ => rfl,fun hgone hpending => ?_⟩
      have hr := h.ready hgone hpending
      exact ⟨hr.armed,hr.accepted,hr.reading,hr.connected⟩
  | accept now direct a =>
      rw [step]
      split_ifs with hguard
      · exact h
      · rw [not_or,not_or] at hguard
        exact accept_held (Bool.not_eq_true _ ▸ hguard.2.1) now direct a
  | read now pause =>
      rw [step]
      split_ifs with hgone
      · exact h
      · exact parse_held h hclear
  | write now bs d =>
      rw [step]
      split_ifs with hguard
      · exact h
      · rw [not_or] at hguard
        exact write_held h.header (Bool.not_eq_true _ ▸ hguard.2) h.ready fun _ => hclear
  | dcReady =>
      rw [step]
      split_ifs with hdc
      · refine ⟨h.header,fun hgone hpending => ?_⟩
        have hr := h.ready hgone hpending
        exact ⟨hr.armed,hr.accepted,hr.reading,by simp [Conn.retrying]⟩
      · exact h
  | dcClosed now => exact dcClosed_held h now hclear
  | alarm a =>
      rw [step]
      split
      · exact h
      · split_ifs
        · exact h
        · exact fire_held h hclear

/-- In a run in which nothing else takes the timer of a pending delay, the timer is armed behind
every pending delay, and when it fires the writer runs. -/
theorem delays_backed (delays : Bool) (k : Cipher) (t : ℚ) (proxyProtocol : Bool) (es : List Event)
    (hes : Meets (step delays) (Clear delays) (start k t proxyProtocol) es) :
    Throughout (step delays) (Backed delays) (start k t proxyProtocol) es := by
  have hstart : Held (start k t proxyProtocol) := held_of_not_pending (by simp [start]) rfl
  exact throughout_of_invariant (P := Held) (fun _ e h he => step_held h e he)
    (fun _ h => h.backed) hstart hes

def sampleCipher : Cipher := ⟨fun _ => 0,0⟩

/-- A write that is longer than the first record. -/
def sampleWrite : Event := .write 2 (List.replicate 1400 0) {delay := 1}

def sampleRun : List Event := [.accept 1 false {},.read 1 none,sampleWrite,.alarm {now := 3}]

theorem sampleRun_backed :
    (run (step true) (start sampleCipher 0 false) (sampleRun.take 3)).delayPending = true ∧
    Throughout (step true) (Backed true) (start sampleCipher 0 false) sampleRun :=
  ⟨by decide +kernel,delays_backed true sampleCipher 0 false sampleRun (by decide +kernel)⟩

/-- The client sends a packet while the delay is pending. -/
def strandedRun : List Event := [.accept 1 false {},sampleWrite,.read 2 none]

theorem strandedRun_not_backed :
    let c := run (step true) (start sampleCipher 0 false) strandedRun
    (c.gone = false ∧ c.delayPending = true ∧ c.writer.timer = none) ∧
    ¬ Throughout (step true) (Backed true) (start sampleCipher 0 false) strandedRun := by
  have hend : (run (step true) (start sampleCipher 0 false) strandedRun).gone = false ∧
      (run (step true) (start sampleCipher 0 false) strandedRun).delayPending = true ∧
      (run (step true) (start sampleCipher 0 false) strandedRun).writer.timer = none := by
    decide +kernel
  refine ⟨hend,fun h => ?_⟩
  exact (h.last hend.1 hend.2.1).1 hend.2.2

end Teleproxy.RecordDelay
