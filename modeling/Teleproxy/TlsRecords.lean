import Mathlib.Algebra.Order.Field.Rat
import Teleproxy.PaddedOutput

/-!
# Records of a fake TLS connection

Behind the handshake the plaintext to a client is encrypted and sent in
application-data records. The plain writer fills records of up to 1425 bytes.
The writer with dynamic record sizing lets them grow in three phases, with
noise, starts again after a second without output, and may pause between two
records until a timer fires. The reader takes records apart that arrive cut in
any way; between calls it keeps only how much of the current record is missing.
-/
namespace Teleproxy.TlsRecords
open ClientInput ServerOutput PaddedOutput
open WorkerProcess (WsState)
open StepSystem (run)

def recordHeader (len : ℕ) : Bytes :=
  [0x17,0x03,0x03,UInt8.ofNat (len/256),UInt8.ofNat (len % 256)]

def writeRecord (s : Output) (len : ℕ) : Output := (s.push (recordHeader len)).encryptTo len

def drsPhase1End : ℕ := 40
def drsPhase2End : ℕ := 60
def drsSizeStart : ℕ := 1450
def drsSizeAccel : ℕ := 4096
def drsSizeMax : ℕ := 16144
def drsResetAfter : ℚ := 1
def drsDelayResetAfter : ℚ := 30
def drsNoiseRange : ℕ := 201
def drsNoiseOffset : ℤ := 100
def drsBurstThreshold : ℕ := drsSizeMax
def drsDelayRecords : ℕ := 1

structure Drs where
  recordIndex : ℕ := 0
  totalRecords : ℕ := 0
  lastRecordTime : ℚ := 0
  delayPending : Bool := false
  deriving DecidableEq, Repr

/-- The random draws of one call: values of `lrand48_j` and the sampled delay. -/
structure DrsDraws where
  noise : ℕ → ℕ := fun _ => 0
  delay : ℚ := 0

def drsRecordSize (recordIndex draw : ℕ) : ℕ :=
  let base : ℕ :=
    if recordIndex < drsPhase1End then drsSizeStart
    else if recordIndex < drsPhase2End then drsSizeAccel
    else drsSizeMax
  let noise : ℤ := (draw % drsNoiseRange : ℕ)-drsNoiseOffset
  let size := base+noise
  (if size < 64 then 64 else size).toNat

/-- The two resets after inactivity. -/
def Drs.reset (now : ℚ) (d : Drs) : Drs :=
  let idle := now-d.lastRecordTime
  let d := if drsResetAfter < idle then {d with recordIndex := 0, delayPending := false} else d
  if drsDelayResetAfter < idle then {d with totalRecords := 0} else d

/-- Both buffers of a connection, its record state and its job timer. -/
structure Writer where
  output : Output
  drs : Drs := {}
  timer : Option ℚ := none

def Writer.nextRecord (now : ℚ) (draw : ℕ) (w : Writer) : Writer :=
  let drs := w.drs.reset now
  {w with
    output := writeRecord w.output (min w.output.out.length (drsRecordSize drs.recordIndex draw))
    drs := {drs with recordIndex := drs.recordIndex+1, totalRecords := drs.totalRecords+1,
                     lastRecordTime := now}}

/-- Only the first record behind a reset is followed by a pause, and not in bulk transfers. -/
def Writer.pauses (delays : Bool) (w : Writer) : Bool :=
  delays && w.output.out.length > 0 &&
    !(w.output.out.length > drsBurstThreshold || w.drs.totalRecords ≥ drsPhase2End ||
      w.drs.recordIndex > drsDelayRecords)

def drsLoop (delays : Bool) (now : ℚ) (d : DrsDraws) : ℕ → Writer → Writer
  | 0, w => w
  | fuel+1, w =>
      if w.output.out = [] then w else
        let w := w.nextRecord now (d.noise fuel)
        if w.pauses delays then
          {w with drs := {w.drs with delayPending := true}, timer := some (now+d.delay)}
        else drsLoop delays now d fuel w

/-- `cpu_tcp_aes_crypto_ctr128_encrypt_output_drs`, with `drs_delays_enabled` and whether the
connection is a TLS one. -/
def encryptOutputDrs (isTls delays : Bool) (now : ℚ) (d : DrsDraws) (w : Writer) : Writer :=
  if isTls then
    if w.drs.delayPending then w else drsLoop delays now d w.output.out.length w
  else {w with output := w.output.encryptTo w.output.out.length}

/-- A TLS connection with one of the two writers. For the plain one, the upgrade of a
WebSocket may not have been ruled out yet. -/
inductive Variant where
  | plain (upgrading : Bool)
  | drs (delays : Bool)
  deriving DecidableEq, Repr

def tlsChannel (upgrading : Bool) : Channel :=
  {wsState := if upgrading then .handshake else .none, isTls := true}

def Variant.encryptOutput (v : Variant) (now : ℚ) (d : DrsDraws) (w : Writer) : Writer :=
  match v with
  | .plain upgrading =>
      {w with output := ServerOutput.encryptOutput (tlsChannel upgrading) {size := d.noise} w.output}
  | .drs delays => encryptOutputDrs true delays now d w

/-- The writer may pause between two records. -/
def Variant.delays : Variant → Bool
  | .plain _ => false
  | .drs delays => delays

inductive Event where
  /-- Bytes are written, possibly none, and the writer runs. -/
  | write (now : ℚ) (bs : Bytes) (d : DrsDraws)
  /-- The timer fires; a pending delay is over. -/
  | alarm (now : ℚ) (d : DrsDraws)

def Event.bytes : Event → Bytes
  | .write _ bs _ => bs
  | .alarm _ _ => []

def step (v : Variant) (w : Writer) : Event → Writer
  | .write now bs d => v.encryptOutput now d {w with output := {w.output with out := w.output.out++bs}}
  | .alarm now d =>
      if w.drs.delayPending then
        v.encryptOutput now d {w with drs := {w.drs with delayPending := false}, timer := none}
      else {w with timer := none}

def written (es : List Event) : Bytes := es.flatMap Event.bytes

/-- `c->in_u`, `c->in`, the cipher of this direction and `left_tls_packet_length`. -/
structure Input where
  inU : Bytes := []
  inBuf : Bytes := []
  crypto : Cipher
  left : ℕ := 0
  error : Bool := false

/-- What there is of the current record is decrypted. -/
def Input.piece (c : Input) : Input :=
  let len := min c.left c.inU.length
  {c with inU := c.inU.drop len, inBuf := c.inBuf++c.crypto.crypt (c.inU.take len),
          crypto := c.crypto.advance len, left := c.left-len}

/-- The TLS branch of `cpu_tcp_aes_crypto_ctr128_decrypt_input`. -/
def decryptLoop : ℕ → Input → Input
  | 0, c => c
  | fuel+1, c =>
      if c.inU = [] then c
      else if c.left = 0 then
        match c.inU with
        | h0::h1::h2::h3::h4::rest =>
            if [h0,h1,h2] ≠ [0x17,0x03,0x03] then {c with error := true}
            else decryptLoop fuel (Input.piece {c with inU := rest, left := 256*h3.toNat+h4.toNat})
        | _ => c
      else decryptLoop fuel c.piece

/-- The next segment arrives. -/
def receive (c : Input) (seg : Bytes) : Input :=
  if c.error then c
  else decryptLoop ((c.inU++seg).length) {c with inU := c.inU++seg}

def record (p : Bytes) : Bytes := recordHeader p.length++p

/-- `ps` are the payloads of the records sent so far and `sent` is their plaintext. -/
structure Framed (k : Cipher) (bs : Bytes) (s : Output) (ps : List Bytes) (sent : Bytes) :
    Prop where
  sizes : ∀ p ∈ ps, 1 ≤ p.length ∧ p.length ≤ 16384
  stream : s.outP = (ps.map record).flatten
  payloads : ps.flatten = k.crypt sent
  position : s.crypto = k.advance sent.length
  rest : sent++s.out = bs

section Writers
variable {k : Cipher} {bs sent : Bytes} {s : Output} {ps : List Bytes}

theorem framed_start (k : Cipher) : Framed k [] {crypto := k} [] [] :=
  ⟨by simp,rfl,rfl,rfl,rfl⟩

theorem Framed.written (h : Framed k bs s ps sent) (more : Bytes) :
    Framed k (bs++more) {s with out := s.out++more} ps sent :=
  ⟨h.sizes,h.stream,h.payloads,h.position,by rw [← List.append_assoc,h.rest]⟩

theorem Framed.record (h : Framed k bs s ps sent) {len : ℕ} (hpos : 1 ≤ len) (hmax : len ≤ 16384)
    (hlen : len ≤ s.out.length) :
    Framed k bs (writeRecord s len) (ps++[s.crypto.crypt (s.out.take len)])
      (sent++s.out.take len) := by
  have htake : (s.out.take len).length = len := List.length_take_of_le hlen
  refine ⟨?_,?_,?_,?_,?_⟩
  · intro p hp
    rcases List.mem_append.mp hp with hold | hnew
    · exact h.sizes p hold
    · rw [List.mem_singleton.mp hnew,length_crypt,htake]
      exact ⟨hpos,hmax⟩
  · simp [writeRecord,Output.push,Output.encryptTo,h.stream,TlsRecords.record,htake]
  · rw [List.flatten_append,List.flatten_singleton,h.payloads,h.position]
    exact (crypt_append k.keystream k.pos sent (s.out.take len)).symm
  · change s.crypto.advance (s.out.take len).length = _
    rw [h.position,advance_advance,List.length_append]
  · change sent++s.out.take len++s.out.drop len = bs
    rw [List.append_assoc,List.take_append_drop,h.rest]

theorem drsRecordSize_bounds (recordIndex draw : ℕ) :
    1 ≤ drsRecordSize recordIndex draw ∧ drsRecordSize recordIndex draw ≤ 16384 := by
  have hmod : draw % drsNoiseRange < 201 := Nat.mod_lt _ (by decide)
  unfold drsRecordSize drsNoiseOffset drsSizeStart drsSizeAccel drsSizeMax
  dsimp only
  split_ifs
  all_goals omega

theorem out_writeRecord (s : Output) (len : ℕ) : (writeRecord s len).out = s.out.drop len := rfl

/-- One round of either loop writes a record that is not empty. -/
theorem Framed.next (h : Framed k bs s ps sent) (hne : s.out ≠ []) (size : ℕ) (hpos : 1 ≤ size)
    (hmax : size ≤ 16384) :
    (writeRecord s (min s.out.length size)).out.length < s.out.length ∧
      ∃ ps sent, Framed k bs (writeRecord s (min s.out.length size)) ps sent := by
  have hlength := List.length_pos_of_ne_nil hne
  constructor
  · rw [out_writeRecord,List.length_drop]
    omega
  · exact ⟨_,_,h.record (by omega) (by omega) (by omega)⟩

theorem wrapNext_tls (upgrading : Bool) (draw : ℕ) (s : Output) :
    wrapNext (tlsChannel upgrading) draw s = writeRecord s (min s.out.length 1425) := by
  cases upgrading with
  | false => rfl
  | true => rfl

theorem wrapLoop_framed (upgrading : Bool) (draw : ℕ → ℕ) {fuel : ℕ} (hfuel : s.out.length ≤ fuel)
    (h : Framed k bs s ps sent) :
    (wrapLoop (tlsChannel upgrading) draw fuel s).out = [] ∧
      ∃ ps sent, Framed k bs (wrapLoop (tlsChannel upgrading) draw fuel s) ps sent := by
  induction fuel generalizing s ps sent with
  | zero => exact ⟨List.length_eq_zero_iff.mp (Nat.le_zero.mp hfuel),ps,sent,h⟩
  | succ fuel ih =>
      rw [wrapLoop]
      split_ifs with hnil
      · exact ⟨hnil,ps,sent,h⟩
      · rw [wrapNext_tls]
        obtain ⟨hlt,ps',sent',h'⟩ := h.next hnil 1425 (by decide) (by decide)
        exact ih (by omega) h'

theorem drsLoop_framed (delays : Bool) (now : ℚ) (d : DrsDraws) {fuel : ℕ} {w : Writer}
    (hfuel : w.output.out.length ≤ fuel) (h : Framed k bs w.output ps sent) :
    ((drsLoop delays now d fuel w).output.out = [] ∨
      (drsLoop delays now d fuel w).drs.delayPending = true) ∧
      ∃ ps sent, Framed k bs (drsLoop delays now d fuel w).output ps sent := by
  induction fuel generalizing w ps sent with
  | zero => exact ⟨Or.inl (List.length_eq_zero_iff.mp (Nat.le_zero.mp hfuel)),ps,sent,h⟩
  | succ fuel ih =>
      rw [drsLoop]
      split_ifs with hnil
      · exact ⟨Or.inl hnil,ps,sent,h⟩
      · have hsize := drsRecordSize_bounds (w.drs.reset now).recordIndex (d.noise fuel)
        obtain ⟨hlt,ps',sent',h'⟩ := h.next hnil _ hsize.1 hsize.2
        dsimp only
        split_ifs with hpause
        · exact ⟨Or.inr rfl,ps',sent',h'⟩
        · exact ih (w := w.nextRecord now (d.noise fuel)) (Nat.le_of_lt_succ (hlt.trans_le hfuel)) h'

/-- The writer leaves nothing behind, unless a pause is still on. -/
def Flushed (w : Writer) : Prop := w.output.out = [] ∨ w.drs.delayPending = true

theorem encryptOutput_framed (v : Variant) (now : ℚ) (d : DrsDraws) {w : Writer}
    (h : Framed k bs w.output ps sent) :
    Flushed (v.encryptOutput now d w) ∧
      ∃ ps sent, Framed k bs (v.encryptOutput now d w).output ps sent := by
  cases v with
  | plain upgrading =>
      have hloop := wrapLoop_framed upgrading d.noise (Nat.le_refl _) h
      have hch : ¬ ((tlsChannel upgrading).wsState = .active ∧ (tlsChannel upgrading).padding) := by
        cases upgrading with
        | false => decide
        | true => decide
      have heq : (Variant.encryptOutput (.plain upgrading) now d w).output =
          wrapLoop (tlsChannel upgrading) d.noise w.output.out.length w.output := by
        rw [Variant.encryptOutput,ServerOutput.encryptOutput,if_neg hch]
      exact ⟨Or.inl (by rw [heq]; exact hloop.1),by rw [heq]; exact hloop.2⟩
  | drs delays =>
      rw [Variant.encryptOutput,encryptOutputDrs,if_pos rfl]
      split_ifs with hpending
      · exact ⟨Or.inr hpending,ps,sent,h⟩
      · exact drsLoop_framed delays now d (Nat.le_refl _) h

theorem step_framed (v : Variant) (e : Event) {w : Writer} (hf : Flushed w)
    (h : Framed k bs w.output ps sent) :
    Flushed (step v w e) ∧ ∃ ps sent, Framed k (bs++e.bytes) (step v w e).output ps sent := by
  cases e with
  | write now more d => exact encryptOutput_framed v now d (h.written more)
  | alarm now d =>
      rw [Event.bytes,List.append_nil,step]
      split_ifs with hpending
      · exact encryptOutput_framed v now d h
      · exact ⟨hf,ps,sent,h⟩

theorem run_framed (v : Variant) (es : List Event) {w : Writer} (hf : Flushed w)
    (h : Framed k bs w.output ps sent) :
    Flushed (run (step v) w es) ∧
      ∃ ps sent, Framed k (bs++written es) (run (step v) w es).output ps sent := by
  induction es generalizing w bs ps sent with
  | nil => exact ⟨hf,ps,sent,by rw [written,List.flatMap_nil,List.append_nil]; exact h⟩
  | cons e es ih =>
      obtain ⟨hf',ps',sent',h'⟩ := step_framed v e hf h
      rw [written,List.flatMap_cons,← List.append_assoc]
      exact ih hf' h'

theorem drsLoop_nil {delays : Bool} {now : ℚ} {d : DrsDraws} {w : Writer}
    (hnil : w.output.out = []) (fuel : ℕ) : drsLoop delays now d fuel w = w := by
  cases fuel with
  | zero => rfl
  | succ fuel => rw [drsLoop,if_pos hnil]

/-- A record takes bytes from one buffer and puts more into the other. -/
theorem nextRecord_lengths (now : ℚ) (draw : ℕ) {w : Writer} (hne : w.output.out ≠ []) :
    (w.nextRecord now draw).output.out.length < w.output.out.length ∧
      w.output.outP.length < (w.nextRecord now draw).output.outP.length := by
  have hsize := drsRecordSize_bounds (w.drs.reset now).recordIndex draw
  have hpos := List.length_pos_of_ne_nil hne
  constructor
  · rw [Writer.nextRecord,out_writeRecord,List.length_drop]
    omega
  · simp [Writer.nextRecord,writeRecord,Output.push,Output.encryptTo,recordHeader]

theorem drsLoop_lengths (delays : Bool) (now : ℚ) (d : DrsDraws) (fuel : ℕ) (w : Writer) :
    (drsLoop delays now d fuel w).output.out.length ≤ w.output.out.length ∧
      w.output.outP.length ≤ (drsLoop delays now d fuel w).output.outP.length := by
  induction fuel generalizing w with
  | zero => exact ⟨le_refl _,le_refl _⟩
  | succ fuel ih =>
      rw [drsLoop]
      split_ifs with hnil
      · exact ⟨le_refl _,le_refl _⟩
      · obtain ⟨hout,houtP⟩ := nextRecord_lengths now (d.noise fuel) hnil
        dsimp only
        split_ifs
        · exact ⟨hout.le,houtP.le⟩
        · obtain ⟨hrest,hrestP⟩ := ih (w.nextRecord now (d.noise fuel))
          exact ⟨hrest.trans hout.le,houtP.le.trans hrestP⟩

/-- With bytes to write, the loop writes a record. -/
theorem drsLoop_writes (delays : Bool) (now : ℚ) (d : DrsDraws) {w : Writer}
    (hne : w.output.out ≠ []) :
    (drsLoop delays now d w.output.out.length w).output.out.length < w.output.out.length ∧
      w.output.outP.length <
        (drsLoop delays now d w.output.out.length w).output.outP.length := by
  obtain ⟨n,hn⟩ := Nat.exists_eq_succ_of_ne_zero (List.length_pos_of_ne_nil hne).ne'
  obtain ⟨hout,houtP⟩ := nextRecord_lengths now (d.noise n) hne
  rw [hn] at hout ⊢
  rw [drsLoop,if_neg hne]
  dsimp only
  split_ifs
  · exact ⟨hout,houtP⟩
  · obtain ⟨hrest,hrestP⟩ := drsLoop_lengths delays now d n (w.nextRecord now (d.noise n))
    exact ⟨hrest.trans_lt hout,houtP.trans_le hrestP⟩

/-- A pause begins behind a record of the same call. -/
theorem encryptOutput_pause (v : Variant) (now : ℚ) (d : DrsDraws) {w : Writer}
    (hpending : w.drs.delayPending = false)
    (hpause : (v.encryptOutput now d w).drs.delayPending = true) :
    w.output.outP.length < (v.encryptOutput now d w).output.outP.length := by
  cases v with
  | plain upgrading => simp [Variant.encryptOutput,hpending] at hpause
  | drs delays =>
      rw [Variant.encryptOutput,encryptOutputDrs,if_pos rfl,if_neg (by simp [hpending])] at hpause ⊢
      by_cases hnil : w.output.out = []
      · rw [drsLoop_nil hnil,hpending] at hpause
        exact absurd hpause (by decide)
      · exact (drsLoop_writes delays now d hnil).2

theorem step_pause (v : Variant) (e : Event) {w : Writer}
    (hpause : (step v w e).drs.delayPending = true) :
    (w.drs.delayPending = true ∧ ∃ now more d, e = .write now more d) ∨
      w.output.outP.length < (step v w e).output.outP.length := by
  cases e with
  | write now more d =>
      cases hpending : w.drs.delayPending with
      | true => exact Or.inl ⟨rfl,now,more,d,rfl⟩
      | false =>
          exact Or.inr (encryptOutput_pause v now d
            (w := {w with output := {w.output with out := w.output.out++more}}) hpending hpause)
  | alarm now d =>
      rw [step] at hpause ⊢
      split_ifs at hpause ⊢ with hpending
      · exact Or.inr (encryptOutput_pause v now d rfl hpause)
      · exact absurd hpause hpending

/-- Without delays the loop does not pause. -/
theorem drsLoop_no_delays (now : ℚ) (d : DrsDraws) (fuel : ℕ) {w : Writer}
    (hpending : w.drs.delayPending = false) :
    (drsLoop false now d fuel w).drs.delayPending = false := by
  induction fuel generalizing w with
  | zero => exact hpending
  | succ fuel ih =>
      rw [drsLoop]
      split_ifs
      · exact hpending
      · dsimp only
        rw [if_neg (by simp [Writer.pauses])]
        refine ih (w := w.nextRecord now (d.noise fuel)) ?_
        simp only [Writer.nextRecord,Drs.reset]
        split_ifs
        all_goals simp [hpending]

theorem step_no_delays {v : Variant} (hv : v.delays = false) (e : Event) {w : Writer}
    (hpending : w.drs.delayPending = false) : (step v w e).drs.delayPending = false := by
  have hwrite : ∀ now d (w : Writer), w.drs.delayPending = false →
      (v.encryptOutput now d w).drs.delayPending = false := by
    intro now d w hw
    cases v with
    | plain upgrading => exact hw
    | drs delays =>
        obtain rfl : delays = false := hv
        rw [Variant.encryptOutput,encryptOutputDrs,if_pos rfl,if_neg (by simp [hw])]
        exact drsLoop_no_delays now d _ hw
  cases e with
  | write now more d => exact hwrite now d _ hpending
  | alarm now d =>
      rw [step,if_neg (by simp [hpending])]
      exact hpending

/-- Each alarm lets out a record, as long as there is something to write. -/
theorem alarm_lets_out (v : Variant) (now : ℚ) (d : DrsDraws) {w : Writer} (hf : Flushed w)
    (h : Framed k bs w.output ps sent) :
    (step v w (.alarm now d)).output.out.length ≤ w.output.out.length-1 := by
  rw [step]
  split_ifs with hpending
  · cases v with
    | plain upgrading =>
        have hplain := (encryptOutput_framed (.plain upgrading) now d
          (w := {w with drs := {w.drs with delayPending := false}, timer := none}) h).1
        rcases hplain with hnil | hpause
        · rw [hnil]
          exact Nat.zero_le _
        · exact absurd hpause (by simp [Variant.encryptOutput])
    | drs delays =>
        rw [Variant.encryptOutput,encryptOutputDrs,if_pos rfl,if_neg (by simp)]
        by_cases hnil : w.output.out = []
        · rw [drsLoop_nil (by exact hnil)]
          simp [hnil]
        · have hlt := (drsLoop_writes delays now d
            (w := {w with drs := {w.drs with delayPending := false}, timer := none}) hnil).1
          exact Nat.le_sub_one_of_lt hlt
  · rcases hf with hnil | hpause
    · simp [hnil]
    · exact absurd hpause hpending

/-- As many alarms as there are bytes let all of them out. -/
theorem alarms_let_out (v : Variant) (as : List (ℚ × DrsDraws)) {w : Writer} (hf : Flushed w)
    (h : Framed k bs w.output ps sent) (hlen : w.output.out.length ≤ as.length) :
    (run (step v) w (as.map fun a => .alarm a.1 a.2)).output.out = [] := by
  induction as generalizing w bs ps sent with
  | nil => exact List.length_eq_zero_iff.mp (Nat.le_zero.mp hlen)
  | cons a as ih =>
      obtain ⟨hf',ps',sent',h'⟩ := step_framed v (.alarm a.1 a.2) hf h
      have hout := alarm_lets_out v a.1 a.2 hf h
      rw [List.length_cons] at hlen
      exact ih hf' h' (hout.trans (Nat.sub_le_of_le_add hlen))

end Writers

/-- `q` is what is missing of the current record and `ps` are the payloads behind it; part of
them is in `c->in_u` already. -/
structure Expects (c : Input) (coming plain q : Bytes) (ps : List Bytes) : Prop where
  noError : c.error = false
  stream : c.inU++coming = q++(ps.map record).flatten
  left : c.left = q.length
  sizes : ∀ p ∈ ps, 1 ≤ p.length ∧ p.length ≤ 16384
  plain : c.inBuf++c.crypto.crypt (q++ps.flatten) = plain

section Reader
variable {c : Input} {coming plain q : Bytes} {ps : List Bytes}

/-- Decrypting a piece of the record leaves what the reader expects. -/
theorem Expects.piece (h : Expects c coming plain q ps) :
    Expects c.piece coming plain (q.drop (min c.left c.inU.length)) ps := by
  have hle : min c.left c.inU.length ≤ q.length := h.left ▸ Nat.min_le_left _ _
  have hle' : min c.left c.inU.length ≤ c.inU.length := Nat.min_le_right _ _
  have htaken : c.inU.take (min c.left c.inU.length) = q.take (min c.left c.inU.length) := by
    have := congrArg (List.take (min c.left c.inU.length)) h.stream
    rwa [List.take_append_of_le_length hle',List.take_append_of_le_length hle] at this
  refine ⟨h.noError,?_,?_,h.sizes,?_⟩
  · have := congrArg (List.drop (min c.left c.inU.length)) h.stream
    rwa [List.drop_append_of_le_length hle',List.drop_append_of_le_length hle] at this
  · change c.left-min c.left c.inU.length = _
    rw [List.length_drop,h.left]
  · change c.inBuf++c.crypto.crypt (c.inU.take _)++(c.crypto.advance _).crypt (_++ps.flatten) = plain
    have hlen : (q.take (min c.left c.inU.length)).length = min c.left c.inU.length :=
      List.length_take_of_le hle
    rw [htaken,List.append_assoc,← h.plain]
    have happ := crypt_append c.crypto.keystream c.crypto.pos (q.take (min c.left c.inU.length))
      (q.drop (min c.left c.inU.length)++ps.flatten)
    rw [← List.append_assoc,List.take_append_drop,hlen] at happ
    exact congrArg (c.inBuf++·) happ.symm

/-- The header of the next record tells its length. -/
theorem length_of_header {n : ℕ} (hn : n ≤ 16384) :
    256*(UInt8.ofNat (n/256)).toNat+(UInt8.ofNat (n % 256)).toNat = n := by
  rw [UInt8.toNat_ofNat',UInt8.toNat_ofNat']
  omega

theorem Expects.header (h : Expects c coming plain q ps) (hleft : c.left = 0) {h0 h1 h2 h3 h4 : UInt8}
    {rest : Bytes} (hin : c.inU = h0::h1::h2::h3::h4::rest) :
    [h0,h1,h2] = [0x17,0x03,0x03] ∧ ∃ p ps',
      Expects {c with inU := rest, left := 256*h3.toNat+h4.toNat} coming plain p ps' := by
  have hq : q = [] := List.length_eq_zero_iff.mp (h.left ▸ hleft)
  subst hq
  have hstream := h.stream
  rw [hin] at hstream
  cases ps with
  | nil => simp at hstream
  | cons p ps =>
      have hp := h.sizes p List.mem_cons_self
      simp only [List.cons_append,List.nil_append,List.map_cons,List.flatten_cons,record,recordHeader,
        List.cons.injEq] at hstream
      obtain ⟨rfl,rfl,rfl,rfl,rfl,hrest⟩ := hstream
      refine ⟨rfl,p,ps,h.noError,hrest,length_of_header hp.2,
        fun p' hp' => h.sizes p' (List.mem_cons_of_mem p hp'),?_⟩
      rw [← h.plain]
      rfl

theorem exists_five {bs : Bytes} (h : 5 ≤ bs.length) :
    ∃ h0 h1 h2 h3 h4 rest, bs = h0::h1::h2::h3::h4::rest := by
  match bs, h with
  | h0::h1::h2::h3::h4::rest, _ => exact ⟨h0,h1,h2,h3,h4,rest,rfl⟩

/-- Fewer bytes than a header, at the end of a record, are not all that comes. -/
theorem Expects.short (h : Expects c coming plain q ps) (hleft : c.left = 0) (hne : c.inU ≠ [])
    (hshort : c.inU.length < 5) : coming ≠ [] := by
  rintro rfl
  have hq : q = [] := List.length_eq_zero_iff.mp (h.left ▸ hleft)
  have hstream := h.stream
  rw [hq,List.append_nil,List.nil_append] at hstream
  cases ps with
  | nil => exact hne hstream
  | cons p ps =>
      rw [hstream] at hshort
      simp [record,recordHeader] at hshort
      omega

/-- The loop keeps what is expected, and with all bytes there it ends with none left. -/
theorem decryptLoop_expects {fuel : ℕ} (hfuel : c.inU.length ≤ fuel)
    (h : Expects c coming plain q ps) :
    (∃ q ps, Expects (decryptLoop fuel c) coming plain q ps) ∧
      (coming = [] → (decryptLoop fuel c).inU = []) := by
  induction fuel generalizing c q ps with
  | zero => exact ⟨⟨q,ps,h⟩,fun _ => List.length_eq_zero_iff.mp (Nat.le_zero.mp hfuel)⟩
  | succ fuel ih =>
      rw [decryptLoop]
      split_ifs with hnil hleft
      · exact ⟨⟨q,ps,h⟩,fun _ => hnil⟩
      · split
        · rename_i h0 h1 h2 h3 h4 rest hin
          obtain ⟨hhead,p,ps',h'⟩ := h.header hleft hin
          rw [if_neg (not_not.mpr hhead)]
          refine ih ?_ h'.piece
          rw [hin] at hfuel
          simp only [List.length_cons] at hfuel
          simp only [Input.piece,List.length_drop]
          omega
        · rename_i hin
          refine ⟨⟨q,ps,h⟩,fun hcoming => absurd hcoming (h.short hleft hnil ?_)⟩
          by_contra hlong
          obtain ⟨h0,h1,h2,h3,h4,rest,hcons⟩ : ∃ h0 h1 h2 h3 h4 rest,
              c.inU = h0::h1::h2::h3::h4::rest := exists_five (Nat.not_lt.mp hlong)
          exact hin h0 h1 h2 h3 h4 rest hcons
      · refine ih ?_ h.piece
        have hpos := List.length_pos_of_ne_nil hnil
        simp only [Input.piece,List.length_drop]
        omega

theorem receive_expects (seg : Bytes) (h : Expects c (seg++coming) plain q ps) :
    (∃ q ps, Expects (receive c seg) coming plain q ps) ∧
      (coming = [] → (receive c seg).inU = []) := by
  rw [receive,if_neg (by simp [h.noError])]
  have hall : Expects {c with inU := c.inU++seg} coming plain q ps :=
    ⟨h.noError,by rw [List.append_assoc]; exact h.stream,h.left,h.sizes,h.plain⟩
  exact decryptLoop_expects (Nat.le_refl _) hall

theorem receive_all {segs : List Bytes} (h : Expects c segs.flatten plain q ps)
    (hin : segs = [] → c.inU = []) :
    (segs.foldl receive c).inU = [] ∧ ∃ q ps, Expects (segs.foldl receive c) [] plain q ps := by
  induction segs generalizing c q ps with
  | nil => exact ⟨hin rfl,q,ps,h⟩
  | cons seg segs ih =>
      obtain ⟨⟨q',ps',h'⟩,hend⟩ := receive_expects seg (by rw [← List.flatten_cons]; exact h)
      exact ih h' fun hsegs => hend (by rw [hsegs]; rfl)

end Reader

/-- The records sent by either writer, cut in any way, are read as the plaintext sent. -/
theorem receive_framed {k : Cipher} {bs sent : Bytes} {s : Output} {ps : List Bytes}
    (h : Framed k bs s ps sent) {segs : List Bytes} (hsegs : segs.flatten = s.outP) :
    let c := segs.foldl receive {crypto := k}
    c.inBuf = sent ∧ c.inU = [] ∧ c.left = 0 ∧ c.error = false := by
  have hstart : Expects {crypto := k} segs.flatten sent [] ps := by
    refine ⟨rfl,?_,rfl,h.sizes,?_⟩
    · rw [hsegs,h.stream,List.nil_append]
    · change k.crypt ps.flatten = sent
      rw [h.payloads,crypt_crypt]
  obtain ⟨hin,q,ps',hend⟩ := receive_all hstart fun _ => rfl
  have hstream := hend.stream
  rw [hin,List.nil_append] at hstream
  obtain ⟨rfl,hrecords⟩ := List.append_eq_nil_iff.mp hstream.symm
  have hps : ps' = [] := by
    cases ps' with
    | nil => rfl
    | cons p ps => simp [record,recordHeader] at hrecords
  have hplain := hend.plain
  rw [hps] at hplain
  exact ⟨by simpa [Cipher.crypt] using hplain,hin,hend.left,hend.noError⟩

/-- Whatever is written, drawn and waited for, the output is a concatenation of records with
the encrypted plaintext, and the reader gives back what was sent. What is not sent yet waits for
the end of a pause: without delays nothing does, a pause begins only behind a record, and the
alarms let the rest out. -/
theorem records_round_trip (v : Variant) (k : Cipher) (d : Drs) (es : List Event) :
    let w := run (step v) {output := {crypto := k}, drs := d} es
    (∃ (ps : List Bytes) (sent : Bytes), (∀ p ∈ ps, 1 ≤ p.length ∧ p.length ≤ 16384) ∧
      w.output.outP = (ps.map record).flatten ∧ ps.flatten = k.crypt sent ∧
      sent++w.output.out = written es ∧ (w.output.out = [] ∨ w.drs.delayPending = true) ∧
      ∀ segs : List Bytes, segs.flatten = w.output.outP →
        let c := segs.foldl receive {crypto := k}
        c.inBuf = sent ∧ c.inU = [] ∧ c.left = 0 ∧ c.error = false) ∧
    (v.delays = false → d.delayPending = false → w.output.out = []) ∧
    (∀ e, (step v w e).drs.delayPending = true →
      (w.drs.delayPending = true ∧ ∃ now more draws, e = .write now more draws) ∨
        w.output.outP.length < (step v w e).output.outP.length) ∧
    ∀ as : List (ℚ × DrsDraws), w.output.out.length ≤ as.length →
      (run (step v) w (as.map fun a => .alarm a.1 a.2)).output.out = [] := by
  obtain ⟨hflushed,ps,sent,h⟩ := run_framed v es (w := {output := {crypto := k}, drs := d})
    (Or.inl rfl) (framed_start k)
  refine ⟨⟨ps,sent,h.sizes,h.stream,h.payloads,h.rest,hflushed,fun segs => receive_framed h⟩,
    fun hv hd => ?_,fun e => step_pause v e,fun as => alarms_let_out v as hflushed h⟩
  have hpending : (run (step v) {output := {crypto := k}, drs := d} es).drs.delayPending = false :=
    StepSystem.run_preserves (P := fun w : Writer => w.drs.delayPending = false)
      (fun _ e hw => step_no_delays hv e hw) es hd
  exact hflushed.resolve_right (by simp [hpending])

def sampleWriter : Writer := {output := {crypto := ⟨UInt8.ofNat,0⟩}}

/-- A write that is longer than the first record. -/
def sampleWrite : Event := .write 2 (List.replicate 1400 7) {delay := 1}

/-- Without delays all bytes leave at once. With them fifty bytes wait for alarms, and the reader
has the others from two segments. -/
theorem records_round_trip_sample :
    (run (step (.drs false)) sampleWriter [sampleWrite]).output.out = [] ∧
    let w := run (step (.drs true)) sampleWriter [sampleWrite]
    w.drs.delayPending = true ∧ w.output.out.length = 50 ∧
      (run (step (.drs true)) w (List.replicate 50 (.alarm 3 {}))).output.out = [] ∧
      ([w.output.outP.take 7,w.output.outP.drop 7].foldl receive
        {crypto := ⟨UInt8.ofNat,0⟩}).inU = [] := by
  have hwait : (run (step (.drs true)) sampleWriter [sampleWrite]).drs.delayPending = true ∧
      (run (step (.drs true)) sampleWriter [sampleWrite]).output.out.length = 50 := by
    decide +kernel
  have hstart : sampleWriter = {output := {crypto := ⟨UInt8.ofNat,0⟩}, drs := {}} := rfl
  have hflat := (records_round_trip (.drs false) ⟨UInt8.ofNat,0⟩ {} [sampleWrite]).2.1 rfl rfl
  have hrecords := records_round_trip (.drs true) ⟨UInt8.ofNat,0⟩ {} [sampleWrite]
  rw [← hstart] at hflat hrecords
  dsimp only at hrecords ⊢
  generalize run (step (.drs true)) sampleWriter [sampleWrite] = w at hwait hrecords ⊢
  obtain ⟨⟨ps,sent,_,_,_,_,_,hread⟩,_,_,halarms⟩ := hrecords
  refine ⟨hflat,hwait.1,hwait.2,?_,?_⟩
  · have hout := halarms (List.replicate 50 (3,{})) (by rw [List.length_replicate,hwait.2])
    simpa only [List.map_replicate] using hout
  · exact (hread _ (by simp)).2.1

end Teleproxy.TlsRecords
