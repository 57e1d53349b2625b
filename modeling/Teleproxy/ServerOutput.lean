import Teleproxy.WebSocketFrames
import Mathlib.Data.List.SplitLengths

/-!
# Bytes to a client

What is written to a client waits in `c->out` as plaintext. Once the cipher is
set, `cpu_tcp_aes_crypto_ctr128_encrypt_output` moves all of it to `c->out_p`,
encrypted and wrapped: in chunks for an HTTP stream, in unmasked binary frames
for a WebSocket, in records for fake TLS. With `T3_FLAG_PADDING` a WebSocket
write is split into two to five frames of random sizes and may be followed by a
frame of padding that starts with `T3_PADDING_MARKER`.

Every outcome of a random draw is a parameter. `rwm_encrypt_decrypt_to` is never
asked for more than `c->out` holds, so its failure branches are left out.
-/
namespace Teleproxy.ServerOutput
open WorkerProcess (WsState)
open ClientInput

/-- What the output of a connection depends on besides its buffers. -/
structure Channel where
  wsState : WsState := .none
  isTls : Bool := false
  padding : Bool := false
  wsMaxFrameSize : ℤ := 16384

/-- The random draws of one call: values of `lrand48`, whether `drand48` chooses
padding, and what `RAND_bytes` gives, if anything. -/
structure Draws where
  nFrags : ℕ := 0
  size : ℕ → ℕ := fun _ => 0
  padded : Bool := false
  padLen : ℕ := 0
  padBytes : Option (ℕ → UInt8) := some fun _ => 0

/-- `c->out`, `c->out_p` and the cipher of this direction. -/
structure Output where
  out : Bytes := []
  outP : Bytes := []
  crypto : Cipher

def Output.push (s : Output) (bs : Bytes) : Output := {s with outP := s.outP++bs}

/-- `rwm_encrypt_decrypt_to (&c->out, &c->out_p, len, T->write_aeskey, 1)`. -/
def Output.encryptTo (s : Output) (len : ℕ) : Output :=
  {out := s.out.drop len
   outP := s.outP++s.crypto.crypt (s.out.take len)
   crypto := s.crypto.advance (s.out.take len).length}

def wsWriteFrameHeader (len : ℕ) : Bytes :=
  if len < 126 then [0x82,UInt8.ofNat len]
  else if len < 65536 then [0x82,126,UInt8.ofNat (len/2^8 % 256),UInt8.ofNat (len % 256)]
  else
    [0x82,127,0,0,0,0,UInt8.ofNat (len/2^24 % 256),UInt8.ofNat (len/2^16 % 256),
      UInt8.ofNat (len/2^8 % 256),UInt8.ofNat (len % 256)]

def Output.writeFrame (s : Output) (len : ℕ) : Output :=
  (s.push (wsWriteFrameHeader len)).encryptTo len

/-- The size of the next fragment when `nFrags` are left. -/
def fragSize (draw remaining nFrags : ℕ) : ℕ :=
  if nFrags = 1 then remaining else
    let minFrag := max (remaining/(nFrags*2)) 1
    let maxFrag := max (remaining-(nFrags-1)) minFrag
    minFrag+draw % (maxFrag-minFrag+1)

/-- The sizes that the split loop goes through. -/
def fragSizes (size : ℕ → ℕ) : ℕ → ℕ → List ℕ
  | 0, _ => []
  | nFrags+1, remaining =>
      if remaining = 0 then [] else
        let len := fragSize (size nFrags) remaining (nFrags+1)
        len::fragSizes size nFrags (remaining-len)

/-- The sizes of the fragments of one write. -/
def Draws.sizes (d : Draws) (len : ℕ) : List ℕ := fragSizes d.size (2+d.nFrags % 4) len

/-- The padding of one write, unless there is none or `RAND_bytes` fails. -/
def Draws.pad (d : Draws) : Option Bytes :=
  if d.padded then
    d.padBytes.map fun bytes => 0xFE::(List.range (31+d.padLen % 257)).map bytes
  else none

def Output.writePadding (s : Output) (pad : Bytes) : Output :=
  {s with outP := s.outP++wsWriteFrameHeader pad.length++s.crypto.crypt pad,
          crypto := s.crypto.advance pad.length}

def splitOutput (d : Draws) (s : Output) : Output :=
  let t := (d.sizes s.out.length).foldl Output.writeFrame s
  match d.pad with
  | some pad => t.writePadding pad
  | none => t

def chunkHeader (len : ℕ) : Bytes := bytesOf (String.ofList (Nat.toDigits 16 len))++crlf

/-- One round of the loop that wraps without padding. -/
def wrapNext (ch : Channel) (draw : ℕ) (s : Output) : Output :=
  let len := s.out.length
  match ch.wsState with
  | .httpStream =>
      let len := min len 16384
      ((s.push (chunkHeader len)).encryptTo len).push crlf
  | .active =>
      let wsMax := (max ch.wsMaxFrameSize 4096).toNat
      s.writeFrame (min len (4096+draw % (wsMax-4096+1)))
  | _ =>
      if ch.isTls then
        let len := min len 1425
        (s.push [0x17,0x03,0x03,UInt8.ofNat (len/256),UInt8.ofNat (len % 256)]).encryptTo len
      else s.encryptTo len

def wrapLoop (ch : Channel) (draw : ℕ → ℕ) : ℕ → Output → Output
  | 0, s => s
  | fuel+1, s => if s.out = [] then s else wrapLoop ch draw fuel (wrapNext ch (draw fuel) s)

/-- `cpu_tcp_aes_crypto_ctr128_encrypt_output`. -/
def encryptOutput (ch : Channel) (d : Draws) (s : Output) : Output :=
  if ch.wsState = .active ∧ ch.padding then
    if s.out = [] then s else splitOutput d s
  else wrapLoop ch d.size s.out.length s

/-- Bytes written to a connection, fewer than an `int` can count, with the draws
of the call that sends them. -/
structure Write where
  bytes : Bytes
  draws : Draws
  lt : bytes.length < 2^31

def send (ch : Channel) (s : Output) (w : Write) : Output :=
  encryptOutput ch w.draws {s with out := s.out++w.bytes}

def Write.sizes (w : Write) : List ℕ := w.draws.sizes w.bytes.length

/-- No fragment of the write starts at a byte with the value of the marker. -/
def Write.Unmarked (w : Write) : Prop :=
  ∀ i < w.sizes.length, w.bytes[(w.sizes.take i).sum]? ≠ some 0xFE

def Write.fragments (w : Write) : List Bytes := w.sizes.splitLengths w.bytes

/-- An empty write sends nothing, not even padding. -/
def Write.payloads (w : Write) : List Bytes :=
  if w.bytes = [] then [] else w.fragments++w.draws.pad.toList

theorem fragSize_spec (draw : ℕ) {remaining nFrags : ℕ} (hr : 0 < remaining) (hn : 0 < nFrags) :
    1 ≤ fragSize draw remaining nFrags ∧ fragSize draw remaining nFrags ≤ remaining := by
  unfold fragSize
  split_ifs with h
  · omega
  · have hmin : remaining/(nFrags*2) ≤ remaining := Nat.div_le_self _ _
    simp only
    generalize hlow : max (remaining/(nFrags*2)) 1 = low
    generalize hhigh : max (remaining-(nFrags-1)) low = high
    have hmod := Nat.mod_lt draw (show 0 < high-low+1 by omega)
    omega

/-- The fragments of one write are not empty and cover it. -/
theorem fragSizes_spec (size : ℕ → ℕ) {nFrags : ℕ} (hn : 0 < nFrags) (remaining : ℕ) :
    (∀ len ∈ fragSizes size nFrags remaining, 1 ≤ len) ∧
      (fragSizes size nFrags remaining).sum = remaining := by
  induction nFrags generalizing remaining with
  | zero => omega
  | succ nFrags ih =>
      rw [fragSizes]
      split_ifs with hr
      · simp [hr]
      · have hspec := fragSize_spec (size nFrags) (Nat.pos_of_ne_zero hr) hn
        rcases Nat.eq_zero_or_pos nFrags with rfl | hpos
        · simp [fragSizes,fragSize]
          omega
        · obtain ⟨hone,hsum⟩ := ih hpos (remaining-fragSize (size nFrags) remaining (nFrags+1))
          constructor
          · intro len hlen
            rcases List.mem_cons.mp hlen with rfl | hrest
            · exact hspec.1
            · exact hone len hrest
          · rw [List.sum_cons,hsum]
            omega

theorem sizes_pos (d : Draws) (n : ℕ) : ∀ len ∈ d.sizes n, 1 ≤ len :=
  (fragSizes_spec d.size (by omega) n).1

theorem sizes_sum (d : Draws) (n : ℕ) : (d.sizes n).sum = n :=
  (fragSizes_spec d.size (by omega) n).2

/-- The same output behind bytes that were there before. -/
def Output.after (p : Bytes) (s : Output) : Output := {s with outP := p++s.outP}

section After
variable (p : Bytes) (s : Output)

@[simp] theorem after_out : (s.after p).out = s.out := rfl
@[simp] theorem after_outP : (s.after p).outP = p++s.outP := rfl

@[simp] theorem push_after (bs : Bytes) : (s.after p).push bs = (s.push bs).after p := by
  simp [Output.after,Output.push]

@[simp] theorem encryptTo_after (len : ℕ) :
    (s.after p).encryptTo len = (s.encryptTo len).after p := by
  simp [Output.after,Output.encryptTo]

@[simp] theorem writeFrame_after (len : ℕ) :
    (s.after p).writeFrame len = (s.writeFrame len).after p := by
  simp [Output.writeFrame]

@[simp] theorem writePadding_after (pad : Bytes) :
    (s.after p).writePadding pad = (s.writePadding pad).after p := by
  simp [Output.after,Output.writePadding]

theorem writeFrames_after (sizes : List ℕ) :
    sizes.foldl Output.writeFrame (s.after p) = (sizes.foldl Output.writeFrame s).after p := by
  induction sizes generalizing s with
  | nil => rfl
  | cons n ns ih => rw [List.foldl_cons,writeFrame_after,ih,List.foldl_cons]

theorem splitOutput_after (d : Draws) : splitOutput d (s.after p) = (splitOutput d s).after p := by
  unfold splitOutput
  cases d.pad <;> simp [writeFrames_after]

theorem wrapNext_after (ch : Channel) (draw : ℕ) :
    wrapNext ch draw (s.after p) = (wrapNext ch draw s).after p := by
  unfold wrapNext
  cases ch.wsState with
  | httpStream => simp
  | active => simp
  | none =>
      simp only [after_out]
      split_ifs <;> simp
  | handshake =>
      simp only [after_out]
      split_ifs <;> simp

theorem wrapLoop_after (ch : Channel) (draw : ℕ → ℕ) (fuel : ℕ) :
    wrapLoop ch draw fuel (s.after p) = (wrapLoop ch draw fuel s).after p := by
  induction fuel generalizing s with
  | zero => rfl
  | succ fuel ih =>
      simp only [wrapLoop,after_out,wrapNext_after,ih]
      split_ifs <;> rfl

theorem encryptOutput_after (ch : Channel) (d : Draws) :
    encryptOutput ch d (s.after p) = (encryptOutput ch d s).after p := by
  simp only [encryptOutput,after_out,splitOutput_after,wrapLoop_after]
  split_ifs <;> rfl

theorem send_after (ch : Channel) (w : Write) : send ch (s.after p) w = (send ch s w).after p :=
  encryptOutput_after p {s with out := s.out++w.bytes} ch w.draws

end After

theorem eq_after (s : Output) : s = Output.after s.outP {s with outP := []} := by
  simp [Output.after]

theorem writeFrames_out {sizes : List ℕ} {s : Output} (hsum : s.out.length ≤ sizes.sum) :
    (sizes.foldl Output.writeFrame s).out = [] := by
  induction sizes generalizing s with
  | nil => simpa using hsum
  | cons n ns ih =>
      apply ih
      rw [List.sum_cons] at hsum
      simp only [Output.writeFrame,Output.push,Output.encryptTo,List.length_drop]
      omega

theorem wrapNext_out (ch : Channel) (draw : ℕ) {s : Output} (hne : s.out ≠ []) :
    (wrapNext ch draw s).out.length < s.out.length := by
  have hpos := List.length_pos_iff.mpr hne
  have hdrop : ∀ (t : Output) (len : ℕ), 0 < len → t.out.length = s.out.length →
      (t.encryptTo len).out.length < s.out.length := by
    intro t len hlen ht
    simp only [Output.encryptTo,List.length_drop]
    omega
  unfold wrapNext
  cases ch.wsState with
  | httpStream => exact hdrop _ _ (by omega) rfl
  | active => exact hdrop _ _ (by omega) rfl
  | none =>
      simp only
      split_ifs
      · exact hdrop _ _ (by omega) rfl
      · exact hdrop _ _ hpos rfl
  | handshake =>
      simp only
      split_ifs
      · exact hdrop _ _ (by omega) rfl
      · exact hdrop _ _ hpos rfl

theorem wrapLoop_out (ch : Channel) (draw : ℕ → ℕ) {fuel : ℕ} {s : Output}
    (hfuel : s.out.length ≤ fuel) : (wrapLoop ch draw fuel s).out = [] := by
  induction fuel generalizing s with
  | zero => exact List.eq_nil_of_length_eq_zero (Nat.le_zero.mp hfuel)
  | succ fuel ih =>
      rw [wrapLoop]
      split_ifs with hnil
      · exact hnil
      · have hlt := wrapNext_out ch (draw fuel) hnil
        exact ih (by omega)

theorem encryptOutput_out (ch : Channel) (d : Draws) (s : Output) :
    (encryptOutput ch d s).out = [] := by
  unfold encryptOutput
  split_ifs with hpad hnil
  · exact hnil
  · have hframes := writeFrames_out (s := s) (sizes_sum d s.out.length).ge
    unfold splitOutput
    cases d.pad with
    | none => exact hframes
    | some pad => exact hframes
  · exact wrapLoop_out ch d.size le_rfl

/-- A WebSocket connection sends frames: the first byte is that of a frame. -/
theorem encryptOutput_head {ch : Channel} (hs : ch.wsState = .active) (d : Draws) {s : Output}
    (hp : s.outP = []) (hne : s.out ≠ []) : (encryptOutput ch d s).outP.head? = some 0x82 := by
  have hpos := List.length_pos_iff.mpr hne
  have hheader : ∀ len, ∃ bs, wsWriteFrameHeader len = 0x82::bs := by
    intro len
    unfold wsWriteFrameHeader
    split_ifs <;> exact ⟨_,rfl⟩
  have hframe : ∀ len, ∃ bs, (s.writeFrame len).outP = 0x82::bs := by
    intro len
    obtain ⟨bs,hbs⟩ := hheader len
    exact ⟨bs++s.crypto.crypt (s.out.take len),by
      simp [Output.writeFrame,Output.push,Output.encryptTo,hp,hbs]⟩
  unfold encryptOutput
  split_ifs with hpad
  · have hsizes : ∃ n ns, d.sizes s.out.length = n::ns := by
      apply List.exists_cons_of_ne_nil
      intro hnil
      have hsum := sizes_sum d s.out.length
      rw [hnil] at hsum
      simp at hsum
      omega
    obtain ⟨n,ns,hns⟩ := hsizes
    obtain ⟨bs,hbs⟩ := hframe n
    have hfold : ∃ cs, ((d.sizes s.out.length).foldl Output.writeFrame s).outP = 0x82::cs := by
      rw [hns,List.foldl_cons,eq_after (s.writeFrame n),writeFrames_after,hbs]
      exact ⟨_,rfl⟩
    obtain ⟨cs,hcs⟩ := hfold
    unfold splitOutput
    cases d.pad with
    | none => simp [hcs]
    | some pad => simp [Output.writePadding,hcs]
  · obtain ⟨n,hn⟩ : ∃ n, s.out.length = n+1 := ⟨s.out.length-1,by omega⟩
    rw [hn,wrapLoop,if_neg hne]
    have hnext : ∃ len, wrapNext ch (d.size n) s = s.writeFrame len := by
      rw [wrapNext,hs]
      exact ⟨_,rfl⟩
    obtain ⟨len,hlen⟩ := hnext
    obtain ⟨bs,hbs⟩ := hframe len
    rw [hlen,eq_after (s.writeFrame len),wrapLoop_after,hbs]
    rfl

end Teleproxy.ServerOutput
