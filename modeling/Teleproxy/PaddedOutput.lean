import Teleproxy.ServerOutput
import Teleproxy.Lib.StepSystem
import Mathlib.Data.List.Flatten
import Mathlib.Algebra.Order.BigOperators.Group.List
import Mathlib.Algebra.Order.Group.Nat

/-!
# Padded output and its reader

A receiver of padded frames drops every frame whose plaintext starts with
`T3_PADDING_MARKER`. The sender puts the marker in front of its padding, but it
cuts data wherever the draws say, so a fragment of data may start with the same
byte. The fragments of a write always cover it, and the receiver gets all of
it exactly when no fragment starts with the marker.

The receiver is the program's own `cpu_tcp_aes_crypto_ctr128_decrypt_input`, with
the keystream of the sender.
-/
namespace Teleproxy.PaddedOutput
open ClientInput ServerOutput WebSocketFrames
open StepSystem (run)

theorem advance_advance (k : Cipher) (m n : ℕ) : (k.advance m).advance n = k.advance (m+n) := by
  simp [Cipher.advance,Nat.add_assoc]

theorem splitLengths_spec {sizes : List ℕ} {bs : Bytes} (hsum : sizes.sum = bs.length)
    (hpos : ∀ n ∈ sizes, 1 ≤ n) : ∀ p ∈ sizes.splitLengths bs, p ≠ [] ∧ p.length ≤ bs.length := by
  intro p hp
  have hmem : p.length ∈ (sizes.splitLengths bs).map List.length := List.mem_map_of_mem hp
  rw [List.map_splitLengths_length bs sizes hsum.le] at hmem
  constructor
  · exact List.length_pos_iff.mp (hpos _ hmem)
  · rw [← hsum]
    exact List.le_sum_of_mem hmem

/-- A fragment starts with the byte at its offset in the write. -/
theorem head_splitLengths {sizes : List ℕ} (hpos : ∀ n ∈ sizes, 1 ≤ n) (bs : Bytes) (b : UInt8) :
    (∃ p ∈ sizes.splitLengths bs, p.head? = some b) ↔
      ∃ i < sizes.length, bs[(sizes.take i).sum]? = some b := by
  induction sizes generalizing bs with
  | nil => simp
  | cons n ns ih =>
      have hn := hpos n (List.mem_cons_self ..)
      have hfirst : (bs.take n).head? = bs[0]? := by
        rw [List.head?_take,if_neg (by omega),List.head?_eq_getElem?]
      have hrest := ih (fun m hm => hpos m (List.mem_cons_of_mem _ hm)) (bs.drop n)
      simp only [List.splitLengths_cons,List.mem_cons,exists_eq_or_imp,hfirst,hrest]
      constructor
      · rintro (h | ⟨i,hi,h⟩)
        · exact ⟨0,by simp,by simpa using h⟩
        · refine ⟨i+1,by simpa using hi,?_⟩
          rw [List.getElem?_drop] at h
          simpa using h
      · rintro ⟨i,hi,h⟩
        cases i with
        | zero => exact Or.inl (by simpa using h)
        | succ i =>
            refine Or.inr ⟨i,by simpa using hi,?_⟩
            rw [List.getElem?_drop]
            simpa using h

/-- The payloads that one write is sent as. -/
def payloads (d : Draws) (bs : Bytes) : List Bytes := (d.sizes bs.length).splitLengths bs++d.pad.toList

/-- Payloads on the wire, each behind an unmasked header. -/
def wire : Cipher → List Bytes → Bytes
  | _, [] => []
  | k, p::ps => wsWriteFrameHeader p.length++k.crypt p++wire (k.advance p.length) ps

theorem wire_append (k : Cipher) (ps qs : List Bytes) :
    wire k (ps++qs) = wire k ps++wire (k.advance ps.flatten.length) qs := by
  induction ps generalizing k with
  | nil => rfl
  | cons p ps ih =>
      simp only [List.cons_append,wire,ih,advance_advance,List.flatten_cons,List.length_append,
        List.append_assoc]

theorem writeFrames_eq {sizes : List ℕ} {s : Output} (hsum : sizes.sum = s.out.length) :
    sizes.foldl Output.writeFrame s =
      {out := [], outP := s.outP++wire s.crypto (sizes.splitLengths s.out)
       crypto := s.crypto.advance s.out.length} := by
  induction sizes generalizing s with
  | nil =>
      have hout := List.eq_nil_of_length_eq_zero hsum.symm
      obtain ⟨out,outP,k⟩ := s
      simp only at hout
      simp [hout,wire,Cipher.advance]
  | cons n ns ih =>
      rw [List.sum_cons] at hsum
      have hlen : (s.out.take n).length = n := List.length_take_of_le (by omega)
      have hstep : s.writeFrame n =
          {out := s.out.drop n
           outP := s.outP++wsWriteFrameHeader n++s.crypto.crypt (s.out.take n)
           crypto := s.crypto.advance n} := by
        simp only [Output.writeFrame,Output.push,Output.encryptTo,hlen]
      rw [List.foldl_cons,hstep,ih (by simp only [List.length_drop]; omega)]
      simp only [List.splitLengths_cons,wire,hlen,advance_advance,List.length_drop,List.append_assoc]
      rw [show n+(s.out.length-n) = s.out.length by omega]

theorem length_payloads (d : Draws) (bs : Bytes) :
    (payloads d bs).flatten.length = bs.length+d.pad.toList.flatten.length := by
  have hcut := List.flatten_splitLengths bs _ (sizes_sum d bs.length).ge
  rw [payloads,List.flatten_append,List.length_append,hcut]

theorem splitOutput_eq (d : Draws) (s : Output) :
    splitOutput d s =
      {out := [], outP := s.outP++wire s.crypto (payloads d s.out)
       crypto := s.crypto.advance (payloads d s.out).flatten.length} := by
  have hcut := List.flatten_splitLengths s.out _ (sizes_sum d s.out.length).ge
  rw [length_payloads]
  simp only [splitOutput,payloads,writeFrames_eq (sizes_sum d s.out.length),wire_append,hcut]
  cases d.pad with
  | none => simp [wire]
  | some pad =>
      simp [Output.writePadding,wire,advance_advance,List.append_assoc]

theorem parse_wsWriteFrameHeader {n : ℕ} (hn : n < 2^31) (w : Ws) (rest : Bytes) :
    wsParseFrameHeader w (wsWriteFrameHeader n++rest) =
      (.payload n,{w with remaining := n},rest) := by
  unfold wsWriteFrameHeader
  split_ifs with h₁ h₂
  · have hb : (UInt8.ofNat n).toNat = n := by
      rw [UInt8.toNat_ofNat']
      omega
    have hlen : payloadLength (n % 128) rest = .is n rest := by
      unfold payloadLength
      rw [if_neg (by omega),if_neg (by omega),Nat.mod_eq_of_lt (by omega)]
    simp only [List.cons_append,List.nil_append,wsParseFrameHeader,hb,hlen]
    rw [if_pos (by omega)]
    rfl
  · have hlen : payloadLength (((126 : UInt8).toNat) % 128)
        (UInt8.ofNat (n/2^8 % 256)::UInt8.ofNat (n % 256)::rest) = .is n rest := by
      rw [payloadLength,if_pos (by decide)]
      simp only [toNat_ofNat_mod]
      congr 1
      omega
    simp only [List.cons_append,List.nil_append,wsParseFrameHeader,hlen]
    rw [if_pos (by decide)]
    rfl
  · have hlen : payloadLength (((127 : UInt8).toNat) % 128)
        (0::0::0::0::UInt8.ofNat (n/2^24 % 256)::UInt8.ofNat (n/2^16 % 256)::
          UInt8.ofNat (n/2^8 % 256)::UInt8.ofNat (n % 256)::rest) = .is n rest := by
      rw [payloadLength,if_neg (by decide),if_pos (by decide)]
      simp only [toNat_ofNat_mod]
      rw [if_neg (by decide),if_neg (by omega)]
      congr 1
      omega
    simp only [List.cons_append,List.nil_append,wsParseFrameHeader,hlen]
    rw [if_pos (by decide)]
    rfl

theorem maskBytes_zero (i : ℕ) (bs : Bytes) : maskBytes {} i bs = bs := by
  have hget : ∀ j, Mask.get {} j = 0 := by
    intro j
    unfold Mask.get
    split <;> rfl
  induction bs generalizing i with
  | nil => rfl
  | cons b bs ih => rw [maskBytes,hget,ih,UInt8.xor_zero]

/-- Whether the receiver takes a payload for padding. -/
def isMarked (p : Bytes) : Bool := p.head? == some 0xFE

/-- Behind the header of an unmasked frame. -/
theorem takePayload_unmasked {w : Ws} {p : Bytes} (hm : w.mask = {}) (rest : Bytes) :
    takePayload {w with remaining := p.length} (p++rest) =
      (p,{remaining := 0, mask := {}, maskOffset := (w.maskOffset+p.length) % 4},rest) := by
  have h : takePayload {w with remaining := p.length} (maskBytes w.mask w.maskOffset p++rest) = _ :=
    takePayload_eq rfl (Or.inl rfl)
  rw [hm,maskBytes_zero] at h
  rw [hm,h,Nat.sub_self]

/-- The program's own receiver, between two frames of padded output. -/
structure Receives (k : Cipher) (c : Conn) : Prop where
  active : c.wsState = .active
  crypto : c.crypto = some k
  padding : c.padding = true
  remaining : c.ws.remaining = 0
  mask : c.ws.mask = {}

theorem decryptPiece_receives {k : Cipher} {c : Conn} {p rest : Bytes} (hr : Receives k c) :
    let d := Conn.decryptPiece {c with ws := {c.ws with remaining := p.length},
                                       inU := k.crypt p++rest} k
    Receives (k.advance p.length) d ∧ d.inU = rest ∧
      d.inBuf = c.inBuf++if isMarked p then [] else p := by
  have htake := takePayload_unmasked (p := k.crypt p) hr.mask rest
  rw [length_crypt] at htake
  simp only [Conn.decryptPiece,htake,length_crypt,crypt_crypt,hr.padding,Bool.true_and]
  constructor
  · exact ⟨hr.active,rfl,rfl,rfl,rfl⟩
  · unfold isMarked
    split_ifs <;> simp

theorem decryptLoop_wire (cfg : Config) {ps : List Bytes} {k : Cipher} {c : Conn} {fuel : ℕ}
    (hps : ∀ p ∈ ps, p ≠ [] ∧ p.length < 2^31) (hr : Receives k c) (hu : c.inU = wire k ps)
    (hfuel : c.inU.length < fuel) :
    (decryptLoop cfg fuel c).inBuf = c.inBuf++(ps.filter (!isMarked ·)).flatten := by
  induction ps generalizing k c fuel with
  | nil => simp [decryptLoop_nil fuel hu]
  | cons p ps ih =>
      obtain ⟨hne,hlt⟩ := hps p (List.mem_cons_self ..)
      rw [wire,List.append_assoc] at hu
      obtain ⟨fuel,rfl⟩ : ∃ n, fuel = n+1 := ⟨fuel-1,by omega⟩
      obtain ⟨m,hm⟩ : ∃ m, p.length = m+1 :=
        ⟨p.length-1,by have := List.length_pos_iff.mpr hne; omega⟩
      have hnil : c.inU ≠ [] := by
        rw [hu]
        unfold wsWriteFrameHeader
        split_ifs <;> simp
      have hstep : decryptLoop cfg (fuel+1) c =
          decryptLoop cfg fuel (Conn.decryptPiece
            {c with ws := {c.ws with remaining := p.length},
                    inU := k.crypt p++wire (k.advance p.length) ps} k) := by
        simp only [decryptLoop,hnil,hr.crypto,hr.active,hr.remaining,if_false,if_true]
        rw [hu,parse_wsWriteFrameHeader hlt,hm]
      obtain ⟨hnext,hinU,hbuf⟩ : _ ∧ _ ∧ _ :=
        decryptPiece_receives (p := p) hr
      rw [hstep,ih (fun q hq => hps q (List.mem_cons_of_mem _ hq)) hnext hinU ?_,hbuf]
      · cases hmark : isMarked p <;> simp [hmark]
      · rw [hinU]
        rw [hu] at hfuel
        simp only [List.length_append,length_crypt] at hfuel
        omega

/-- A WebSocket with `T3_FLAG_PADDING`. -/
def paddedChannel (wsMaxFrameSize : ℤ) : Channel :=
  {wsState := .active, padding := true, wsMaxFrameSize := wsMaxFrameSize}

def receive (cfg : Config) (k : Cipher) (bs : Bytes) : Bytes :=
  (decryptInput cfg {wsState := .active, crypto := some k, padding := true, inU := bs}).inBuf

theorem fragments_ne_nil (w : Write) : ∀ p ∈ w.fragments, p ≠ [] ∧ p.length < 2^31 := by
  intro p hp
  have hspec := splitLengths_spec (sizes_sum w.draws _) (sizes_pos w.draws _) p hp
  exact ⟨hspec.1,hspec.2.trans_lt w.lt⟩

theorem flatten_fragments (w : Write) : w.fragments.flatten = w.bytes :=
  List.flatten_splitLengths w.bytes _ (sizes_sum w.draws _).ge

theorem unmarked_iff (w : Write) : w.Unmarked ↔ ∀ p ∈ w.fragments, isMarked p = false := by
  have hhead := head_splitLengths (sizes_pos w.draws w.bytes.length) w.bytes 0xFE
  simp only [Write.Unmarked,Write.fragments,Write.sizes,isMarked,beq_eq_false_iff_ne]
  grind

theorem pad_spec (d : Draws) : ∀ p ∈ d.pad.toList, p ≠ [] ∧ p.length < 2^31 ∧ isMarked p = true := by
  intro p hp
  unfold Draws.pad at hp
  split_ifs at hp
  · obtain ⟨bytes,-,rfl⟩ := Option.map_eq_some_iff.mp (Option.mem_toList.mp hp)
    refine ⟨by simp,?_,rfl⟩
    simp only [List.length_cons,List.length_map,List.length_range]
    omega
  · simp at hp

theorem payloads_spec (w : Write) : ∀ p ∈ w.payloads, p ≠ [] ∧ p.length < 2^31 := by
  intro p hp
  unfold Write.payloads at hp
  split_ifs at hp
  · cases hp
  · rcases List.mem_append.mp hp with hfrag | hpad
    · exact fragments_ne_nil w p hfrag
    · have hspec := pad_spec w.draws p hpad
      exact ⟨hspec.1,hspec.2.1⟩

/-- Of what a write sends the receiver keeps fragments without the marker. -/
theorem kept (w : Write) :
    w.payloads.filter (!isMarked ·) = w.fragments.filter (!isMarked ·) := by
  unfold Write.payloads
  split_ifs with hnil
  · have hfrag : w.fragments = [] := by
      rw [List.eq_nil_iff_forall_not_mem]
      intro p hp
      have hflat := (flatten_fragments w).trans hnil
      exact (fragments_ne_nil w p hp).1 (List.flatten_eq_nil_iff.mp hflat p hp)
    rw [hfrag]
  · have hpad : w.draws.pad.toList.filter (!isMarked ·) = [] := by
      rw [List.filter_eq_nil_iff]
      intro p hp
      simp [(pad_spec w.draws p hp).2.2]
    rw [List.filter_append,hpad,List.append_nil]

theorem send_eq (m : ℤ) {s : Output} (hs : s.out = []) (w : Write) :
    send (paddedChannel m) s w =
      {out := [], outP := s.outP++wire s.crypto w.payloads
       crypto := s.crypto.advance w.payloads.flatten.length} := by
  obtain ⟨out,outP,k⟩ := s
  simp only at hs
  subst hs
  unfold send encryptOutput
  rw [if_pos ⟨rfl,rfl⟩]
  simp only [List.nil_append,Write.payloads]
  split_ifs with hnil
  · simp [hnil,wire,Cipher.advance]
  · rw [splitOutput_eq]
    rfl

theorem run_send (m : ℤ) {s : Output} (hs : s.out = []) (writes : List Write) :
    (run (send (paddedChannel m)) s writes).outP =
      s.outP++wire s.crypto (writes.flatMap Write.payloads) := by
  induction writes generalizing s with
  | nil => simp [wire]
  | cons w writes ih =>
      rw [StepSystem.run_cons,send_eq m hs,ih rfl]
      simp only [List.flatMap_cons,wire_append,List.append_assoc]

theorem flatten_filter_eq_iff {f : Bytes → Bool} {ps : List Bytes} (hne : ∀ p ∈ ps, p ≠ []) :
    (ps.filter f).flatten = ps.flatten ↔ ∀ p ∈ ps, f p = true := by
  induction ps with
  | nil => simp
  | cons p ps ih =>
      have hp := List.length_pos_iff.mpr (hne p (List.mem_cons_self ..))
      have hrest := ih fun q hq => hne q (List.mem_cons_of_mem _ hq)
      cases hf : f p with
      | true => simp [hf,hrest]
      | false =>
          have hle := ((List.filter_sublist (p := f) (l := ps)).flatten).length_le
          simp only [List.filter_cons,hf,List.flatten_cons,List.forall_mem_cons,Bool.false_eq_true,
            false_and,iff_false,if_false]
          intro heq
          have hlen := congrArg List.length heq
          rw [List.length_append] at hlen
          omega

/-- The receiver gets what was written, in fragments that are not empty and cover
it, exactly when no fragment of any write starts with the marker. -/
theorem received_eq_written_iff (cfg : Config) (m : ℤ) (k : Cipher) (writes : List Write) :
    (receive cfg k (run (send (paddedChannel m)) {crypto := k} writes).outP =
        writes.flatMap Write.bytes ∧
      ∀ w ∈ writes, (∀ len ∈ w.sizes, 1 ≤ len) ∧ w.sizes.sum = w.bytes.length) ↔
    ∀ w ∈ writes, w.Unmarked := by
  have hcover : ∀ w ∈ writes, (∀ len ∈ w.sizes, 1 ≤ len) ∧ w.sizes.sum = w.bytes.length :=
    fun w _ => ⟨sizes_pos w.draws _,sizes_sum w.draws _⟩
  have hps : ∀ p ∈ writes.flatMap Write.payloads, p ≠ [] ∧ p.length < 2^31 := by
    intro p hp
    obtain ⟨w,-,hw⟩ := List.mem_flatMap.mp hp
    exact payloads_spec w p hw
  have hfrag : ∀ p ∈ writes.flatMap Write.fragments, p ≠ [] := by
    intro p hp
    obtain ⟨w,-,hw⟩ := List.mem_flatMap.mp hp
    exact (fragments_ne_nil w p hw).1
  have hkept : (writes.flatMap Write.payloads).filter (!isMarked ·) =
      (writes.flatMap Write.fragments).filter (!isMarked ·) := by
    simp only [List.filter_flatMap,kept]
  have hall : (writes.flatMap Write.fragments).flatten = writes.flatMap Write.bytes := by
    simp only [List.flatMap_def,List.flatten_flatten,List.map_map,Function.comp_def,
      flatten_fragments]
  have hreceived : receive cfg k (run (send (paddedChannel m)) {crypto := k} writes).outP =
      ((writes.flatMap Write.fragments).filter (!isMarked ·)).flatten := by
    rw [run_send m rfl,List.nil_append,receive,decryptInput,
      decryptLoop_wire cfg hps ⟨rfl,rfl,rfl,rfl,rfl⟩ rfl (Nat.lt_succ_self _),List.nil_append,hkept]
  rw [hreceived,← hall,flatten_filter_eq_iff hfrag]
  simp only [List.mem_flatMap,unmarked_iff]
  grind

/-- Two bytes, the second one with the value of the marker, in two fragments. -/
def sampleWrite : Write := {bytes := [1,0xFE], draws := {}, lt := by decide}

/-- The second fragment is dropped as padding. -/
theorem marker_loses_data :
    receive {obfs2ParseHeader := fun _ => none} {keystream := fun i => UInt8.ofNat i}
        (run (send (paddedChannel 16384)) {crypto := {keystream := fun i => UInt8.ofNat i}}
          [sampleWrite]).outP ≠ [sampleWrite].flatMap Write.bytes := by
  decide +kernel

end Teleproxy.PaddedOutput
