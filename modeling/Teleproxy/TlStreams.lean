import Teleproxy.TlQueryHeader
import Teleproxy.Lib.Buffer
import Teleproxy.Lib.Lockstep

/-!
# TL streams in strings and in messages

What reads and writes TL works through a table of methods, of a string or of a message. A
string is an address in the memory of the caller, which the methods move; a message is cut at
its front and grows at its end, and its mark is another message. Positions, remaining bytes
and errors are the same for both, and there is a method for each pair of an input and an
output that copies from one to the other.

A message is the list of its bytes. All the tables of messages have the same functions in the
places that are used here. A read or a write outside of the memory is `outOfBounds`, and a
failed assertion is `fail`.
-/
namespace Teleproxy.TlStreams
open ClientInput (Bytes)
open PacketParser (lookup4 store4)
open TlQueryHeader (TlError tlErrorNotEnoughData lookup8)
open Buffer (Stop)
open Lockstep (Agree Meets agree_ok agree_error)

abbrev Result := Except (Stop Unit)

/-- `assert` -/
def check (p : Prop) [Decidable p] : Result Unit := Buffer.expect p ()

/-- Memory of the caller. Nothing is at the null pointer. -/
structure Memory where
  base : ℕ
  bytes : Bytes
  base_pos : 0 < base

def Memory.load (m : Memory) (address len : ℤ) : Result Bytes :=
  if 0 ≤ len then Buffer.read m.bytes (address-m.base) len.toNat else .error .outOfBounds

def Memory.store (m : Memory) (address : ℤ) (bs : Bytes) : Result Memory :=
  if m.base ≤ address then
    match Buffer.write m.bytes (address-m.base).toNat bs with
    | some bytes => .ok {m with bytes}
    | none => .error .outOfBounds
  else .error .outOfBounds

/-- `in` and `in_mark`, by the type of the input. -/
inductive InStream where
  | str (memory : Memory) (pointer mark : ℤ)
  | rawMsg (msg : Bytes) (mark : Option Bytes)

def InStream.marked : InStream → Bool
  | .str _ _ mark => mark ≠ 0
  | .rawMsg _ mark => mark.isSome

def fetchRawData : InStream → ℤ → Result (Bytes × InStream)
  | .str memory pointer mark, len => do
      let bs ← memory.load pointer len
      .ok (bs,.str memory (pointer+len) mark)
  | .rawMsg msg mark, len => do
      check (0 ≤ len ∧ len ≤ msg.length)
      .ok (msg.take len.toNat,.rawMsg (msg.drop len.toNat) mark)

def fetchMove : InStream → ℤ → Result InStream
  | .str memory pointer mark, len => .ok (.str memory (pointer+len) mark)
  | .rawMsg msg mark, len => do
      check (0 ≤ len)
      check (len ≤ msg.length)
      .ok (.rawMsg (msg.drop len.toNat) mark)

def fetchLookup : InStream → ℤ → Result Bytes
  | .str memory pointer _, len => memory.load pointer len
  | .rawMsg msg _, len => do
      check (0 ≤ len ∧ len ≤ msg.length)
      .ok (msg.take len.toNat)

def fetchMark : InStream → Result InStream
  | .str memory pointer mark => do
      check (mark = 0)
      .ok (.str memory pointer pointer)
  | .rawMsg msg mark => do
      check (mark = none)
      .ok (.rawMsg msg (some msg))

def fetchMarkRestore : InStream → Result InStream
  | .str memory _ mark => .ok (.str memory mark 0)
  | .rawMsg _ (some msg) => .ok (.rawMsg msg none)
  | .rawMsg _ none => .error (.fail ())

def fetchMarkDelete : InStream → Result InStream
  | .str memory pointer _ => .ok (.str memory pointer 0)
  | .rawMsg msg mark => do
      check (mark ≠ none)
      .ok (.rawMsg msg none)

inductive OutStream where
  | str (memory : Memory) (pointer : ℤ)
  | rawMsg (msg : Bytes)

def storeRawData : OutStream → Bytes → Result OutStream
  | .str memory pointer, bs => do
      let memory ← memory.store pointer bs
      .ok (.str memory (pointer+bs.length))
  | .rawMsg msg, bs => .ok (.rawMsg (msg++bs))

/-- The bytes of the message are fetched to the pointer, or become the end of the output. -/
def storeRawMsg (out : OutStream) (raw : Bytes) : Result OutStream := storeRawData out raw

def storeReadBack : OutStream → ℤ → Result OutStream
  | .str memory pointer, len => .ok (.str memory (pointer-len))
  | .rawMsg msg, len => do
      check (0 ≤ len ∧ len ≤ msg.length)
      .ok (.rawMsg (msg.take (msg.length-len.toNat)))

/-- The entries `copy_through` of the tables. A string moves on by `advance` bytes. -/
def copyThrough : InStream → OutStream → ℤ → ℤ → Result (InStream × OutStream)
  | .str memory pointer mark, .rawMsg out, len, advance => do
      check (0 ≤ len)
      let bs ← memory.load pointer len
      .ok (.str memory (pointer+advance) mark,.rawMsg (out++bs))
  | .str memory pointer mark, .str target place, len, advance => do
      let bs ← memory.load pointer len
      let target ← target.store place bs
      .ok (.str memory (pointer+advance) mark,.str target (place+len))
  | .rawMsg msg mark, .rawMsg out, len, advance =>
      if advance = 0 then .ok (.rawMsg msg mark,.rawMsg (out++msg.take len.toNat))
      else do
        check (0 ≤ len)
        .ok (.rawMsg (msg.drop len.toNat) mark,.rawMsg (out++msg.take len.toNat))
  | .rawMsg msg mark, .str target place, len, advance => do
      check (0 ≤ len ∧ len ≤ msg.length)
      let target ← target.store place (msg.take len.toNat)
      .ok (.rawMsg (if advance = 0 then msg else msg.drop len.toNat) mark,.str target (place+len))

def tlErrorSyntax : ℤ := -1000

/-- `struct tl_in_state` -/
structure TlIn where
  stream : InStream
  remaining : ℤ
  pos : ℤ := 0
  markPos : ℤ := 0
  error : Option TlError := none

/-- What an operation returns, and what it has written to the buffer of its caller. -/
structure Value where
  ret : ℤ
  data : Bytes := []
  deriving DecidableEq, Repr

def TlIn.setError (s : TlIn) (errnum : ℤ) (text : String) : TlIn :=
  match s.error with
  | some _ => s
  | none => {s with error := some ⟨errnum,text⟩}

def TlIn.short (s : TlIn) (nbytes : ℤ) : Bool :=
  if 0 ≤ nbytes then s.remaining < nbytes else s.pos < -nbytes

def notEnough (nbytes pos size : ℤ) : String :=
  s!"Trying to read {nbytes} bytes at position {pos} (size = {size})"

def tlfCheck (s : TlIn) (nbytes : ℤ) : Bool × TlIn :=
  if s.short nbytes then
    (false,s.setError tlErrorNotEnoughData (notEnough nbytes s.pos (s.pos+s.remaining)))
  else (s.error.isNone,s)

/-- `__tlf_raw_data` -/
def TlIn.rawData (s : TlIn) (size : ℤ) : Result (Bytes × TlIn) := do
  let r ← fetchRawData s.stream size
  .ok (r.1,{s with stream := r.2, pos := s.pos+size, remaining := s.remaining-size})

/-- `__tlf_skip_raw_data` -/
def TlIn.skipRawData (s : TlIn) (size : ℤ) : Result TlIn := do
  let stream ← fetchMove s.stream size
  .ok {s with stream, pos := s.pos+size, remaining := s.remaining-size}

/-- The operations check how much there is, and return -1 if that fails. -/
def checked (s : TlIn) (nbytes : ℤ) (body : TlIn → Result (Value × TlIn)) : Result (Value × TlIn) :=
  let c := tlfCheck s nbytes
  if c.1 then body c.2 else .ok (⟨-1,[]⟩,c.2)

def tlfLookupInt (s : TlIn) : Result (Value × TlIn) :=
  checked s 4 fun s => do
    let bs ← fetchLookup s.stream 4
    .ok (⟨(lookup4 bs).toInt,[]⟩,s)

def tlfLookupData (s : TlIn) (len : ℤ) : Result (Value × TlIn) :=
  checked s len fun s => do
    let bs ← fetchLookup s.stream len
    .ok (⟨len,bs⟩,s)

def tlfInt (s : TlIn) : Result (Value × TlIn) :=
  checked s 4 fun s => do
    let r ← s.rawData 4
    .ok (⟨(lookup4 r.1).toInt,[]⟩,r.2)

def tlfLong (s : TlIn) : Result (Value × TlIn) :=
  checked s 8 fun s => do
    let r ← s.rawData 8
    .ok (⟨(lookup8 r.1).toInt,[]⟩,r.2)

/-- `(-TL_IN_POS) & 3` -/
def padding (pos : ℤ) : ℤ := -pos%4

def tlfPad (s : TlIn) : Result (Value × TlIn) :=
  let pad := padding s.pos
  checked s pad fun s => do
    check (pad ≤ s.remaining)
    let r ← s.rawData pad
    if r.1.any (· ≠ 0) then .ok (⟨-1,[]⟩,r.2.setError tlErrorSyntax "Padding with non-zeroes")
    else .ok (⟨pad,[]⟩,r.2)

def tlfRawData (s : TlIn) (len : ℤ) : Result (Value × TlIn) := do
  check (len%4 = 0)
  checked s len fun s => do
    let r ← s.rawData len
    .ok (⟨len,r.1⟩,r.2)

def tlfSkip (s : TlIn) (len : ℤ) : Result (Value × TlIn) :=
  checked s len fun s => do
    let s ← s.skipRawData len
    .ok (⟨len,[]⟩,s)

def TlIn.mark (s : TlIn) : Result TlIn := do
  let stream ← fetchMark s.stream
  .ok {s with stream, markPos := s.pos}

def TlIn.markRestore (s : TlIn) : Result TlIn := do
  let stream ← fetchMarkRestore s.stream
  let x := s.pos-s.markPos
  .ok {s with stream, pos := s.pos-x, remaining := s.remaining+x}

def TlIn.markDelete (s : TlIn) : Result TlIn := do
  let stream ← fetchMarkDelete s.stream
  .ok {s with stream}

/-- `struct tl_out_state` -/
structure TlOut where
  stream : OutStream
  remaining : ℤ
  pos : ℤ := 0

def tlsCheck (s : TlOut) (size : ℤ) : Bool := size ≤ s.remaining

/-- `__tls_raw_data` -/
def TlOut.rawData (s : TlOut) (bs : Bytes) : Result TlOut := do
  let stream ← storeRawData s.stream bs
  .ok {stream, pos := s.pos+bs.length, remaining := s.remaining-bs.length}

def tlsRawData (s : TlOut) (bs : Bytes) : Result TlOut := do
  check (tlsCheck s bs.length)
  s.rawData bs

def store8 (x : BitVec 64) : Bytes := store4 (x.setWidth 32)++store4 ((x >>> 32).setWidth 32)

def tlsInt (s : TlOut) (x : BitVec 32) : Result TlOut := tlsRawData s (store4 x)
def tlsLong (s : TlOut) (x : BitVec 64) : Result TlOut := tlsRawData s (store8 x)

/-- With `dup` a copy of the message is stored. -/
def tlsRawMsg (s : TlOut) (raw : Bytes) : Result TlOut := do
  check (tlsCheck s raw.length)
  let stream ← storeRawMsg s.stream raw
  .ok {stream, pos := s.pos+raw.length, remaining := s.remaining-raw.length}

def tlsPad (s : TlOut) : Result TlOut := do
  check (tlsCheck s 0)
  s.rawData (List.replicate (padding s.pos).toNat 0)

/-- The length in front of a string. -/
def stringLen (len : ℕ) : Bytes :=
  if len < 254 then [UInt8.ofNat len] else store4 ((BitVec.ofNat 32 len <<< 8)+0xfe#32)

def tlsStringLen (s : TlOut) (len : ℕ) : Result TlOut := do
  check (tlsCheck s 4)
  check (len < 254 ∨ len < 2^24)
  s.rawData (stringLen len)

def tlsStringData (s : TlOut) (bs : Bytes) : Result TlOut := do
  check (tlsCheck s bs.length)
  let s ← s.rawData bs
  tlsPad s

def tlsString (s : TlOut) (bs : Bytes) : Result TlOut := do
  let s ← tlsStringLen s bs.length
  tlsStringData s bs

def tlsClean (s : TlOut) : Result TlOut := do
  let stream ← storeReadBack s.stream s.pos
  .ok {stream, pos := 0, remaining := s.remaining+s.pos}

def tlCopyThrough (s : TlIn) (o : TlOut) (len advance : ℤ) : Result (Value × TlIn × TlOut) :=
  let c := tlfCheck s len
  if c.1 && tlsCheck o len then do
    let r ← copyThrough c.2.stream o.stream len advance
    let s := {c.2 with stream := r.1}
    .ok (⟨len,[]⟩,
      if advance ≠ 0 then {s with pos := s.pos+len, remaining := s.remaining-len} else s,
      {stream := r.2, pos := o.pos+len, remaining := o.remaining-len})
  else .ok (⟨-1,[]⟩,c.2,o)

/-- An input, an output, and what has been fetched so far. -/
structure State where
  input : TlIn
  output : TlOut
  fetched : List Value := []

inductive Op where
  | int | long
  | rawData (len : ℤ)
  | skip (len : ℤ)
  | pad | lookupInt
  | lookupData (len : ℤ)
  | mark | markRestore | markDelete
  | storeInt (x : BitVec 32)
  | storeLong (x : BitVec 64)
  | storeRawData (bs : Bytes)
  | storeString (bs : Bytes)
  | storeRawMsg (raw : Bytes)
  | clean
  | copyThrough (len : ℤ) (advance : Bool)
  deriving DecidableEq, Repr

def State.fetch (s : State) (r : Result (Value × TlIn)) : Result State := do
  let r ← r
  .ok {s with input := r.2, fetched := s.fetched++[r.1]}

def State.move (s : State) (r : Result TlIn) : Result State := do
  let input ← r
  .ok {s with input}

def State.store (s : State) (r : Result TlOut) : Result State := do
  let output ← r
  .ok {s with output}

def perform (s : State) : Op → Result State
  | .int => s.fetch (tlfInt s.input)
  | .long => s.fetch (tlfLong s.input)
  | .rawData len => s.fetch (tlfRawData s.input len)
  | .skip len => s.fetch (tlfSkip s.input len)
  | .pad => s.fetch (tlfPad s.input)
  | .lookupInt => s.fetch (tlfLookupInt s.input)
  | .lookupData len => s.fetch (tlfLookupData s.input len)
  | .mark => s.move s.input.mark
  | .markRestore => s.move s.input.markRestore
  | .markDelete => s.move s.input.markDelete
  | .storeInt x => s.store (tlsInt s.output x)
  | .storeLong x => s.store (tlsLong s.output x)
  | .storeRawData bs => s.store (tlsRawData s.output bs)
  | .storeString bs => s.store (tlsString s.output bs)
  | .storeRawMsg raw => s.store (tlsRawMsg s.output raw)
  | .clean => s.store (tlsClean s.output)
  | .copyThrough len advance => do
      let r ← tlCopyThrough s.input s.output len (if advance then 1 else 0)
      .ok {input := r.2.1, output := r.2.2, fetched := s.fetched++[r.1]}

/-- What the caller can see; the output is the first `out_pos` bytes of its memory, or the
message. -/
structure Seen where
  fetched : List Value
  error : Option TlError
  pos : ℤ
  remaining : ℤ
  outPos : ℤ
  outRemaining : ℤ
  out : Bytes
  deriving DecidableEq, Repr

def OutStream.bytes (pos : ℤ) : OutStream → Bytes
  | .str memory _ => memory.bytes.take pos.toNat
  | .rawMsg msg => msg

def observe (s : State) : Seen :=
  ⟨s.fetched,s.input.error,s.input.pos,s.input.remaining,s.output.pos,s.output.remaining,
    s.output.stream.bytes s.output.pos⟩

/-- The streams after `tlf_init_…` and `tls_init_…`. -/
def start (input : InStream) (output : OutStream) (size outSize : ℕ) : State :=
  {input := {stream := input, remaining := size}, output := {stream := output, remaining := outSize}}

/-- Where a string that is stored ends, with its padding. -/
def stringEnd (pos : ℤ) (bs : Bytes) : ℤ :=
  let last := pos+(stringLen bs.length).length+bs.length
  last+padding last

/-- The padding of a string, which is not checked, is within the declared size too. -/
def Fits (s : State) : Op → Prop
  | .storeString bs => stringEnd s.output.pos bs ≤ s.output.pos+s.output.remaining
  | _ => True

/-- No length is negative, a mark is restored or deleted when there is one, and what is copied
and taken from the input is a single byte. -/
def Regular (s : State) : Op → Prop
  | .rawData len | .skip len | .lookupData len => 0 ≤ len
  | .markRestore | .markDelete => s.input.stream.marked = true
  | .copyThrough len advance =>
      0 ≤ len ∧ (advance = true → (tlfCheck s.input len).1 = true → tlsCheck s.output len = true → len = 1)
  | _ => True

instance (s : State) : ∀ op, Decidable (Fits s op)
  | .storeString _ => inferInstanceAs (Decidable (_ ≤ _))
  | .int | .long | .rawData _ | .skip _ | .pad | .lookupInt | .lookupData _ | .mark | .markRestore
  | .markDelete | .storeInt _ | .storeLong _ | .storeRawData _ | .storeRawMsg _ | .clean
  | .copyThrough _ _ => isTrue trivial

instance (s : State) : ∀ op, Decidable (Regular s op)
  | .rawData _ | .skip _ | .lookupData _ => inferInstanceAs (Decidable (_ ≤ _))
  | .markRestore | .markDelete => inferInstanceAs (Decidable (_ = _))
  | .copyThrough _ _ => inferInstanceAs (Decidable (_ ≤ _ ∧ (_ → _ → _ → _)))
  | .int | .long | .pad | .lookupInt | .mark | .storeInt _ | .storeLong _ | .storeRawData _
  | .storeString _ | .storeRawMsg _ | .clean => isTrue trivial

@[simp] theorem check_pos {α : Type} {p : Prop} [Decidable p] (h : p) (f : Unit → Result α) :
    (check p >>= f) = f () := Buffer.expect_bind h () f

theorem check_neg {α : Type} {p : Prop} [Decidable p] (h : ¬ p) (f : Unit → Result α) :
    (check p >>= f) = .error (.fail ()) := by
  rw [check,Buffer.expect,if_neg h]
  rfl

theorem padding_nonneg (pos : ℤ) : 0 ≤ padding pos := Int.emod_nonneg _ (by decide)

section Input
variable {content : Bytes} {size place n : ℕ} {mark : Option ℕ} {i : InStream} {s t : TlIn}

/-- The stream is at `place` in the bytes that were there at first, and its mark at another. -/
def InStream.Shows (content : Bytes) (place : ℕ) (mark : Option ℕ) : InStream → Prop
  | .str memory pointer m =>
      memory.bytes = content ∧ pointer = memory.base+place ∧
        m = mark.elim 0 (fun k => (memory.base : ℤ)+k)
  | .rawMsg msg m => msg = content.drop place ∧ m = mark.map fun k => content.drop k

theorem load_eq {memory : Memory} (hbytes : memory.bytes = content) (hn : place+n ≤ content.length) :
    memory.load (memory.base+place) n = .ok ((content.drop place).take n) := by
  have haddress : (memory.base : ℤ)+place-memory.base = (place : ℤ) := by omega
  rw [Memory.load,if_pos (by omega),haddress,Int.toNat_natCast,hbytes]
  exact Buffer.read_eq hn

theorem InStream.Shows.rawData (h : i.Shows content place mark) (hn : place+n ≤ content.length) :
    ∃ i', fetchRawData i n = .ok ((content.drop place).take n,i') ∧ i'.Shows content (place+n) mark := by
  cases i with
  | str memory pointer m =>
      obtain ⟨hbytes,hpointer,hmark⟩ := h
      refine ⟨.str memory (pointer+n) m,?_,hbytes,?_,hmark⟩
      · rw [fetchRawData,hpointer,load_eq hbytes hn]
        rfl
      · rw [hpointer]
        omega
  | rawMsg msg m =>
      obtain ⟨hmsg,hmark⟩ := h
      have hlen : msg.length = content.length-place := by rw [hmsg,List.length_drop]
      refine ⟨.rawMsg (msg.drop n) m,?_,?_,hmark⟩
      · rw [fetchRawData,check_pos ⟨by omega,by omega⟩,Int.toNat_natCast,hmsg]
      · rw [hmsg,List.drop_drop]

theorem InStream.Shows.move (h : i.Shows content place mark) (hn : place+n ≤ content.length) :
    ∃ i', fetchMove i n = .ok i' ∧ i'.Shows content (place+n) mark := by
  cases i with
  | str memory pointer m =>
      obtain ⟨hbytes,hpointer,hmark⟩ := h
      refine ⟨.str memory (pointer+n) m,rfl,hbytes,?_,hmark⟩
      rw [hpointer]
      omega
  | rawMsg msg m =>
      obtain ⟨hmsg,hmark⟩ := h
      have hlen : msg.length = content.length-place := by rw [hmsg,List.length_drop]
      refine ⟨.rawMsg (msg.drop n) m,?_,?_,hmark⟩
      · rw [fetchMove,check_pos (by omega),check_pos (by omega),Int.toNat_natCast]
      · rw [hmsg,List.drop_drop]

theorem InStream.Shows.lookup (h : i.Shows content place mark) (hn : place+n ≤ content.length) :
    fetchLookup i n = .ok ((content.drop place).take n) := by
  cases i with
  | str memory pointer m =>
      obtain ⟨hbytes,hpointer,hmark⟩ := h
      rw [fetchLookup,hpointer,load_eq hbytes hn]
  | rawMsg msg m =>
      obtain ⟨hmsg,hmark⟩ := h
      have hlen : msg.length = content.length-place := by rw [hmsg,List.length_drop]
      rw [fetchLookup,check_pos ⟨by omega,by omega⟩,Int.toNat_natCast,hmsg]

theorem InStream.Shows.setMark (h : i.Shows content place none) :
    ∃ i', fetchMark i = .ok i' ∧ i'.Shows content place (some place) := by
  cases i with
  | str memory pointer m =>
      obtain ⟨hbytes,hpointer,hmark⟩ := h
      exact ⟨.str memory pointer pointer,by rw [fetchMark,check_pos (show m = 0 from hmark)],hbytes,hpointer,hpointer⟩
  | rawMsg msg m =>
      obtain ⟨hmsg,hmark⟩ := h
      exact ⟨.rawMsg msg (some msg),by rw [fetchMark,check_pos (show m = none from hmark)],hmsg,congrArg some hmsg⟩

/-- There can be only one mark. -/
theorem InStream.Shows.setMark_again {k : ℕ} (h : i.Shows content place (some k)) :
    fetchMark i = .error (.fail ()) := by
  cases i with
  | str memory pointer m =>
      have hmark : m = (memory.base : ℤ)+k := h.2.2
      have hbase := memory.base_pos
      rw [fetchMark,check_neg (by omega)]
  | rawMsg msg m =>
      have hmark : m = some (content.drop k) := h.2
      rw [fetchMark,check_neg (by rw [hmark]; exact Option.some_ne_none _)]

theorem InStream.Shows.marked (h : i.Shows content place mark) : i.marked = mark.isSome := by
  cases i with
  | str memory pointer m =>
      have hmark := h.2.2
      have hbase := memory.base_pos
      cases mark with
      | none =>
          rw [InStream.marked,hmark]
          rfl
      | some k =>
          have hne : m ≠ 0 := by
            rw [hmark]
            show (memory.base : ℤ)+k ≠ 0
            omega
          rw [InStream.marked,decide_eq_true hne]
          rfl
  | rawMsg msg m =>
      rw [InStream.marked,h.2,Option.isSome_map]

theorem InStream.Shows.restore {k : ℕ} (h : i.Shows content place (some k)) :
    ∃ i', fetchMarkRestore i = .ok i' ∧ i'.Shows content k none := by
  cases i with
  | str memory pointer m =>
      obtain ⟨hbytes,hpointer,hmark⟩ := h
      exact ⟨.str memory m 0,rfl,hbytes,hmark,rfl⟩
  | rawMsg msg m =>
      obtain ⟨hmsg,rfl⟩ := h
      exact ⟨.rawMsg (content.drop k) none,rfl,rfl,rfl⟩

theorem InStream.Shows.delete {k : ℕ} (h : i.Shows content place (some k)) :
    ∃ i', fetchMarkDelete i = .ok i' ∧ i'.Shows content place none := by
  cases i with
  | str memory pointer m =>
      obtain ⟨hbytes,hpointer,hmark⟩ := h
      exact ⟨.str memory pointer 0,rfl,hbytes,hpointer,rfl⟩
  | rawMsg msg m =>
      obtain ⟨hmsg,rfl⟩ := h
      exact ⟨.rawMsg msg none,rfl,hmsg,rfl⟩

variable (content size) in
structure TlIn.At (place : ℕ) (mark : Option ℕ) (s : TlIn) : Prop where
  stream : s.stream.Shows content place mark
  pos : s.pos = place
  remaining : s.remaining = (size : ℤ)-place
  inside : place ≤ size
  markPos : ∀ k ∈ mark, s.markPos = k ∧ k ≤ size

variable (content size) in
/-- Two inputs at the same place, with the same error. -/
def Alike (s t : TlIn) : Prop :=
  s.error = t.error ∧ ∃ place mark, s.At content size place mark ∧ t.At content size place mark

variable (content size) in
def AlikeWith {α : Type} (a b : α × TlIn) : Prop := a.1 = b.1 ∧ Alike content size a.2 b.2

/-- The stream has moved on, and so do the position and the number of remaining bytes. -/
theorem TlIn.At.advance (h : s.At content size place mark) (hi : i.Shows content (place+n) mark)
    (hn : (n : ℤ) ≤ s.remaining) :
    TlIn.At content size (place+n) mark
      {s with stream := i, pos := s.pos+n, remaining := s.remaining-n} := by
  have hremaining := h.remaining
  refine ⟨hi,?_,?_,by omega,h.markPos⟩
  · show s.pos+n = ((place+n : ℕ) : ℤ)
    rw [h.pos,Nat.cast_add]
  · show s.remaining-n = (size : ℤ)-((place+n : ℕ) : ℤ)
    rw [hremaining,Nat.cast_add]
    omega

theorem TlIn.At.setError (h : s.At content size place mark) (errnum : ℤ) (text : String) :
    (s.setError errnum text).At content size place mark := by
  unfold TlIn.setError
  split
  · exact h
  · exact ⟨h.stream,h.pos,h.remaining,h.inside,h.markPos⟩

theorem setError_error (herror : s.error = t.error) (errnum : ℤ) (text : String) :
    (s.setError errnum text).error = (t.setError errnum text).error := by
  unfold TlIn.setError
  rw [← herror]
  split
  · exact herror
  · rfl

theorem Alike.setError (h : Alike content size s t) (errnum : ℤ) (text : String) :
    Alike content size (s.setError errnum text) (t.setError errnum text) := by
  obtain ⟨herror,place,mark,hs,ht⟩ := h
  exact ⟨setError_error herror errnum text,place,mark,hs.setError errnum text,ht.setError errnum text⟩

theorem Alike.pos (h : Alike content size s t) : s.pos = t.pos := by
  obtain ⟨_,place,mark,hs,ht⟩ := h
  rw [hs.pos,ht.pos]

theorem Alike.remaining (h : Alike content size s t) : s.remaining = t.remaining := by
  obtain ⟨_,place,mark,hs,ht⟩ := h
  rw [hs.remaining,ht.remaining]

theorem Alike.short (h : Alike content size s t) (nbytes : ℤ) : s.short nbytes = t.short nbytes := by
  rw [TlIn.short,TlIn.short,h.pos,h.remaining]

theorem Alike.tlfCheck (h : Alike content size s t) (nbytes : ℤ) :
    AlikeWith content size (tlfCheck s nbytes) (tlfCheck t nbytes) := by
  unfold TlStreams.tlfCheck
  rw [← h.short,← h.pos,← h.remaining]
  split
  · exact ⟨rfl,h.setError _ _⟩
  · exact ⟨congrArg Option.isNone h.1,h⟩

/-- A check that is passed changes nothing, and there are so many bytes. -/
theorem tlfCheck_true {nbytes : ℤ} (hlen : 0 ≤ nbytes) (h : (tlfCheck s nbytes).1 = true) :
    (tlfCheck s nbytes).2 = s ∧ nbytes ≤ s.remaining := by
  unfold tlfCheck at h ⊢
  cases hshort : s.short nbytes with
  | true =>
      rw [hshort,if_pos rfl] at h
      cases h
  | false =>
      rw [TlIn.short,if_pos hlen,decide_eq_false_iff_not] at hshort
      exact ⟨rfl,not_lt.mp hshort⟩

theorem Alike.checked {nbytes : ℤ} {f g : TlIn → Result (Value × TlIn)} (h : Alike content size s t)
    (hlen : 0 ≤ nbytes)
    (hbody : nbytes ≤ s.remaining → Agree (AlikeWith content size) (f s) (g t)) :
    Agree (AlikeWith content size) (checked s nbytes f) (checked t nbytes g) := by
  have hcheck := h.tlfCheck nbytes
  rw [TlStreams.checked,TlStreams.checked]
  cases hs : (TlStreams.tlfCheck s nbytes).1 with
  | true =>
      have ht : (TlStreams.tlfCheck t nbytes).1 = true := hcheck.1.symm.trans hs
      have hsame := tlfCheck_true hlen hs
      rw [if_pos rfl,if_pos ht,hsame.1,(tlfCheck_true hlen ht).1]
      exact hbody hsame.2
  | false =>
      have ht : ¬ (TlStreams.tlfCheck t nbytes).1 = true := by
        rw [← hcheck.1,hs]
        exact Bool.false_ne_true
      rw [if_neg Bool.false_ne_true,if_neg ht]
      exact agree_ok ⟨rfl,hcheck.2⟩

variable (hsize : size ≤ content.length)
include hsize

theorem Alike.rawData {len : ℤ} (h : Alike content size s t) (hlen : 0 ≤ len) (hfit : len ≤ s.remaining) :
    Agree (AlikeWith content size) (s.rawData len) (t.rawData len) := by
  obtain ⟨herror,place,mark,hs,ht⟩ := id h
  lift len to ℕ using hlen
  have hremaining := hs.remaining
  obtain ⟨i,hi,hishows⟩ := hs.stream.rawData (n := len) (by omega)
  obtain ⟨j,hj,hjshows⟩ := ht.stream.rawData (n := len) (by omega)
  rw [TlIn.rawData,TlIn.rawData,hi,hj]
  exact agree_ok ⟨rfl,herror,place+len,mark,hs.advance hishows hfit,ht.advance hjshows (h.remaining ▸ hfit)⟩

theorem Alike.skipRawData {len : ℤ} (h : Alike content size s t) (hlen : 0 ≤ len) (hfit : len ≤ s.remaining) :
    Agree (Alike content size) (s.skipRawData len) (t.skipRawData len) := by
  obtain ⟨herror,place,mark,hs,ht⟩ := id h
  lift len to ℕ using hlen
  have hremaining := hs.remaining
  obtain ⟨i,hi,hishows⟩ := hs.stream.move (n := len) (by omega)
  obtain ⟨j,hj,hjshows⟩ := ht.stream.move (n := len) (by omega)
  rw [TlIn.skipRawData,TlIn.skipRawData,hi,hj]
  exact agree_ok ⟨herror,place+len,mark,hs.advance hishows hfit,ht.advance hjshows (h.remaining ▸ hfit)⟩

theorem Alike.lookup {len : ℤ} (h : Alike content size s t) (hlen : 0 ≤ len) (hfit : len ≤ s.remaining) :
    fetchLookup s.stream len = fetchLookup t.stream len ∧ ∃ bs, fetchLookup s.stream len = .ok bs := by
  obtain ⟨herror,place,mark,hs,ht⟩ := h
  lift len to ℕ using hlen
  have hremaining := hs.remaining
  have hi := hs.stream.lookup (n := len) (by omega)
  have hj := ht.stream.lookup (n := len) (by omega)
  exact ⟨hi.trans hj.symm,_,hi⟩

theorem Alike.int (h : Alike content size s t) : Agree (AlikeWith content size) (tlfInt s) (tlfInt t) := by
  refine h.checked (by decide) fun hfit => ?_
  refine (h.rawData hsize (by decide) hfit).bind fun a b hab => ?_
  exact agree_ok ⟨by rw [hab.1],hab.2⟩

theorem Alike.long (h : Alike content size s t) : Agree (AlikeWith content size) (tlfLong s) (tlfLong t) := by
  refine h.checked (by decide) fun hfit => ?_
  refine (h.rawData hsize (by decide) hfit).bind fun a b hab => ?_
  exact agree_ok ⟨by rw [hab.1],hab.2⟩

theorem Alike.raw {len : ℤ} (h : Alike content size s t) (hlen : 0 ≤ len) :
    Agree (AlikeWith content size) (tlfRawData s len) (tlfRawData t len) := by
  rw [tlfRawData,tlfRawData]
  by_cases haligned : len%4 = 0
  · rw [check_pos haligned,check_pos haligned]
    refine h.checked hlen fun hfit => ?_
    refine (h.rawData hsize hlen hfit).bind fun a b hab => ?_
    exact agree_ok ⟨by rw [hab.1],hab.2⟩
  · rw [check_neg haligned,check_neg haligned]
    exact agree_error _

theorem Alike.skip {len : ℤ} (h : Alike content size s t) (hlen : 0 ≤ len) :
    Agree (AlikeWith content size) (tlfSkip s len) (tlfSkip t len) := by
  refine h.checked hlen fun hfit => ?_
  refine (h.skipRawData hsize hlen hfit).bind fun a b hab => ?_
  exact agree_ok ⟨rfl,hab⟩

theorem Alike.pad (h : Alike content size s t) : Agree (AlikeWith content size) (tlfPad s) (tlfPad t) := by
  have hpad := padding_nonneg s.pos
  rw [tlfPad,tlfPad,← h.pos]
  refine h.checked hpad fun hfit => ?_
  rw [check_pos hfit,check_pos (h.remaining ▸ hfit)]
  refine (h.rawData hsize hpad hfit).bind fun a b hab => ?_
  rw [← hab.1]
  split
  · exact agree_ok ⟨rfl,hab.2.setError _ _⟩
  · exact agree_ok ⟨rfl,hab.2⟩

theorem Alike.lookupInt (h : Alike content size s t) :
    Agree (AlikeWith content size) (tlfLookupInt s) (tlfLookupInt t) := by
  refine h.checked (by decide) fun hfit => ?_
  obtain ⟨hsame,bs,hbs⟩ := h.lookup hsize (by decide) hfit
  rw [← hsame,hbs]
  exact agree_ok ⟨rfl,h⟩

theorem Alike.lookupData {len : ℤ} (h : Alike content size s t) (hlen : 0 ≤ len) :
    Agree (AlikeWith content size) (tlfLookupData s len) (tlfLookupData t len) := by
  refine h.checked hlen fun hfit => ?_
  obtain ⟨hsame,bs,hbs⟩ := h.lookup hsize hlen hfit
  rw [← hsame,hbs]
  exact agree_ok ⟨rfl,h⟩

omit hsize

theorem Alike.setMark (h : Alike content size s t) : Agree (Alike content size) s.mark t.mark := by
  obtain ⟨herror,place,mark,hs,ht⟩ := h
  rw [TlIn.mark,TlIn.mark]
  cases mark with
  | none =>
      obtain ⟨i,hi,hishows⟩ := hs.stream.setMark
      obtain ⟨j,hj,hjshows⟩ := ht.stream.setMark
      rw [hi,hj]
      refine agree_ok ⟨herror,place,some place,⟨hishows,hs.pos,hs.remaining,hs.inside,?_⟩,
        ⟨hjshows,ht.pos,ht.remaining,ht.inside,?_⟩⟩
      · intro k hk
        cases hk
        exact ⟨hs.pos,hs.inside⟩
      · intro k hk
        cases hk
        exact ⟨ht.pos,ht.inside⟩
  | some k =>
      rw [hs.stream.setMark_again,ht.stream.setMark_again]
      exact agree_error _

theorem TlIn.At.restore {k : ℕ} (h : s.At content size place (some k)) (hi : i.Shows content k none) :
    TlIn.At content size k none
      {s with stream := i, pos := s.pos-(s.pos-s.markPos), remaining := s.remaining+(s.pos-s.markPos)} := by
  obtain ⟨hmark,hinside⟩ := h.markPos k rfl
  refine ⟨hi,?_,?_,hinside,fun _ hk => (Option.not_mem_none _ hk).elim⟩
  · show s.pos-(s.pos-s.markPos) = k
    rw [hmark,sub_sub_cancel]
  · show s.remaining+(s.pos-s.markPos) = (size : ℤ)-k
    rw [h.remaining,h.pos,hmark]
    omega

theorem Alike.exists_mark (h : Alike content size s t) (hmarked : s.stream.marked = true) :
    s.error = t.error ∧ ∃ place k, s.At content size place (some k) ∧ t.At content size place (some k) := by
  obtain ⟨herror,place,mark,hs,ht⟩ := h
  rw [hs.stream.marked,Option.isSome_iff_exists] at hmarked
  obtain ⟨k,rfl⟩ := hmarked
  exact ⟨herror,place,k,hs,ht⟩

theorem Alike.markRestore (h : Alike content size s t) (hmarked : s.stream.marked = true) :
    Agree (Alike content size) s.markRestore t.markRestore := by
  obtain ⟨herror,place,k,hs,ht⟩ := h.exists_mark hmarked
  obtain ⟨i,hi,hishows⟩ := hs.stream.restore
  obtain ⟨j,hj,hjshows⟩ := ht.stream.restore
  rw [TlIn.markRestore,TlIn.markRestore,hi,hj]
  exact agree_ok ⟨herror,k,none,hs.restore hishows,ht.restore hjshows⟩

theorem Alike.markDelete (h : Alike content size s t) (hmarked : s.stream.marked = true) :
    Agree (Alike content size) s.markDelete t.markDelete := by
  obtain ⟨herror,place,k,hs,ht⟩ := h.exists_mark hmarked
  obtain ⟨i,hi,hishows⟩ := hs.stream.delete
  obtain ⟨j,hj,hjshows⟩ := ht.stream.delete
  rw [TlIn.markDelete,TlIn.markDelete,hi,hj]
  exact agree_ok ⟨herror,place,none,
    ⟨hishows,hs.pos,hs.remaining,hs.inside,fun _ hk => (Option.not_mem_none _ hk).elim⟩,
    ⟨hjshows,ht.pos,ht.remaining,ht.inside,fun _ hk => (Option.not_mem_none _ hk).elim⟩⟩

end Input

section Output
variable {size : ℕ} {n : ℤ} {written bs : Bytes} {o : OutStream} {s t : TlOut}

/-- The stream ends behind what has been written, and there is memory for its declared size. -/
def OutStream.Shows (size : ℕ) (written : Bytes) : OutStream → Prop
  | .str memory pointer => pointer = memory.base+written.length ∧
      ∃ rest, memory.bytes = written++rest ∧ size ≤ (written++rest).length
  | .rawMsg msg => msg = written

theorem store_eq {memory : Memory} {rest : Bytes} (hbytes : memory.bytes = written++rest)
    (hfit : bs.length ≤ rest.length) :
    memory.store (memory.base+written.length) bs =
      .ok {memory with bytes := written++bs++rest.drop bs.length} := by
  have haddress : (memory.base : ℤ)+written.length-memory.base = (written.length : ℤ) := by omega
  have hrest : memory.bytes = written++rest.take bs.length++rest.drop bs.length := by
    rw [List.append_assoc,List.take_append_drop,hbytes]
  have hlen : bs.length = (rest.take bs.length).length := by rw [List.length_take,Nat.min_eq_left hfit]
  rw [Memory.store,if_pos (by omega),haddress,Int.toNat_natCast,hrest,Buffer.write_over rfl hlen]

theorem shows_stored (memory : Memory) {rest : Bytes} (hroom : size ≤ (written++rest).length)
    (hfit : bs.length ≤ rest.length) {k : ℕ} (hk : bs.length = k) :
    (OutStream.str {memory with bytes := written++bs++rest.drop bs.length}
      (memory.base+written.length+k)).Shows size (written++bs) := by
  rw [List.length_append] at hroom
  refine ⟨?_,rest.drop bs.length,rfl,?_⟩
  · rw [List.length_append,← hk]
    show (memory.base : ℤ)+written.length+bs.length = memory.base+((written.length+bs.length : ℕ) : ℤ)
    omega
  · simp only [List.length_append,List.length_drop]
    omega

theorem OutStream.Shows.rawData (h : o.Shows size written) (hfit : written.length+bs.length ≤ size) :
    ∃ o', storeRawData o bs = .ok o' ∧ o'.Shows size (written++bs) := by
  cases o with
  | str memory pointer =>
      obtain ⟨rfl,rest,hbytes,hroom⟩ := h
      have hrest : bs.length ≤ rest.length := by
        rw [List.length_append] at hroom
        omega
      refine ⟨_,?_,shows_stored memory hroom hrest rfl⟩
      rw [storeRawData,store_eq hbytes hrest]
      rfl
  | rawMsg msg => exact ⟨.rawMsg (msg++bs),rfl,congrArg (·++bs) h⟩

theorem OutStream.Shows.readBack (h : o.Shows size written) :
    ∃ o', storeReadBack o written.length = .ok o' ∧ o'.Shows size [] := by
  cases o with
  | str memory pointer =>
      obtain ⟨hpointer,rest,hbytes,hsize⟩ := h
      refine ⟨.str memory (pointer-written.length),rfl,?_,written++rest,hbytes,hsize⟩
      rw [hpointer,List.length_nil]
      omega
  | rawMsg msg =>
      obtain rfl : msg = written := h
      refine ⟨.rawMsg [],?_,rfl⟩
      rw [storeReadBack,check_pos ⟨by omega,le_refl _⟩,Int.toNat_natCast,Nat.sub_self,List.take_zero]

theorem OutStream.Shows.bytes (h : o.Shows size written) : o.bytes written.length = written := by
  cases o with
  | str memory pointer =>
      obtain ⟨hpointer,rest,hbytes,hsize⟩ := h
      rw [OutStream.bytes,hbytes,Int.toNat_natCast,List.take_left']
      rfl
  | rawMsg msg => exact h

variable (size) in
structure TlOut.At (written : Bytes) (s : TlOut) : Prop where
  stream : s.stream.Shows size written
  pos : s.pos = written.length
  remaining : s.remaining = (size : ℤ)-written.length

variable (size) in
def AlikeOut (s t : TlOut) : Prop := ∃ written, s.At size written ∧ t.At size written

theorem AlikeOut.pos (h : AlikeOut size s t) : s.pos = t.pos := by
  obtain ⟨written,hs,ht⟩ := h
  rw [hs.pos,ht.pos]

theorem AlikeOut.tlsCheck (h : AlikeOut size s t) (n : ℤ) : tlsCheck s n = tlsCheck t n := by
  obtain ⟨written,hs,ht⟩ := h
  rw [TlStreams.tlsCheck,TlStreams.tlsCheck,hs.remaining,ht.remaining]

theorem TlOut.At.advance (h : s.At size written) (ho : o.Shows size (written++bs)) (hn : n = bs.length) :
    TlOut.At size (written++bs) {stream := o, pos := s.pos+n, remaining := s.remaining-n} := by
  refine ⟨ho,?_,?_⟩
  · rw [h.pos,hn,List.length_append,Nat.cast_add]
  · show s.remaining-n = (size : ℤ)-((written++bs).length : ℤ)
    rw [h.remaining,hn,List.length_append,Nat.cast_add]
    omega

/-- Both have moved on by what was written. -/
theorem AlikeOut.rawData (h : AlikeOut size s t) (hfit : (bs.length : ℤ) ≤ s.remaining) :
    Agree (fun a b => AlikeOut size a b ∧ a.pos = s.pos+bs.length ∧ a.remaining = s.remaining-bs.length)
      (s.rawData bs) (t.rawData bs) := by
  obtain ⟨written,hs,ht⟩ := h
  have hremaining := hs.remaining
  have hroom : written.length+bs.length ≤ size := by omega
  obtain ⟨i,hi,hishows⟩ := hs.stream.rawData hroom
  obtain ⟨j,hj,hjshows⟩ := ht.stream.rawData hroom
  rw [TlOut.rawData,TlOut.rawData,hi,hj]
  exact agree_ok ⟨⟨written++bs,hs.advance hishows rfl,ht.advance hjshows rfl⟩,rfl,rfl⟩

theorem agree_check {α : Type} {R : α → α → Prop} {p : Prop} [Decidable p] {f g : Unit → Result α}
    (h : p → Agree R (f ()) (g ())) : Agree R (check p >>= f) (check p >>= g) := by
  by_cases hp : p
  · rw [check_pos hp,check_pos hp]
    exact h hp
  · rw [check_neg hp,check_neg hp]
    exact agree_error _

theorem AlikeOut.tlsRawData (h : AlikeOut size s t) (bs : Bytes) :
    Agree (AlikeOut size) (tlsRawData s bs) (tlsRawData t bs) := by
  rw [TlStreams.tlsRawData,TlStreams.tlsRawData,← h.tlsCheck]
  refine agree_check fun hok => ?_
  exact (h.rawData (of_decide_eq_true hok)).mono fun a b hab => hab.1

theorem AlikeOut.tlsRawMsg (h : AlikeOut size s t) (raw : Bytes) :
    Agree (AlikeOut size) (tlsRawMsg s raw) (tlsRawMsg t raw) := h.tlsRawData raw

theorem AlikeOut.tlsPad (h : AlikeOut size s t) (hfit : padding s.pos ≤ s.remaining) :
    Agree (AlikeOut size) (tlsPad s) (tlsPad t) := by
  have hpad := padding_nonneg s.pos
  rw [TlStreams.tlsPad,TlStreams.tlsPad,← h.tlsCheck,← h.pos]
  refine agree_check fun _ => ?_
  refine (h.rawData ?_).mono fun a b hab => hab.1
  rw [List.length_replicate]
  omega

theorem length_stringLen (len : ℕ) : (stringLen len).length ≤ 4 := by
  unfold stringLen
  split
  · exact Nat.le_add_left 1 3
  · exact le_refl 4

theorem AlikeOut.tlsString (h : AlikeOut size s t)
    (hfit : stringEnd s.pos bs ≤ s.pos+s.remaining) :
    Agree (AlikeOut size) (tlsString s bs) (tlsString t bs) := by
  have hhead := length_stringLen bs.length
  rw [TlStreams.tlsString,TlStreams.tlsString,tlsStringLen,tlsStringLen,← h.tlsCheck]
  refine Agree.bind (agree_check fun hok => agree_check fun _ => h.rawData ?_) fun a b hab => ?_
  · have hroom := of_decide_eq_true hok
    omega
  obtain ⟨halike,hpos,hremaining⟩ := hab
  rw [tlsStringData,tlsStringData,← halike.tlsCheck]
  refine agree_check fun hok => (halike.rawData (of_decide_eq_true hok)).bind fun c d hcd => ?_
  refine hcd.1.tlsPad ?_
  rw [stringEnd] at hfit
  rw [hcd.2.1,hcd.2.2,hpos,hremaining]
  omega

theorem AlikeOut.tlsClean (h : AlikeOut size s t) : Agree (AlikeOut size) (tlsClean s) (tlsClean t) := by
  obtain ⟨written,hs,ht⟩ := h
  obtain ⟨i,hi,hishows⟩ := hs.stream.readBack
  obtain ⟨j,hj,hjshows⟩ := ht.stream.readBack
  have hsum : ∀ {u : TlOut}, u.At size written → u.remaining+u.pos = (size : ℤ)-([] : Bytes).length := by
    intro u hu
    rw [hu.remaining,hu.pos,List.length_nil]
    omega
  rw [TlStreams.tlsClean,TlStreams.tlsClean,hs.pos,ht.pos,hi,hj]
  exact agree_ok ⟨[],⟨hishows,rfl,hs.pos ▸ hsum hs⟩,⟨hjshows,rfl,ht.pos ▸ hsum ht⟩⟩

end Output

section Copy
variable {content written : Bytes} {size outSize place n : ℕ} {mark : Option ℕ} {i : InStream}
  {o : OutStream} {s t : TlIn} {u v : TlOut}

/-- Whatever the two streams are, the same bytes are copied; a string is moved on by one byte. -/
theorem copyThrough_shows (hi : i.Shows content place mark) (ho : o.Shows outSize written)
    (hn : place+n ≤ content.length) (hfit : written.length+n ≤ outSize) (advance : Bool)
    (hone : advance = true → n = 1) :
    ∃ i' o', copyThrough i o n (if advance then 1 else 0) = .ok (i',o') ∧
      i'.Shows content (if advance then place+n else place) mark ∧
      o'.Shows outSize (written++(content.drop place).take n) := by
  have hlen : ((content.drop place).take n).length = n := by
    rw [List.length_take,List.length_drop,Nat.min_eq_left (by omega)]
  have hplace : (place : ℤ)+(if advance then 1 else 0) = ((if advance then place+n else place : ℕ) : ℤ) := by
    cases advance with
    | false => exact Int.add_zero _
    | true =>
        obtain rfl := hone rfl
        rfl
  have hmsg : ∀ {msg : Bytes}, msg = content.drop place → place+msg.length = content.length := by
    intro msg hmsg
    rw [hmsg,List.length_drop]
    omega
  have hcut : ∀ {msg : Bytes}, msg = content.drop place →
      (if (if advance then 1 else 0 : ℤ) = 0 then msg else msg.drop n) =
        content.drop (if advance then place+n else place) := by
    intro msg hmsg
    rw [hmsg]
    cases advance with
    | false => rfl
    | true => exact List.drop_drop
  cases i with
  | str memory pointer m =>
      obtain ⟨hbytes,rfl,hmark⟩ := hi
      cases o with
      | str target address =>
          obtain ⟨rfl,rest,hout,hroom⟩ := ho
          have hrest : ((content.drop place).take n).length ≤ rest.length := by
            rw [List.length_append] at hroom
            omega
          refine ⟨.str memory (memory.base+place+(if advance then 1 else 0)) m,_,?_,⟨hbytes,?_,hmark⟩,
            shows_stored target hroom hrest hlen⟩
          · rw [copyThrough,load_eq hbytes hn,Lockstep.ok_bind,store_eq hout hrest,Lockstep.ok_bind]
          · rw [add_assoc,hplace]
      | rawMsg out =>
          obtain rfl : out = written := ho
          refine ⟨.str memory (memory.base+place+(if advance then 1 else 0)) m,
            .rawMsg (out++(content.drop place).take n),?_,⟨hbytes,?_,hmark⟩,rfl⟩
          · rw [copyThrough,check_pos (by omega),load_eq hbytes hn,Lockstep.ok_bind]
          · rw [add_assoc,hplace]
  | rawMsg msg m =>
      obtain ⟨hshown,hmark⟩ := hi
      have htotal := hmsg hshown
      cases o with
      | str target address =>
          obtain ⟨rfl,rest,hout,hroom⟩ := ho
          have hrest : ((content.drop place).take n).length ≤ rest.length := by
            rw [List.length_append] at hroom
            omega
          refine ⟨.rawMsg (if (if advance then 1 else 0 : ℤ) = 0 then msg else msg.drop n) m,_,?_,
            ⟨hcut hshown,hmark⟩,shows_stored target hroom hrest hlen⟩
          rw [copyThrough,check_pos ⟨by omega,by omega⟩,Int.toNat_natCast,hshown,store_eq hout hrest,
            Lockstep.ok_bind]
      | rawMsg out =>
          obtain rfl : out = written := ho
          refine ⟨.rawMsg (if (if advance then 1 else 0 : ℤ) = 0 then msg else msg.drop n) m,
            .rawMsg (out++(content.drop place).take n),?_,⟨hcut hshown,hmark⟩,rfl⟩
          rw [copyThrough,Int.toNat_natCast,check_pos (by omega),← hshown]
          cases advance <;> rfl

theorem TlIn.At.of_stream (h : s.At content size place mark) (hi : i.Shows content place mark) :
    TlIn.At content size place mark {s with stream := i} :=
  ⟨hi,h.pos,h.remaining,h.inside,h.markPos⟩

theorem copyThrough_agree {len : ℤ} {advance : Bool} (hsize : size ≤ content.length)
    (h : Alike content size s t) (ho : AlikeOut outSize u v) (hlen : 0 ≤ len)
    (hone : advance = true → (tlfCheck s len).1 = true → tlsCheck u len = true → len = 1) :
    Agree (fun a b => a.1 = b.1 ∧ Alike content size a.2.1 b.2.1 ∧ AlikeOut outSize a.2.2 b.2.2)
      (tlCopyThrough s u len (if advance then 1 else 0))
      (tlCopyThrough t v len (if advance then 1 else 0)) := by
  have hcheck := h.tlfCheck len
  rw [tlCopyThrough,tlCopyThrough,← hcheck.1,← ho.tlsCheck]
  cases hok : (tlfCheck s len).1 && tlsCheck u len with
  | false =>
      rw [if_neg Bool.false_ne_true,if_neg Bool.false_ne_true]
      exact agree_ok ⟨rfl,hcheck.2,ho⟩
  | true =>
      obtain ⟨hs,hu⟩ := Bool.and_eq_true_iff.mp hok
      have hsame := tlfCheck_true hlen hs
      have hsame' := tlfCheck_true hlen (hcheck.1.symm.trans hs)
      have hroom := of_decide_eq_true hu
      obtain ⟨herror,place,mark,hsat,htat⟩ := id h
      obtain ⟨written,huat,hvat⟩ := id ho
      have hremaining := hsat.remaining
      have houtRemaining := huat.remaining
      lift len to ℕ using hlen
      have hone' : advance = true → len = 1 := fun ha => by exact_mod_cast hone ha hs hu
      obtain ⟨i,o,hio,hi,hout⟩ := copyThrough_shows hsat.stream huat.stream (n := len) (by omega) (by omega)
        advance hone'
      obtain ⟨j,q,hjq,hj,hout'⟩ := copyThrough_shows htat.stream hvat.stream (n := len) (by omega) (by omega)
        advance hone'
      have hbytes : (len : ℤ) = ((content.drop place).take len).length := by
        rw [List.length_take,List.length_drop]
        omega
      rw [if_pos rfl,if_pos rfl,hsame.1,hsame'.1,hio,hjq]
      refine agree_ok ⟨rfl,?_,⟨_,huat.advance hout hbytes,hvat.advance hout' hbytes⟩⟩
      cases advance with
      | false => exact ⟨herror,place,mark,hsat.of_stream hi,htat.of_stream hj⟩
      | true =>
          exact ⟨herror,place+len,mark,hsat.advance hi hsame.2,htat.advance hj hsame'.2⟩

end Copy

section Runs
variable {content : Bytes} {size outSize : ℕ} {s t : State}

variable (content size outSize) in
structure Related (s t : State) : Prop where
  fetched : s.fetched = t.fetched
  input : Alike content size s.input t.input
  output : AlikeOut outSize s.output t.output

theorem Related.fetch {r q : Result (Value × TlIn)} (h : Related content size outSize s t)
    (hr : Agree (AlikeWith content size) r q) :
    Agree (Related content size outSize) (s.fetch r) (t.fetch q) := by
  refine hr.bind fun a b hab => agree_ok ⟨?_,hab.2,h.output⟩
  show s.fetched++[a.1] = t.fetched++[b.1]
  rw [h.fetched,hab.1]

theorem Related.move {r q : Result TlIn} (h : Related content size outSize s t)
    (hr : Agree (Alike content size) r q) :
    Agree (Related content size outSize) (s.move r) (t.move q) :=
  hr.bind fun _ _ hab => agree_ok ⟨h.fetched,hab,h.output⟩

theorem Related.store {r q : Result TlOut} (h : Related content size outSize s t)
    (hr : Agree (AlikeOut outSize) r q) :
    Agree (Related content size outSize) (s.store r) (t.store q) :=
  hr.bind fun _ _ hab => agree_ok ⟨h.fetched,h.input,hab⟩

/-- Each operation ends in the same way on both. -/
theorem perform_agree (hsize : size ≤ content.length) (h : Related content size outSize s t) (op : Op)
    (hok : Fits s op ∧ Regular s op) :
    Agree (Related content size outSize) (perform s op) (perform t op) := by
  cases op with
  | int => exact h.fetch (h.input.int hsize)
  | long => exact h.fetch (h.input.long hsize)
  | rawData len => exact h.fetch (h.input.raw hsize hok.2)
  | skip len => exact h.fetch (h.input.skip hsize hok.2)
  | pad => exact h.fetch (h.input.pad hsize)
  | lookupInt => exact h.fetch (h.input.lookupInt hsize)
  | lookupData len => exact h.fetch (h.input.lookupData hsize hok.2)
  | mark => exact h.move h.input.setMark
  | markRestore => exact h.move (h.input.markRestore hok.2)
  | markDelete => exact h.move (h.input.markDelete hok.2)
  | storeInt x => exact h.store (h.output.tlsRawData _)
  | storeLong x => exact h.store (h.output.tlsRawData _)
  | storeRawData bs => exact h.store (h.output.tlsRawData bs)
  | storeString bs => exact h.store (h.output.tlsString hok.1)
  | storeRawMsg raw => exact h.store (h.output.tlsRawMsg raw)
  | clean => exact h.store h.output.tlsClean
  | copyThrough len advance =>
      refine (copyThrough_agree hsize h.input h.output hok.2.1 hok.2.2).bind fun a b hab => ?_
      refine agree_ok ⟨?_,hab.2.1,hab.2.2⟩
      show s.fetched++[a.1] = t.fetched++[b.1]
      rw [h.fetched,hab.1]

theorem Related.observe (h : Related content size outSize s t) : observe s = observe t := by
  obtain ⟨written,hs,ht⟩ := id h.output
  have hout : s.output.stream.bytes s.output.pos = t.output.stream.bytes t.output.pos := by
    rw [hs.pos,ht.pos,hs.stream.bytes,ht.stream.bytes]
  have hremaining : s.output.remaining = t.output.remaining := hs.remaining.trans ht.remaining.symm
  rw [TlStreams.observe,TlStreams.observe,h.fetched,h.input.1,h.input.pos,h.input.remaining,hout,hremaining,
    h.output.pos]

/-- Streams with the same bytes in them, whatever their types are, end in the same way after
the same operations. -/
theorem tl_streams_agree {i j : InStream} {o q : OutStream} (hsize : size ≤ content.length)
    (hi : i.Shows content 0 none) (hj : j.Shows content 0 none) (ho : o.Shows outSize [])
    (hq : q.Shows outSize []) (ops : List Op)
    (h : Meets perform (fun s op => Fits s op ∧ Regular s op) (start i o size outSize) ops) :
    (ops.foldlM perform (start i o size outSize)).map observe =
      (ops.foldlM perform (start j q size outSize)).map observe := by
  have hin : ∀ {k : InStream}, k.Shows content 0 none →
      TlIn.At content size 0 none {stream := k, remaining := size} :=
    fun hk => ⟨hk,rfl,(sub_zero _).symm,Nat.zero_le _,fun _ hm => (Option.not_mem_none _ hm).elim⟩
  have hout : ∀ {k : OutStream}, k.Shows outSize [] → TlOut.At outSize [] {stream := k, remaining := outSize} :=
    fun hk => ⟨hk,rfl,(sub_zero _).symm⟩
  have hstart : Related content size outSize (start i o size outSize) (start j q size outSize) :=
    ⟨rfl,⟨rfl,0,none,hin hi,hin hj⟩,⟨[],hout ho,hout hq⟩⟩
  exact (Lockstep.agree_run (fun s t op hst hok => perform_agree hsize hst op hok) hstart h).map_eq
    fun _ _ hst => hst.observe

end Runs

def sampleMemory : Memory := ⟨4096,[1,0,0,0,2,0,0,0,3,0,0,0],by decide⟩
def sampleTarget : Memory := ⟨8192,List.replicate 16 0,by decide⟩

/-- Reading behind a mark, a copy, and an output that is begun again. -/
def sampleOps : List Op :=
  [.mark,.int,.copyThrough 4 false,.copyThrough 1 true,.pad,.markRestore,.lookupInt,.rawData 8,.clean,
    .storeString [97,98,99,100],.storeRawMsg [7],.skip 8,.int]

theorem tl_streams_sample :
    (sampleOps.foldlM perform
      (start (.str sampleMemory 4096 0) (.str sampleTarget 8192) 12 16)).map observe =
    (sampleOps.foldlM perform (start (.rawMsg sampleMemory.bytes none) (.rawMsg []) 12 16)).map observe := by
  have hstr : (InStream.str sampleMemory 4096 0).Shows sampleMemory.bytes 0 none := ⟨rfl,rfl,rfl⟩
  have hmsg : (InStream.rawMsg sampleMemory.bytes none).Shows sampleMemory.bytes 0 none := ⟨rfl,rfl⟩
  have htarget : (OutStream.str sampleTarget 8192).Shows 16 [] := ⟨rfl,sampleTarget.bytes,rfl,by decide⟩
  have hempty : (OutStream.rawMsg []).Shows 16 [] := rfl
  exact tl_streams_agree (by decide) hstr hmsg htarget hempty sampleOps (by decide +kernel)

/-- A string is one byte further after four bytes have been copied from it and taken. -/
theorem string_moves_one_byte :
    Meets perform Fits (start (.str sampleMemory 4096 0) (.rawMsg []) 12 16) [.copyThrough 4 true,.int] ∧
      ([.copyThrough 4 true,.int].foldlM perform
        (start (.str sampleMemory 4096 0) (.rawMsg []) 12 16)).map State.fetched =
          .ok [⟨4,[]⟩,⟨2^25,[]⟩] ∧
      ([.copyThrough 4 true,.int].foldlM perform
        (start (.rawMsg sampleMemory.bytes none) (.rawMsg []) 12 16)).map State.fetched =
          .ok [⟨4,[]⟩,⟨2,[]⟩] ∧
      ([.copyThrough 4 true,.int].foldlM perform
          (start (.str sampleMemory 4096 0) (.rawMsg []) 12 16)).map observe ≠
        ([.copyThrough 4 true,.int].foldlM perform
          (start (.rawMsg sampleMemory.bytes none) (.rawMsg []) 12 16)).map observe := by
  decide +kernel

end Teleproxy.TlStreams
