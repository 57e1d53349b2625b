import Mathlib.Tactic.Ring
import Teleproxy.ClientInput
import Teleproxy.Lib.Loop

/-!
# Raw messages

A raw message is a chain of parts, each a window into a buffer. The first window is
cut at its beginning and the last one at its end by offsets of the message itself,
and the chain may go on behind the last part of the message. `rwm_process` hands the
bytes of a message to a function, one window after the other.
-/
namespace Teleproxy.MessageParts
open ClientInput (Bytes)
open Loop

structure MsgPart where
  next : Option ℕ
  part : ℕ
  offset : ℤ
  dataEnd : ℤ

/-- Parts by their addresses, and the data of the buffers by theirs. -/
structure Heap where
  parts : ℕ → Option MsgPart
  buffers : ℕ → Option Bytes

structure RawMessage where
  first : Option ℕ
  last : Option ℕ
  totalBytes : ℤ
  firstOffset : ℤ
  lastOffset : ℤ

/-- The bytes at `data + start`; none where they are not all in the buffer. -/
def block (data : Bytes) (start len : ℤ) : Option Bytes :=
  if 0 ≤ start ∧ 0 ≤ len ∧ start+len ≤ data.length then some ((data.drop start.toNat).take len.toNat)
  else none

def Heap.block (h : Heap) (part : ℕ) (start len : ℤ) : Option Bytes := do
  MessageParts.block (← h.buffers part) start len

/-- `start` of the loops over the parts. -/
def RawMessage.start (raw : RawMessage) (mp : ℕ) (P : MsgPart) : ℤ :=
  if raw.first = some mp then raw.firstOffset else P.offset

def RawMessage.len (raw : RawMessage) (mp : ℕ) (P : MsgPart) : ℤ :=
  if raw.last = some mp then raw.lastOffset-raw.start mp P else P.dataEnd-raw.start mp P

section
variable {E : Type} (h : Heap) (raw : RawMessage) (processBlock : E → Bytes → ℤ × E)

/-- The state of the inner loop, in front of the test of `bytes`. -/
structure Inner (E : Type) where
  mp : ℕ
  start : ℤ
  len : ℤ
  bytes : ℤ
  extra : E

/-- One pass of the inner loop; `x` is the number that is returned in the end, and
nothing is where an assertion fails or a pointer is wrong. -/
def innerPass (x : ℤ) (s : Inner E) : Pass (Inner E) (Option (ℤ × E)) :=
  if s.bytes = 0 then .leave (some (x,s.extra))
  else
    match h.parts s.mp with
    | none => .leave none
    | some P =>
        let n := if s.bytes ≤ s.len then s.bytes else s.len
        let done := if 0 < n then (h.block P.part s.start n).map (processBlock s.extra)
          else some (0,s.extra)
        match done with
        | none => .leave none
        | some (r,extra) =>
            if r < 0 then .leave (some (r,extra))
            else
              let bytes := s.bytes-n
              if bytes = 0 then .leave (some (x,extra))
              else
                match P.next with
                | none => .leave none
                | some mp =>
                    match h.parts mp with
                    | none => .leave none
                    | some P' => .again ⟨mp,raw.start mp P',raw.len mp P',bytes,extra⟩

/-- The loop that looks for the part with the offset, with the inner loop there. -/
def outerPass (fuel : ℕ) (bytes : ℤ) (extra : E) (s : Option ℕ × ℤ) :
    Pass (Option ℕ × ℤ) (Option (ℤ × E)) :=
  match s.1 with
  | none => .leave none
  | some mp =>
      match h.parts mp with
      | none => .leave none
      | some P =>
          let start := raw.start mp P
          let len := raw.len mp P
          if s.2 ≤ len then
            .leave ((loop (innerPass h raw processBlock bytes) fuel
              ⟨mp,start+s.2,len-s.2,bytes,extra⟩).join)
          else .again (P.next,s.2-len)

/-- `rwm_process_ex` without flags: the result and what the function left behind. -/
def rwmProcessEx (fuel : ℕ) (bytes offset : ℤ) (extra : E) : Option (ℤ × E) :=
  if bytes < 0 ∨ offset < 0 then none
  else
    let bytes := if raw.totalBytes < bytes+offset then raw.totalBytes-offset else bytes
    if bytes ≤ 0 then some (0,extra)
    else do
      let P ← h.parts (← raw.last)
      if raw.totalBytes-offset ≤ raw.lastOffset-P.offset then
        let x := raw.totalBytes-offset
        let (r,extra) := processBlock extra (← h.block P.part (raw.lastOffset-x) bytes)
        return if 0 ≤ r then (bytes,extra) else (r,extra)
      else
        (loop (outerPass h raw processBlock fuel bytes extra) fuel (raw.first,offset)).join

def rwmProcess (fuel : ℕ) (bytes : ℤ) (extra : E) : Option (ℤ × E) :=
  rwmProcessEx h raw processBlock fuel bytes 0 extra

end

/-- From the part `mp` on the chain leads to the last part, with these windows. -/
inductive Windows (h : Heap) (raw : RawMessage) : ℕ → List Bytes → Prop
  | last {mp : ℕ} {P : MsgPart} {bs : Bytes} : raw.last = some mp → h.parts mp = some P →
      h.block P.part (raw.start mp P) (raw.lastOffset-raw.start mp P) = some bs →
      Windows h raw mp [bs]
  | next {mp mp' : ℕ} {P : MsgPart} {bs : Bytes} {rest : List Bytes} : raw.last ≠ some mp →
      h.parts mp = some P → h.block P.part (raw.start mp P) (P.dataEnd-raw.start mp P) = some bs →
      P.next = some mp' → Windows h raw mp' rest → Windows h raw mp (bs::rest)

/-- What `rwm_check` is for: the windows are inside of their buffers, and together they
have as many bytes as the message says. -/
def WellFormed (h : Heap) (raw : RawMessage) (windows : List Bytes) : Prop :=
  raw.totalBytes = windows.flatten.length ∧
    match raw.first with
    | none => windows = []
    | some mp => Windows h raw mp windows

section
variable {h : Heap} {raw : RawMessage} {mp part : ℕ} {windows : List Bytes} {bs : Bytes}

theorem Heap.block_spec {start len : ℤ} (hb : h.block part start len = some bs) :
    0 ≤ start ∧ (bs.length : ℤ) = len ∧ ∃ data, h.buffers part = some data ∧
      start+len ≤ data.length ∧ bs = (data.drop start.toNat).take len.toNat := by
  have ⟨data,hdata,hblock⟩ := Option.bind_eq_some_iff.mp hb
  unfold MessageParts.block at hblock
  split at hblock
  · next hbounds =>
      cases hblock
      refine ⟨hbounds.1,?_,data,hdata,hbounds.2.2,rfl⟩
      rw [List.length_take,List.length_drop]
      omega
  · cases hblock

/-- Some bytes of a window. -/
theorem Heap.block_within {start len d n : ℤ} (hb : h.block part start len = some bs)
    (hd : 0 ≤ d) (hn : 0 ≤ n) (hle : d+n ≤ len) :
    h.block part (start+d) n = some ((bs.drop d.toNat).take n.toNat) := by
  have ⟨hstart,_,data,hdata,hfits,hbs⟩ := h.block_spec hb
  have hsum : (start+d).toNat = start.toNat+d.toNat := by omega
  have hmin : min n.toNat (len.toNat-d.toNat) = n.toNat := by omega
  unfold Heap.block MessageParts.block
  rw [hdata,Option.bind_eq_bind,Option.bind_some,if_pos ⟨by omega,hn,by omega⟩,hbs,hsum,
    List.drop_take,List.drop_drop,List.take_take,hmin]

/-- A function that takes up a string in pieces. -/
def Streams {E : Type} (run : E → Bytes → E) : Prop := ∀ e a b, run e (a++b) = run (run e a) b

variable {E : Type} {run : E → Bytes → E} {processBlock : E → Bytes → ℤ × E}

/-- The bytes that are wanted end in the window. -/
theorem innerPass_done (hprocess : ∀ e bs, processBlock e bs = (0,run e bs)) {P : MsgPart}
    (hP : h.parts mp = some P) {start len : ℤ} (hb : h.block P.part start len = some bs) {n : ℕ}
    (hpos : 0 < n) (hle : n ≤ bs.length) (x : ℤ) (e : E) :
    innerPass h raw processBlock x ⟨mp,start,len,n,e⟩ = .leave (some (x,run e (bs.take n))) := by
  have ⟨_,hlen,_⟩ := h.block_spec hb
  have hblock := h.block_within hb le_rfl (Int.natCast_nonneg n) (by omega)
  rw [add_zero] at hblock
  have hzero : (n : ℤ) ≠ 0 := by omega
  have hmin : (n : ℤ) ≤ len := by omega
  have hsome : (0 : ℤ) < n := by omega
  unfold innerPass
  dsimp only
  rw [if_neg hzero,hP]
  dsimp only
  rw [if_pos hmin,if_pos hsome,hblock,Option.map_some,hprocess]
  dsimp only
  rw [if_neg (lt_irrefl 0),sub_self,if_pos rfl]
  rfl

/-- The bytes that are wanted go on behind the window. -/
theorem innerPass_next (hprocess : ∀ e bs, processBlock e bs = (0,run e bs)) {P P' : MsgPart}
    {mp' : ℕ} (hP : h.parts mp = some P) {start len : ℤ}
    (hb : h.block P.part start len = some bs) (hnext : P.next = some mp')
    (hP' : h.parts mp' = some P') {n : ℕ} (hless : bs.length < n) (x : ℤ) (e : E) :
    innerPass h raw processBlock x ⟨mp,start,len,n,e⟩ =
      .again ⟨mp',raw.start mp' P',raw.len mp' P',(n-bs.length : ℕ),
        if bs = [] then e else run e bs⟩ := by
  have ⟨_,hlen,_⟩ := h.block_spec hb
  have hzero : (n : ℤ) ≠ 0 := by omega
  have hmin : ¬(n : ℤ) ≤ len := by omega
  have hleft : (n : ℤ)-len = (n-bs.length : ℕ) := by omega
  have hmore : ((n-bs.length : ℕ) : ℤ) ≠ 0 := by omega
  unfold innerPass
  dsimp only
  rw [if_neg hzero,hP]
  dsimp only
  rw [if_neg hmin,hleft,hb,Option.map_some,hprocess]
  cases bs with
  | nil =>
      have hnot : ¬0 < len := by
        rw [← hlen]
        simp
      rw [if_neg hnot]
      dsimp only
      rw [if_neg (lt_irrefl 0),if_neg hmore,hnext]
      dsimp only
      rw [hP']
      rfl
  | cons b bs =>
      have hsome : 0 < len := by
        rw [← hlen,List.length_cons]
        omega
      rw [if_pos hsome]
      dsimp only
      rw [if_neg (lt_irrefl 0),if_neg hmore,hnext]
      dsimp only
      rw [hP']
      rfl

/-- The window of a part, with the length that the loops compute. -/
theorem Windows.head (hw : Windows h raw mp windows) : ∃ P bs rest, h.parts mp = some P ∧
    windows = bs::rest ∧ h.block P.part (raw.start mp P) (raw.len mp P) = some bs := by
  cases hw with
  | last hlast hP hb =>
      refine ⟨_,_,_,hP,rfl,?_⟩
      rw [RawMessage.len,if_pos hlast]
      exact hb
  | next hlast hP hb _ _ =>
      refine ⟨_,_,_,hP,rfl,?_⟩
      rw [RawMessage.len,if_neg hlast]
      exact hb

theorem innerLoop_spec (hrun : Streams run) (hprocess : ∀ e bs, processBlock e bs = (0,run e bs))
    (hw : Windows h raw mp windows) {P : MsgPart} (hP : h.parts mp = some P) {n fuel : ℕ}
    (hpos : 0 < n) (hle : n ≤ windows.flatten.length) (hfuel : windows.length ≤ fuel) (x : ℤ)
    (e : E) :
    loop (innerPass h raw processBlock x) fuel ⟨mp,raw.start mp P,raw.len mp P,n,e⟩ =
      some (some (x,run e (windows.flatten.take n))) := by
  induction hw generalizing P n fuel e with
  | last hlast hP' hb =>
      obtain ⟨P₁,bs₁,_,hP₁,hwin,hb₁⟩ := (Windows.last hlast hP' hb).head
      cases hP.symm.trans hP₁
      cases hwin
      cases fuel with
      | zero => exact absurd hfuel (by simp)
      | succ fuel =>
          rw [List.flatten_singleton] at hle ⊢
          rw [loop,innerPass_done hprocess hP hb₁ hpos hle]
  | @next mp mp' _ bs rest hlast hP' hb hnext hrest ih =>
      obtain ⟨P₁,bs₁,_,hP₁,hwin,hb₁⟩ := (Windows.next hlast hP' hb hnext hrest).head
      cases hP.symm.trans hP₁
      cases hP.symm.trans hP'
      cases hwin
      rw [List.flatten_cons,List.length_append] at hle
      rw [List.flatten_cons,List.take_append]
      cases fuel with
      | zero => exact absurd hfuel (by simp)
      | succ fuel =>
          by_cases hdone : n ≤ bs.length
          · have hnone : n-bs.length = 0 := by omega
            rw [loop,innerPass_done hprocess hP hb₁ hpos hdone,hnone,List.take_zero,
              List.append_nil]
          · obtain ⟨P',_,_,hP',_,_⟩ := hrest.head
            have hfuel' : rest.length ≤ fuel := Nat.le_of_succ_le_succ hfuel
            rw [loop,innerPass_next hprocess hP hb₁ hnext hP' (by omega)]
            dsimp only
            have htake : bs.take n = bs := List.take_of_length_le (by omega)
            rw [ih hP' (by omega) (by omega) hfuel',htake]
            cases bs with
            | nil => rfl
            | cons b bs => rw [hrun,if_neg (List.cons_ne_nil b bs)]

/-- The last window. Where others are in front of it, its part is not the one that the
chain was entered at. -/
theorem Windows.ends (hw : Windows h raw mp windows) : ∃ L P bs front,
    raw.last = some L ∧ h.parts L = some P ∧ windows = front++[bs] ∧
      h.block P.part (raw.start L P) (raw.lastOffset-raw.start L P) = some bs ∧
      (front = [] ∨ L ≠ mp) := by
  induction hw with
  | last hlast hP hb => exact ⟨_,_,_,[],hlast,hP,rfl,hb,.inl rfl⟩
  | @next mp _ _ bs _ hother _ _ _ _ ih =>
      have ⟨L,P,bs',front,hlast,hP,hwindows,hb,_⟩ := ih
      refine ⟨L,P,bs',bs::front,hlast,hP,congrArg (bs::·) hwindows,hb,.inr ?_⟩
      intro hL
      exact hother (hL ▸ hlast)

/-- A message whose bytes fit between the beginning of its last part and its end has
them all there. -/
theorem Windows.short (hw : Windows h raw mp windows) (hfirst : raw.first = some mp) :
    ∃ L P, raw.last = some L ∧ h.parts L = some P ∧
      ((windows.flatten.length : ℤ) ≤ raw.lastOffset-P.offset → ∀ n : ℕ,
        n ≤ windows.flatten.length →
        h.block P.part (raw.lastOffset-windows.flatten.length) n =
          some (windows.flatten.take n)) := by
  have ⟨L,P,bs,front,hlast,hP,hwindows,hb,hfront⟩ := hw.ends
  refine ⟨L,P,hlast,hP,fun hle n hn => ?_⟩
  have ⟨_,hlen,_⟩ := h.block_spec hb
  have hall : windows.flatten = bs := by
    rw [hwindows,List.flatten_append,List.flatten_singleton] at hle ⊢
    rcases hfront with hnil | hL
    · rw [hnil]
      rfl
    · have hstart : raw.start L P = P.offset := by
        unfold RawMessage.start
        rw [hfirst,if_neg fun h => hL (Option.some.inj h).symm]
      rw [List.length_append] at hle
      have hnil : front.flatten.length = 0 := by omega
      rw [List.length_eq_zero_iff.mp hnil]
      rfl
  rw [hall] at hn ⊢
  have hstart : raw.lastOffset-(bs.length : ℤ) = raw.start L P+0 := by omega
  rw [hstart,h.block_within hb le_rfl (Int.natCast_nonneg n) (by omega)]
  rfl

/-- `rwm_process` hands all bytes that are wanted to a function that takes them up in
pieces. -/
theorem rwmProcess_spec (hrun : Streams run) (hprocess : ∀ e bs, processBlock e bs = (0,run e bs))
    (hwell : WellFormed h raw windows) {bytes : ℤ} (hbytes : 0 ≤ bytes) {fuel : ℕ}
    (hfuel : windows.length < fuel) (e : E) :
    rwmProcess h raw processBlock fuel bytes e =
      some (min bytes windows.flatten.length,
        if windows.flatten.take bytes.toNat = [] then e
        else run e (windows.flatten.take bytes.toNat)) := by
  have ⟨htotal,hchain⟩ := hwell
  have hmin : (if raw.totalBytes < bytes+0 then raw.totalBytes-0 else bytes) =
      ((min bytes.toNat windows.flatten.length : ℕ) : ℤ) := by
    split <;> omega
  have hresult : min bytes (windows.flatten.length : ℤ) =
      ((min bytes.toNat windows.flatten.length : ℕ) : ℤ) := by omega
  have htake : windows.flatten.take bytes.toNat =
      windows.flatten.take (min bytes.toNat windows.flatten.length) := List.take_eq_take_min
  rw [hresult,htake]
  have hle : min bytes.toNat windows.flatten.length ≤ windows.flatten.length :=
    Nat.min_le_right ..
  unfold rwmProcess rwmProcessEx
  rw [if_neg (by omega)]
  dsimp only
  rw [hmin]
  generalize min bytes.toNat windows.flatten.length = n at hle ⊢
  cases n with
  | zero => rfl
  | succ n =>
      have hpos : ¬((n+1 : ℕ) : ℤ) ≤ 0 := by omega
      have hne : windows.flatten.take (n+1) ≠ [] := by
        intro hnil
        have hlength := congrArg List.length hnil
        rw [List.length_take,List.length_nil] at hlength
        omega
      rw [if_neg hpos,if_neg hne]
      cases hfirst : raw.first with
      | none =>
          rw [hfirst] at hchain
          dsimp only at hchain
          rw [hchain] at hne
          exact absurd rfl hne
      | some mp =>
          rw [hfirst] at hchain
          dsimp only at hchain
          have ⟨L,P,hlast,hP,hshort⟩ := hchain.short hfirst
          have hzero : raw.totalBytes-0 = (windows.flatten.length : ℤ) := by omega
          rw [hlast,Option.bind_eq_bind,Option.bind_some,hP,Option.bind_eq_bind,Option.bind_some,
            hzero]
          split
          · next hends =>
              rw [hshort hends (n+1) hle,Option.bind_eq_bind,Option.bind_some,hprocess]
              rfl
          · have ⟨P₁,_,_,hP₁,_,hb⟩ := hchain.head
            have ⟨_,hlen,_⟩ := h.block_spec hb
            have hinner := innerLoop_spec hrun hprocess hchain hP₁ (Nat.succ_pos n) hle
              hfuel.le (n+1 : ℕ) e
            have hpass : outerPass h raw processBlock fuel (n+1 : ℕ) e (some mp,0) =
                .leave (some ((n+1 : ℕ),run e (windows.flatten.take (n+1)))) := by
              have hstart : (0 : ℤ) ≤ raw.len mp P₁ := by omega
              unfold outerPass
              dsimp only
              rw [hP₁]
              dsimp only
              rw [if_pos hstart,add_zero,sub_zero,hinner]
              rfl
            cases fuel with
            | zero => omega
            | succ fuel =>
                rw [loop,hpass]
                rfl

end

end Teleproxy.MessageParts
