import Mathlib.Tactic.Common
import Teleproxy.ClientInput
import Teleproxy.Lib.RefCount

/-!
# The first block of a message

`rwm_get_block_ptr_bytes` (net/net-msg.c) tells how many bytes of the message lie together at
its beginning, and `rwm_get_block_ptr` where they are. Parts at the beginning that hold no
byte of the message are unlinked on the way. The loop releases such a part before it reads
the part's `next`. The present caller, `hts_parse_execute`, reads through a clone of the
message, so that its parts are shared.
-/
namespace Teleproxy.FirstBlock
open ClientInput RefCount

/-- `msg_part`, with the bytes of its buffer. -/
structure MsgPart where
  next : Option ℕ
  data : Bytes
  offset : ℤ
  dataEnd : ℤ
  /-- The magic is `MSG_PART_LOCKED_MAGIC`. -/
  locked : Bool
  deriving DecidableEq, Repr

/-- `RM_INIT_MAGIC` and `RM_TMP_MAGIC`. -/
inductive Magic where
  | init
  | tmp
  deriving DecidableEq, Repr

structure RawMessage where
  first : Option ℕ
  last : Option ℕ
  totalBytes : ℤ
  magic : Magic
  firstOffset : ℤ
  lastOffset : ℤ
  deriving DecidableEq, Repr

def links (part : MsgPart) : Multiset ℕ := ofPtr part.next

/-- A temporary message holds no reference to its parts, and no message holds one to its last. -/
def RawMessage.roots (m : RawMessage) : Multiset ℕ :=
  match m.magic with
  | .init => ofPtr m.first
  | .tmp => 0

def roots (ms : List RawMessage) : Multiset ℕ := (ms.map RawMessage.roots).sum

/-- The number of parts that are freed is returned. -/
def msgPartDecref : ℕ → Heap MsgPart → Option ℕ → Except Fault (Heap MsgPart × ℕ)
  | 0, _, _ => .error .fuel
  | _+1, h, none => .ok (h,0)
  | fuel+1, h, some mp => do
      let part ← h.read mp
      if 1 < part.refcnt then
        return (h.add mp (-1),0)
      if part.body.locked ∨ part.refcnt-1 ≠ 0 then
        throw .assertion
      let (h,cnt) ← msgPartDecref fuel (h.erase mp) part.body.next
      return (h,cnt+1)

/-- The first reference of the message goes on to the next part. -/
def unlink (fuel : ℕ) (h : Heap MsgPart) (raw : RawMessage) (mp : ℕ) :
    Except Fault (Heap MsgPart × RawMessage) := do
  let part ← h.read mp
  let h ←
    if part.refcnt = 1 then
      pure (h.write mp fun b => {b with next := none})
    else do
      let next ← deref part.body.next
      let _ ← h.read next
      pure (h.add next 1)
  let (h,_) ← msgPartDecref fuel h (some mp)
  let first ← deref part.body.next
  let head ← h.read first
  return (h,{raw with first := part.body.next, firstOffset := head.body.offset})

def blockLoop : ℕ → Heap MsgPart → RawMessage → Option ℕ →
    Except Fault (Heap MsgPart × RawMessage × ℤ)
  | 0, _, _, _ => .error .fuel
  | _+1, _, _, none => .error .assertion
  | fuel+1, h, raw, some mp => do
      let part ← h.read mp
      let bytes := (if raw.last = some mp then raw.lastOffset else part.body.dataEnd)-raw.firstOffset
      if bytes ≠ 0 then
        return (h,raw,bytes)
      if raw.last = some mp then
        throw .assertion
      let (h,raw) ← unlink fuel h raw mp
      let part ← h.read mp
      blockLoop fuel h raw part.body.next

def rwmGetBlockPtrBytes (fuel : ℕ) (h : Heap MsgPart) (raw : RawMessage) :
    Except Fault (Heap MsgPart × RawMessage × ℤ) :=
  if raw.totalBytes = 0 then .ok (h,raw,0) else blockLoop fuel h raw raw.first

/-- The bytes from the address that is returned to the end of the buffer. -/
def rwmGetBlockPtr (h : Heap MsgPart) (raw : RawMessage) : Except Fault (Option Bytes) :=
  match raw.first with
  | none => .ok none
  | some first => do
      let part ← h.read first
      return some (part.body.data.drop raw.firstOffset.toNat)

/-- The bytes of a part from one offset to another. -/
def MsgPart.slice (part : MsgPart) (start stop : ℤ) : Bytes :=
  (part.data.drop start.toNat).take (stop-start).toNat

/-- The blocks of the message `m` from the part at `p` on, where its bytes begin at `start`. -/
inductive Blocks (h : Heap MsgPart) (m : RawMessage) : ℕ → ℤ → List Bytes → Prop
  | last {p : ℕ} {start : ℤ} {part : Cell MsgPart} :
      h.cell p = some part → m.last = some p → 0 ≤ start → start ≤ m.lastOffset →
      m.lastOffset ≤ part.body.dataEnd → part.body.dataEnd ≤ part.body.data.length →
      Blocks h m p start [part.body.slice start m.lastOffset]
  | next {p q : ℕ} {start : ℤ} {part following : Cell MsgPart} {blocks : List Bytes} :
      h.cell p = some part → m.last ≠ some p → 0 ≤ start → start ≤ part.body.dataEnd →
      part.body.dataEnd ≤ part.body.data.length → part.body.next = some q →
      h.cell q = some following → Blocks h m q following.body.offset blocks →
      Blocks h m p start (part.body.slice start part.body.dataEnd::blocks)

/-- The message is well formed and consists of these blocks. -/
def Holds (h : Heap MsgPart) (m : RawMessage) (blocks : List Bytes) : Prop :=
  m.totalBytes = blocks.flatten.length ∧
  match m.first with
  | none => blocks = []
  | some p => Blocks h m p m.firstOffset blocks

section Walk
variable {h h' h₀ : Heap MsgPart} {m raw : RawMessage} {p q mp : ℕ} {start : ℤ} {blocks : List Bytes}
  {part following : Cell MsgPart}

theorem MsgPart.slice_length {part : MsgPart} {start stop : ℤ} (h0 : 0 ≤ start) (hle : start ≤ stop)
    (hstop : stop ≤ part.data.length) : ((part.slice start stop).length : ℤ) = stop-start := by
  rw [MsgPart.slice,List.length_take,List.length_drop]
  omega

/-- Same cells with the same bodies. -/
def SameBodies (h h' : Heap MsgPart) : Prop :=
  ∀ r, (h'.cell r).map Cell.body = (h.cell r).map Cell.body

theorem SameBodies.cell (hs : SameBodies h h') {r : ℕ} (hc : h.cell r = some part) :
    ∃ part', h'.cell r = some part' ∧ part'.body = part.body := by
  have hbody := hs r
  rw [hc] at hbody
  exact Option.map_eq_some_iff.mp hbody

theorem Blocks.of_sameBodies (hB : Blocks h m p start blocks) (hs : SameBodies h h') :
    Blocks h' m p start blocks := by
  induction hB with
  | last hc hlast h0 hle hend hdata =>
      obtain ⟨part',hc',hbody⟩ := hs.cell hc
      rw [← hbody] at hend hdata ⊢
      exact .last hc' hlast h0 hle hend hdata
  | next hc hlast h0 hle hdata hnext hd _ ih =>
      obtain ⟨part',hc',hbody⟩ := hs.cell hc
      obtain ⟨following',hd',hbody'⟩ := hs.cell hd
      rw [← hbody] at hle hdata hnext ⊢
      rw [← hbody'] at ih
      exact .next hc' hlast h0 hle hdata hnext hd' ih

theorem Holds.of_sameBodies (hH : Holds h m blocks) (hs : SameBodies h h') : Holds h' m blocks := by
  refine ⟨hH.1,?_⟩
  have hblocks := hH.2
  split
  · next hnone => rwa [hnone] at hblocks
  · next p hsome =>
      rw [hsome] at hblocks
      exact Blocks.of_sameBodies hblocks hs

theorem msgPartDecref_shared (fuel : ℕ) (hc : h.cell mp = some part) (href : 2 ≤ part.refcnt) :
    msgPartDecref (fuel+1) h (some mp) = .ok (h.add mp (-1),0) := by
  rw [msgPartDecref,Heap.read_eq hc]
  exact if_pos (by omega)

/-- A part that others refer to as well. -/
theorem unlink_shared (fuel : ℕ) (hc : h.cell mp = some part) (href : 2 ≤ part.refcnt)
    (hnext : part.body.next = some q) (hd : h.cell q = some following) :
    unlink (fuel+1) h raw mp = .ok ((h.add q 1).add mp (-1),
      {raw with first := some q, firstOffset := following.body.offset}) := by
  have hshared : ∃ part', (h.add q 1).cell mp = some part' ∧ 2 ≤ part'.refcnt := by
    by_cases hmq : mp = q
    · subst hmq
      exact ⟨_,Heap.add_self hc,by dsimp only; omega⟩
    · exact ⟨part,(Heap.add_ne hmq).trans hc,href⟩
  obtain ⟨part',hc',href'⟩ := hshared
  obtain ⟨head,hhead,hbody⟩ := (Moved.step hc hd).cell hd
  simp only [unlink,Heap.read_eq hc,ok_bind,if_neg (by omega : ¬ part.refcnt = 1),hnext,deref_some,
    Heap.read_eq hd,pure_bind,msgPartDecref_shared fuel hc' href',Heap.read_eq hhead,hbody]
  rfl

/-- A block that is not empty is what the loop was looking for. -/
theorem blockLoop_leaves (fuel : ℕ) (hc : h.cell mp = some part)
    (hbytes : (if raw.last = some mp then raw.lastOffset else part.body.dataEnd)-raw.firstOffset ≠ 0) :
    blockLoop (fuel+1) h raw (some mp) = .ok (h,raw,
      (if raw.last = some mp then raw.lastOffset else part.body.dataEnd)-raw.firstOffset) := by
  simp only [blockLoop,Heap.read_eq hc,ok_bind,if_pos hbytes]
  rfl

theorem blockLoop_shared (fuel : ℕ) (hc : h.cell mp = some part) (hlast : raw.last ≠ some mp)
    (hbytes : part.body.dataEnd-raw.firstOffset = 0) (href : 2 ≤ part.refcnt)
    (hnext : part.body.next = some q) (hd : h.cell q = some following) :
    blockLoop (fuel+2) h raw (some mp) = blockLoop (fuel+1) ((h.add q 1).add mp (-1))
      {raw with first := some q, firstOffset := following.body.offset} (some q) := by
  obtain ⟨part',hc',hbody⟩ := (Moved.step hc hd).cell hc
  rw [blockLoop]
  simp only [Heap.read_eq hc,ok_bind,if_neg hlast,hbytes,ne_eq,not_true_eq_false,if_false,
    unlink_shared fuel hc href hnext hd,Heap.read_eq hc',hbody,hnext]

theorem blockLoop_short (hc : h.cell mp = some part) (hlast : raw.last ≠ some mp)
    (hbytes : part.body.dataEnd-start = 0) (href : part.refcnt ≠ 1)
    (hnext : part.body.next = some q) (hd : h.cell q = some following) :
    blockLoop 1 h {raw with first := some mp, firstOffset := start} (some mp) = .error .fuel := by
  simp only [blockLoop,Heap.read_eq hc,ok_bind,if_neg hlast,hbytes,ne_eq,not_true_eq_false,if_false,
    unlink,if_neg href,hnext,deref_some,Heap.read_eq hd,pure_bind,msgPartDecref,error_bind]

/-- The loop goes over the empty blocks, one reference to the first of their parts becoming
one to the part it stops at. -/
theorem blockLoop_walk (hB : Blocks h₀ m p start blocks) (hne : blocks.flatten ≠ []) :
    ∀ h, SameBodies h₀ h → (∀ r c, h.cell r = some c → 1 ≤ c.refcnt) →
    (blocks.head? = some [] → 2 ≤ h.count p) →
    ∃ n h' q start' b rest k,
      (∀ fuel, blockLoop fuel h {m with first := some p, firstOffset := start} (some p) =
        if fuel < n then .error .fuel
        else .ok (h',{m with first := some q, firstOffset := start'},b.length)) ∧
      Moved p q h h' ∧ Blocks h₀ m q start' (b::rest) ∧ b ≠ [] ∧
      blocks = List.replicate k []++b::rest ∧
      (k = 0 ∧ q = p ∧ start' = start ∧ h' = h ∨
        k ≠ 0 ∧ Relation.TransGen (Refers links h₀) q p) := by
  induction hB with
  | @last p start part hc hlast h0 hle hend hdata =>
      intro h hs _ _
      obtain ⟨part',hc',hbody⟩ := hs.cell hc
      have hlen := MsgPart.slice_length h0 hle (hend.trans hdata)
      have hpos : part.body.slice start m.lastOffset ≠ [] := by
        intro hnil
        rw [hnil] at hne
        exact hne rfl
      have hpos' := List.length_pos_of_ne_nil hpos
      refine ⟨1,h,p,start,_,[],0,?_,.refl p h,.last hc hlast h0 hle hend hdata,hpos,rfl,
        .inl ⟨rfl,rfl,rfl,rfl⟩⟩
      intro fuel
      cases fuel with
      | zero => rfl
      | succ fuel =>
          rw [blockLoop_leaves fuel hc' (by rw [if_pos hlast]; dsimp only; omega),if_pos hlast,hlen,
            if_neg (by omega)]
  | @next p q start part following blocks hc hlast h0 hle hdata hnext hd hB ih =>
      intro h hs hall href
      obtain ⟨part',hc',hbody⟩ := hs.cell hc
      obtain ⟨following',hd',hbody'⟩ := hs.cell hd
      have hlen := MsgPart.slice_length h0 hle hdata
      by_cases hempty : part.body.slice start part.body.dataEnd = []
      · have hrefcnt : 2 ≤ part'.refcnt := by
          have := href (by rw [hempty]; rfl)
          rwa [Heap.count_eq hc'] at this
        have hzero : part'.body.dataEnd-start = 0 := by
          rw [hempty,List.length_nil] at hlen
          rw [hbody]
          omega
        have hmoved := Moved.step hc' hd'
        have hone := hall q following' hd'
        obtain ⟨n,h',r,start',b,rest,k,hrun,hm,hblocks,hb,hsplit,hpath⟩ :=
          ih (by rwa [hempty,List.flatten_cons,List.nil_append] at hne) ((h.add q 1).add p (-1))
          (fun r => (hmoved.body r).trans (hs r)) (by
            intro r c hr
            obtain ⟨d,hdr,-⟩ := hmoved.symm.cell hr
            have hcount := hmoved.count r
            have hbefore := hall r d hdr
            rw [Heap.count_eq hr,Heap.count_eq hdr] at hcount
            by_cases hrp : r = p
            · subst hrp
              rw [hc'] at hdr
              cases hdr
              rw [if_pos rfl] at hcount
              split at hcount <;> omega
            · rw [if_neg hrp] at hcount
              split at hcount <;> omega) (by
            intro _
            have hcount := hmoved.count q
            rw [if_pos rfl,Heap.count_eq hd'] at hcount
            by_cases hqp : q = p
            · subst hqp
              rw [hc'] at hd'
              cases hd'
              rw [if_pos rfl] at hcount
              omega
            · rw [if_neg hqp] at hcount
              omega)
        have hfirst : Refers links h₀ q p :=
          ⟨part,hc,by rw [links,hnext]; exact Multiset.mem_singleton_self q⟩
        have hn : n ≠ 0 := by
          intro hn
          have := hrun 0
          rw [hn,if_neg (by omega)] at this
          cases this
        refine ⟨n+1,h',r,start',b,rest,k+1,?_,hmoved.trans hm,hblocks,hb,?_,?_⟩
        · intro fuel
          match fuel with
          | 0 => rfl
          | 1 =>
              rw [if_pos (by omega)]
              exact blockLoop_short hc' hlast hzero (by omega) (by rw [hbody,hnext]) hd'
          | fuel+2 =>
              refine (blockLoop_shared fuel hc' ?_ ?_ hrefcnt (by rw [hbody,hnext]) hd').trans ?_
              · exact hlast
              · exact hzero
              · rw [hbody']
                refine (hrun (fuel+1)).trans ?_
                split <;> split <;> first | rfl | omega
        · rw [hempty,hsplit]
          rfl
        · rcases hpath with ⟨-,rfl,-⟩ | ⟨-,hpath⟩
          · exact .inr ⟨Nat.succ_ne_zero k,.single hfirst⟩
          · exact .inr ⟨Nat.succ_ne_zero k,hpath.tail hfirst⟩
      · refine ⟨1,h,p,start,_,blocks,0,?_,.refl p h,.next hc hlast h0 hle hdata hnext hd hB,hempty,rfl,
          .inl ⟨rfl,rfl,rfl,rfl⟩⟩
        have hpos' := List.length_pos_of_ne_nil hempty
        rw [← hbody] at hlen hpos' ⊢
        intro fuel
        cases fuel with
        | zero => rfl
        | succ fuel =>
            rw [blockLoop_leaves fuel hc' (by rw [if_neg hlast]; dsimp only; omega),if_neg hlast,hlen,
              if_neg (by omega)]

theorem msgPartDecref_single (fuel : ℕ) (hc : h.cell mp = some part) (href : part.refcnt = 1) :
    (∃ e, msgPartDecref fuel (h.write mp fun b => {b with next := none}) (some mp) = .error e) ∨
    msgPartDecref fuel (h.write mp fun b => {b with next := none}) (some mp) =
      .ok ((h.write mp fun b => {b with next := none}).erase mp,1) := by
  match fuel with
  | 0 => exact .inl ⟨.fuel,rfl⟩
  | fuel+1 =>
      rw [msgPartDecref,Heap.read_eq (Heap.write_self hc),ok_bind,if_neg (by dsimp only; omega)]
      by_cases hlocked : part.body.locked = true
      · rw [if_pos (.inl hlocked)]
        exact .inl ⟨.assertion,rfl⟩
      · rw [if_neg (not_or.mpr ⟨hlocked,by dsimp only; omega⟩)]
        cases fuel with
        | zero => exact .inl ⟨.fuel,rfl⟩
        | succ fuel => exact .inr rfl

/-- The part is gone when the loop reads its `next`. -/
theorem unlink_single {fuel : ℕ} (hc : h.cell mp = some part) (href : part.refcnt = 1)
    {raw' : RawMessage} (hrun : unlink fuel h raw mp = .ok (h',raw')) : h'.cell mp = none := by
  simp only [unlink,Heap.read_eq hc,ok_bind,if_pos href,pure_bind] at hrun
  rcases msgPartDecref_single fuel hc href with ⟨e,herror⟩ | hok
  · rw [herror] at hrun
    cases hrun
  · rw [hok,ok_bind] at hrun
    cases hnext : deref part.body.next with
    | error e =>
        rw [hnext] at hrun
        cases hrun
    | ok first =>
        rw [hnext,ok_bind] at hrun
        dsimp only at hrun
        cases hread : ((h.write mp fun b => {b with next := none}).erase mp).read first with
        | error e =>
            rw [hread] at hrun
            cases hrun
        | ok head =>
            rw [hread] at hrun
            cases hrun
            exact Heap.erase_self

theorem blockLoop_single (fuel : ℕ) (hc : h.cell mp = some part) (href : part.refcnt = 1)
    (hbytes : (if raw.last = some mp then raw.lastOffset else part.body.dataEnd)-raw.firstOffset = 0)
    (r : Heap MsgPart × RawMessage × ℤ) : blockLoop fuel h raw (some mp) ≠ .ok r := by
  intro hrun
  cases fuel with
  | zero => cases hrun
  | succ fuel =>
      simp only [blockLoop,Heap.read_eq hc,ok_bind,hbytes,ne_eq,not_true_eq_false,if_false] at hrun
      split at hrun
      · cases hrun
      · cases hunlink : unlink fuel h raw mp with
        | error e =>
            rw [hunlink] at hrun
            cases hrun
        | ok result =>
            rw [hunlink,ok_bind] at hrun
            rw [Heap.read_none (unlink_single hc href hunlink)] at hrun
            cases hrun

end Walk

/-- The first part holds no byte of the message. -/
def startsEmpty (h : Heap MsgPart) (raw : RawMessage) : Bool :=
  match raw.first.bind h.cell with
  | none => false
  | some part =>
      (if raw.last = raw.first then raw.lastOffset else part.body.dataEnd)-raw.firstOffset = 0

/-- The count of the first part. -/
def firstCount (h : Heap MsgPart) (raw : RawMessage) : ℤ := raw.first.elim 0 h.count

/-- The calls have left `h'` and `raw'`, and `bytes` was returned. -/
structure ReadsFirst (h : Heap MsgPart) (blocks : List Bytes) (others : List RawMessage)
    (h' : Heap MsgPart) (raw' : RawMessage) (bytes : ℤ) : Prop where
  block : ∃ b, blocks.find? (· ≠ []) = some b ∧ bytes = b.length ∧ 0 < bytes ∧
    ∃ data, rwmGetBlockPtr h' raw' = .ok (some data) ∧ data.take bytes.toNat = b
  contents : ∃ blocks', Holds h' raw' blocks' ∧ blocks'.flatten = blocks.flatten
  elsewhere : ∀ m ∈ others, ∀ blocks', Holds h m blocks' → Holds h' m blocks'
  counts : Consistent links h' (roots (raw'::others))

section Result
variable {h h' : Heap MsgPart} {raw raw' m m' : RawMessage} {others : List RawMessage} {blocks : List Bytes}
  {p q : ℕ} {start : ℤ}

theorem Blocks.congr (hB : Blocks h m p start blocks) (hlast : m'.last = m.last)
    (hoffset : m'.lastOffset = m.lastOffset) : Blocks h m' p start blocks := by
  induction hB with
  | last hc hl h0 hle hend hdata =>
      rw [← hoffset] at hle hend ⊢
      exact .last hc (hlast.trans hl) h0 hle hend hdata
  | next hc hl h0 hle hdata hnext hd _ ih =>
      exact .next hc (by rwa [hlast]) h0 hle hdata hnext hd ih

theorem Blocks.cell (hB : Blocks h m p start blocks) : ∃ part, h.cell p = some part := by
  cases hB with
  | last hc => exact ⟨_,hc⟩
  | next hc => exact ⟨_,hc⟩

theorem startsEmpty_iff (hfirst : raw.first = some p) (hB : Blocks h raw p raw.firstOffset blocks) :
    startsEmpty h raw = true ↔ blocks.head? = some [] := by
  cases hB with
  | last hc hl h0 hle hend hdata =>
      have hlen := MsgPart.slice_length h0 hle (hend.trans hdata)
      simp only [startsEmpty,hfirst,Option.bind_some,hc,hl,if_pos,decide_eq_true_eq,List.head?_cons,
        Option.some_inj,← List.length_eq_zero_iff]
      omega
  | next hc hl h0 hle hdata hnext hd hB =>
      have hlen := MsgPart.slice_length h0 hle hdata
      simp only [startsEmpty,hfirst,Option.bind_some,hc,if_neg hl,decide_eq_true_eq,List.head?_cons,
        Option.some_inj,← List.length_eq_zero_iff]
      omega

/-- The blocks of a message begin where `rwm_get_block_ptr` says. -/
theorem rwmGetBlockPtr_eq {b : Bytes} {rest : List Bytes} (hfirst : raw.first = some p)
    (hB : Blocks h m p raw.firstOffset (b::rest)) :
    ∃ data, rwmGetBlockPtr h raw = .ok (some data) ∧ data.take b.length = b := by
  have htake (part : MsgPart) (stop : ℤ) :
      (part.data.drop raw.firstOffset.toNat).take (part.slice raw.firstOffset stop).length =
        part.slice raw.firstOffset stop := by
    rw [MsgPart.slice,List.length_take,← List.take_eq_take_min]
  cases hB with
  | last hc =>
      refine ⟨_,?_,htake _ _⟩
      simp only [rwmGetBlockPtr,hfirst,Heap.read_eq hc,ok_bind]
      rfl
  | next hc =>
      refine ⟨_,?_,htake _ _⟩
      simp only [rwmGetBlockPtr,hfirst,Heap.read_eq hc,ok_bind]
      rfl

theorem find_block {b : Bytes} {rest : List Bytes} (k : ℕ) (hb : b ≠ []) :
    (List.replicate k []++b::rest).find? (· ≠ []) = some b := by
  induction k with
  | zero => simp [hb]
  | succ k ih =>
      rw [List.replicate_succ,List.cons_append,List.find?_cons_of_neg (by simp)]
      exact ih

theorem roots_cons : roots (raw::others) = raw.roots+roots others := by
  rw [roots,List.map_cons,List.sum_cons]
  rfl

/-- What the calls do on a message of which the first part is shared, or not empty. -/
theorem rwmGetBlockPtrBytes_walk (hcons : Consistent links h (roots (raw::others)))
    (hfirst : raw.first = some p) (hB : Blocks h raw p raw.firstOffset blocks)
    (htotal : raw.totalBytes = blocks.flatten.length) (hne : raw.totalBytes ≠ 0)
    (hcount : startsEmpty h raw = true → h.count p ≠ 1) :
    ∃ n h' q start' b rest k,
      (∀ fuel, rwmGetBlockPtrBytes fuel h raw =
        if fuel < n then .error .fuel
        else .ok (h',{raw with first := some q, firstOffset := start'},b.length)) ∧
      Moved p q h h' ∧ Blocks h raw q start' (b::rest) ∧ b ≠ [] ∧
      blocks = List.replicate k []++b::rest ∧
      (k = 0 ∧ q = p ∧ start' = raw.firstOffset ∧ h' = h ∨
        k ≠ 0 ∧ Relation.TransGen (Refers links h) q p) := by
  have hflat : blocks.flatten ≠ [] := by
    intro hnil
    rw [hnil] at htotal
    exact hne htotal
  have hall (r : ℕ) (c : Cell MsgPart) (hc : h.cell r = some c) : 1 ≤ c.refcnt :=
    (hcons.counted r c hc).2
  have htwo (hempty : blocks.head? = some []) : 2 ≤ h.count p := by
    have hone := hcount ((startsEmpty_iff hfirst hB).mpr hempty)
    obtain ⟨part,hc⟩ := hB.cell
    have := hall p part hc
    rw [Heap.count_eq hc] at hone ⊢
    omega
  obtain ⟨n,h',q,start',b,rest,k,hrun,hwalk⟩ := blockLoop_walk hB hflat h (fun _ => rfl) hall htwo
  refine ⟨n,h',q,start',b,rest,k,?_,hwalk⟩
  intro fuel
  rw [rwmGetBlockPtrBytes,if_neg hne,← hrun,hfirst]
  congr 1
  rw [← hfirst]

theorem not_ok_of_single (fuel : ℕ) (hfirst : raw.first = some p) (hempty : startsEmpty h raw = true)
    (hne : raw.totalBytes ≠ 0) (hone : h.count p = 1) (r : Heap MsgPart × RawMessage × ℤ) :
    rwmGetBlockPtrBytes fuel h raw ≠ .ok r := by
  obtain ⟨part,hc,href⟩ := Heap.exists_of_count (by rw [hone]; exact one_ne_zero)
  simp only [startsEmpty,hfirst,Option.bind_some,hc,decide_eq_true_eq] at hempty
  rw [rwmGetBlockPtrBytes,if_neg hne,hfirst]
  exact blockLoop_single fuel hc (href.trans hone) hempty r

/-- A temporary message that passes on a reference it does not own. -/
theorem not_consistent_of_tmp {start' : ℤ} (hcons : Consistent links h (roots (raw::others)))
    (hm : Moved p q h h') (hpath : Relation.TransGen (Refers links h) q p) (htmp : raw.magic = .tmp) :
    ¬ Consistent links h' (roots ({raw with first := some q, firstOffset := start'}::others)) := by
  intro hafter
  have hpq : p ≠ q := fun heq => not_transGen_self hcons (heq ▸ hpath)
  have hroots : roots ({raw with first := some q, firstOffset := start'}::others) =
      roots (raw::others) := by
    rw [roots_cons,roots_cons]
    simp only [RawMessage.roots,htmp]
  have hcount := hm.count p
  rw [hroots] at hafter
  rw [hafter.count_eq,hm.references_eq,hcons.count_eq,if_pos rfl,if_neg hpq] at hcount
  omega

/-- The first block is read as it should be unless the first part is empty, and then if the
message owns its parts and shares the first one. -/
theorem first_block_iff (hcons : Consistent links h (roots (raw::others))) (hH : Holds h raw blocks)
    (hne : raw.totalBytes ≠ 0) :
    (∃ fuel h' raw' bytes, rwmGetBlockPtrBytes fuel h raw = .ok (h',raw',bytes) ∧
      ReadsFirst h blocks others h' raw' bytes) ↔
    (startsEmpty h raw = true → raw.magic = .init ∧ firstCount h raw ≠ 1) := by
  obtain ⟨htotal,hblocks⟩ := hH
  cases hfirst : raw.first with
  | none =>
      rw [hfirst] at hblocks
      rw [hblocks] at htotal
      exact (hne htotal).elim
  | some p =>
      rw [hfirst] at hblocks
      have hB : Blocks h raw p raw.firstOffset blocks := hblocks
      have hcount : firstCount h raw = h.count p := by rw [firstCount,hfirst]; rfl
      rw [hcount]
      constructor
      · intro ⟨fuel,h',raw',bytes,hrun,hreads⟩ hempty
        have hshared : h.count p ≠ 1 :=
          fun hone => not_ok_of_single fuel hfirst hempty hne hone _ hrun
        refine ⟨?_,hshared⟩
        cases hmagic : raw.magic with
        | init => rfl
        | tmp =>
            obtain ⟨n,h'',q,start',b,rest,k,hwalk,hm,-,hb,hsplit,hpath⟩ :=
              rwmGetBlockPtrBytes_walk hcons hfirst hB htotal hne fun _ => hshared
            rw [hwalk fuel] at hrun
            split at hrun
            · cases hrun
            · cases hrun
              rcases hpath with ⟨rfl,-⟩ | ⟨-,hpath⟩
              · have hhead := (startsEmpty_iff hfirst hB).mp hempty
                rw [hsplit] at hhead
                cases hhead
                exact (hb rfl).elim
              · exact (not_consistent_of_tmp hcons hm hpath hmagic hreads.counts).elim
      · intro hcond
        obtain ⟨n,h',q,start',b,rest,k,hrun,hm,hBq,hb,hsplit,hpath⟩ :=
          rwmGetBlockPtrBytes_walk hcons hfirst hB htotal hne fun hempty => (hcond hempty).2
        refine ⟨n,h',_,_,(hrun n).trans (if_neg (Nat.lt_irrefl n)),?_,?_,?_,?_⟩
        · refine ⟨b,?_,rfl,?_,?_⟩
          · rw [hsplit]
            exact find_block k hb
          · have := List.length_pos_of_ne_nil hb
            omega
          · rw [Int.toNat_natCast]
            exact rwmGetBlockPtr_eq rfl (hBq.of_sameBodies hm.body)
        · have hflat : (b::rest).flatten = blocks.flatten := by
            rw [hsplit,List.flatten_append]
            simp
          exact ⟨b::rest,⟨by rw [hflat]; exact htotal,(hBq.of_sameBodies hm.body).congr rfl rfl⟩,hflat⟩
        · intro m _ blocks' hm'
          exact hm'.of_sameBodies hm.body
        · rcases hpath with ⟨-,rfl,rfl,rfl⟩ | ⟨hk,-⟩
          · rw [← hfirst]
            exact hcons
          · have hempty : startsEmpty h raw = true := by
              rw [startsEmpty_iff hfirst hB,hsplit]
              cases k with
              | zero => exact (hk rfl).elim
              | succ k => rfl
            have hinit := (hcond hempty).1
            have hpos : 1 ≤ h.count p := by
              obtain ⟨part,hc⟩ := hB.cell
              rw [Heap.count_eq hc]
              exact (hcons.counted p part hc).2
            have hshared := (hcond hempty).2
            rw [roots_cons,RawMessage.roots,hinit,hfirst] at hcons
            rw [roots_cons,RawMessage.roots,hinit]
            exact hcons.move hm (.inr (by omega))

end Result

/-- Two parts of one byte each, and so many references to the first. -/
def twoParts (refcnt : ℤ) : Heap MsgPart where
  cell
    | 0 => some ⟨refcnt,⟨some 1,[0x47],1,1,false⟩⟩
    | 1 => some ⟨1,⟨none,[0x45],0,1,false⟩⟩
    | _ => none
  size := 2
  fresh
    | _+2, _ => rfl

/-- The byte of the first part has been read. -/
def atBoundary : RawMessage := ⟨some 0,some 1,1,.init,1,1⟩

theorem atBoundary_holds (refcnt : ℤ) : Holds (twoParts refcnt) atBoundary [[],[0x45]] := by
  have hsecond : Blocks (twoParts refcnt) atBoundary 1 0 [[0x45]] :=
    @Blocks.last _ _ 1 0 ⟨1,⟨none,[0x45],0,1,false⟩⟩ rfl rfl le_rfl (by decide) le_rfl le_rfl
  have hfirst : Blocks (twoParts refcnt) atBoundary 0 1 [[],[0x45]] :=
    @Blocks.next _ _ 0 1 1 ⟨refcnt,⟨some 1,[0x47],1,1,false⟩⟩ ⟨1,⟨none,[0x45],0,1,false⟩⟩ _ rfl
      (by decide) (by decide) le_rfl le_rfl rfl rfl hsecond
  exact ⟨rfl,hfirst⟩

theorem roots_replicate (n : ℕ) :
    roots (List.replicate n atBoundary) = Multiset.replicate n 0 := by
  induction n with
  | zero => rfl
  | succ n ih =>
      rw [List.replicate_succ,roots_cons,ih]
      exact Multiset.singleton_add 0 _

/-- The message and its clones share the parts. -/
theorem twoParts_consistent (n : ℕ) (hn : 1 ≤ n) :
    Consistent links (twoParts n) (roots (List.replicate n atBoundary)) := by
  have hrefs (p : ℕ) : references links (twoParts n) (roots (List.replicate n atBoundary)) p =
      if p = 0 then n else if p = 1 then 1 else 0 := by
    rw [roots_replicate,references]
    rcases p with _ | _ | p
    · simp [twoParts,Finset.sum_range_succ,links]
    · simp [twoParts,Finset.sum_range_succ,links,Multiset.count_replicate]
    · simp [twoParts,Finset.sum_range_succ,links,Multiset.count_replicate]
  have hend : Grounded links (twoParts n) 1 := by
    refine .node rfl ?_
    intro q hq
    cases hq
  refine ⟨?_,?_,?_⟩
  · intro p c hc
    rw [hrefs]
    rcases p with _ | _ | p
    · cases hc
      exact ⟨rfl,by dsimp only; omega⟩
    · cases hc
      exact ⟨rfl,le_rfl⟩
    · cases hc
  · intro p hp
    rw [hrefs] at hp
    rcases p with _ | _ | p
    · rfl
    · rfl
    · exact (hp rfl).elim
  · intro p hp
    rcases p with _ | _ | p
    · refine .node rfl ?_
      intro q hq
      cases Multiset.mem_singleton.mp hq
      exact hend
    · exact hend
    · cases hp

/-- A message that shares its parts with a clone. -/
theorem first_block_shared : startsEmpty (twoParts 2) atBoundary = true ∧
    ∃ fuel h' raw' bytes, rwmGetBlockPtrBytes fuel (twoParts 2) atBoundary = .ok (h',raw',bytes) ∧
      ReadsFirst (twoParts 2) [[],[0x45]] [atBoundary] h' raw' bytes := by
  refine ⟨by decide,?_⟩
  apply (first_block_iff (twoParts_consistent 2 (by decide)) (atBoundary_holds 2) (by decide)).mpr
  intro _
  exact ⟨rfl,by decide⟩

/-- Without a clone the loop reads the part that it has just released. -/
theorem first_block_released :
    Consistent links (twoParts 1) (roots [atBoundary]) ∧ Holds (twoParts 1) atBoundary [[],[0x45]] ∧
    atBoundary.totalBytes ≠ 0 ∧ (∀ n, rwmGetBlockPtrBytes (n+3) (twoParts 1) atBoundary = .error .released) ∧
    ¬ ∃ fuel h' raw' bytes, rwmGetBlockPtrBytes fuel (twoParts 1) atBoundary = .ok (h',raw',bytes) ∧
      ReadsFirst (twoParts 1) [[],[0x45]] [] h' raw' bytes := by
  refine ⟨twoParts_consistent 1 le_rfl,atBoundary_holds 1,by decide,fun n => rfl,?_⟩
  intro ⟨fuel,h',raw',bytes,hrun,_⟩
  exact not_ok_of_single fuel rfl (by decide) (by decide) (by decide) _ hrun

end Teleproxy.FirstBlock
