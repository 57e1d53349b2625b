import Teleproxy.Lib.Segments
import Teleproxy.WebSocketFrames

/-!
# Reading marked WebSocket frames

What a client means to send is the payload of its data frames without the
padding frames, decrypted in order. `Rx` computes it from the marked stream one
byte at a time and knows nothing of cuts. The loop behind the cipher does the
same for a read in which a frame without data comes last and whose first piece
shows whether it is padding. The loop before the cipher unwraps a buffer that
ends with payload as a whole, and nothing of one that holds no payload.
-/
namespace Teleproxy.WebSocketReading
open ClientInput WebSocketFrames Segments

/-- How many payload bytes were seen and whether the current frame is padding. -/
structure Rx where
  pos : ℕ := 0
  dropping : Bool := false

def Rx.next (h : Header) (s : Rx) (m : Marked) : Rx × Bytes :=
  match m.mark with
  | .pay b first =>
      let x := b ^^^ h.keystream s.pos
      let dropping := if first then h.padding && decide (64 ≤ s.pos) && x == 0xFE else s.dropping
      (⟨s.pos+1,dropping⟩,if 64 ≤ s.pos ∧ dropping = false then [x] else [])
  | _ => (s,[])

def Rx.run (h : Header) : Rx → List Marked → Rx × Bytes
  | s, [] => (s,[])
  | s, m::ms =>
      let r := s.next h m
      let r' := Rx.run h r.1 ms
      (r'.1,r.2++r'.2)

/-- The same frame by frame: each data frame that is not padding is decrypted,
from the first byte behind the 64 bytes of the header on. -/
def plaintextFrom (h : Header) : ℕ → List Frame → Bytes
  | _, [] => []
  | pos, f::fs =>
      if f.hasData then
        let plain := Cipher.crypt ⟨h.keystream,pos⟩ f.payload
        let isPadding := h.padding && decide (64 ≤ pos) && plain.head? == some 0xFE
        (if isPadding then [] else plain.drop (64-pos))++plaintextFrom h (pos+f.payload.length) fs
      else plaintextFrom h pos fs

def plaintext (h : Header) (fs : List Frame) : Bytes := plaintextFrom h 0 fs

variable {h : Header} {s : Rx} {cfg : Config} {c : Conn} {w : Ws} {p : List Marked} {fs : List Frame}

theorem Rx.run_append (h : Header) (s : Rx) (ms ms' : List Marked) :
    s.run h (ms++ms') =
      (((s.run h ms).1.run h ms').1,(s.run h ms).2++((s.run h ms).1.run h ms').2) := by
  induction ms generalizing s with
  | nil => rfl
  | cons m ms ih =>
      simp only [List.cons_append,Rx.run,ih,List.append_assoc]

theorem Rx.run_noPay {ms : List Marked} (hm : ∀ m ∈ ms, ∀ b first, m.mark ≠ .pay b first) :
    s.run h ms = (s,[]) := by
  induction ms generalizing s with
  | nil => rfl
  | cons m ms ih =>
      have hnext : s.next h m = (s,[]) := by
        unfold Rx.next
        split
        · rename_i b first hb
          exact (hm m (by simp) b first hb).elim
        · rfl
      simp only [Rx.run,hnext,ih fun m' hm' => hm m' (by simp [hm'])]
      rfl

theorem noPay_of_clears {ms : List Marked} (hc : clears ms = []) :
    ∀ m ∈ ms, ∀ b first, m.mark ≠ .pay b first := by
  intro m hm b first hb
  have := List.filterMap_eq_nil_iff.mp hc m hm
  simp [hb] at this

@[simp] theorem Rx.run_leads (h : Header) (s : Rx) (bs : Bytes) : s.run h (leads bs) = (s,[]) := by
  refine Rx.run_noPay fun m hm b first hb => ?_
  obtain ⟨x,-,rfl⟩ := List.mem_map.mp hm
  cases hb

/-- Inside a frame everything is kept or everything is dropped. -/
theorem Rx.run_inside (m : Mask) {i : ℕ} (hi : 0 < i) (hpos : 64 ≤ s.pos) (xs : Bytes) :
    s.run h (markPayload m i xs) =
      (⟨s.pos+xs.length,s.dropping⟩,if s.dropping then [] else Cipher.crypt ⟨h.keystream,s.pos⟩ xs) := by
  induction xs generalizing s i with
  | nil => cases hd : s.dropping <;> simp [markPayload,Rx.run,Cipher.crypt,← hd]
  | cons x xs ih =>
      have hfirst : (i == 0) = false := beq_eq_false_iff_ne.mpr (Nat.pos_iff_ne_zero.mp hi)
      have hnext : s.next h ⟨x ^^^ m.get i,.pay x (i == 0)⟩ =
          (⟨s.pos+1,s.dropping⟩,if s.dropping then [] else [x ^^^ h.keystream s.pos]) := by
        simp only [Rx.next,hfirst]
        cases s.dropping <;> simp [hpos]
      simp only [markPayload,Rx.run,hnext]
      rw [ih (s := ⟨s.pos+1,s.dropping⟩) (Nat.succ_pos i) (hpos.trans (Nat.le_succ _))]
      simp only [crypt_cons,List.length_cons]
      refine Prod.ext ?_ ?_
      · simp only [Rx.mk.injEq,and_true]
        omega
      · cases s.dropping <;> simp

/-- A piece of a frame; it is the first one when `i` is zero. -/
theorem Rx.run_piece (m : Mask) (i : ℕ) (hpos : 64 ≤ s.pos) (x : UInt8) (xs : Bytes) :
    s.run h (markPayload m i (x::xs)) =
      let dropping := if i = 0 then h.padding && x ^^^ h.keystream s.pos == 0xFE else s.dropping
      (⟨s.pos+(x::xs).length,dropping⟩,
        if dropping then [] else Cipher.crypt ⟨h.keystream,s.pos⟩ (x::xs)) := by
  by_cases hi : i = 0
  · subst hi
    have hnext : s.next h ⟨x ^^^ m.get 0,.pay x true⟩ =
        (⟨s.pos+1,h.padding && x ^^^ h.keystream s.pos == 0xFE⟩,
          if h.padding && x ^^^ h.keystream s.pos == 0xFE then [] else
            [x ^^^ h.keystream s.pos]) := by
      simp only [Rx.next,hpos,decide_true,Bool.and_true,if_true,true_and]
      cases h.padding && x ^^^ h.keystream s.pos == 0xFE <;> rfl
    simp only [markPayload,beq_self_eq_true,Rx.run,hnext,if_true]
    rw [Rx.run_inside m (Nat.succ_pos 0) (hpos.trans (Nat.le_succ _))]
    simp only [crypt_cons,List.length_cons]
    refine Prod.ext ?_ ?_
    · simp only [Rx.mk.injEq,and_true]
      omega
    · cases h.padding && x ^^^ h.keystream s.pos == 0xFE <;> rfl
  · simp only [if_neg hi]
    exact Rx.run_inside m (Nat.pos_of_ne_zero hi) hpos (x::xs)

theorem prefix_leads {bs : Bytes} (hp : p <+: leads bs) : ∃ q, q <+: bs ∧ p = leads q := by
  obtain ⟨q,hq,rfl⟩ := List.prefix_map_iff.mp hp
  exact ⟨q,hq,rfl⟩

theorem prefix_markPayload {m : Mask} {i : ℕ} {xs : Bytes} (hp : p <+: markPayload m i xs) :
    ∃ ys zs, xs = ys++zs ∧ p = markPayload m i ys := by
  refine ⟨xs.take p.length,xs.drop p.length,(List.take_append_drop _ _).symm,?_⟩
  have hlen : p.length ≤ xs.length := by simpa using hp.length_le
  have hsplit := markPayload_append m i (xs.take p.length) (xs.drop p.length)
  rw [List.take_append_drop] at hsplit
  rw [hsplit] at hp
  refine List.IsPrefix.eq_of_length (List.prefix_of_prefix_length_le hp
    (List.prefix_append _ _) ?_) ?_ <;> simp [hlen]

/-- A part of a frame without data that stops before its end. -/
theorem prefix_markWhole {bs : Bytes} (hb : bs ≠ []) (hp : p <+: markWhole bs)
    (hlt : p.length < (markWhole bs).length) : ∃ q, q <+: bs ∧ q.length < bs.length ∧ p = leads q := by
  obtain ⟨init,b,rfl,hm⟩ := markWhole_eq hb
  rw [hm] at hp hlt
  have hle : p.length ≤ (leads init).length := by
    rw [List.length_append,List.length_singleton] at hlt
    omega
  obtain ⟨q,hq,rfl⟩ := prefix_leads
    (List.prefix_of_prefix_length_le hp (List.prefix_append _ _) hle)
  refine ⟨q,hq.trans (List.prefix_append _ _),?_,rfl⟩
  have := hq.length_le
  rw [List.length_append,List.length_singleton]
  omega

/-- No payload stands behind the end of a frame without data. -/
def Quiet (p : List Marked) : Prop := clears (p.dropWhile (·.mark ≠ .ends)) = []

instance (p : List Marked) : Decidable (Quiet p) := inferInstanceAs (Decidable (_ = _))

theorem clears_dropWhile (hc : clears p = []) (f : Marked → Bool) : clears (p.dropWhile f) = [] := by
  have hsub : (clears (p.dropWhile f)).Sublist (clears p) :=
    (List.dropWhile_sublist f).filterMap _
  rw [hc] at hsub
  exact List.sublist_nil.mp hsub

theorem Quiet.of_append {a q : List Marked} (he : Quiet (a++q)) : Quiet q := by
  unfold Quiet at he ⊢
  rw [List.dropWhile_append] at he
  split_ifs at he
  · exact he
  · rw [clears_append] at he
    exact clears_dropWhile (List.append_eq_nil_iff.mp he).2 _

theorem Quiet.clears_eq_nil {bs : Bytes} {q : List Marked} (hb : bs ≠ [])
    (he : Quiet (markWhole bs++q)) : clears q = [] := by
  obtain ⟨init,b,rfl,hm⟩ := markWhole_eq hb
  rw [hm,List.append_assoc] at he
  have hlead : ∀ x ∈ leads init, decide (x.mark ≠ .ends) = true := by
    intro x hx
    obtain ⟨y,-,rfl⟩ := List.mem_map.mp hx
    rfl
  unfold Quiet at he
  rw [List.dropWhile_append_of_pos hlead] at he
  exact he

theorem no_request_markPayload {m : Mask} {i : ℕ} {xs : Bytes} {x : Marked}
    (hx : x ∈ markPayload m i xs) : x.mark ≠ .request := by
  induction xs generalizing i with
  | nil => cases hx
  | cons y ys ih =>
      rcases List.mem_cons.mp hx with rfl | hx
      · simp
      · exact ih hx

theorem no_request_leads {bs : Bytes} {x : Marked} (hx : x ∈ leads bs) : x.mark ≠ .request := by
  obtain ⟨b,-,rfl⟩ := List.mem_map.mp hx
  simp

theorem no_request_marked {f : Frame} {x : Marked} (hx : x ∈ f.marked) : x.mark ≠ .request := by
  unfold Frame.marked at hx
  split_ifs at hx
  · exact (List.mem_append.mp hx).elim no_request_leads no_request_markPayload
  · obtain ⟨init,b,-,hm⟩ := markWhole_eq (encode_ne_nil f)
    rw [hm] at hx
    rcases List.mem_append.mp hx with hx | hx
    · exact no_request_leads hx
    · rw [List.mem_singleton.mp hx]
      simp

/-- The parser stands inside the payload of a frame or between two frames, and
`m` is what it has not looked at yet. -/
def Aligned (w : Ws) (m : List Marked) : Prop :=
  ∃ i clear fs, m = markPayload w.mask i clear++markFrames fs ∧ w.remaining = clear.length ∧
    (clear ≠ [] → w.maskOffset % 4 = i % 4) ∧ ∀ f ∈ fs, f.Valid

/-- The cipher is set and as far as the specification. -/
structure Reading (h : Header) (s : Rx) (c : Conn) : Prop where
  active : c.wsState = .active
  crypto : c.crypto = some ⟨h.keystream,s.pos⟩
  padding : c.padding = h.padding
  noError : c.error = false
  notDiverted : c.diverted = false
  pos : 64 ≤ s.pos
  dropping : h.padding = false → s.dropping = false

/-- A piece that starts inside a frame must look like the frame: with the
padding flag, its first byte is the marker exactly when the frame is padding. -/
def CutOk (h : Header) (s : Rx) (p : List Marked) : Prop :=
  ∀ m b, p.head? = some m → m.mark = .pay b false → h.padding = true →
    (b ^^^ h.keystream s.pos = 0xFE ↔ s.dropping = true)

theorem decryptPiece_eq {i : ℕ} {xs rest : Bytes} (k : Cipher) (hi : c.ws.maskOffset % 4 = i % 4)
    (hx : xs.length = c.ws.remaining ∨ xs.length ≤ c.ws.remaining ∧ rest = [])
    (hu : c.inU = maskBytes c.ws.mask i xs++rest) :
    c.decryptPiece k =
      {c with
        ws := {c.ws with
          remaining := c.ws.remaining-xs.length
          maskOffset := (c.ws.maskOffset+xs.length) % 4}
        inU := rest
        crypto := some (k.advance xs.length)
        inBuf := if c.padding && (k.crypt xs).head? == some 0xFE then c.inBuf
          else c.inBuf++k.crypt xs} := by
  unfold Conn.decryptPiece
  rw [hu,takePayload_eq hi hx]

/-- One piece of a frame is delivered or dropped as the specification says. -/
theorem reading_piece {i : ℕ} {xs rest : Bytes} (hr : Reading h s c)
    (hi : c.ws.maskOffset % 4 = i % 4)
    (hx : xs.length = c.ws.remaining ∨ xs.length ≤ c.ws.remaining ∧ rest = [])
    (hu : c.inU = maskBytes c.ws.mask i xs++rest) (hcut : CutOk h s (markPayload c.ws.mask i xs)) :
    Reading h (s.run h (markPayload c.ws.mask i xs)).1
        (c.decryptPiece ⟨h.keystream,s.pos⟩) ∧
      (c.decryptPiece ⟨h.keystream,s.pos⟩).inBuf =
        c.inBuf++(s.run h (markPayload c.ws.mask i xs)).2 := by
  rw [decryptPiece_eq _ hi hx hu]
  cases xs with
  | nil =>
      refine ⟨⟨hr.active,rfl,hr.padding,hr.noError,hr.notDiverted,hr.pos,hr.dropping⟩,?_⟩
      simp [markPayload,Rx.run,Cipher.crypt]
  | cons x xs =>
      rw [Rx.run_piece _ _ hr.pos]
      have hmark : (c.padding && (Cipher.crypt ⟨h.keystream,s.pos⟩ (x::xs)).head? == some 0xFE) =
          if i = 0 then h.padding && x ^^^ h.keystream s.pos == 0xFE else s.dropping := by
        rw [hr.padding,crypt_cons,List.head?_cons]
        split_ifs with hzero
        · rfl
        · cases hp : h.padding with
          | false => simp [hr.dropping hp]
          | true =>
              have hc := hcut _ x rfl (by simp [hzero]) hp
              rw [Bool.true_and,Bool.eq_iff_iff,beq_iff_eq,Option.some.injEq]
              exact hc
      rw [hmark]
      refine ⟨⟨hr.active,rfl,hr.padding,hr.noError,hr.notDiverted,?_,?_⟩,?_⟩
      · exact hr.pos.trans (Nat.le_add_right _ _)
      · intro hp
        simp [hp,hr.dropping hp]
      · dsimp only
        split_ifs <;> simp_all

/-- The bytes `p` of the stream were read, `t` is still to come. Everything of
`p` was delivered except bytes without payload at its end. -/
structure Delivered (h : Header) (s : Rx) (c : Conn) (p t : List Marked) (c' : Conn) : Prop where
  reading : Reading h (s.run h p).1 c'
  inBuf : c'.inBuf = c.inBuf++(s.run h p).2
  rest : ∃ a q, p = a++q ∧ c'.inU = rawBytes q ∧ clears q = [] ∧
    Aligned c'.ws (q++t) ∧ (q ≠ [] → c'.ws.remaining = 0)

/-- The loop reads these frames right from between two frames on. -/
def ReadsFrames (cfg : Config) (h : Header) (fs : List Frame) : Prop :=
  ∀ c s p t fuel, Reading h s c → c.ws.remaining = 0 → p++t = markFrames fs → Quiet p →
    c.inU = rawBytes p → p.length < fuel → Delivered h s c p t (decryptLoop cfg fuel c)

theorem Delivered.nothing {t : List Marked} (hr : Reading h s c) (hu : c.inU = [])
    (hal : Aligned c.ws t) : Delivered h s c [] t c :=
  ⟨hr,by simp [Rx.run],[],[],rfl,hu,rfl,hal,by simp⟩

theorem piece_then_frames {i fuel : ℕ} {clear : Bytes} {t : List Marked}
    (hfs : ReadsFrames cfg h fs) (hv : ∀ f ∈ fs, f.Valid) (hr : Reading h s c)
    (hp : p++t = markPayload c.ws.mask i clear++markFrames fs) (hrem : c.ws.remaining = clear.length)
    (hoff : c.ws.maskOffset % 4 = i % 4) (hne : clear ≠ []) (he : Quiet p)
    (hu : c.inU = rawBytes p) (hcut : CutOk h s p) (hf : p.length ≤ fuel) :
    Delivered h s c p t (decryptLoop cfg fuel (c.decryptPiece ⟨h.keystream,s.pos⟩)) := by
  have hcrypto := hr.crypto
  rcases prefix_append_cases (hp ▸ List.prefix_append p t) with ⟨hpre,hlt⟩ | ⟨r,rfl,hr'⟩
  · -- the read ends inside the payload
    obtain ⟨xs,zs,rfl,rfl⟩ := prefix_markPayload hpre
    rw [markPayload_append,List.append_assoc,List.append_cancel_left_eq] at hp
    have hle : xs.length ≤ c.ws.remaining := by simp [hrem]
    have hu' : c.inU = maskBytes c.ws.mask i xs++[] := by simpa using hu
    obtain ⟨hread,hbuf⟩ := reading_piece hr hoff (.inr ⟨hle,rfl⟩) hu' hcut
    have hpiece := decryptPiece_eq ⟨h.keystream,s.pos⟩ hoff (.inr ⟨hle,rfl⟩) hu'
    rw [decryptLoop_nil fuel (by rw [hpiece])]
    refine ⟨hread,hbuf,markPayload c.ws.mask i xs,[],by simp,by rw [hpiece]; rfl,rfl,?_,by simp⟩
    rw [hpiece]
    refine ⟨i+xs.length,zs,fs,hp,?_,fun _ => ?_,hv⟩
    · simp [hrem]
    · dsimp only
      omega
  · rw [List.append_assoc,List.append_cancel_left_eq] at hp
    have hu' : c.inU = maskBytes c.ws.mask i clear++rawBytes r := by simpa using hu
    have hcut' : CutOk h s (markPayload c.ws.mask i clear) := by
      intro m b hm
      refine hcut m b ?_
      cases clear with
      | nil => exact (hne rfl).elim
      | cons x xs => exact hm
    obtain ⟨hread,hbuf⟩ := reading_piece hr hoff (.inl hrem.symm) hu' hcut'
    have hpiece := decryptPiece_eq ⟨h.keystream,s.pos⟩ hoff (.inl hrem.symm) hu'
    have hlen : r.length < fuel := by
      have := List.length_pos_iff.mpr hne
      simp only [List.length_append,length_markPayload] at hf
      omega
    have hnext := hfs (c.decryptPiece ⟨h.keystream,s.pos⟩) _ r t fuel hread
      (by rw [hpiece]; simp [hrem]) hp he.of_append (by rw [hpiece]) hlen
    obtain ⟨a,q,hq,hq'⟩ := hnext.rest
    refine ⟨?_,?_,markPayload c.ws.mask i clear++a,q,by rw [hq,List.append_assoc],hq'⟩
    · rw [Rx.run_append]
      exact hnext.reading
    · rw [hnext.inBuf,hbuf,Rx.run_append,List.append_assoc]

/-- From inside a frame on. -/
theorem reads_inside {i fuel : ℕ} {clear : Bytes} {t : List Marked}
    (hfs : ReadsFrames cfg h fs) (hv : ∀ f ∈ fs, f.Valid) (hr : Reading h s c)
    (hp : p++t = markPayload c.ws.mask i clear++markFrames fs) (hrem : c.ws.remaining = clear.length)
    (hoff : c.ws.maskOffset % 4 = i % 4) (hne : clear ≠ []) (he : Quiet p)
    (hu : c.inU = rawBytes p) (hcut : CutOk h s p) (hf : p.length < fuel) :
    Delivered h s c p t (decryptLoop cfg fuel c) := by
  cases fuel with
  | zero => exact (Nat.not_lt_zero _ hf).elim
  | succ fuel =>
      by_cases hnil : p = []
      · subst hnil
        rw [decryptLoop_nil _ hu]
        exact Delivered.nothing hr hu ⟨i,clear,fs,hp,hrem,fun _ => hoff,hv⟩
      · have hune : c.inU ≠ [] := by
          rw [hu]
          simpa [rawBytes] using hnil
        have hpos : c.ws.remaining ≠ 0 := by
          rw [hrem]
          simpa using hne
        have hstep : decryptLoop cfg (fuel+1) c =
            decryptLoop cfg fuel (c.decryptPiece ⟨h.keystream,s.pos⟩) := by
          simp only [decryptLoop,hune,hr.crypto,hr.active,hpos,if_false]
        rw [hstep]
        exact piece_then_frames hfs hv hr hp hrem hoff hne he hu hcut (Nat.le_of_lt_succ hf)

theorem aligned_between {t : List Marked} (hw : w.remaining = 0) (hp : t = markFrames fs)
    (hv : ∀ f ∈ fs, f.Valid) : Aligned w t :=
  ⟨0,[],fs,hp,hw,fun hne => (hne rfl).elim,hv⟩

/-- Neither payload nor frames hold bytes of the request. -/
theorem Aligned.no_request {t : List Marked} (hal : Aligned w t) : ∀ m ∈ t, m.mark ≠ .request := by
  obtain ⟨i,clear,fs,rfl,-,-,-⟩ := hal
  intro m hm
  rcases List.mem_append.mp hm with hm | hm
  · exact no_request_markPayload hm
  · obtain ⟨f,-,hf⟩ := List.mem_flatMap.mp hm
    exact no_request_marked hf

theorem Aligned.frames {t : List Marked} (hal : Aligned w t) (hw : w.remaining = 0) :
    ∃ fs, t = markFrames fs := by
  obtain ⟨i,clear,fs,rfl,hrem,-,-⟩ := hal
  rw [hw,eq_comm,List.length_eq_zero_iff] at hrem
  subst hrem
  exact ⟨fs,rfl⟩

theorem aligned_end (hw : w.remaining = 0) : Aligned w [] :=
  ⟨0,[],[],rfl,hw,fun hne => (hne rfl).elim,by simp⟩

theorem rawBytes_eq_nil : rawBytes p = [] ↔ p = [] := by simp [rawBytes]

/-- An incomplete header or control frame is left where it is. -/
theorem Delivered.waiting {q : Bytes} {t : List Marked} {w' : Ws} {fuel : ℕ} (hr : Reading h s c)
    (hp : leads q++t = markFrames fs) (hv : ∀ f ∈ fs, f.Valid) (hu : c.inU = q) (hq : q ≠ [])
    (hw : c.ws.remaining = 0) (hparse : wsParseFrameHeader c.ws q = (.more,w',q))
    (hw' : w'.remaining = 0) : Delivered h s c (leads q) t (decryptLoop cfg (fuel+1) c) := by
  have hune : c.inU ≠ [] := hu ▸ hq
  have hstep : decryptLoop cfg (fuel+1) c = {c with ws := w', inU := q} := by
    simp only [decryptLoop,hune,hr.crypto,hr.active,hw,if_false,if_true]
    rw [hu,hparse]
  rw [hstep]
  refine ⟨?_,?_,[],leads q,rfl,(rawBytes_leads q).symm,clears_leads q,aligned_between hw' hp hv,
    fun _ => hw'⟩
  · rw [Rx.run_leads]
    exact ⟨hr.active,hr.crypto,hr.padding,hr.noError,hr.notDiverted,hr.pos,hr.dropping⟩
  · simp

theorem Rx.run_markWhole (h : Header) (s : Rx) {bs : Bytes} (hb : bs ≠ []) :
    s.run h (markWhole bs) = (s,[]) := by
  obtain ⟨init,b,-,hm⟩ := markWhole_eq hb
  rw [hm,Rx.run_append,Rx.run_leads]
  rfl

section Frames
variable {f : Frame} (hv : ∀ g ∈ f::fs, g.Valid)
include hv

/-- A frame without data ends the call; no payload may follow it in the read. -/
theorem reads_whole (cfg : Config) (h : Header) (hd : f.hasData = false) :
    ReadsFrames cfg h (f::fs) := by
  intro c s p t fuel hr hw hp he hu hfuel
  have hvs : ∀ g ∈ fs, g.Valid := fun g hg => hv g (by simp [hg])
  by_cases hnil : p = []
  · subst hnil
    rw [decryptLoop_nil _ hu]
    exact Delivered.nothing hr hu (aligned_between hw hp hv)
  have hune : c.inU ≠ [] := by
    rw [hu]
    simpa [rawBytes] using hnil
  obtain ⟨fuel,rfl⟩ : ∃ n, fuel = n+1 := ⟨fuel-1,by omega⟩
  have hmarked : f.marked = markWhole f.encode := by rw [Frame.marked,hd]; rfl
  obtain ⟨hshort,hwhole⟩ := parse_whole (hv f (by simp)) hd hw
  have hp' : p++t = markWhole f.encode++markFrames fs := by rw [hp,← hmarked]; rfl
  rcases prefix_append_cases (hp' ▸ List.prefix_append p t) with ⟨hpre,hlt⟩ | ⟨r,rfl,-⟩
  · obtain ⟨q,hq,hqlt,rfl⟩ := prefix_markWhole (encode_ne_nil f) hpre hlt
    obtain ⟨w',hparse,hw'⟩ := hshort q hq hqlt
    refine Delivered.waiting hr hp hv (by rw [hu,rawBytes_leads]) ?_ hw hparse hw'
    rintro rfl
    exact hnil rfl
  · have hq := he.clears_eq_nil (encode_ne_nil f)
    rw [List.append_assoc,List.append_cancel_left_eq] at hp'
    obtain ⟨x,w',hparse,hw',hx⟩ := hwhole (rawBytes r)
    have hbytes : c.inU = f.encode++rawBytes r := by
      rw [hu,rawBytes_append,← hmarked,rawBytes_marked]
    have hstep : decryptLoop cfg (fuel+1) c = {c with ws := w', inU := rawBytes r} := by
      simp only [decryptLoop,hune,hr.crypto,hr.active,hw,if_false,if_true]
      rw [hbytes,hparse]
      rcases hx with rfl | rfl <;> rfl
    have hrun : s.run h (markWhole f.encode++r) = (s,[]) := by
      rw [Rx.run_append,Rx.run_markWhole h s (encode_ne_nil f),Rx.run_noPay (noPay_of_clears hq)]
      rfl
    rw [hstep]
    refine ⟨?_,?_,markWhole f.encode,r,rfl,rfl,hq,aligned_between hw' hp' hvs,fun _ => hw'⟩
    · rw [hrun]
      exact ⟨hr.active,hr.crypto,hr.padding,hr.noError,hr.notDiverted,hr.pos,hr.dropping⟩
    · rw [hrun]
      simp

theorem reads_data (hfs : ReadsFrames cfg h fs) (hd : f.hasData) : ReadsFrames cfg h (f::fs) := by
  intro c s p t fuel hr hw hp he hu hfuel
  have hvf : f.Valid := hv f (by simp)
  have hmarked : f.marked = leads f.header++markPayload f.mask 0 f.payload := by
    rw [Frame.marked,hd]
    rfl
  have hkind : f.kind = .data ∧ f.payload ≠ [] := by
    simpa only [Frame.hasData,decide_eq_true_eq] using hd
  have hn : f.payload.length < 2^31 := by
    unfold Frame.Valid at hvf
    rwa [if_pos hkind.1] at hvf
  by_cases hnil : p = []
  · subst hnil
    rw [decryptLoop_nil _ hu]
    exact Delivered.nothing hr hu (aligned_between hw hp hv)
  have hune : c.inU ≠ [] := by
    rw [hu]
    simpa [rawBytes] using hnil
  obtain ⟨fuel,rfl⟩ : ∃ n, fuel = n+1 := ⟨fuel-1,by omega⟩
  have hp' : p++t = leads f.header++(markPayload f.mask 0 f.payload++markFrames fs) := by
    rw [hp,← List.append_assoc,← hmarked]
    rfl
  rcases prefix_append_cases (hp' ▸ List.prefix_append p t) with ⟨hpre,hlt⟩ | ⟨r,rfl,-⟩
  · obtain ⟨q,hq,rfl⟩ := prefix_leads hpre
    have hqlt : q.length < f.header.length := by simpa [leads] using hlt
    refine Delivered.waiting hr hp hv (by rw [hu,rawBytes_leads]) ?_ hw (parse_short hn hq hqlt _) hw
    rintro rfl
    exact hnil rfl
  · rw [List.append_assoc,List.append_cancel_left_eq] at hp'
    have hbytes : c.inU = f.header++rawBytes r := by rw [hu,rawBytes_append,rawBytes_leads]
    obtain ⟨n,hlen⟩ : ∃ n, f.payload.length = n+1 :=
      ⟨f.payload.length-1,by have := List.length_pos_iff.mpr hkind.2; omega⟩
    -- the header is read, and the payload behind it is the piece of the same round
    have hstep : decryptLoop cfg (fuel+1) c =
        decryptLoop cfg fuel (Conn.decryptPiece
          {c with ws := ⟨f.payload.length,f.mask,0⟩, inU := rawBytes r} ⟨h.keystream,s.pos⟩) := by
      simp only [decryptLoop,hune,hr.crypto,hr.active,hw,if_false,if_true]
      rw [hbytes,parse_data hvf hd,hlen]
    have hcut : CutOk h s r := by
      intro m b hm hb
      cases r with
      | nil => cases hm
      | cons m' r =>
          cases hm
          obtain ⟨x,xs,hx⟩ := List.exists_cons_of_ne_nil hkind.2
          rw [hx] at hp'
          have := (List.cons.inj hp').1
          rw [this] at hb
          cases hb
    rw [hstep]
    have hle : r.length ≤ fuel := by
      rw [List.length_append] at hfuel
      omega
    have hnext : Delivered h s {c with ws := ⟨f.payload.length,f.mask,0⟩, inU := rawBytes r} r t _ :=
      piece_then_frames hfs (fun g hg => hv g (by simp [hg]))
        ⟨hr.active,hr.crypto,hr.padding,hr.noError,hr.notDiverted,hr.pos,hr.dropping⟩ hp' rfl rfl
        hkind.2 he.of_append rfl hcut hle
    obtain ⟨a,q,hq,hq'⟩ := hnext.rest
    refine ⟨?_,?_,leads f.header++a,q,by rw [hq,List.append_assoc],hq'⟩
    · rw [Rx.run_append,Rx.run_leads]
      exact hnext.reading
    · rw [hnext.inBuf,Rx.run_append,Rx.run_leads]
      rfl

end Frames

theorem readsFrames (cfg : Config) (h : Header) (hv : ∀ f ∈ fs, f.Valid) : ReadsFrames cfg h fs := by
  induction fs with
  | nil =>
      intro c s p t fuel hr hw hp _ hu _
      obtain ⟨rfl,rfl⟩ := List.append_eq_nil_iff.mp hp
      rw [decryptLoop_nil _ hu]
      exact Delivered.nothing hr hu (aligned_end hw)
  | cons f fs ih =>
      cases hd : f.hasData with
      | false => exact reads_whole hv cfg h hd
      | true => exact reads_data hv (ih fun g hg => hv g (by simp [hg])) hd

/-- One call of the loop from any position between or inside frames. -/
theorem delivered_aligned {t : List Marked} (hr : Reading h s c) (hal : Aligned c.ws (p++t))
    (hq : Quiet p) (hcut : CutOk h s p) (hu : c.inU = rawBytes p) :
    Delivered h s c p t (decryptInput cfg c) := by
  obtain ⟨i,clear,fs,hp,hrem,hoff,hv⟩ := hal
  have hfuel : p.length < c.inU.length+1 := by
    rw [hu,rawBytes,List.length_map]
    exact Nat.lt_succ_self _
  by_cases hne : clear = []
  · subst hne
    exact readsFrames cfg h hv c s p t _ hr hrem hp hq hu hfuel
  · exact reads_inside (readsFrames cfg h hv) hv hr hp hrem (hoff hne) hne hq hu hcut hfuel

def startsPay (t : List Marked) : Bool :=
  match t.head? with
  | some ⟨_,.pay _ _⟩ => true
  | _ => false

def allLead (p : List Marked) : Bool := p.all (·.mark = .lead)

/-- What one pass of the unwrap loop takes off the buffer `p`, and what it leaves
there, when the stream goes on with `t`: it stops behind a frame without data
and in front of a header or a control frame that is not complete. -/
def unwraps (t : List Marked) : List Marked → List Marked × List Marked
  | [] => ([],[])
  | m::p =>
      let more := (m::(unwraps t p).1,(unwraps t p).2)
      match m.mark with
      | .ends => ([m],p)
      | .pay _ _ => more
      | _ => if allLead p && !startsPay t then ([],m::p) else more

section Unwraps
variable {t : List Marked}

theorem unwraps_append (t p : List Marked) : (unwraps t p).1++(unwraps t p).2 = p := by
  induction p with
  | nil => rfl
  | cons m p ih =>
      unfold unwraps
      dsimp only
      split
      · rfl
      · exact congrArg (m::·) ih
      · split_ifs
        · rfl
        · exact congrArg (m::·) ih

theorem unwraps_markPayload (m : Mask) (i : ℕ) (xs : Bytes) (r : List Marked) :
    unwraps t (markPayload m i xs++r) = (markPayload m i xs++(unwraps t r).1,(unwraps t r).2) := by
  induction xs generalizing i with
  | nil => rfl
  | cons x xs ih => simp only [markPayload,List.cons_append,unwraps,ih]

theorem unwraps_leads {q : Bytes} {r : List Marked} (hr : allLead r = false ∨ startsPay t = true) :
    unwraps t (leads q++r) = (leads q++(unwraps t r).1,(unwraps t r).2) := by
  induction q with
  | nil => rfl
  | cons b q ih =>
      have hcond : (allLead (leads q++r) && !startsPay t) = false := by
        rcases hr with hr | hr
        · rw [allLead,List.all_append,← allLead,← allLead,hr,Bool.and_false,Bool.false_and]
        · rw [hr,Bool.not_true,Bool.and_false]
      have hcons : leads (b::q)++r = ⟨b,.lead⟩::(leads q++r) := rfl
      rw [hcons]
      simp only [unwraps,hcond,ih,Bool.false_eq_true,if_false]
      rfl

theorem unwraps_waits {q : Bytes} (ht : startsPay t = false) : unwraps t (leads q) = ([],leads q) := by
  cases q with
  | nil => rfl
  | cons b q =>
      have hall : allLead (leads q) = true := by simp [allLead,leads]
      have hcons : leads (b::q) = ⟨b,.lead⟩::leads q := rfl
      rw [hcons]
      simp only [unwraps,hall,ht,Bool.not_false,Bool.and_true,if_true]

theorem unwraps_markWhole {bs : Bytes} (hb : bs ≠ []) (r : List Marked) :
    unwraps t (markWhole bs++r) = (markWhole bs,r) := by
  obtain ⟨init,b,-,hm⟩ := markWhole_eq hb
  have hnot : allLead (⟨b,.ends⟩::r) = false := by simp [allLead]
  rw [hm,List.append_assoc,List.singleton_append,unwraps_leads (.inl hnot)]
  rfl

/-- One pass over the buffer `p` in front of `t`. -/
structure Unwrapped (w : Ws) (fuel : ℕ) (acc : Bytes) (p t : List Marked) (w' : Ws) : Prop where
  loop : unwrapLoop fuel w (rawBytes p) acc =
    (w',rawBytes (unwraps t p).2,acc++clears (unwraps t p).1)
  aligned : Aligned w' ((unwraps t p).2++t)
  between : (unwraps t p).2 ≠ [] → w'.remaining = 0

theorem Unwrapped.nothing {fuel : ℕ} {acc : Bytes} (hal : Aligned w t) :
    Unwrapped w fuel acc [] t w := by
  refine ⟨?_,hal,fun hne => (hne rfl).elim⟩
  cases fuel <;> simp [unwrapLoop,unwraps,rawBytes,clears]

/-- The buffer ends in front of the payload that is announced. -/
theorem Unwrapped.waiting {q : Bytes} {w' : Ws} {fuel : ℕ} {acc : Bytes} (hq : q ≠ [])
    (hp : leads q++t = markFrames fs) (hv : ∀ f ∈ fs, f.Valid) (hw : w.remaining = 0)
    (hparse : wsParseFrameHeader w q = (.more,w',q)) (hw' : w'.remaining = 0)
    (ht : startsPay t = false) : Unwrapped w (fuel+1) acc (leads q) t w' := by
  have hun := unwraps_waits (q := q) ht
  refine ⟨?_,?_,fun _ => hw'⟩
  · rw [hun,rawBytes_leads,unwrapLoop,if_neg hq,if_pos hw,hparse]
    simp [clears]
  · rw [hun]
    exact aligned_between hw' hp hv

end Unwraps

/-- The loop unwraps these frames from between two frames on. -/
def UnwrapsFrames (fs : List Frame) : Prop :=
  ∀ w p t fuel acc, w.remaining = 0 → p++t = markFrames fs → p.length < fuel →
    ∃ w', Unwrapped w fuel acc p t w'

section Pass
variable {f : Frame} {t : List Marked}

/-- Inside bytes without payload no payload comes next. -/
theorem startsPay_eq_false {as bs : List Marked} (hp : p++t = as++bs) (hlt : p.length < as.length)
    (hc : clears as = []) : startsPay t = false := by
  cases t with
  | nil => rfl
  | cons m t =>
      have hpre : p++[m] <+: as := by
        refine List.prefix_of_prefix_length_le ⟨t,?_⟩ (List.prefix_append as bs) ?_
        · rw [List.append_assoc,← hp]
          rfl
        · rw [List.length_append,List.length_singleton]
          omega
      have hno := noPay_of_clears hc m (hpre.subset (by simp))
      obtain ⟨b,mark⟩ := m
      cases mark with
      | pay x first => exact (hno x first rfl).elim
      | _ => rfl

theorem unwraps_whole (hv : ∀ g ∈ f::fs, g.Valid) (hd : f.hasData = false) :
    UnwrapsFrames (f::fs) := by
  intro w p t fuel acc hw hp hfuel
  by_cases hnil : p = []
  · subst hnil
    exact ⟨w,.nothing (aligned_between hw hp hv)⟩
  obtain ⟨n,rfl⟩ : ∃ n, fuel = n+1 := ⟨fuel-1,by omega⟩
  have hmarked : f.marked = markWhole f.encode := by rw [Frame.marked,hd]; rfl
  obtain ⟨hshort,hwhole⟩ := parse_whole (hv f (by simp)) hd hw
  have hp' : p++t = markWhole f.encode++markFrames fs := by rw [hp,← hmarked]; rfl
  rcases prefix_append_cases (hp' ▸ List.prefix_append p t) with ⟨hpre,hlt⟩ | ⟨r,rfl,-⟩
  · obtain ⟨q,hq,hqlt,rfl⟩ := prefix_markWhole (encode_ne_nil f) hpre hlt
    obtain ⟨w',hparse,hw'⟩ := hshort q hq hqlt
    have hqne : q ≠ [] := by
      rintro rfl
      exact hnil rfl
    have ht := startsPay_eq_false hp' hlt (clears_markWhole (encode_ne_nil f))
    exact ⟨w',.waiting hqne hp hv hw hparse hw' ht⟩
  · rw [List.append_assoc,List.append_cancel_left_eq] at hp'
    obtain ⟨x,w',hparse,hw',hx⟩ := hwhole (rawBytes r)
    have hun := unwraps_markWhole (t := t) (encode_ne_nil f) r
    have hbytes : rawBytes (markWhole f.encode++r) = f.encode++rawBytes r := by
      rw [rawBytes_append,← hmarked,rawBytes_marked]
    refine ⟨w',?_,?_,fun _ => hw'⟩
    · rw [hun,hbytes,clears_markWhole (encode_ne_nil f),List.append_nil,unwrapLoop,if_neg (by simp [encode_ne_nil]),if_pos hw,
        hparse]
      rcases hx with rfl | rfl <;> rfl
    · rw [hun]
      exact aligned_between hw' hp' fun g hg => hv g (by simp [hg])

theorem unwrapLoop_data {r : List Marked} {n : ℕ} {acc : Bytes} (hv : f.Valid) (hd : f.hasData)
    (hw : w.remaining = 0) :
    unwrapLoop (n+1) w (rawBytes (leads f.header++r)) acc =
      unwrapLoop n (takePayload ⟨f.payload.length,f.mask,0⟩ (rawBytes r)).2.1
        (takePayload ⟨f.payload.length,f.mask,0⟩ (rawBytes r)).2.2
        (acc++(takePayload ⟨f.payload.length,f.mask,0⟩ (rawBytes r)).1) := by
  have hpay : f.payload ≠ [] := by
    simp only [Frame.hasData,decide_eq_true_eq] at hd
    exact hd.2
  obtain ⟨k,hk⟩ : ∃ k, f.payload.length = k+1 :=
    ⟨f.payload.length-1,by have := List.length_pos_iff.mpr hpay; omega⟩
  have hbuf : f.header++rawBytes r ≠ [] := by simp [Frame.header]
  rw [rawBytes_append,rawBytes_leads,unwrapLoop,if_neg hbuf,if_pos hw,parse_data hv hd,hk]
  dsimp only
  split_ifs with hnil
  · -- the header is complete and no payload has arrived
    rw [hnil]
    cases n <;> simp [unwrapLoop,takePayload,wsUnmaskData]
  · rfl

/-- The payload that is there is taken, and the frames behind it when all of it
is there. -/
theorem unwraps_payload {i n : ℕ} {clear : Bytes} (acc : Bytes) (hfs : UnwrapsFrames fs)
    (hv : ∀ g ∈ fs, g.Valid) (hp : p++t = markPayload w.mask i clear++markFrames fs)
    (hrem : w.remaining = clear.length) (hoff : w.maskOffset % 4 = i % 4) (hne : clear ≠ [])
    (hf : p.length ≤ n) :
    ∃ w', unwrapLoop n (takePayload w (rawBytes p)).2.1 (takePayload w (rawBytes p)).2.2
        (acc++(takePayload w (rawBytes p)).1) =
          (w',rawBytes (unwraps t p).2,acc++clears (unwraps t p).1) ∧
      Aligned w' ((unwraps t p).2++t) ∧ ((unwraps t p).2 ≠ [] → w'.remaining = 0) := by
  rcases prefix_append_cases (hp ▸ List.prefix_append p t) with ⟨hpre,-⟩ | ⟨r,rfl,-⟩
  · obtain ⟨xs,zs,rfl,rfl⟩ := prefix_markPayload hpre
    rw [markPayload_append,List.append_assoc,List.append_cancel_left_eq] at hp
    have hle : xs.length ≤ w.remaining := by simp [hrem]
    have hun : unwraps t (markPayload w.mask i xs) = (markPayload w.mask i xs,[]) := by
      have := unwraps_markPayload (t := t) w.mask i xs []
      simpa [unwraps] using this
    rw [hun,rawBytes_markPayload,← List.append_nil (maskBytes _ _ _),
      takePayload_eq hoff (.inr ⟨hle,rfl⟩)]
    refine ⟨⟨w.remaining-xs.length,w.mask,(w.maskOffset+xs.length) % 4⟩,?_,?_,fun hn => (hn rfl).elim⟩
    · cases n <;> simp [unwrapLoop,rawBytes]
    · refine ⟨i+xs.length,zs,fs,hp,by simp [hrem],fun _ => ?_,hv⟩
      dsimp only
      omega
  · rw [List.append_assoc,List.append_cancel_left_eq] at hp
    have hlen : r.length < n := by
      have hpos := List.length_pos_iff.mpr hne
      rw [List.length_append,length_markPayload] at hf
      omega
    rw [unwraps_markPayload,rawBytes_append,rawBytes_markPayload,
      takePayload_eq hoff (.inl hrem.symm)]
    obtain ⟨w',hloop,hal,hbet⟩ := hfs
      ⟨w.remaining-clear.length,w.mask,(w.maskOffset+clear.length) % 4⟩ r t n (acc++clear)
      (by simp [hrem]) hp hlen
    refine ⟨w',hloop.trans ?_,hal,hbet⟩
    simp

theorem unwraps_data (hv : ∀ g ∈ f::fs, g.Valid) (hfs : UnwrapsFrames fs) (hd : f.hasData) :
    UnwrapsFrames (f::fs) := by
  intro w p t fuel acc hw hp hfuel
  have hvf : f.Valid := hv f (by simp)
  have hmarked : f.marked = leads f.header++markPayload f.mask 0 f.payload := by
    rw [Frame.marked,hd]
    rfl
  have hkind : f.kind = .data ∧ f.payload ≠ [] := by
    simpa only [Frame.hasData,decide_eq_true_eq] using hd
  have hn : f.payload.length < 2^31 := by
    unfold Frame.Valid at hvf
    rwa [if_pos hkind.1] at hvf
  by_cases hnil : p = []
  · subst hnil
    exact ⟨w,.nothing (aligned_between hw hp hv)⟩
  obtain ⟨n,rfl⟩ : ∃ n, fuel = n+1 := ⟨fuel-1,by omega⟩
  have hp' : p++t = leads f.header++(markPayload f.mask 0 f.payload++markFrames fs) := by
    rw [hp,← List.append_assoc,← hmarked]
    rfl
  rcases prefix_append_cases (hp' ▸ List.prefix_append p t) with ⟨hpre,hlt⟩ | ⟨r,rfl,-⟩
  · obtain ⟨q,hq,rfl⟩ := prefix_leads hpre
    have hqlt : q.length < f.header.length := by simpa [leads] using hlt
    have ht := startsPay_eq_false hp' hlt (clears_leads _)
    refine ⟨w,.waiting ?_ hp hv hw (parse_short hn hq hqlt _) hw ht⟩
    rintro rfl
    exact hnil rfl
  · rw [List.append_assoc,List.append_cancel_left_eq] at hp'
    have hpay : allLead r = false ∨ startsPay t = true := by
      obtain ⟨x,xs,hx⟩ := List.exists_cons_of_ne_nil hkind.2
      rw [hx] at hp'
      cases r with
      | nil =>
          rw [List.nil_append] at hp'
          exact .inr (by rw [hp']; rfl)
      | cons m r =>
          have hm := (List.cons.inj hp').1
          exact .inl (by simp [hm,allLead])
    have hfuel' : r.length ≤ n := by
      rw [List.length_append] at hfuel
      omega
    obtain ⟨w',hloop,hal,hbet⟩ := unwraps_payload (w := ⟨f.payload.length,f.mask,0⟩) acc hfs
      (fun g hg => hv g (by simp [hg])) hp' rfl rfl hkind.2 hfuel'
    refine ⟨w',?_,?_,?_⟩ <;> rw [unwraps_leads hpay]
    · rw [unwrapLoop_data hvf hd hw,hloop,clears_append,clears_leads]
      rfl
    · exact hal
    · exact hbet

theorem unwrapsFrames (hv : ∀ f ∈ fs, f.Valid) : UnwrapsFrames fs := by
  induction fs with
  | nil =>
      intro w p t fuel acc hw hp hfuel
      obtain ⟨rfl,rfl⟩ := List.append_eq_nil_iff.mp hp
      exact ⟨w,.nothing (aligned_end hw)⟩
  | cons f fs ih =>
      cases hd : f.hasData with
      | false => exact unwraps_whole hv hd
      | true => exact unwraps_data hv (ih fun g hg => hv g (by simp [hg])) hd

/-- The same from inside a frame on. -/
theorem unwrapped_aligned (acc : Bytes) {fuel : ℕ} (hal : Aligned w (p++t)) (hf : p.length < fuel) :
    ∃ w', Unwrapped w fuel acc p t w' := by
  obtain ⟨i,clear,fs,hp,hrem,hoff,hv⟩ := hal
  by_cases hne : clear = []
  · subst hne
    exact unwrapsFrames hv w p t fuel acc hrem hp hf
  by_cases hnil : p = []
  · subst hnil
    exact ⟨w,.nothing ⟨i,clear,fs,hp,hrem,hoff,hv⟩⟩
  obtain ⟨n,rfl⟩ : ∃ n, fuel = n+1 := ⟨fuel-1,by omega⟩
  have hpos : ¬ w.remaining = 0 := by
    rw [hrem]
    simpa using hne
  have hbuf : rawBytes p ≠ [] := fun hb => hnil (rawBytes_eq_nil.mp hb)
  obtain ⟨w',hloop,hal,hbet⟩ := unwraps_payload acc (unwrapsFrames hv) hv hp hrem (hoff hne) hne
    (Nat.le_of_lt_succ hf)
  refine ⟨w',?_,hal,hbet⟩
  rw [unwrapLoop,if_neg hbuf,if_neg hpos]
  exact hloop

end Pass

/-- Before the header nothing is delivered, whatever the frames hold. -/
theorem Rx.run_short (h : Header) {ms : List Marked} (hlen : s.pos+(clears ms).length ≤ 64) :
    (s.run h ms).1.pos = s.pos+(clears ms).length ∧ (s.run h ms).2 = [] := by
  induction ms generalizing s with
  | nil => exact ⟨rfl,rfl⟩
  | cons m ms ih =>
      cases hm : m.mark with
      | pay b first =>
          have hcl : clears (m::ms) = b::clears ms := by simp [clears,hm]
          rw [hcl,List.length_cons] at hlen ⊢
          have hpos : (s.next h m).1.pos = s.pos+1 := by simp [Rx.next,hm]
          have hout : (s.next h m).2 = [] := by
            simp only [Rx.next,hm]
            rw [if_neg (fun hn => by omega)]
          obtain ⟨hp,ho⟩ := ih (s := (s.next h m).1) (by omega)
          simp only [Rx.run,hout,ho,List.append_nil,and_true]
          omega
      | _ =>
          have hcl : clears (m::ms) = clears ms := by simp [clears,hm]
          have hnext : s.next h m = (s,[]) := by simp [Rx.next,hm]
          rw [hcl] at hlen ⊢
          simp only [Rx.run,hnext,List.nil_append]
          exact ih hlen

/-- Nothing is dropped as long as no padding frame begins. -/
theorem Rx.run_kept (h : Header) {ms : List Marked} (hs : s.dropping = false)
    (hk : ∀ a, a <+: ms → (s.run h a).1.dropping = false) :
    s.run h ms = (⟨s.pos+(clears ms).length,false⟩,
      (Cipher.crypt ⟨h.keystream,s.pos⟩ (clears ms)).drop (64-s.pos)) := by
  induction ms generalizing s with
  | nil =>
      obtain ⟨pos,dropping⟩ := s
      cases hs
      simp [Rx.run,clears,Cipher.crypt]
  | cons m ms ih =>
      have hk' : ∀ a, a <+: ms → ((s.next h m).1.run h a).1.dropping = false := by
        intro a ha
        have := hk (m::a) (by simpa using ha)
        exact this
      have hd : (s.next h m).1.dropping = false := hk' [] (List.nil_prefix)
      cases hm : m.mark with
      | pay b first =>
          have hcl : clears (m::ms) = b::clears ms := by simp [clears,hm]
          have hpos : (s.next h m).1.pos = s.pos+1 := by simp [Rx.next,hm]
          have hout : (s.next h m).2 = if 64 ≤ s.pos then [b ^^^ h.keystream s.pos] else [] := by
            simp only [Rx.next,hm] at hd ⊢
            rw [hd]
            simp
          simp only [Rx.run,ih hd hk',hpos,hout,hcl,crypt_cons,List.length_cons]
          refine Prod.ext ?_ ?_
          · simp only [Rx.mk.injEq,and_true]
            omega
          · dsimp only
            split_ifs with h64
            · rw [Nat.sub_eq_zero_of_le h64,Nat.sub_eq_zero_of_le (h64.trans (Nat.le_succ _))]
              rfl
            · rw [show 64-s.pos = 64-(s.pos+1)+1 by omega,List.drop_succ_cons]
              rfl
      | _ =>
          have hcl : clears (m::ms) = clears ms := by simp [clears,hm]
          have hnext : s.next h m = (s,[]) := by simp [Rx.next,hm]
          simp only [hnext] at hk' hd
          simp only [Rx.run,hnext,ih hs hk',hcl,List.nil_append]

theorem Rx.dropping_inside (h : Header) (m : Mask) {i : ℕ} (hi : 0 < i) (xs : Bytes) :
    (s.run h (markPayload m i xs)).1.dropping = s.dropping := by
  induction xs generalizing s i with
  | nil => rfl
  | cons x xs ih =>
      have hfirst : (i == 0) = false := beq_eq_false_iff_ne.mpr (Nat.pos_iff_ne_zero.mp hi)
      have hnext : (s.next h ⟨x ^^^ m.get i,.pay x (i == 0)⟩).1.dropping = s.dropping := by
        simp [Rx.next,hfirst]
      simp only [markPayload,Rx.run]
      rw [ih (Nat.succ_pos i),hnext]

theorem Rx.dropping_of_no_padding (hp : h.padding = false) (hs : s.dropping = false)
    (ms : List Marked) : (s.run h ms).1.dropping = false := by
  induction ms generalizing s with
  | nil => exact hs
  | cons m ms ih =>
      apply ih
      unfold Rx.next
      split
      · simp [hp,hs]
      · exact hs

/-- A frame that starts before the end of the header is no padding. -/
theorem Rx.run_early (h : Header) (m : Mask) (hpos : s.pos < 64) {xs : Bytes} (hx : xs ≠ []) :
    s.run h (markPayload m 0 xs) =
      (⟨s.pos+xs.length,false⟩,(Cipher.crypt ⟨h.keystream,s.pos⟩ xs).drop (64-s.pos)) := by
  obtain ⟨x,xs,rfl⟩ := List.exists_cons_of_ne_nil hx
  have hnext : s.next h ⟨x ^^^ m.get 0,.pay x true⟩ = (⟨s.pos+1,false⟩,[]) := by
    simp [Rx.next,Nat.not_le.mpr hpos]
  have hk : ∀ a, a <+: markPayload m 1 xs →
      ((⟨s.pos+1,false⟩ : Rx).run h a).1.dropping = false := by
    intro a ha
    obtain ⟨ys,-,-,rfl⟩ := prefix_markPayload ha
    exact Rx.dropping_inside h m Nat.one_pos ys
  have hrest := Rx.run_kept (s := ⟨s.pos+1,false⟩) h rfl hk
  simp only [markPayload,beq_self_eq_true,Rx.run,Nat.zero_add,hnext,hrest,clears_markPayload,
    List.nil_append,crypt_cons,List.length_cons]
  rw [show 64-s.pos = 64-(s.pos+1)+1 by omega,List.drop_succ_cons,Nat.add_right_comm,Nat.add_assoc]

theorem Rx.run_payload (h : Header) (s : Rx) (m : Mask) {xs : Bytes} (hx : xs ≠ []) :
    (s.run h (markPayload m 0 xs)).1.pos = s.pos+xs.length ∧
      (s.run h (markPayload m 0 xs)).2 =
        if h.padding && decide (64 ≤ s.pos) &&
            (Cipher.crypt ⟨h.keystream,s.pos⟩ xs).head? == some 0xFE then []
        else (Cipher.crypt ⟨h.keystream,s.pos⟩ xs).drop (64-s.pos) := by
  rcases Nat.lt_or_ge s.pos 64 with hlt | hge
  · rw [Rx.run_early h m hlt hx,decide_eq_false (Nat.not_le.mpr hlt)]
    simp
  · obtain ⟨x,xs,rfl⟩ := List.exists_cons_of_ne_nil hx
    rw [Rx.run_piece m 0 hge,decide_eq_true hge,crypt_cons,Nat.sub_eq_zero_of_le hge]
    simp

/-- The specification read byte by byte is the one read frame by frame. -/
theorem Rx.run_markFrames (h : Header) (s : Rx) (fs : List Frame) :
    (s.run h (markFrames fs)).2 = plaintextFrom h s.pos fs := by
  induction fs generalizing s with
  | nil => rfl
  | cons f fs ih =>
      have happend : markFrames (f::fs) = f.marked++markFrames fs := rfl
      rw [happend,Rx.run_append,plaintextFrom]
      dsimp only
      cases hd : f.hasData with
      | false =>
          have hmarked : f.marked = markWhole f.encode := by rw [Frame.marked,hd]; rfl
          rw [hmarked,Rx.run_markWhole h s (encode_ne_nil f)]
          exact ih s
      | true =>
          have hmarked : f.marked = leads f.header++markPayload f.mask 0 f.payload := by
            rw [Frame.marked,hd]
            rfl
          have hne : f.payload ≠ [] := by
            simp only [Frame.hasData,decide_eq_true_eq] at hd
            exact hd.2
          obtain ⟨hpos,hout⟩ := Rx.run_payload h s f.mask hne
          rw [hmarked,Rx.run_append,Rx.run_leads,ih,hpos,List.nil_append,hout]
          rfl

end Teleproxy.WebSocketReading
