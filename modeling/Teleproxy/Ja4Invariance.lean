import Mathlib.Data.List.Perm.Basic
import Mathlib.Logic.Relation
import Teleproxy.Ja4Fingerprint

/-!
# Fingerprints and the order of extensions

The fingerprint of a ClientHello does not depend on the order of its cipher suites and
extensions, and GREASE values may come and go. The types of the extensions have to be
different, the tables must have room, and the first ALPN protocol has to end in its
extension: it is bounded by the end of all extensions only.

Two states of the walk are `Alike` if they agree up to the order of the types. What the
extensions add commutes up to this relation, and a `Move` changes a ClientHello in one
place.
-/
namespace Teleproxy.Ja4Fingerprint
open ClientInput (Bytes)
open Buffer
open TlsParse (word word_pair)

/-- Cells with commas between them; the first one has the number `i`. -/
def joined : ℕ → List Bytes → Bytes
  | _, [] => []
  | i, cell::cells => (if i ≠ 0 then [44] else [])++(cell.take 4++joined (i+1) cells)

section
variable {size : ℕ} {buf bs : Bytes} {cells : List Bytes}

theorem put_eq (h : buf.length+bs.length ≤ size) : put size buf bs = .ok (buf++bs) := if_pos h

/-- Each cell takes at most four bytes and a comma. -/
theorem length_joined_le (i : ℕ) (cells : List Bytes) : (joined i cells).length ≤ 5*cells.length := by
  induction cells generalizing i with
  | nil => exact Nat.zero_le _
  | cons cell cells ih =>
      have hcell : (cell.take 4).length ≤ 4 := List.length_take_le 4 cell
      have hrest := ih (i+1)
      rw [joined,List.length_append,List.length_append,List.length_cons]
      split
      · rw [List.length_singleton]
        omega
      · rw [List.length_nil]
        omega

theorem join_eq (i : ℕ) (h : buf.length+5*cells.length ≤ size) :
    join size cells i buf = .ok (buf++joined i cells) := by
  induction cells generalizing i buf with
  | nil => rw [join,joined,List.append_nil]; rfl
  | cons cell cells ih =>
      have hcell : (cell.take 4).length ≤ 4 := List.length_take_le 4 cell
      rw [List.length_cons] at h
      rw [join,joined]
      by_cases hi : i ≠ 0
      · have hcomma : put size buf [44] = .ok (buf++[44]) :=
          put_eq (by rw [List.length_singleton]; omega)
        have hlength : (buf++[44]++cell.take 4).length = buf.length+1+(cell.take 4).length := by
          rw [List.length_append,List.length_append,List.length_singleton]
        have hput : put size (buf++[44]) (cell.take 4) = .ok (buf++[44]++cell.take 4) :=
          put_eq (by rw [← List.length_append]; omega)
        rw [if_pos hi,if_pos hi,hcomma,ok_bind]
        show (put size (buf++[44]) (cell.take 4) >>= fun buf => join size cells (i+1) buf) = _
        rw [hput,ok_bind,ih (i+1) (by omega),List.append_assoc,List.append_assoc]
      · have hlength : (buf++cell.take 4).length = buf.length+(cell.take 4).length :=
          List.length_append
        have hput : put size buf (cell.take 4) = .ok (buf++cell.take 4) := put_eq (by omega)
        rw [if_neg hi,if_neg hi]
        show (put size buf (cell.take 4) >>= fun buf => join size cells (i+1) buf) = _
        rw [hput,ok_bind,ih (i+1) (by omega),List.append_assoc,List.nil_append]

end

section
variable (sha256 : Bytes → Bytes)

def partB (ciphers : Table) : Bytes :=
  if ciphers.count = 0 then zeros12
  else sha256Hex12 sha256 (joined 0 (ciphers.cells.take ciphers.count))

def partC (exts sigalgs : Table) : Bytes :=
  if exts.count = 0 ∧ sigalgs.count = 0 then zeros12
  else sha256Hex12 sha256 (joined 0 (exts.cells.take exts.count)++
    if 0 < sigalgs.count then 95::joined 0 (sigalgs.cells.take sigalgs.count) else [])

def fingerprint (p : Parsed) : Bytes :=
  ([116]++p.found.tlsVer++[if p.found.hasSni then 100 else 105]++count2 p.ciphers.count++
    count2 p.found.extCountTotal++alpnChars p.found.alpnFirst p.found.alpnLast++[95]++
    partB sha256 p.ciphers++[95]++partC sha256 p.found.exts p.found.sigalgs).take 36

end

section
variable {sha256 : Bytes → Bytes}

theorem length_used_le (t : Table) : (t.cells.take t.count).length ≤ t.count :=
  List.length_take_le _ _

theorem ja4B_eq {ciphers : Table} (h : ciphers.count ≤ tableMax) :
    ja4B sha256 ciphers = .ok (partB sha256 ciphers) := by
  have hused := length_used_le ciphers
  unfold ja4B partB
  split
  · rfl
  · rw [join_eq 0 (by rw [List.length_nil]; omega),List.nil_append]
    rfl

theorem ja4C_eq {exts sigalgs : Table} (hexts : exts.count ≤ tableMax)
    (hsigalgs : sigalgs.count ≤ tableMax) :
    ja4C sha256 exts sigalgs = .ok (partC sha256 exts sigalgs) := by
  have hused := length_used_le exts
  have hused' := length_used_le sigalgs
  have hjoined := length_joined_le 0 (exts.cells.take exts.count)
  unfold ja4C partC
  split
  · rfl
  · dsimp only
    rw [join_eq 0 (by rw [List.length_nil]; omega),List.nil_append,ok_bind]
    split
    · have hbar : put ((tableMax+tableMax)*5+2) (joined 0 (exts.cells.take exts.count)) [95] =
          .ok (joined 0 (exts.cells.take exts.count)++[95]) :=
        put_eq (by rw [List.length_singleton]; omega)
      have hlength : (joined 0 (exts.cells.take exts.count)++[95]).length =
          (joined 0 (exts.cells.take exts.count)).length+1 := List.length_append
      rw [hbar,ok_bind,join_eq 0 (by omega),List.append_assoc]
      rfl
    · rw [List.append_nil]
      rfl

theorem print_eq {p : Parsed} (hciphers : p.ciphers.count ≤ tableMax)
    (hexts : p.found.exts.count ≤ tableMax) (hsigalgs : p.found.sigalgs.count ≤ tableMax) :
    ja4Print sha256 p = .ok (fingerprint sha256 p) := by
  unfold ja4Print
  rw [ja4B_eq hciphers,ok_bind,ja4C_eq hexts hsigalgs]
  rfl

theorem capped_count_le (t : Table) : t.capped.count ≤ tableMax := Nat.min_le_right _ _

theorem compute_encode {h : Hello} (hvalid : h.Valid) :
    ja4Compute sha256 h.encode = .ok (fingerprint sha256 h.parsed.sorted) := by
  have hprint : ja4Print sha256 h.parsed.sorted = .ok (fingerprint sha256 h.parsed.sorted) :=
    print_eq (capped_count_le _) (capped_count_le _) (capped_count_le _)
  rw [ja4Compute,parse_encode hvalid]
  exact hprint

/-- Every run ends inside the buffer and the tables. -/
theorem compute_sound (ch : Bytes) : Sound (ja4Compute sha256 ch) := by
  rcases parse_cases ch with ⟨h,hvalid,hencode⟩ | hfail
  · rw [← hencode]
    exact .inl ⟨_,compute_encode hvalid⟩
  · rw [ja4Compute,hfail]
    exact sound_fail ()

end

theorem hex4_antisymm {v w : ℕ} (h : hex4Le (hex4 v) (hex4 w) = true)
    (h' : hex4Le (hex4 w) (hex4 v) = true) : hex4 v = hex4 w := by
  unfold hex4Le at h h'
  have hbytes : ((hex4 v).take 4).map UInt8.toNat = ((hex4 w).take 4).map UInt8.toNat :=
    le_antisymm (of_decide_eq_true h) (of_decide_eq_true h')
  have htake : (hex4 v).take 4 = (hex4 w).take 4 :=
    List.map_injective_iff.mpr (fun _ _ => UInt8.toNat.inj) hbytes
  have hv : hex4 v = (hex4 v).take 4++[0] := rfl
  have hw : hex4 w = (hex4 w).take 4++[0] := rfl
  rw [hv,hw,htake]

theorem hex4Le_trans (a b c : Bytes) (hab : hex4Le a b) (hbc : hex4Le b c) : hex4Le a c :=
  decide_eq_true (le_trans (of_decide_eq_true hab) (of_decide_eq_true hbc))

theorem hex4_sorted_perm {vs vs' : List ℕ} (h : vs.Perm vs') :
    (vs.map hex4).mergeSort hex4Le = (vs'.map hex4).mergeSort hex4Le := by
  have htotal : ∀ a b : Bytes, hex4Le a b || hex4Le b a := by
    intro a b
    rw [Bool.or_eq_true]
    rcases le_total ((a.take 4).map UInt8.toNat) ((b.take 4).map UInt8.toNat) with hle | hle
    · exact .inl (decide_eq_true hle)
    · exact .inr (decide_eq_true hle)
  refine List.Perm.eq_of_pairwise ?_ (List.pairwise_mergeSort hex4Le_trans htotal _)
    (List.pairwise_mergeSort hex4Le_trans htotal _) ?_
  · intro a b ha hb hab hba
    have ⟨v,_,hv⟩ := List.mem_map.mp (List.mem_mergeSort.mp ha)
    have ⟨w,_,hw⟩ := List.mem_map.mp (List.mem_mergeSort.mp hb)
    subst hv hw
    exact hex4_antisymm hab hba
  · exact (List.mergeSort_perm _ _).trans ((h.map hex4).trans (List.mergeSort_perm _ _).symm)

/-- Values that fit into a table are sorted, so their order is forgotten. -/
theorem sorted_perm {vs vs' : List ℕ} (h : vs.Perm vs') (hroom : vs.length ≤ tableMax) :
    (tableOf vs).capped.sorted = (tableOf vs').capped.sorted := by
  have hform : ∀ us : List ℕ, us.length ≤ tableMax → (tableOf us).capped.sorted =
      ⟨(us.map hex4).mergeSort hex4Le++List.replicate (tableMax-us.length) [0,0,0,0,0],
        us.length⟩ := by
    intro us hus
    have htake : us.take tableMax = us := List.take_of_length_le hus
    have hcount : min us.length tableMax = us.length := Nat.min_eq_left hus
    have hmap : (us.map hex4).length = us.length := List.length_map _
    simp only [Table.sorted,Table.capped,tableOf,htake,hcount]
    rw [List.take_left' hmap,List.drop_left' hmap]
  rw [hform vs hroom,hform vs' (h.length_eq ▸ hroom),hex4_sorted_perm h,h.length_eq]

/-- The extension is not GREASE. -/
def Ext.plain (e : Ext) : Bool := !isGreaseU16 e.type

/-- The type of the extension is stored. -/
def Ext.counted (e : Ext) : Bool := e.plain && decide (e.type ≠ 0x0000 ∧ e.type ≠ 0x0010)

/-- The types of the extensions that are not GREASE are different. -/
def Distinct (exts : List Ext) : Prop :=
  ((exts.filter Ext.plain).map Ext.type).Nodup

/-- The tables have room, and the first ALPN protocol ends in its extension. -/
structure Hello.Fits (h : Hello) : Prop where
  ciphers : (kept h.ciphers).length ≤ tableMax
  exts : (h.exts.filter Ext.counted).length ≤ tableMax
  alpn : ∀ e ∈ h.exts, e.type = 0x0010 → AlpnInside e.body

/-- A `supported_versions` extension. -/
def versionsExt (vs : List ℕ) (tail : Bytes) : Ext :=
  ⟨0x002b,UInt8.ofNat (2*vs.length)::(concat pair vs++tail)⟩

/-- One change, with the lengths in the headers adjusted. -/
inductive Move : Hello → Hello → Prop
  | headers (h : Hello) (headers : Bytes) : Move h {h with headers := headers}
  | ciphers (h : Hello) {cs : List ℕ} : h.ciphers.Perm cs → Move h {h with ciphers := cs}
  | greaseCipher (h : Hello) {cs cs' : List ℕ} {v : ℕ} : h.ciphers = cs++cs' →
      isGreaseU16 v → Move h {h with ciphers := cs++v::cs'}
  | extensions (h : Hello) {exts exts' : List Ext} {rest : Bytes} : h.block = some (exts,rest) →
      exts.Perm exts' → Move h {h with block := some (exts',rest)}
  | greaseExtension (h : Hello) {exts exts' : List Ext} {rest : Bytes} {e : Ext} :
      h.block = some (exts++exts',rest) → isGreaseU16 e.type →
      Move h {h with block := some (exts++e::exts',rest)}
  | greaseVersion (h : Hello) {exts exts' : List Ext} {rest tail : Bytes} {vs vs' : List ℕ} {v : ℕ} :
      h.block = some (exts++versionsExt (vs++vs') tail::exts',rest) → isGreaseU16 v → v < 65536 →
      2*(vs++v::vs').length < 256 →
      Move h {h with block := some (exts++versionsExt (vs++v::vs') tail::exts',rest)}

structure Alike (s s' : Seen) : Prop where
  tlsVer : s.tlsVer = s'.tlsVer
  hasSni : s.hasSni = s'.hasSni
  count : s.count = s'.count
  types : s.types.Perm s'.types
  sigalgs : s.sigalgs = s'.sigalgs
  alpn : s.alpn = s'.alpn

theorem Alike.refl (s : Seen) : Alike s s := ⟨rfl,rfl,rfl,.refl _,rfl,rfl⟩

theorem Alike.symm {s s' : Seen} (h : Alike s s') : Alike s' s :=
  ⟨h.tlsVer.symm,h.hasSni.symm,h.count.symm,h.types.symm,h.sigalgs.symm,h.alpn.symm⟩

theorem Alike.trans {s s' s'' : Seen} (h : Alike s s') (h' : Alike s' s'') : Alike s s'' :=
  ⟨h.tlsVer.trans h'.tlsVer,h.hasSni.trans h'.hasSni,h.count.trans h'.count,h.types.trans h'.types,
    h.sigalgs.trans h'.sigalgs,h.alpn.trans h'.alpn⟩

/-- An extension adds what it says by itself. -/
def Seen.see (s : Seen) (e : Ext) : Seen := s.add (e.facts [])

section
variable {s s' : Seen} {e e' : Ext} {exts exts' : List Ext}

theorem see_grease (h : isGreaseU16 e.type = true) (s : Seen) : s.see e = s := if_pos h

theorem see_eq (h : ¬isGreaseU16 e.type = true) (s : Seen) :
    s.see e =
      {tlsVer := ((if e.type = 0x002b then versionOf e.body else none).map versionChars).getD s.tlsVer
       hasSni := s.hasSni || e.type = 0x0000
       count := s.count+1
       types := if e.type ≠ 0x0000 ∧ e.type ≠ 0x0010 then s.types++[e.type] else s.types
       sigalgs := s.sigalgs++if e.type = 0x000d then sigalgsOf e.body else []
       alpn := (if e.type = 0x0010 then alpnOf e.body [] else none).getD s.alpn} := if_neg h

theorem Alike.see (h : Alike s s') (e : Ext) : Alike (s.see e) (s'.see e) := by
  by_cases hgrease : isGreaseU16 e.type = true
  · rw [see_grease hgrease,see_grease hgrease]
    exact h
  · rw [see_eq hgrease,see_eq hgrease]
    refine ⟨by rw [h.tlsVer],by rw [h.hasSni],by rw [h.count],?_,by rw [h.sigalgs],by rw [h.alpn]⟩
    dsimp only
    split
    · exact h.types.append_right _
    · exact h.types

theorem Alike.fold (h : Alike s s') (exts : List Ext) :
    Alike (exts.foldl Seen.see s) (exts.foldl Seen.see s') := by
  induction exts generalizing s s' with
  | nil => exact h
  | cons e exts ih => exact ih (h.see e)

theorem getD_swap {α : Type} {o o' : Option α} (h : o = none ∨ o' = none) (a : α) :
    o'.getD (o.getD a) = o.getD (o'.getD a) := by
  rcases h with rfl | rfl
  · rfl
  · rfl

/-- Extensions of different types add to different fields. -/
theorem see_swap (h : e.type ≠ e'.type) (s : Seen) :
    Alike ((s.see e).see e') ((s.see e').see e) := by
  by_cases hgrease : isGreaseU16 e.type = true
  · rw [see_grease hgrease,see_grease hgrease]
    exact .refl _
  by_cases hgrease' : isGreaseU16 e'.type = true
  · rw [see_grease hgrease',see_grease hgrease']
    exact .refl _
  rw [see_eq hgrease',see_eq hgrease,see_eq hgrease,see_eq hgrease']
  refine ⟨getD_swap ?_ _,?_,rfl,?_,?_,getD_swap ?_ _⟩
  · by_cases htype : e.type = 0x002b
    · right
      rw [if_neg fun h' => h (htype.trans h'.symm)]
      rfl
    · left
      rw [if_neg htype]
      rfl
  · dsimp only
    rw [Bool.or_right_comm]
  · dsimp only
    split
    · split
      · rw [List.append_assoc,List.append_assoc]
        exact (List.Perm.swap _ _ []).append_left _
      · exact .refl _
    · exact .refl _
  · dsimp only
    rw [List.append_assoc,List.append_assoc]
    by_cases htype : e.type = 0x000d
    · rw [@if_neg (e'.type = 0x000d) _ fun h' => h (htype.trans h'.symm),List.append_nil,
        List.nil_append]
    · rw [if_neg htype,List.append_nil,List.nil_append]
  · by_cases htype : e.type = 0x0010
    · exact .inr (if_neg fun h' => h (htype.trans h'.symm))
    · exact .inl (if_neg htype)

theorem Distinct.perm (hd : Distinct exts) (h : exts.Perm exts') : Distinct exts' :=
  (((h.filter _).map _).nodup_iff).mp hd

theorem Distinct.tail (hd : Distinct (e::exts)) : Distinct exts := by
  rw [Distinct,List.filter_cons] at hd
  split at hd
  · exact hd.of_cons
  · exact hd

theorem Distinct.head_ne (hd : Distinct (e::e'::exts)) (hgrease : ¬isGreaseU16 e.type = true)
    (hgrease' : ¬isGreaseU16 e'.type = true) : e.type ≠ e'.type := by
  rw [Distinct,List.filter_cons_of_pos (by simpa [Ext.plain] using hgrease),
    List.filter_cons_of_pos (by simpa [Ext.plain] using hgrease')] at hd
  intro htype
  rw [List.map_cons,List.map_cons,htype] at hd
  exact (List.nodup_cons.mp hd).1 List.mem_cons_self

theorem fold_perm (h : exts.Perm exts') (hd : Distinct exts) (hs : Alike s s') :
    Alike (exts.foldl Seen.see s) (exts'.foldl Seen.see s') := by
  induction h generalizing s s' with
  | nil => exact hs
  | cons e _ ih => exact ih hd.tail (hs.see e)
  | swap e e' exts =>
      refine Alike.fold ?_ exts
      refine .trans ?_ ((hs.see e).see e')
      by_cases hgrease : isGreaseU16 e'.type = true
      · rw [see_grease hgrease,see_grease hgrease]
        exact .refl _
      by_cases hgrease' : isGreaseU16 e.type = true
      · rw [see_grease hgrease',see_grease hgrease']
        exact .refl _
      exact see_swap (hd.head_ne hgrease hgrease') s
  | trans h _ ih ih' => exact (ih hd hs).trans (ih' (hd.perm h) (.refl _))

/-- A protocol that ends in its extension is found without what follows. -/
theorem alpnOf_inside {body : Bytes} (h : AlpnInside body) (after : Bytes) :
    alpnOf body after = alpnOf body [] := by
  unfold alpnOf
  dsimp only
  split
  · next hcond =>
      have hle := h hcond.1 hcond.2.1 hcond.2.2
      have hlength : (body++after).length = body.length+after.length := List.length_append
      rw [List.append_nil]
      by_cases hpos : 0 < (body.getD 2 0).toNat
      · rw [if_pos ⟨hpos,by omega⟩,if_pos ⟨hpos,hle⟩,List.getD_append _ _ _ _ (by omega),
          List.getD_append _ _ _ _ (by omega)]
      · rw [if_neg fun h => hpos h.1,if_neg fun h => hpos h.1]
  · rfl

theorem walk_eq (h : ∀ e ∈ exts, e.type = 0x0010 → AlpnInside e.body) (s : Seen) (rest : Bytes) :
    s.walk exts rest = exts.foldl Seen.see s := by
  induction exts generalizing s with
  | nil => rfl
  | cons e exts ih =>
      have hfacts : e.facts (encodeBlock exts rest) = e.facts [] := by
        unfold Ext.facts
        by_cases htype : e.type = 0x0010
        · rw [alpnOf_inside (h e List.mem_cons_self htype)]
        · rw [if_neg htype,if_neg htype]
      rw [Seen.walk,hfacts,ih fun e' he' => h e' (List.mem_cons_of_mem e he')]
      rfl

theorem fold_types (exts : List Ext) (s : Seen) :
    (exts.foldl Seen.see s).types = s.types++(exts.filter Ext.counted).map Ext.type := by
  induction exts generalizing s with
  | nil => exact (List.append_nil _).symm
  | cons e exts ih =>
      rw [List.foldl_cons,ih,List.filter_cons]
      by_cases hgrease : isGreaseU16 e.type = true
      · rw [see_grease hgrease,if_neg (by simp [Ext.counted,Ext.plain,hgrease])]
      · rw [see_eq hgrease]
        dsimp only
        by_cases htype : e.type ≠ 0x0000 ∧ e.type ≠ 0x0010
        · rw [if_pos htype,if_pos (by simp [Ext.counted,Ext.plain,hgrease,htype]),List.append_assoc]
          rfl
        · rw [if_neg htype,if_neg (by
            rw [Ext.counted,decide_eq_false htype,Bool.and_false]
            decide)]

end

/-- The types are different, and the code has room for what it collects. -/
def Fine (h : Hello) : Prop := Distinct h.exts ∧ h.Fits

/-- Two ClientHellos with the same fingerprint, if it is a fine one. -/
structure Twin (h h' : Hello) : Prop where
  fine : Fine h ↔ Fine h'
  ciphers : (kept h.ciphers).Perm (kept h'.ciphers)
  seen : Fine h → Alike h.seen h'.seen

theorem Twin.refl (h : Hello) : Twin h h := ⟨.rfl,.refl _,fun _ => .refl _⟩

theorem Twin.symm {h h' : Hello} (t : Twin h h') : Twin h' h :=
  ⟨t.fine.symm,t.ciphers.symm,fun hf => (t.seen (t.fine.mpr hf)).symm⟩

theorem Twin.trans {h h' h'' : Hello} (t : Twin h h') (t' : Twin h' h'') : Twin h h'' :=
  ⟨t.fine.trans t'.fine,t.ciphers.trans t'.ciphers,
    fun hf => (t.seen hf).trans (t'.seen (t.fine.mp hf))⟩

section
variable {h : Hello} {exts exts' : List Ext} {rest : Bytes}

theorem seen_eq (h : Hello) (hfits : h.Fits) : h.seen = h.exts.foldl Seen.see h.start := by
  have halpn := hfits.alpn
  unfold Hello.seen Hello.exts at *
  cases hblock : h.block with
  | none => rfl
  | some block =>
      rw [hblock] at halpn
      exact walk_eq halpn _ _

/-- The cipher suites that count are the same ones. -/
theorem twin_ciphers {cs : List ℕ} (hcs : (kept h.ciphers).Perm (kept cs)) :
    Twin h {h with ciphers := cs} := by
  refine ⟨⟨fun hf => ⟨hf.1,?_,hf.2.exts,hf.2.alpn⟩,fun hf => ⟨hf.1,?_,hf.2.exts,hf.2.alpn⟩⟩,hcs,
    fun _ => .refl _⟩
  · exact hcs.length_eq ▸ hf.2.ciphers
  · exact hcs.length_eq.symm ▸ hf.2.ciphers

/-- The extensions of the new block say the same. -/
theorem twin_block (hblock : h.block = some (exts,rest)) (hd : Distinct exts ↔ Distinct exts')
    (hcount : (exts.filter Ext.counted).length = (exts'.filter Ext.counted).length)
    (halpn : (∀ e ∈ exts, e.type = 0x0010 → AlpnInside e.body) ↔
      ∀ e ∈ exts', e.type = 0x0010 → AlpnInside e.body)
    (hfold : Distinct exts → ∀ s, Alike (exts.foldl Seen.see s) (exts'.foldl Seen.see s)) :
    Twin h {h with block := some (exts',rest)} := by
  have hexts : h.exts = exts := by rw [Hello.exts,hblock]
  have hfine : Fine h ↔ Fine {h with block := some (exts',rest)} := by
    constructor
    · intro ⟨hdistinct,hfits⟩
      have hroom := hfits.exts
      have hinside := hfits.alpn
      rw [hexts] at hdistinct hroom hinside
      exact ⟨hd.mp hdistinct,hfits.ciphers,hcount ▸ hroom,halpn.mp hinside⟩
    · intro ⟨hdistinct,hfits⟩
      refine ⟨?_,hfits.ciphers,?_,?_⟩
      · rw [hexts]
        exact hd.mpr hdistinct
      · rw [hexts,hcount]
        exact hfits.exts
      · rw [hexts]
        exact halpn.mpr hfits.alpn
  refine ⟨hfine,.refl _,fun hf => ?_⟩
  rw [seen_eq h hf.2,seen_eq _ (hfine.mp hf).2,hexts]
  exact hfold (hexts ▸ hf.1) h.start

/-- GREASE is skipped when the highest version is looked for. -/
theorem versionOf_ext {vs : List ℕ} (tail : Bytes) (hvs : 2*vs.length < 256) :
    versionOf (versionsExt vs tail).body =
      if 1 ≤ (vs.map fun c => word (pair c)).foldl highest (-1) then
        some ((vs.map fun c => word (pair c)).foldl highest (-1)).toNat else none := by
  have hlength := length_concat_pair vs
  have hbyte : (UInt8.ofNat (2*vs.length)).toNat = 2*vs.length := by
    rw [UInt8.toNat_ofNat']
    omega
  unfold versionOf versionsExt
  dsimp only
  rw [List.getD_cons_zero,hbyte,List.drop_one,List.tail_cons,List.take_left' hlength,words_map]
  by_cases hnone : vs.length = 0
  · rw [List.length_eq_zero_iff.mp hnone]
    rfl
  · rw [if_pos]
    rw [List.length_cons,List.length_append,hlength]
    omega

theorem versionOf_grease {vs vs' : List ℕ} {v : ℕ} (tail : Bytes) (hgrease : isGreaseU16 v = true)
    (hv : v < 65536) (hlength : 2*(vs++v::vs').length < 256) :
    versionOf (versionsExt (vs++v::vs') tail).body = versionOf (versionsExt (vs++vs') tail).body := by
  have hshort : 2*(vs++vs').length < 256 := by
    rw [List.length_append,List.length_cons] at hlength
    rw [List.length_append]
    omega
  have hword : word (pair v) = v := word_pair hv
  have hskip : ∀ best, highest best v = best := fun best => if_pos hgrease
  rw [versionOf_ext tail hlength,versionOf_ext tail hshort,List.map_append,List.map_append,
    List.map_cons,List.foldl_append,List.foldl_append,List.foldl_cons,hword,hskip]

theorem twin_of_move {h h' : Hello} (hmove : Move h h') : Twin h h' := by
  cases hmove with
  | headers _ =>
      refine ⟨⟨fun hf => ?_,fun hf => ?_⟩,.refl _,fun _ => .refl _⟩
      · exact ⟨hf.1,hf.2.ciphers,hf.2.exts,hf.2.alpn⟩
      · exact ⟨hf.1,hf.2.ciphers,hf.2.exts,hf.2.alpn⟩
  | ciphers hperm => exact twin_ciphers (hperm.filter _)
  | greaseCipher hcs hgrease =>
      apply twin_ciphers
      rw [hcs,kept,kept,List.filter_append,List.filter_append,
        List.filter_cons_of_neg (by rw [hgrease]; decide)]
  | extensions hblock hperm =>
      refine twin_block hblock ⟨fun hd => hd.perm hperm,fun hd => hd.perm hperm.symm⟩
        (hperm.filter _).length_eq ?_ fun hd s => fold_perm hperm hd (.refl s)
      exact ⟨fun h e he => h e (hperm.mem_iff.mpr he),fun h e he => h e (hperm.mem_iff.mp he)⟩
  | @greaseExtension exts exts' rest e hblock hgrease =>
      have hplain : ¬e.plain = true := by
        rw [Ext.plain,hgrease]
        decide
      have hcounted : ¬e.counted = true := by
        rw [Ext.counted,Bool.and_eq_true]
        exact fun h => hplain h.1
      have hnot : e.type ≠ 0x0010 := by
        intro htype
        rw [htype] at hgrease
        exact absurd hgrease (by decide)
      refine twin_block hblock ?_ ?_ ?_ fun _ s => ?_
      · rw [Distinct,Distinct,List.filter_append,List.filter_append,List.filter_cons_of_neg hplain]
      · rw [List.filter_append,List.filter_append,List.filter_cons_of_neg hcounted]
      · simp only [List.mem_append,List.mem_cons,or_imp,forall_and]
        simp [hnot]
      · rw [List.foldl_append,List.foldl_append,List.foldl_cons,see_grease hgrease]
        exact .refl _
  | @greaseVersion exts exts' rest tail vs vs' v hblock hgrease hv hlength =>
      have hplain : ∀ us, (versionsExt us tail).plain = true := by
        intro us
        show (!isGreaseU16 0x002b) = true
        decide
      have hcounted : ∀ us, (versionsExt us tail).counted = true := by
        intro us
        rw [Ext.counted,hplain]
        exact @decide_eq_true (0x002b ≠ 0x0000 ∧ 0x002b ≠ 0x0010) _ (by decide)
      refine twin_block hblock ?_ ?_ ?_ fun _ s => ?_
      · rw [Distinct,Distinct,List.filter_append,List.filter_append,
          List.filter_cons_of_pos (hplain _),List.filter_cons_of_pos (hplain _),List.map_append,
          List.map_append]
        rfl
      · rw [List.filter_append,List.filter_append,List.filter_cons_of_pos (hcounted _),
          List.filter_cons_of_pos (hcounted _),List.length_append,List.length_append]
        rfl
      · have hnot : ∀ us, (versionsExt us tail).type ≠ 0x0010 := fun _ => by
          show 0x002b ≠ 0x0010
          decide
        simp only [List.mem_append,List.mem_cons,or_imp,forall_and,forall_eq]
        simp [hnot]
      · have hsee : ∀ s : Seen, s.see (versionsExt (vs++v::vs') tail) =
            s.see (versionsExt (vs++vs') tail) := by
          intro s
          have hnot : ∀ us, ¬isGreaseU16 (versionsExt us tail).type = true := fun _ => by
            show ¬isGreaseU16 0x002b = true
            decide
          rw [see_eq (hnot _),see_eq (hnot _)]
          have hversion := versionOf_grease tail hgrease hv hlength
          rw [hversion]
          rfl
        rw [List.foldl_append,List.foldl_append,List.foldl_cons,List.foldl_cons,hsee]
        exact .refl _

theorem twin_of_moves {h h' : Hello} (hmoves : Relation.EqvGen Move h h') : Twin h h' := by
  induction hmoves with
  | rel _ _ hmove => exact twin_of_move hmove
  | refl h => exact .refl h
  | symm _ _ _ ih => exact ih.symm
  | trans _ _ _ _ _ ih ih' => exact ih.trans ih'

theorem parsed_sorted_eq {h h' : Hello} (htwin : Twin h h') (hf : Fine h) :
    h.parsed.sorted = h'.parsed.sorted := by
  have hseen := htwin.seen hf
  have hroom : h.seen.types.length ≤ tableMax := by
    rw [seen_eq h hf.2,fold_types]
    show ([]++(h.exts.filter Ext.counted).map Ext.type).length ≤ tableMax
    rw [List.nil_append,List.length_map]
    exact hf.2.exts
  have hciphers := sorted_perm htwin.ciphers hf.2.ciphers
  have hexts := sorted_perm hseen.types hroom
  simp only [Parsed.sorted,Hello.parsed,storedOf,foundOf,hciphers,hexts,hseen.tlsVer,hseen.hasSni,
    hseen.count,hseen.sigalgs,hseen.alpn]

end

/-- Whatever SHA-256 computes: every run ends inside the buffer and the tables, the
accepted buffers are the ClientHellos, and changes of a fine one keep its fingerprint. -/
theorem fingerprint_kept (sha256 : Bytes → Bytes) :
    (∀ ch, Sound (ja4Compute sha256 ch)) ∧
    (∀ ch, (∃ p, ja4Parse ch = .ok p) ↔ ∃ h : Hello, h.Valid ∧ h.encode = ch) ∧
    ∀ h h' : Hello, h.Valid → h'.Valid → Distinct h.exts → h.Fits → Relation.EqvGen Move h h' →
      ∃ out, ja4Compute sha256 h.encode = .ok out ∧ ja4Compute sha256 h'.encode = .ok out := by
  refine ⟨compute_sound,fun ch => ⟨fun hok => ?_,fun hhello => ?_⟩,
    fun h h' hvalid hvalid' hdistinct hfits hmoves => ?_⟩
  · rcases parse_cases ch with hhello | hfail
    · exact hhello
    · have ⟨p,hp⟩ := hok
      cases hp.symm.trans hfail
  · have ⟨h,hvalid,hencode⟩ := hhello
    exact ⟨h.parsed,hencode ▸ parse_encode hvalid⟩
  · have hsame := parsed_sorted_eq (twin_of_moves hmoves) ⟨hdistinct,hfits⟩
    exact ⟨_,compute_encode hvalid,hsame ▸ compute_encode hvalid'⟩

def helloOf (ciphers : List ℕ) (exts : List Ext) : Hello :=
  ⟨[22,3,1,0,0,1,0,0,0],[3,3],List.replicate 32 7,[1,2],ciphers,[0],some (exts,[]),[]⟩

def sampleSni : Ext := ⟨0x0000,[0,4,0,0,1,97]⟩

def sampleAlpn : Ext := ⟨0x0010,[0,3,2,104,50]⟩

def sampleExts : List Ext := [sampleSni,versionsExt ([0x0304]++[0x0303]) [],sampleAlpn]

def movedExts : List Ext :=
  [sampleAlpn]++⟨0x2a2a,[9]⟩::[sampleSni,versionsExt ([0x0304]++0x1a1a::[0x0303]) []]

/-- A digest for samples, made of the last bytes. -/
def sampleSha256 (bs : Bytes) : Bytes := (bs.reverse++List.replicate 32 0).take 32

theorem helloOf_valid {ciphers : List ℕ} {exts : List Ext} (hciphers : ∀ c ∈ ciphers, c < 65536)
    (hcount : 2*ciphers.length < 65536)
    (hexts : ∀ e ∈ exts, e.type < 65536 ∧ e.body.length < 65536)
    (hlength : (encodeBlock exts []).length < 65536) : (helloOf ciphers exts).Valid where
  headers := rfl
  version := rfl
  random := rfl
  sessionId := show 2 < 256 by decide
  ciphers := hciphers
  ciphersLength := hcount
  compression := show 1 < 256 by decide
  block := ⟨fun e he => ⟨(hexts e he).1,(hexts e he).2⟩,by decide,hlength⟩

theorem sampleAlpn_inside : AlpnInside sampleAlpn.body := by
  intro _ _ _
  decide

theorem sample_moves : Relation.EqvGen Move (helloOf [0x1301,0x1302] sampleExts)
    (helloOf ([0x1302]++0x3a3a::[0x1301]) movedExts) := by
  have hciphers : [0x1301,0x1302].Perm [0x1302,0x1301] := .swap _ _ _
  have hexts : sampleExts.Perm ([sampleAlpn,sampleSni]++versionsExt ([0x0304]++[0x0303]) []::[]) := by
    decide
  have h₁ := Move.ciphers (helloOf [0x1301,0x1302] sampleExts) hciphers
  have h₂ := @Move.greaseCipher (helloOf [0x1302,0x1301] sampleExts) [0x1302] [0x1301] 0x3a3a rfl
    (by decide)
  have h₃ := @Move.extensions (helloOf ([0x1302]++0x3a3a::[0x1301]) sampleExts) _ _ [] rfl hexts
  have h₄ := @Move.greaseVersion (helloOf ([0x1302]++0x3a3a::[0x1301]) _) [sampleAlpn,sampleSni] []
    [] [] [0x0304] [0x0303] 0x1a1a rfl (by decide) (by decide) (by decide)
  have h₅ := @Move.greaseExtension (helloOf ([0x1302]++0x3a3a::[0x1301]) _) [sampleAlpn]
    [sampleSni,versionsExt ([0x0304]++0x1a1a::[0x0303]) []] [] ⟨0x2a2a,[9]⟩ rfl (by decide)
  exact .trans _ _ _ (.rel _ _ h₁) (.trans _ _ _ (.rel _ _ h₂) (.trans _ _ _ (.rel _ _ h₃)
    (.trans _ _ _ (.rel _ _ h₄) (.rel _ _ h₅))))

/-- The cipher suites and extensions come in another order, with GREASE among them. -/
theorem sample_fingerprint : ∃ out,
    ja4Compute sampleSha256 (helloOf [0x1301,0x1302] sampleExts).encode = .ok out ∧
    ja4Compute sampleSha256 (helloOf ([0x1302]++0x3a3a::[0x1301]) movedExts).encode = .ok out := by
  refine (fingerprint_kept sampleSha256).2.2 _ _
    (helloOf_valid (by decide) (by decide) (by decide) (by decide))
    (helloOf_valid (by decide) (by decide) (by decide) (by decide)) ?_ ⟨by decide,by decide,?_⟩
    sample_moves
  · unfold Distinct
    decide
  · intro e he htype
    simp only [Hello.exts,helloOf,sampleExts,List.mem_cons,List.not_mem_nil,or_false] at he
    rcases he with rfl | rfl | rfl
    · cases htype
    · cases htype
    · exact sampleAlpn_inside

/-- The used cells are in order already. -/
def Table.Sorted (t : Table) : Prop := (t.cells.take t.count).IsChain fun a b => hex4Le a b

theorem sorted_self {t : Table} (h : t.Sorted) : t.sorted = t := by
  have htrans : Trans (fun a b => hex4Le a b = true) (fun a b => hex4Le a b = true)
    (fun a b => hex4Le a b = true) := ⟨hex4Le_trans _ _ _⟩
  rw [Table.sorted,List.mergeSort_of_pairwise h.pairwise,List.take_append_drop]

/-- One cipher suite more than the table takes. -/
def crowded (last : List ℕ) : Hello := helloOf (List.range 63++last) []

/-- The protocol may go on in the extension that follows. -/
def overrun : List Ext := [⟨0x0010,[0,1,20]⟩,⟨0x4469,List.replicate 30 97⟩]

theorem compute_sorted {sha256 : Bytes → Bytes} {h : Hello} (hvalid : h.Valid)
    (hciphers : h.parsed.ciphers.Sorted) (hexts : h.parsed.found.exts.Sorted) :
    ja4Compute sha256 h.encode = .ok (fingerprint sha256 h.parsed) := by
  rw [compute_encode hvalid,Parsed.sorted,sorted_self hciphers,sorted_self hexts]

/-- One cipher suite more than the table takes, and a protocol that goes on in what
follows its extension. -/
theorem order_matters :
    ((crowded [63,64]).Valid ∧ (crowded [64,63]).Valid ∧ Distinct (crowded [63,64]).exts ∧
      Move (crowded [63,64]) (crowded [64,63]) ∧
      ja4Compute sampleSha256 (crowded [63,64]).encode ≠
        ja4Compute sampleSha256 (crowded [64,63]).encode) ∧
    (helloOf [] overrun).Valid ∧ (helloOf [] overrun.reverse).Valid ∧ Distinct overrun ∧
      Move (helloOf [] overrun) (helloOf [] overrun.reverse) ∧
      ja4Compute sampleSha256 (helloOf [] overrun).encode ≠
        ja4Compute sampleSha256 (helloOf [] overrun.reverse).encode := by
  have hvalid₁ : (crowded [63,64]).Valid :=
    helloOf_valid (by decide) (by decide) (by decide) (by decide)
  have hvalid₂ : (crowded [64,63]).Valid :=
    helloOf_valid (by decide) (by decide) (by decide) (by decide)
  have hvalid₃ : (helloOf [] overrun).Valid :=
    helloOf_valid (by decide) (by decide) (by decide) (by decide)
  have hvalid₄ : (helloOf [] overrun.reverse).Valid :=
    helloOf_valid (by decide) (by decide) (by decide) (by decide)
  refine ⟨⟨hvalid₁,hvalid₂,.nil,.ciphers _ ?_,?_⟩,hvalid₃,hvalid₄,?_,.extensions _ rfl ?_,?_⟩
  · exact (List.Perm.swap 64 63 []).append_left (List.range 63)
  · have hsorted₁ : (crowded [63,64]).parsed.ciphers.Sorted := by
      unfold Table.Sorted
      decide +kernel
    have hsorted₂ : (crowded [64,63]).parsed.ciphers.Sorted := by
      unfold Table.Sorted
      decide +kernel
    rw [compute_sorted hvalid₁ hsorted₁ .nil,compute_sorted hvalid₂ hsorted₂ .nil]
    decide +kernel
  · unfold Distinct
    decide
  · exact (List.reverse_perm overrun).symm
  · rw [compute_sorted hvalid₃ .nil (.singleton _),
      compute_sorted hvalid₄ .nil (.singleton _)]
    decide +kernel

end Teleproxy.Ja4Fingerprint
