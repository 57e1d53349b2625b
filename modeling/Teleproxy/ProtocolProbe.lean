import Mathlib.Order.Lattice.Nat
import Teleproxy.HttpHandshake
import Teleproxy.ProxyProtocol
import Teleproxy.Lib.Occurrences

/-!
# What the WebSocket probe waits for

The probe of a fresh connection looks for an upgrade request in the first 4096
bytes and waits as long as it has not seen an empty line there. A buffer can
still become an upgrade request if it begins as one, has no zero byte, and what
is missing fits into the 4096 bytes. Some of what is missing may have begun at
the end of the buffer.
-/
namespace Teleproxy.ProtocolProbe
open ClientInput HttpHandshake Occurrences ProxyProtocol

/-- What a request needs besides its first word and the empty line. -/
inductive Part where
  | line | upgrade | key
  deriving DecidableEq, Repr

def Part.text : Part → Bytes
  | .line => bytesOf " HTTP/"
  | .upgrade => (bytesOf "Upgrade: websocket").map toLower
  | .key => (bytesOf "Sec-WebSocket-Key:").map toLower

/-- The case of header names does not matter. -/
def Part.fold (x : Part) (s : Bytes) : Bytes := if x = .line then s else s.map toLower

/-- Where a part is looked for: the version behind the first word, in its own case. -/
def Part.view (x : Part) (s : Bytes) : Bytes := x.fold (if x = .line then s.drop 4 else s)

def lacking (b : Bytes) : List Part :=
  [Part.line,.upgrade,.key].filter fun x => strstr x.text (x.view b) = none

/-- How much of a missing part can stand at the end of `b`. -/
def begun (b : Bytes) : ℕ := (lacking b).toFinset.sup fun x => overlap x.text (x.view b)

/-- How much the begun empty line saves: with the key behind it, there has to be
another line end. -/
def begunEnd (b : Bytes) : ℕ :=
  if .key ∈ lacking b then overlap headerEnd b-2 else overlap headerEnd b

/-- The fewest bytes that complete the request. -/
def missing (b : Bytes) : ℕ :=
  ((lacking b).map fun x => x.text.length).sum+4-max (begun b) (begunEnd b)

variable {p s t b : Bytes} {i j : ℕ}

theorem strstr_at (h : strstr p s = some i) : At p s i ∧ ∀ k < i, s[k]? ≠ some 0 := by
  induction s generalizing i with
  | nil =>
      unfold strstr at h
      split_ifs at h with hp
      rw [← Option.some.inj h,hp]
      exact ⟨List.nil_prefix,by simp⟩
  | cons c s ih =>
      unfold strstr at h
      split_ifs at h with hp hc
      · rw [← Option.some.inj h]
        exact ⟨List.isPrefixOf_iff_prefix.mp hp,by simp⟩
      · obtain ⟨i',hi,rfl⟩ := Option.map_eq_some_iff.mp h
        obtain ⟨hat,hzero⟩ := ih hi
        refine ⟨hat,fun k hk => ?_⟩
        cases k with
        | zero => simpa using hc
        | succ k => simpa using hzero k (by omega)

/-- A word with no zero byte before it is found, there or earlier. -/
theorem strstr_of_at (h : At p s i) (hzero : ∀ k < i, s[k]? ≠ some 0) :
    ∃ j ≤ i, strstr p s = some j := by
  induction s generalizing i with
  | nil =>
      have hp : p = [] := by simpa [At] using h
      exact ⟨0,Nat.zero_le i,by simp [strstr,hp]⟩
  | cons c s ih =>
      unfold strstr
      by_cases hp : p.isPrefixOf (c::s) = true
      · exact ⟨0,Nat.zero_le i,by rw [if_pos hp]⟩
      · cases i with
        | zero => exact (hp (List.isPrefixOf_iff_prefix.mpr h)).elim
        | succ i =>
            have hc : c ≠ 0 := by simpa using hzero 0 (by omega)
            obtain ⟨j,hj,hfound⟩ := ih (i := i) h fun k hk => by
              simpa using hzero (k+1) (by omega)
            exact ⟨j+1,by omega,by rw [if_neg hp,if_neg hc,hfound]; simp⟩

theorem ne_zero_of_not_mem (h : (0 : UInt8) ∉ s) (k : ℕ) : s[k]? ≠ some 0 :=
  fun hk => h (List.mem_of_getElem? hk)

theorem strstr_ne_none (hs : (0 : UInt8) ∉ s) (h : At p s i) : strstr p s ≠ none := by
  obtain ⟨j,-,hj⟩ := strstr_of_at h fun k _ => ne_zero_of_not_mem hs k
  rw [hj]
  exact Option.some_ne_none j

theorem not_at (hs : (0 : UInt8) ∉ s) (h : strstr p s = none) (i : ℕ) : ¬ At p s i :=
  fun hat => strstr_ne_none hs hat h

theorem toLower_eq_zero {c : UInt8} (h : toLower c = 0) : c = 0 := by
  unfold toLower at h
  split_ifs at h with hc
  · have hle := UInt8.le_iff_toNat_le.mp hc.1
    have hge := UInt8.le_iff_toNat_le.mp hc.2
    have hsum := congrArg UInt8.toNat h
    rw [UInt8.toNat_add] at hsum
    simp only [UInt8.toNat_ofNat] at hle hge hsum
    omega
  · exact h

theorem not_mem_lower (h : (0 : UInt8) ∉ s) : (0 : UInt8) ∉ s.map toLower := by
  intro hmem
  obtain ⟨c,hc,hzero⟩ := List.mem_map.mp hmem
  rw [toLower_eq_zero hzero] at hc
  exact h hc

variable {x : Part}

theorem Part.text_ne_nil (x : Part) : x.text ≠ [] := by
  cases x <;> decide

theorem Part.fold_append (x : Part) (s t : Bytes) : x.fold (s++t) = x.fold s++x.fold t := by
  unfold Part.fold
  split_ifs
  · rfl
  · exact List.map_append

theorem Part.length_fold (x : Part) (s : Bytes) : (x.fold s).length = s.length := by
  unfold Part.fold
  split_ifs
  · rfl
  · exact List.length_map toLower

theorem Part.fold_text_drop (x : Part) (n : ℕ) : x.fold (x.text.drop n) = x.text.drop n := by
  have hfold : x.fold x.text = x.text := by cases x <;> decide
  unfold Part.fold at hfold ⊢
  split_ifs at hfold ⊢
  · rfl
  · rw [List.map_drop,hfold]

theorem Part.fold_text (x : Part) : x.fold x.text = x.text := x.fold_text_drop 0

theorem Part.view_append (x : Part) (hb : 4 ≤ b.length) (t : Bytes) :
    x.view (b++t) = x.view b++x.fold t := by
  unfold Part.view
  split_ifs
  · rw [List.drop_append_of_le_length hb,Part.fold_append]
  · rw [Part.fold_append]

theorem Part.not_mem_view (x : Part) (h : (0 : UInt8) ∉ s) : (0 : UInt8) ∉ x.view s := by
  have hsub : (0 : UInt8) ∉ (if x = .line then s.drop 4 else s) := by
    split_ifs
    · exact fun hmem => h (List.mem_of_mem_drop hmem)
    · exact h
  unfold Part.view Part.fold
  split_ifs with hx
  · rw [if_pos hx] at hsub
    exact hsub
  · rw [if_neg hx] at hsub
    exact not_mem_lower hsub

/-- The position of a part in the buffer itself. -/
def Part.shift (x : Part) : ℕ := if x = .line then 4 else 0

theorem Part.length_view (x : Part) (hb : 4 ≤ b.length) : (x.view b).length+x.shift = b.length := by
  unfold Part.view Part.shift
  rw [Part.length_fold]
  split_ifs
  · rw [List.length_drop]
    omega
  · rfl

/-- All parts can be looked for in the buffer in lower case. -/
theorem Part.at_lower (x : Part) (h : At x.text (x.view s) i) :
    At (x.text.map toLower) (s.map toLower) (x.shift+i) := by
  cases x with
  | line => exact (at_drop.mp h).map toLower
  | upgrade =>
      rw [Part.shift,if_neg (by decide),Nat.zero_add]
      exact h
  | key =>
      rw [Part.shift,if_neg (by decide),Nat.zero_add]
      exact h

theorem Part.apart {x y : Part} (h : x ≠ y) :
    Apart (x.text.map toLower) (y.text.map toLower) := by
  revert h
  cases x <;> cases y <;> decide

theorem Part.apart_end (x : Part) :
    Apart (x.text.map toLower) headerEnd ∧ Apart headerEnd (x.text.map toLower) := by
  cases x <;> decide

theorem Part.apart_crlf (x : Part) :
    Apart (x.text.map toLower) crlf ∧ Apart crlf (x.text.map toLower) := by
  cases x <;> decide

/-- The contents of a request: all parts, an empty line, and a line end behind a key. -/
structure Complete (s : Bytes) : Prop where
  get : s.take 4 = bytesOf "GET "
  ends : ∃ i, At headerEnd s i
  parts : ∀ x : Part, ∃ i, At x.text (x.view s) i
  key : ∃ i j, At Part.key.text (s.map toLower) i ∧ i+Part.key.text.length ≤ j ∧ At crlf s j

theorem dropWhile_eq_drop {f : UInt8 → Bool} (s : Bytes) : ∃ n, s.dropWhile f = s.drop n := by
  induction s with
  | nil => exact ⟨0,rfl⟩
  | cons c s ih =>
      by_cases hc : f c = true
      · obtain ⟨n,hn⟩ := ih
        exact ⟨n+1,by rw [List.dropWhile_cons_of_pos hc,hn,List.drop_succ_cons]⟩
      · exact ⟨0,by rw [List.dropWhile_cons_of_neg hc,List.drop_zero]⟩

theorem exists_at (h : strstr p s ≠ none) : ∃ i, At p s i := by
  obtain ⟨i,hi⟩ := Option.ne_none_iff_exists'.mp h
  exact ⟨i,(strstr_at hi).1⟩

theorem complete_of_upgrade (h : wsParseUpgradeRequest s = .upgrade) : Complete (s.take 4096) := by
  unfold wsParseUpgradeRequest at h
  split_ifs at h with hlen
  dsimp only at h
  generalize s.take 4096 = u at h
  split_ifs at h with hend hbig hget hline hup
  cases hk : strcasestr (bytesOf "Sec-WebSocket-Key:") u with
  | none => simp [hk] at h
  | some i =>
      simp only [hk] at h
      split_ifs at h with hcrlf
      have hkey : At Part.key.text (u.map toLower) i := (strstr_at hk).1
      refine ⟨not_not.mp hget,exists_at hend,fun x => ?_,i,?_⟩
      · cases x with
        | line => exact exists_at hline
        | upgrade => exact exists_at hup
        | key => exact ⟨i,hkey⟩
      · obtain ⟨j,hj⟩ := exists_at hcrlf
        obtain ⟨n,hn⟩ := dropWhile_eq_drop (f := fun c => decide (c = 32))
          (u.drop (i+(bytesOf "Sec-WebSocket-Key:").length))
        rw [hn,at_drop,at_drop] at hj
        refine ⟨_,hkey,?_,hj⟩
        rw [Part.text,List.length_map]
        omega

theorem upgrade_of_complete (hlen : s.length ≤ 4096) (hzero : (0 : UInt8) ∉ s) (h : Complete s) :
    wsParseUpgradeRequest s = .upgrade := by
  obtain ⟨e,he⟩ := h.ends
  have hfour : ¬ s.length < 4 := by
    have hle := he.le (by decide)
    have : headerEnd.length = 4 := rfl
    omega
  have hpart : ∀ x : Part, strstr x.text (x.view s) ≠ none := by
    intro x
    obtain ⟨i,hi⟩ := h.parts x
    exact strstr_ne_none (x.not_mem_view hzero) hi
  have hline : strstr (bytesOf " HTTP/") (s.drop 4) ≠ none := hpart .line
  have hup : strcasestr (bytesOf "Upgrade: websocket") s ≠ none := hpart .upgrade
  obtain ⟨i,j,hi,hij,hj⟩ := h.key
  obtain ⟨k,hki,hk⟩ := strstr_of_at hi fun k _ => ne_zero_of_not_mem (not_mem_lower hzero) k
  have hfound : strcasestr (bytesOf "Sec-WebSocket-Key:") s = some k := hk
  have hklen : Part.key.text.length = (bytesOf "Sec-WebSocket-Key:").length := by decide
  have hcrlf : At crlf (s.drop (k+(bytesOf "Sec-WebSocket-Key:").length))
      (j-(k+(bytesOf "Sec-WebSocket-Key:").length)) := by
    rw [at_drop,Nat.add_sub_cancel' (by omega)]
    exact hj
  obtain ⟨j',hj'⟩ := hcrlf.dropWhile (f := fun c => decide (c = 32)) (by decide)
  have hkey : strstr crlf ((s.drop (k+(bytesOf "Sec-WebSocket-Key:").length)).dropWhile
      (· = 32)) ≠ none := by
    apply strstr_ne_none _ hj'
    intro hmem
    exact hzero (List.mem_of_mem_drop ((List.dropWhile_suffix _).subset hmem))
  unfold wsParseUpgradeRequest
  rw [if_neg hfour,List.take_of_length_le hlen]
  dsimp only
  rw [if_neg (strstr_ne_none hzero he),if_neg (not_not.mpr h.get),if_neg hline,if_neg hup,hfound]
  dsimp only
  rw [if_neg hkey]

theorem mem_lacking : x ∈ lacking b ↔ strstr x.text (x.view b) = none := by
  cases x <;> simp [lacking]

theorem lacking_nodup (b : Bytes) : (lacking b).Nodup := by
  apply List.Nodup.filter
  decide

theorem overlap_le_begun (h : x ∈ lacking b) : overlap x.text (x.view b) ≤ begun b :=
  Finset.le_sup (f := fun x => overlap x.text (x.view b)) (List.mem_toFinset.mpr h)

/-- The place of a missing part: it ends behind `b`, and what of it is in `b` is at most
what can have begun there. -/
theorem lacking_place (h4 : 4 ≤ b.length) (hzero : (0 : UInt8) ∉ b) (hx : x ∈ lacking b)
    (hat : At x.text (x.view (b++t)) i) :
    b.length < x.shift+i+x.text.length ∧ b.length ≤ x.shift+i+begun b := by
  have hlen := x.length_view h4
  rw [x.view_append h4] at hat
  have hend : (x.view b).length < i+x.text.length := by
    by_contra hle
    exact not_at (x.not_mem_view hzero) (mem_lacking.mp hx) i (hat.of_append (by omega))
  have hbegin := hat.begin_le hend
  have hbegun := overlap_le_begun hx
  omega

@[simp] theorem length_headerEnd : headerEnd.length = 4 := rfl

@[simp] theorem length_crlf : crlf.length = 2 := rfl

theorem lower_end : headerEnd.map toLower = headerEnd := by decide

theorem lower_crlf : crlf.map toLower = crlf := by decide

theorem missing_le (h4 : 4 ≤ b.length) (hzero : (0 : UInt8) ∉ b)
    (hnone : strstr headerEnd b = none) (hc : Complete (b++t)) : missing b ≤ t.length := by
  obtain ⟨e,he⟩ := hc.ends
  obtain ⟨i,j,hi,hij,hj⟩ := hc.key
  choose g hg using hc.parts
  let f (x : Part) : ℕ := if x = .key then i else g x
  have hf : ∀ x : Part, At x.text (x.view (b++t)) (f x) := by
    intro x
    cases x with
    | line => exact hg .line
    | upgrade => exact hg .upgrade
    | key => exact hi
  let pos (x : Part) : ℕ := x.shift+f x
  have hpos : ∀ x : Part, At (x.text.map toLower) ((b++t).map toLower) (pos x) :=
    fun x => x.at_lower (hf x)
  have hinside : ∀ x : Part, pos x+x.text.length ≤ b.length+t.length := by
    intro x
    have hle := (hpos x).le (by simpa using x.text_ne_nil)
    rw [List.length_map,List.length_map,List.length_append] at hle
    exact hle
  have hlower : At headerEnd ((b++t).map toLower) e := lower_end ▸ he.map toLower
  have hcrlf : At crlf ((b++t).map toLower) j := lower_crlf ▸ hj.map toLower
  have hend : b.length < e+4 := by
    by_contra hle
    exact not_at hzero hnone e (he.of_append (show e+4 ≤ b.length by omega))
  have hbegin : b.length ≤ e+overlap headerEnd b := he.begin_le hend
  have heinside : e+4 ≤ b.length+t.length := by
    simpa using he.le (by decide)
  have hjinside : j+2 ≤ b.length+t.length := by
    simpa using hj.le (by decide)
  -- the places of the missing parts, and of the empty line
  let places := (lacking b).map fun x => (pos x,x.text.length)
  have hsum : (places.map Prod.snd).sum = ((lacking b).map fun x => x.text.length).sum := by
    rw [List.map_map]
    rfl
  have hparts : places.Pairwise fun x y => x.1+x.2 ≤ y.1 ∨ y.1+y.2 ≤ x.1 := by
    apply List.pairwise_map.mpr
    apply (lacking_nodup b).imp
    intro x y hxy
    simpa using (Part.apart hxy).disjoint (Part.apart hxy.symm) (hpos x) (hpos y)
  have hends : ∀ x ∈ places, e+4 ≤ x.1 ∨ x.1+x.2 ≤ e := by
    intro y hy
    obtain ⟨x,-,rfl⟩ := List.mem_map.mp hy
    simpa using x.apart_end.2.disjoint x.apart_end.1 hlower (hpos x)
  have hcrlfs : ∀ x ∈ places, j+2 ≤ x.1 ∨ x.1+x.2 ≤ j := by
    intro y hy
    obtain ⟨x,-,rfl⟩ := List.mem_map.mp hy
    simpa using x.apart_crlf.2.disjoint x.apart_crlf.1 hcrlf (hpos x)
  have hplace : ∀ y ∈ places, b.length < y.1+y.2 ∧ b.length ≤ y.1+begun b ∧
      y.1+y.2 ≤ b.length+t.length := by
    intro y hy
    obtain ⟨x,hx,rfl⟩ := List.mem_map.mp hy
    obtain ⟨h₁,h₂⟩ := lacking_place h4 hzero hx (hf x)
    exact ⟨h₁,h₂,hinside x⟩
  by_cases hwithin : b.length ≤ e+max (begun b) (begunEnd b)
  · have hle := sum_length_le ((e,4)::places) (b.length-max (begun b) (begunEnd b))
      (b.length+t.length) (List.pairwise_cons.mpr ⟨hends,hparts⟩) (by
        intro y hy
        rcases List.mem_cons.mp hy with rfl | hy
        · exact ⟨by omega,heinside⟩
        · have := hplace y hy
          omega)
    rw [List.map_cons,List.sum_cons,hsum] at hle
    rw [missing]
    omega
  · -- the empty line stands before the key, so that another line end follows it
    have hkey : .key ∈ lacking b := by
      by_contra hk
      rw [begunEnd,if_neg hk] at hwithin
      omega
    have hmem : (pos .key,Part.key.text.length) ∈ places := List.mem_map_of_mem hkey
    have hafter : e+4 ≤ pos .key := by
      have := hends _ hmem
      have := hplace _ hmem
      simp only at *
      omega
    have hkeyj : pos .key+Part.key.text.length ≤ j := by
      have hshift : pos .key = i := Nat.zero_add i
      omega
    have hle := sum_length_le ((e,4)::(j,2)::places) e (b.length+t.length)
      (by
        apply List.pairwise_cons.mpr
        refine ⟨fun y hy => ?_,List.pairwise_cons.mpr ⟨hcrlfs,hparts⟩⟩
        rcases List.mem_cons.mp hy with rfl | hy
        · exact Or.inl (by simp only; omega)
        · exact hends y hy)
      (by
        intro y hy
        rcases List.mem_cons.mp hy with rfl | hy
        · exact ⟨le_refl e,heinside⟩
        · rcases List.mem_cons.mp hy with rfl | hy
          · exact ⟨by simp only; omega,hjinside⟩
          · have := hends y hy
            have := hplace y hy
            omega)
    rw [List.map_cons,List.map_cons,List.sum_cons,List.sum_cons,hsum] at hle
    have hsave : begunEnd b = overlap headerEnd b-2 := by rw [begunEnd,if_pos hkey]
    rw [missing]
    omega

/-- The texts of some parts, one behind the other. -/
def texts (xs : List Part) : Bytes := xs.flatMap Part.text

theorem length_texts (xs : List Part) : (texts xs).length = (xs.map fun x => x.text.length).sum :=
  List.length_flatMap

theorem Part.at_texts {xs : List Part} (hx : x ∈ xs) : ∃ i, At x.text (x.fold (texts xs)) i := by
  obtain ⟨us,vs,rfl⟩ := List.append_of_mem hx
  have hsplit : texts (us++x::vs) = texts us++(x.text++texts vs) := by
    simp [texts]
  rw [hsplit,Part.fold_append,Part.fold_append,Part.fold_text]
  exact ⟨_,at_append _ _ _⟩

theorem Part.not_mem_text (x : Part) : (0 : UInt8) ∉ x.text := by
  cases x <;> decide

theorem not_mem_texts (xs : List Part) : (0 : UInt8) ∉ texts xs := by
  intro hmem
  obtain ⟨x,-,hx⟩ := List.mem_flatMap.mp hmem
  exact x.not_mem_text hx

/-- What is not missing is there. -/
theorem at_of_not_lacking (h4 : 4 ≤ b.length) (hx : x ∉ lacking b) (t : Bytes) :
    ∃ i, At x.text (x.view (b++t)) i ∧ At x.text (x.view b) i := by
  obtain ⟨i,hi⟩ := exists_at fun hnone => hx (mem_lacking.mpr hnone)
  exact ⟨i,by rw [x.view_append h4]; exact hi.append _,hi⟩

/-- The empty line comes last. -/
theorem complete_end (h4 : 4 ≤ b.length) (hget : b.take 4 = bytesOf "GET ")
    (h : ∀ x ∈ lacking b, ∃ i, At x.text (x.view (b++t)) i) : Complete (b++(t++headerEnd)) := by
  have hparts : ∀ x : Part, ∃ i, At x.text (x.view (b++t)) i := by
    intro x
    by_cases hx : x ∈ lacking b
    · exact h x hx
    · obtain ⟨i,hi,-⟩ := at_of_not_lacking h4 hx t
      exact ⟨i,hi⟩
  have hend : At headerEnd (b++t++headerEnd) (b++t).length := by
    simpa using at_append (b++t) headerEnd []
  have h4' : 4 ≤ (b++t).length := by
    rw [List.length_append]
    omega
  rw [← List.append_assoc]
  refine ⟨?_,⟨_,hend⟩,fun x => ?_,?_⟩
  · rw [List.append_assoc,List.take_append_of_le_length h4,hget]
  · obtain ⟨i,hi⟩ := hparts x
    rw [x.view_append h4']
    exact ⟨i,hi.append _⟩
  · obtain ⟨i,hi⟩ := hparts .key
    have hkey : At Part.key.text ((b++t).map toLower) i := hi
    refine ⟨i,(b++t).length,?_,?_,?_⟩
    · rw [List.map_append]
      exact hkey.append _
    · simpa using hkey.le (Part.text_ne_nil .key)
    · exact (show crlf <+: headerEnd by decide).trans hend

/-- The begun empty line is completed first. -/
theorem complete_begun (h4 : 4 ≤ b.length) (hget : b.take 4 = bytesOf "GET ") :
    Complete (b++(headerEnd.drop (overlap headerEnd b)++
      (texts (lacking b)++if .key ∈ lacking b then crlf else []))) := by
  have hend := at_completed headerEnd b (texts (lacking b)++if .key ∈ lacking b then crlf else [])
  have hover := overlap_le_length headerEnd b
  have hparts : ∀ x ∈ lacking b, ∃ i, At x.text
      (x.view (b++(headerEnd.drop (overlap headerEnd b)++texts (lacking b)))) i := by
    intro x hx
    obtain ⟨i,hi⟩ := Part.at_texts hx
    rw [x.view_append h4,x.fold_append]
    exact ⟨_,(hi.append_left _).append_left _⟩
  refine ⟨?_,⟨_,hend⟩,fun x => ?_,?_⟩
  · rw [List.take_append_of_le_length h4,hget]
  · by_cases hx : x ∈ lacking b
    · obtain ⟨i,hi⟩ := hparts x hx
      rw [x.view_append h4] at hi ⊢
      rw [← List.append_assoc (headerEnd.drop _),
        x.fold_append (headerEnd.drop (overlap headerEnd b)++texts (lacking b)),← List.append_assoc]
      exact ⟨i,hi.append _⟩
    · obtain ⟨i,hi,-⟩ := at_of_not_lacking h4 hx _
      exact ⟨i,hi⟩
  · by_cases hk : .key ∈ lacking b
    · rw [if_pos hk]
      obtain ⟨i,hi⟩ := hparts .key hk
      have hkey : At Part.key.text
          ((b++(headerEnd.drop (overlap headerEnd b)++texts (lacking b))).map toLower) i := hi
      have hsplit : b++(headerEnd.drop (overlap headerEnd b)++(texts (lacking b)++crlf)) =
          b++(headerEnd.drop (overlap headerEnd b)++texts (lacking b))++(crlf++[]) := by
        simp
      rw [hsplit]
      refine ⟨i,_,?_,?_,at_append _ _ _⟩
      · rw [List.map_append]
        exact hkey.append _
      · simpa using hkey.le (Part.text_ne_nil .key)
    · -- the key is in `b`, and the empty line is not before it
      obtain ⟨i,hi,hib⟩ := at_of_not_lacking h4 hk (headerEnd.drop (overlap headerEnd b)++
        (texts (lacking b)++if .key ∈ lacking b then crlf else []))
      have hle := hib.le (Part.text_ne_nil .key)
      have hview : (Part.key.view b).length = b.length := Part.length_view .key h4
      have hpos := List.length_pos_of_ne_nil (Part.text_ne_nil .key)
      refine ⟨i,_,hi,?_,(show crlf <+: headerEnd by decide).trans hend⟩
      have hlower : At headerEnd _ _ := lower_end ▸ hend.map toLower
      rw [length_headerEnd] at hover
      rcases (Part.apart_end .key).1.disjoint (Part.apart_end .key).2 (Part.at_lower .key hi)
        hlower with hbefore | hafter
      · simpa [Part.shift] using hbefore
      · rw [length_headerEnd,Part.shift,if_neg (by decide)] at hafter
        omega

/-- The part that has begun furthest is completed first, and the empty line comes last. -/
theorem complete_part (h4 : 4 ≤ b.length) (hget : b.take 4 = bytesOf "GET ") (x : Part) :
    Complete (b++(x.text.drop (overlap x.text (x.view b))++texts ((lacking b).erase x)++
      headerEnd)) := by
  apply complete_end h4 hget
  intro y hy
  by_cases hyx : y = x
  · rw [hyx,x.view_append h4,x.fold_append,x.fold_text_drop]
    exact ⟨_,at_completed _ _ _⟩
  · obtain ⟨i,hi⟩ := Part.at_texts ((List.mem_erase_of_ne hyx).mpr hy)
    rw [y.view_append h4,y.fold_append]
    exact ⟨_,(hi.append_left _).append_left _⟩

/-- Some completion has `missing` bytes. -/
theorem exists_complete (h4 : 4 ≤ b.length) (hget : b.take 4 = bytesOf "GET ") :
    ∃ t, (0 : UInt8) ∉ t ∧ t.length ≤ missing b ∧ Complete (b++t) := by
  have hzero : (0 : UInt8) ∉ headerEnd := by decide
  have hover := overlap_le_length headerEnd b
  rw [length_headerEnd] at hover
  rcases Nat.lt_or_ge (begun b) (begunEnd b) with hlt | hge
  · refine ⟨_,?_,?_,complete_begun h4 hget⟩
    · have hcrlf : (0 : UInt8) ∉ (if Part.key ∈ lacking b then crlf else []) := by
        split_ifs <;> decide
      intro hmem
      rcases List.mem_append.mp hmem with hmem | hmem
      · exact hzero (List.mem_of_mem_drop hmem)
      · rcases List.mem_append.mp hmem with hmem | hmem
        · exact not_mem_texts _ hmem
        · exact hcrlf hmem
    · rw [missing,List.length_append,List.length_append,length_texts,List.length_drop,
        length_headerEnd]
      rw [begunEnd] at hlt ⊢
      split_ifs at hlt ⊢ with hk
      · rw [length_crlf]
        omega
      · rw [List.length_nil]
        omega
  · by_cases hnil : lacking b = []
    · refine ⟨headerEnd,hzero,?_,?_⟩
      · have hbegun : begun b = 0 := by simp [begun,hnil]
        rw [missing,hnil,List.map_nil,List.sum_nil,length_headerEnd]
        omega
      · simpa using complete_end (t := []) h4 hget (by simp [hnil])
    · obtain ⟨x,hx,hbegun⟩ := Finset.exists_mem_eq_sup (lacking b).toFinset
        (by simpa [Finset.nonempty_iff_ne_empty] using hnil) fun x => overlap x.text (x.view b)
      have hxl : x ∈ lacking b := List.mem_toFinset.mp hx
      refine ⟨_,?_,?_,complete_part h4 hget x⟩
      · intro hmem
        rcases List.mem_append.mp hmem with hmem | hmem
        · rcases List.mem_append.mp hmem with hmem | hmem
          · exact x.not_mem_text (List.mem_of_mem_drop hmem)
          · exact not_mem_texts _ hmem
        · exact hzero hmem
      · have hsum := List.sum_map_erase (fun x => x.text.length) hxl
        have hle := overlap_le_length x.text (x.view b)
        have hb : begun b = overlap x.text (x.view b) := hbegun
        rw [missing,List.length_append,List.length_append,length_texts,List.length_drop,
          length_headerEnd]
        omega

/-- The empty line has been seen, before any zero byte, or there is no more room for it. -/
def Decided (b : Bytes) : Prop :=
  4 ≤ b.length ∧ (strstr headerEnd (b.take 4096) ≠ none ∨ 4096 ≤ b.length)

/-- The buffer begins as a request, and what is missing fits. -/
def Completable (b : Bytes) : Prop :=
  if b.length < 4 then b <+: bytesOf "GET "
  else b.take 4 = bytesOf "GET " ∧ (0 : UInt8) ∉ b ∧ b.length+missing b ≤ 4096

instance (b : Bytes) : Decidable (Decided b) :=
  inferInstanceAs (Decidable (_ ∧ _))

theorem more_iff (b : Bytes) : wsParseUpgradeRequest b = .more ↔ ¬ Decided b := by
  by_cases h4 : b.length < 4
  · simp [wsParseUpgradeRequest,Decided,h4]
  · have h4' : 4 ≤ b.length := by omega
    have hlen : (b.take 4096).length ≥ 4096 ↔ 4096 ≤ b.length := by
      rw [List.length_take]
      omega
    by_cases hnone : strstr headerEnd (b.take 4096) = none
    · by_cases hbig : 4096 ≤ b.length
      · simp [wsParseUpgradeRequest,Decided,h4',hnone,hbig,Nat.not_lt.mpr h4']
      · simp [wsParseUpgradeRequest,Decided,h4',hnone,hbig,Nat.not_lt.mpr h4']
    · have hne : wsParseUpgradeRequest b ≠ .more := by
        rw [wsParseUpgradeRequest,if_neg h4]
        dsimp only
        rw [if_neg hnone]
        split_ifs
        · simp
        · simp
        · simp
        · cases strcasestr (bytesOf "Sec-WebSocket-Key:") (b.take 4096) with
          | none => simp
          | some i =>
              dsimp only
              split_ifs
              · simp
              · simp
      exact ⟨fun h => (hne h).elim,fun h => (h ⟨h4',Or.inl hnone⟩).elim⟩

/-- Behind a zero byte no empty line is found. -/
theorem no_zero_of_end (hnone : strstr headerEnd b = none) (h : strstr headerEnd (b++t) ≠ none) :
    (0 : UInt8) ∉ b := by
  obtain ⟨e,he⟩ := Option.ne_none_iff_exists'.mp h
  obtain ⟨hat,hzero⟩ := strstr_at he
  have hend : b.length < e+4 := by
    by_contra hle
    have hb : At headerEnd b e := hat.of_append (show e+4 ≤ b.length by omega)
    obtain ⟨j,-,hj⟩ := strstr_of_at hb fun k hk => by
      have := hzero k hk
      rwa [List.getElem?_append_left (by omega)] at this
    rw [hj] at hnone
    exact Option.some_ne_none j hnone
  intro hmem
  obtain ⟨k,hk,hk0⟩ := List.getElem_of_mem hmem
  have hget : (b++t)[k]? = some 0 := by
    rw [List.getElem?_append_left hk,List.getElem?_eq_getElem hk,hk0]
  by_cases hke : k < e
  · exact hzero k hke hget
  · have hin : k-e < headerEnd.length := by
      rw [length_headerEnd]
      omega
    have hchar := hat.get hin
    rw [Nat.add_sub_cancel' (by omega),hget] at hchar
    exact (show (0 : UInt8) ∉ headerEnd by decide) (List.mem_of_getElem? hchar.symm)

theorem completable_of_upgrade (hd : ¬ Decided b) (h : wsParseUpgradeRequest (b++t) = .upgrade) :
    Completable b := by
  have hc := complete_of_upgrade h
  rw [Completable]
  split_ifs with h4
  · have hget := hc.get
    rw [List.take_take,Nat.min_eq_left (by decide),List.take_append,
      List.take_of_length_le (by omega)] at hget
    exact ⟨_,hget⟩
  · rw [Decided,not_and_or,not_or,not_not] at hd
    obtain ⟨hnone,hbig⟩ := hd.resolve_left (by omega)
    rw [List.take_of_length_le (by omega)] at hnone
    rw [take_4096 (by omega)] at hc
    have hlen : (t.take (4096-b.length)).length ≤ 4096-b.length := List.length_take_le _ _
    have hget := hc.get
    rw [List.take_append_of_le_length (by omega)] at hget
    have hfound : strstr headerEnd (b++t.take (4096-b.length)) ≠ none := by
      have h4' : ¬ (b++t).length < 4 := by
        rw [List.length_append]
        omega
      rw [wsParseUpgradeRequest,if_neg h4',take_4096 (by omega)] at h
      dsimp only at h
      intro hnone'
      rw [if_pos hnone'] at h
      split_ifs at h
    have hzero := no_zero_of_end hnone hfound
    have hle := missing_le (by omega) hzero hnone hc
    exact ⟨hget,hzero,by omega⟩

theorem missing_get : missing (bytesOf "GET ") ≤ 46 := by decide

theorem upgrade_of_completable (hd : ¬ Decided b) (h : Completable b) :
    ∃ t, t ≠ [] ∧ wsParseUpgradeRequest (b++t) = .upgrade := by
  rw [Completable] at h
  split_ifs at h with h4
  · obtain ⟨u,hu⟩ := h
    obtain ⟨t,hzero,hle,hc⟩ := exists_complete (b := bytesOf "GET ") (by decide) (by decide)
    have hget := missing_get
    refine ⟨u++t,?_,?_⟩
    · intro hnil
      rw [List.append_eq_nil_iff] at hnil
      rw [hnil.1,List.append_nil] at hu
      rw [hu] at h4
      exact absurd h4 (by decide)
    · rw [← List.append_assoc,hu]
      apply upgrade_of_complete _ _ hc
      · rw [List.length_append,show (bytesOf "GET ").length = 4 by decide]
        omega
      · rw [List.mem_append]
        exact not_or.mpr ⟨by decide,hzero⟩
  · obtain ⟨hget,hzero,hfit⟩ := h
    rw [Decided,not_and_or,not_or,not_not] at hd
    obtain ⟨hnone,hbig⟩ := hd.resolve_left (by omega)
    rw [List.take_of_length_le (by omega)] at hnone
    obtain ⟨t,htzero,hle,hc⟩ := exists_complete (by omega) hget
    refine ⟨t,?_,upgrade_of_complete ?_ ?_ hc⟩
    · rintro rfl
      obtain ⟨e,he⟩ := hc.ends
      rw [List.append_nil] at he
      exact not_at hzero hnone e he
    · rw [List.length_append]
      omega
    · rw [List.mem_append]
      exact not_or.mpr ⟨hzero,htzero⟩

/-- A complete record with a ClientHello, as the fake TLS branch expects it. -/
def IsClientHello (b : Bytes) : Prop :=
  b.take 3 = [0x16,0x03,0x01] ∧ 2 ≤ b.getD 3 0 ∧ b.getD 3 0 < 128 ∧
    b.length = 5+256*(b.getD 3 0).toNat+(b.getD 4 0).toNat

/-- A header of obfs2 is random but for its first bytes, which are not those of a request. -/
def IsObfs2Header (b : Bytes) : Prop :=
  b.length = 64 ∧ b.take 4 ∉ [bytesOf "HEAD",bytesOf "POST",bytesOf "GET ",bytesOf "OPTI"]

/-- A complete header of the PROXY protocol. -/
def IsProxyHeader (b : Bytes) : Prop := ∃ r, proxyProtocolParse b = .header b.length r

instance (b : Bytes) : Decidable (IsClientHello b) := inferInstanceAs (Decidable (_ ∧ _))
instance (b : Bytes) : Decidable (IsObfs2Header b) := inferInstanceAs (Decidable (_ ∧ _))

/-- The probe waits only for what can become an upgrade request, and a complete message of
another protocol goes on to the branches behind the probe. -/
structure NotHeldBack (b : Bytes) : Prop where
  waits : wsParseUpgradeRequest b = .more → ∃ t, t ≠ [] ∧ wsParseUpgradeRequest (b++t) = .upgrade
  others : IsClientHello b ∨ IsObfs2Header b ∨ IsProxyHeader b →
    probe {inBuf := b} = ({inBuf := b, wsState := .none},none)

theorem IsProxyHeader.first (h : IsProxyHeader b) :
    6 ≤ b.length ∧ (bytesOf "PROXY " <+: b ∨ pp2Signature <+: b) := by
  obtain ⟨r,hr⟩ := h
  rw [proxyProtocolParse] at hr
  split_ifs at hr with h6 hv1 hv2
  · exact ⟨by omega,Or.inl hv1⟩
  · exact ⟨by omega,Or.inr hv2⟩

theorem take_eq_take {n : ℕ} (h : p <+: b) (hn : n ≤ p.length) : b.take n = p.take n := by
  obtain ⟨t,rfl⟩ := h
  rw [List.take_append_of_le_length hn]

/-- The other protocols do not begin as a request. -/
theorem other_first (h : IsClientHello b ∨ IsObfs2Header b ∨ IsProxyHeader b) :
    4 ≤ b.length ∧ b.take 4 ≠ bytesOf "GET " ∧ b.take 4 ≠ bytesOf "POST" := by
  rcases h with h | h | h
  · obtain ⟨hfirst,-,-,hlen⟩ := h
    have htake : (b.take 4).take 3 = [0x16,0x03,0x01] := by
      rw [List.take_take,Nat.min_eq_left (by decide),hfirst]
    refine ⟨by omega,?_,?_⟩
    · intro hget
      rw [hget] at htake
      exact absurd htake (by decide)
    · intro hpost
      rw [hpost] at htake
      exact absurd htake (by decide)
  · obtain ⟨hlen,hfirst⟩ := h
    refine ⟨by omega,?_,?_⟩
    · intro hget
      exact hfirst (by simp [hget])
    · intro hpost
      exact hfirst (by simp [hpost])
  · obtain ⟨hlen,hfirst | hfirst⟩ := h.first
    · rw [take_eq_take hfirst (by decide)]
      exact ⟨by omega,by decide,by decide⟩
    · rw [take_eq_take hfirst (by decide)]
      exact ⟨by omega,by decide,by decide⟩

/-- A decided buffer that does not begin as a request passes the probe. -/
theorem probe_passes (hd : Decided b) (hget : b.take 4 ≠ bytesOf "GET ")
    (hpost : b.take 4 ≠ bytesOf "POST") :
    probe {inBuf := b} = ({inBuf := b, wsState := .none},none) := by
  have hws : wsParseUpgradeRequest b = .notUpgrade := by
    cases hr : wsParseUpgradeRequest b with
    | notUpgrade => rfl
    | more => exact ((more_iff b).mp hr hd).elim
    | upgrade =>
        have htake := (complete_of_upgrade hr).get
        rw [List.take_take,Nat.min_eq_left (by decide)] at htake
        exact (hget htake).elim
  rw [probe,if_neg (by simp),if_neg (fun h => hpost h.2),probeUpgrade,hws]

/-- The probe holds nothing back exactly when the buffer is decided or can still become an
upgrade request. -/
theorem not_held_back_iff (b : Bytes) : NotHeldBack b ↔ Decided b ∨ Completable b := by
  constructor
  · intro h
    by_cases hd : Decided b
    · exact Or.inl hd
    · obtain ⟨t,-,ht⟩ := h.waits ((more_iff b).mpr hd)
      exact Or.inr (completable_of_upgrade hd ht)
  · intro h
    constructor
    · intro hmore
      have hd := (more_iff b).mp hmore
      exact upgrade_of_completable hd (h.resolve_left hd)
    · intro hother
      obtain ⟨h4,hget,hpost⟩ := other_first hother
      apply probe_passes (h.resolve_right _) hget hpost
      rw [Completable,if_neg (by omega)]
      exact fun hc => hget hc.1

/-- An obfs2 header, a ClientHello and a PROXY header that are complete and have to wait. -/
theorem complete_messages_held_back :
    (IsObfs2Header (List.replicate 64 1) ∧ ¬ NotHeldBack (List.replicate 64 1)) ∧
    (IsClientHello ([0x16,0x03,0x01,0x02,0x00,0x01,0x00,0x01,0xfc]++List.replicate 508 3) ∧
      ¬ NotHeldBack ([0x16,0x03,0x01,0x02,0x00,0x01,0x00,0x01,0xfc]++List.replicate 508 3)) ∧
    IsProxyHeader (bytesOf "PROXY TCP4 1.2.3.4 5.6.7.8 9 443\r\n") ∧
      ¬ NotHeldBack (bytesOf "PROXY TCP4 1.2.3.4 5.6.7.8 9 443\r\n") := by
  have hheld : ∀ b, IsClientHello b ∨ IsObfs2Header b ∨ IsProxyHeader b → ¬ Decided b →
      ¬ NotHeldBack b := by
    intro b hother hd h
    obtain ⟨t,-,ht⟩ := h.waits ((more_iff b).mpr hd)
    have hc := completable_of_upgrade hd ht
    obtain ⟨h4,hget,-⟩ := other_first hother
    rw [Completable,if_neg (by omega)] at hc
    exact hget hc.1
  have hobfs2 : IsObfs2Header (List.replicate 64 1) := by decide
  have hhello : IsClientHello
      ([0x16,0x03,0x01,0x02,0x00,0x01,0x00,0x01,0xfc]++List.replicate 508 3) := by decide +kernel
  have hproxy : IsProxyHeader (bytesOf "PROXY TCP4 1.2.3.4 5.6.7.8 9 443\r\n") :=
    ⟨{family := .inet, srcIp := 0x01020304, srcPort := 9},by decide +kernel⟩
  refine ⟨⟨hobfs2,hheld _ (Or.inr (Or.inl hobfs2)) ?_⟩,⟨hhello,hheld _ (Or.inl hhello) ?_⟩,
    hproxy,hheld _ (Or.inr (Or.inr hproxy)) ?_⟩
  · decide +kernel
  · decide +kernel
  · decide +kernel

end Teleproxy.ProtocolProbe
