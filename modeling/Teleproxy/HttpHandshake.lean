import Teleproxy.ClientInput

/-!
# The HTTP request in front of the stream

A client that speaks WebSocket or the HTTP stream starts with an HTTP request.
Whatever part of the request has arrived, and whatever has arrived behind it,
the probe waits until the request is complete and then takes exactly the
request off the buffer.
-/
namespace Teleproxy.HttpHandshake
open ClientInput

variable {p s t q r : Bytes} {i : ℕ}

theorem strstr_le (h : strstr p s = some i) : i+p.length ≤ s.length := by
  induction s generalizing i with
  | nil =>
      unfold strstr at h
      split_ifs at h with hp
      cases h
      simp [hp]
  | cons b s ih =>
      unfold strstr at h
      split_ifs at h with hp hb
      · cases h
        simpa using (List.isPrefixOf_iff_prefix.mp hp).length_le
      · obtain ⟨j,hj,rfl⟩ := Option.map_eq_some_iff.mp h
        have := ih hj
        simp only [List.length_cons]
        omega

/-- Bytes behind the text it was found in change nothing. -/
theorem strstr_append (h : strstr p s = some i) (t : Bytes) : strstr p (s++t) = some i := by
  induction s generalizing i with
  | nil =>
      unfold strstr at h
      split_ifs at h with hp
      cases h
      subst hp
      cases t <;> simp [strstr]
  | cons b s ih =>
      have hle := strstr_le h
      rw [List.cons_append]
      unfold strstr at h ⊢
      have hpre : p.isPrefixOf (b::(s++t)) = p.isPrefixOf (b::s) := by
        rw [Bool.eq_iff_iff,List.isPrefixOf_iff_prefix,List.isPrefixOf_iff_prefix]
        constructor
        · intro hp
          exact List.prefix_of_prefix_length_le hp (List.prefix_append (b::s) t) (by omega)
        · intro hp
          exact hp.trans (List.prefix_append (b::s) t)
      rw [hpre]
      split_ifs at h ⊢ with hp hb
      · exact h
      · obtain ⟨j,hj,rfl⟩ := Option.map_eq_some_iff.mp h
        rw [ih hj]
        rfl

/-- Nothing is found before the last byte of the first match is there. -/
theorem strstr_of_cut (h : strstr p s = some i) (hq : q <+: s) (hlt : q.length < i+p.length) :
    strstr p q = none := by
  cases hj : strstr p q with
  | none => rfl
  | some j =>
      obtain ⟨t,rfl⟩ := hq
      have heq := (strstr_append hj t).symm.trans h
      cases heq
      have := strstr_le hj
      omega

theorem strcasestr_append (h : strcasestr p s = some i) (t : Bytes) :
    strcasestr p (s++t) = some i := by
  unfold strcasestr at h ⊢
  rw [List.map_append]
  exact strstr_append h _

theorem ne_none_append (h : strstr p s ≠ none) (t : Bytes) : strstr p (s++t) ≠ none := by
  obtain ⟨i,hi⟩ := Option.ne_none_iff_exists'.mp h
  rw [strstr_append hi]
  simp

/-- A request the parser accepts, that ends with its first empty line and is
not longer than the parser looks. -/
structure ValidUpgrade (r : Bytes) : Prop where
  fits : r.length ≤ 4096
  ends : strstr headerEnd r = some (r.length-4)
  accepted : wsParseUpgradeRequest r = .upgrade

theorem ValidUpgrade.get (h : ValidUpgrade r) : r.take 4 = bytesOf "GET " ∧ 4 ≤ r.length := by
  have ha := h.accepted
  unfold wsParseUpgradeRequest at ha
  have hlen : ¬ r.length < 4 := by
    intro hlt
    rw [if_pos hlt] at ha
    cases ha
  rw [if_neg hlen,List.take_of_length_le h.fits] at ha
  dsimp only at ha
  split_ifs at ha with h₁ h₂ h₃ h₄
  exact ⟨not_not.mp h₃,by omega⟩

theorem ValidUpgrade.waits (h : ValidUpgrade r) (hq : q <+: r) (hlt : q.length < r.length) :
    wsParseUpgradeRequest q = .more := by
  unfold wsParseUpgradeRequest
  by_cases h4 : q.length < 4
  · rw [if_pos h4]
  · have hfits := h.fits
    have hnone : strstr headerEnd q = none := by
      refine strstr_of_cut h.ends hq ?_
      have : headerEnd.length = 4 := rfl
      omega
    rw [if_neg h4,List.take_of_length_le (by omega)]
    dsimp only
    rw [if_pos hnone,if_neg (by omega)]

theorem take_4096 (h : r.length ≤ 4096) (t : Bytes) :
    (r++t).take 4096 = r++t.take (4096-r.length) := by
  rw [List.take_append,List.take_of_length_le h]

theorem ValidUpgrade.headerLength (h : ValidUpgrade r) (t : Bytes) :
    headerLength (r++t) = r.length := by
  have h4 := h.get.2
  unfold ClientInput.headerLength
  rw [take_4096 h.fits,strstr_append h.ends]
  dsimp only
  omega

theorem dropWhile_append_of_ne_nil {α : Type*} {f : α → Bool} {as bs : List α}
    (h : as.dropWhile f ≠ []) : (as++bs).dropWhile f = as.dropWhile f++bs := by
  induction as with
  | nil => exact (h rfl).elim
  | cons a as ih =>
      by_cases ha : f a
      · simp only [List.cons_append,List.dropWhile_cons,ha,if_true] at h ⊢
        exact ih h
      · simp [ha]

/-- Frames behind the request do not disturb it. -/
theorem ValidUpgrade.completes (h : ValidUpgrade r) (t : Bytes) :
    wsParseUpgradeRequest (r++t) = .upgrade := by
  have hget := h.get
  have ha := h.accepted
  unfold wsParseUpgradeRequest at ha ⊢
  rw [if_neg (by omega),List.take_of_length_le h.fits] at ha
  rw [if_neg (by rw [List.length_append]; omega),take_4096 h.fits]
  dsimp only at ha ⊢
  generalize t.take (4096-r.length) = u
  split_ifs at ha with h₁ h₂ h₃ h₄ h₅
  have htake : (r++u).take 4 = r.take 4 := List.take_append_of_le_length hget.2
  have hdrop : (r++u).drop 4 = r.drop 4++u := List.drop_append_of_le_length hget.2
  obtain ⟨j,hj⟩ := Option.ne_none_iff_exists'.mp h₅
  rw [if_neg (ne_none_append h₁ u),if_neg (by rw [htake]; exact h₃),
    if_neg (by rw [hdrop]; exact ne_none_append h₄ u),
    if_neg (by rw [strcasestr_append hj]; simp)]
  cases hk : strcasestr (bytesOf "Sec-WebSocket-Key:") r with
  | none =>
      rw [hk] at ha
      cases ha
  | some k =>
      rw [hk] at ha
      rw [strcasestr_append hk]
      dsimp only at ha ⊢
      have hle : k+(bytesOf "Sec-WebSocket-Key:").length ≤ r.length := by
        simpa using strstr_le hk
      split_ifs at ha with hcrlf
      have hne : (r.drop (k+(bytesOf "Sec-WebSocket-Key:").length)).dropWhile (· = 32) ≠ [] := by
        intro hnil
        rw [hnil] at hcrlf
        exact hcrlf rfl
      rw [List.drop_append_of_le_length hle,dropWhile_append_of_ne_nil hne,
        if_neg (ne_none_append hcrlf u)]

theorem ValidUpgrade.append_ne_nil (h : ValidUpgrade r) (t : Bytes) : r++t ≠ [] := by
  have h4 := h.get.2
  rw [← List.length_pos_iff,List.length_append]
  omega

variable {c : Conn}

theorem ValidUpgrade.not_post (h : ValidUpgrade r) (hq : q <+: r++t) (hlen : 4 ≤ q.length) :
    q.take 4 ≠ bytesOf "POST" := by
  obtain ⟨hget,h4⟩ := h.get
  have htake : q.take 4 = r.take 4 := by
    obtain ⟨u,hu⟩ := hq
    have hcut : (q++u).take 4 = q.take 4 := List.take_append_of_le_length hlen
    rw [← hcut,hu,List.take_append_of_le_length h4]
  rw [htake,hget]
  decide

theorem ValidUpgrade.probe_waits (h : ValidUpgrade r) (hs : c.wsState = .handshake)
    (hq : c.inBuf <+: r) (hlt : c.inBuf.length < r.length) : probe c = (c,some .needMore) := by
  have hpost : ¬ (c.inBuf.length ≥ 4 ∧ c.inBuf.take 4 = bytesOf "POST") := fun hp =>
    h.not_post (t := []) (by simpa using hq) hp.1 hp.2
  unfold probe
  rw [if_neg (by simp [hs]),if_neg hpost,probeUpgrade,h.waits hq hlt]

theorem ValidUpgrade.probe_completes (h : ValidUpgrade r) (hs : c.wsState = .handshake)
    (ht : c.inBuf = r++t) :
    probe c = ({c with inBuf := t, wsState := .active},if t = [] then some .needMore else none) := by
  have hpost : ¬ (c.inBuf.length ≥ 4 ∧ c.inBuf.take 4 = bytesOf "POST") := fun hp =>
    h.not_post (t := t) (by rw [ht]) hp.1 hp.2
  unfold probe
  rw [if_neg (by simp [hs]),if_neg hpost,probeUpgrade,ht,h.completes,h.headerLength]
  simp only [List.drop_left]

/-- The headers of a POST request: they end with their first empty line and are
not longer than the parser looks. A request line alone has more than 16 bytes. -/
structure ValidPost (r : Bytes) : Prop where
  post : r.take 4 = bytesOf "POST"
  line : 16 ≤ r.length
  fits : r.length ≤ 4096
  ends : strstr headerEnd r = some (r.length-4)

theorem ValidPost.headerLength (h : ValidPost r) (t : Bytes) : headerLength (r++t) = r.length := by
  have h16 := h.line
  unfold ClientInput.headerLength
  rw [take_4096 h.fits,strstr_append h.ends]
  dsimp only
  omega

theorem ValidPost.append_ne_nil (h : ValidPost r) (t : Bytes) : r++t ≠ [] := by
  have h16 := h.line
  rw [← List.length_pos_iff,List.length_append]
  omega

theorem ValidPost.probe_waits (h : ValidPost r) (hs : c.wsState = .handshake)
    (hq : c.inBuf <+: r) (hlt : c.inBuf.length < r.length) : probe c = (c,some .needMore) := by
  have hfits := h.fits
  unfold probe
  rw [if_neg (by simp [hs])]
  by_cases h4 : c.inBuf.length ≥ 4
  · have htake : c.inBuf.take 4 = bytesOf "POST" := by
      obtain ⟨u,hu⟩ := hq
      rw [← h.post,← hu,List.take_append_of_le_length h4]
    have hnone : strstr headerEnd (c.inBuf.take 4096) = none := by
      rw [List.take_of_length_le (by omega)]
      refine strstr_of_cut h.ends hq ?_
      have : headerEnd.length = 4 := rfl
      omega
    rw [if_pos ⟨h4,htake⟩,probePost]
    split_ifs
    · rfl
    · omega
    · rfl
  · rw [if_neg (fun hp => h4 hp.1),probeUpgrade,wsParseUpgradeRequest,if_pos (by omega)]

theorem ValidPost.probe_completes (h : ValidPost r) (hs : c.wsState = .handshake)
    (ht : c.inBuf = r++t) :
    probe c =
      ({c with inBuf := t, wsState := .httpStream},if t = [] then some .needMore else none) := by
  have h16 := h.line
  have hlen : 16 ≤ c.inBuf.length := by
    rw [ht,List.length_append]
    omega
  have htake : c.inBuf.take 4 = bytesOf "POST" := by
    rw [ht,List.take_append_of_le_length (by omega),h.post]
  have hfound : strstr headerEnd (c.inBuf.take 4096) ≠ none := by
    rw [ht,take_4096 h.fits,strstr_append h.ends]
    simp
  unfold probe
  rw [if_neg (by simp [hs]),if_pos ⟨by omega,htake⟩,probePost,if_neg (by omega),if_neg hfound,ht,
    h.headerLength]
  simp only [List.drop_left]

end Teleproxy.HttpHandshake
