import Mathlib.Data.List.TakeWhile
import Teleproxy.ProxyProtocol

/-!
# A PROXY header in a message of many parts

`proxy_protocol_parse` looks at the beginning of the input, which is a message of several
blocks, writes the result to a record of the caller and takes the header off the message.
Here it is followed on the blocks and with the record, which a failed call may leave half
written. `ProxyProtocol` has what a whole buffer means.

The last part is the caller: data arrives in pieces, and it parses after each piece as long
as the result is 0. `inet_pton` is taken to leave its target alone when it fails.
-/
namespace Teleproxy.ProxyHeaderStream
open ClientInput ProxyProtocol

/-- The loop of `rwm_process_ex` over the blocks: what was processed and the blocks that are
left when it advances. -/
def process : List Bytes → ℕ → Bytes × List Bytes
  | blocks, 0 => ([],blocks)
  | [], _+1 => ([],[])
  | b::blocks, n+1 =>
      if n+1 ≤ b.length then (b.take (n+1),b.drop (n+1)::blocks)
      else
        let (data,rest) := process blocks (n+1-b.length)
        (b++data,rest)

def totalBytes (blocks : List Bytes) : ℕ := (blocks.map List.length).sum

/-- No more is processed than there is. -/
def rwmFetchLookup (blocks : List Bytes) (bytes : ℕ) : Bytes :=
  (process blocks (min bytes (totalBytes blocks))).1

/-- The number of bytes skipped and the blocks after it. -/
def rwmSkipData (blocks : List Bytes) (bytes : ℕ) : ℕ × List Bytes :=
  let bytes := min bytes (totalBytes blocks)
  (bytes,(process blocks bytes).2)

/-- The result, the record and the message after the call. -/
structure Run where
  result : ℤ
  out : ProxyResult
  rest : List Bytes
  deriving DecidableEq, Repr

/-- The header is skipped, which is asserted, and its length returned. -/
def accept (blocks : List Bytes) (headerLen : ℕ) (out : ProxyResult) : Option Run :=
  let (skipped,rest) := rwmSkipData blocks headerLen
  if skipped = headerLen then some ⟨headerLen,out,rest⟩ else none

/-- The fields of a line behind its family, with the record as it is left. -/
def parseFieldsInto (family : Family) (inetPton : Bytes → Option ProxyResult) (p : Bytes) :
    Bool × ProxyResult :=
  match cutSpace p with
  | none => (false,{})
  | some (src,p) =>
      match inetPton src with
      | none => (false,{family := family})
      | some r =>
          match cutSpace p with
          | none => (false,r)
          | some (_,p) =>
              match cutSpace p with
              | none => (false,r)
              | some (port,_) => (true,{r with srcPort := atoiPort port})

/-- A line behind `PROXY `. The record was cleared before. -/
def parseLineInto (p : Bytes) : Bool × ProxyResult :=
  if bytesOf "UNKNOWN" <+: p then (true,{})
  else if bytesOf "TCP4 " <+: p then
    parseFieldsInto .inet
      (fun s => (inetPton4 s).map fun a => {family := .inet, srcIp := bigEndian a}) (p.drop 5)
  else if bytesOf "TCP6 " <+: p then
    parseFieldsInto .inet6
      (fun s => (inetPton6 s).map fun a => {family := .inet6, srcIpv6 := a}) (p.drop 5)
  else (false,{})

def parseV1Blocks (blocks : List Bytes) (out : ProxyResult) : Option Run :=
  let len := totalBytes blocks
  if len < 15 then some ⟨0,out,blocks⟩
  else
    let buf := rwmFetchLookup blocks (min len 108)
    match findCrlf buf with
    | none => if 108 ≤ buf.length then some ⟨-1,out,blocks⟩ else some ⟨0,out,blocks⟩
    | some crlfPos =>
        let (ok,out) := parseLineInto (((buf.take crlfPos).drop 6).takeWhile (· ≠ 0))
        if ok then accept blocks (crlfPos+2) out else some ⟨-1,out,blocks⟩

/-- Bytes that are asserted to be there. -/
def look (blocks : List Bytes) (n : ℕ) (k : Bytes → Option Run) : Option Run :=
  let data := rwmFetchLookup blocks n
  if data.length = n then k data else none

def parseV2Blocks (blocks : List Bytes) (out : ProxyResult) : Option Run :=
  let len := totalBytes blocks
  if len < 16 then some ⟨0,out,blocks⟩
  else
    look blocks 16 fun hdr =>
      let version := (hdr.getD 12 0).toNat/16
      let command := (hdr.getD 12 0).toNat%16
      let fam := (hdr.getD 13 0).toNat/16
      let addrLen := bigEndian ((hdr.drop 14).take 2)
      let totalLen := 16+addrLen
      if version ≠ 2 ∨ 1 < command then some ⟨-1,out,blocks⟩
      else if len < totalLen then some ⟨0,out,blocks⟩
      else if command = 0 then accept blocks totalLen {}
      else if fam = 1 ∧ 12 ≤ addrLen then
        look blocks 28 fun full =>
          accept blocks totalLen
            {family := .inet, srcIp := bigEndian ((full.drop 16).take 4),
             srcPort := bigEndian ((full.drop 24).take 2)}
      else if fam = 2 ∧ 36 ≤ addrLen then
        look blocks 52 fun full =>
          accept blocks totalLen
            {family := .inet6, srcIpv6 := (full.drop 16).take 16,
             srcPort := bigEndian ((full.drop 48).take 2)}
      else accept blocks totalLen {}

/-- `proxy_protocol_parse`; `none` is a failed assertion. -/
def proxyProtocolParseBlocks (blocks : List Bytes) (out : ProxyResult) : Option Run :=
  let len := totalBytes blocks
  if len < 6 then some ⟨0,out,blocks⟩
  else
    let peek := rwmFetchLookup blocks (min len 12)
    if bytesOf "PROXY " <+: peek then parseV1Blocks blocks out
    else if 12 ≤ peek.length ∧ pp2Signature <+: peek then parseV2Blocks blocks out
    else if peek.length < 12 then some ⟨0,out,blocks⟩
    else some ⟨-1,out,blocks⟩

section Blocks
variable {blocks : List Bytes} {out : ProxyResult} {n : ℕ}

theorem totalBytes_eq (blocks : List Bytes) : totalBytes blocks = blocks.flatten.length := by
  rw [totalBytes,List.length_flatten]

theorem process_eq (blocks : List Bytes) (n : ℕ) :
    (process blocks n).1 = blocks.flatten.take n ∧
      (process blocks n).2.flatten = blocks.flatten.drop n := by
  induction blocks generalizing n with
  | nil => cases n <;> simp [process]
  | cons b blocks ih =>
      cases n with
      | zero => simp [process]
      | succ n =>
          rw [process]
          by_cases hle : n+1 ≤ b.length
          · rw [if_pos hle]
            simp only [List.flatten_cons]
            rw [List.take_append_of_le_length hle,List.drop_append_of_le_length hle]
            exact ⟨rfl,rfl⟩
          · rw [if_neg hle]
            obtain ⟨hdata,hrest⟩ := ih (n+1-b.length)
            dsimp only
            have htake : b.take (n+1) = b := List.take_of_length_le (by omega)
            have hdrop : b.drop (n+1) = [] := List.drop_eq_nil_of_le (by omega)
            rw [hdata,hrest,List.flatten_cons,List.take_append,List.drop_append,htake,hdrop,
              List.nil_append]
            exact ⟨rfl,rfl⟩

theorem rwmFetchLookup_eq (blocks : List Bytes) (n : ℕ) :
    rwmFetchLookup blocks n = blocks.flatten.take n := by
  rw [rwmFetchLookup,(process_eq blocks _).1,totalBytes_eq,← List.take_take,List.take_length]

/-- Skipping what is there succeeds. -/
theorem accept_eq (hn : n ≤ blocks.flatten.length) : ∃ rest,
    accept blocks n out = some ⟨n,out,rest⟩ ∧ rest.flatten = blocks.flatten.drop n := by
  have hmin : min n (totalBytes blocks) = n := by
    rw [totalBytes_eq]
    omega
  refine ⟨(process blocks n).2,?_,(process_eq blocks n).2⟩
  simp only [accept,rwmSkipData,hmin,if_true]

theorem look_eq {k : Bytes → Option Run} (hn : n ≤ blocks.flatten.length) :
    look blocks n k = k (blocks.flatten.take n) := by
  simp only [look,rwmFetchLookup_eq,List.length_take,Nat.min_eq_left hn,if_true]

end Blocks

/-- The record after a header that was refused. It is cleared only once the line is complete. -/
def recordLeft (buf : Bytes) (out : ProxyResult) : ProxyResult :=
  if bytesOf "PROXY " <+: buf then
    match findCrlf (buf.take 108) with
    | none => out
    | some n => (parseLineInto (((buf.take n).drop 6).takeWhile (· ≠ 0))).2
  else out

/-- What is returned and recorded, for a buffer that means `parsed`. -/
def outcomeOf (out left : ProxyResult) : Parsed → ℤ × ProxyResult
  | .more => (0,out)
  | .bad => (-1,left)
  | .header n r => (n,r)

def outcome (buf : Bytes) (out : ProxyResult) : ℤ × ProxyResult :=
  outcomeOf out (recordLeft buf out) (proxyProtocolParse buf)

/-- A call that returns what `parsed` says and takes off what it returns. -/
def Yields (blocks : List Bytes) (out left : ProxyResult) (parsed : Parsed) (run : Option Run) : Prop :=
  ∃ rest, run = some ⟨(outcomeOf out left parsed).1,(outcomeOf out left parsed).2,rest⟩ ∧
    ((outcomeOf out left parsed).1 ≤ 0 → rest = blocks) ∧
    rest.flatten = blocks.flatten.drop (outcomeOf out left parsed).1.toNat

section Refinement
variable {blocks : List Bytes} {out left : ProxyResult} {n : ℕ} {p : Bytes}

theorem yields_more : Yields blocks out left .more (some ⟨0,out,blocks⟩) := ⟨blocks,rfl,fun _ => rfl,rfl⟩

theorem yields_bad : Yields blocks out left .bad (some ⟨-1,left,blocks⟩) := ⟨blocks,rfl,fun _ => rfl,rfl⟩

theorem yields_header (hpos : 0 < n) (hn : n ≤ blocks.flatten.length) (r : ProxyResult) :
    Yields blocks out left (.header n r) (accept blocks n r) := by
  obtain ⟨rest,haccept,hrest⟩ : ∃ rest, accept blocks n r = some ⟨n,r,rest⟩ ∧ _ := accept_eq hn
  refine ⟨rest,haccept,?_,hrest⟩
  intro hle
  simp only [outcomeOf] at hle
  omega

theorem parseFieldsInto_eq (family : Family) (inetPton : Bytes → Option ProxyResult) (p : Bytes) :
    parseFields inetPton p = if (parseFieldsInto family inetPton p).1 then
      some (parseFieldsInto family inetPton p).2 else none := by
  unfold parseFields parseFieldsInto
  cases cutSpace p with
  | none => rfl
  | some cut =>
      cases hsrc : inetPton cut.1 with
      | none => simp [hsrc]
      | some r =>
          cases hdst : cutSpace cut.2 with
          | none => simp [hsrc,hdst]
          | some cut' => cases hport : cutSpace cut'.2 <;> simp [hsrc,hdst,hport]

theorem parseLineInto_eq (p : Bytes) :
    parseLine p = if (parseLineInto p).1 then some (parseLineInto p).2 else none := by
  unfold parseLine parseLineInto
  by_cases hunknown : bytesOf "UNKNOWN" <+: p
  · simp only [hunknown,if_true]
  · by_cases htcp4 : bytesOf "TCP4 " <+: p
    · simp only [hunknown,htcp4,if_false,if_true]
      exact parseFieldsInto_eq .inet _ _
    · by_cases htcp6 : bytesOf "TCP6 " <+: p
      · simp only [hunknown,htcp4,htcp6,if_false,if_true]
        exact parseFieldsInto_eq .inet6 _ _
      · simp only [hunknown,htcp4,htcp6,if_false,Bool.false_eq_true]

theorem parseV1Blocks_yields (hv1 : bytesOf "PROXY " <+: blocks.flatten) :
    Yields blocks out (recordLeft blocks.flatten out) (parseV1 blocks.flatten)
      (parseV1Blocks blocks out) := by
  have hpeek : rwmFetchLookup blocks (min (totalBytes blocks) 108) = blocks.flatten.take 108 := by
    rw [rwmFetchLookup_eq,totalBytes_eq,Nat.min_comm,← List.take_take,List.take_length]
  rw [parseV1,parseV1Blocks]
  dsimp only
  rw [hpeek,totalBytes_eq]
  by_cases h15 : blocks.flatten.length < 15
  · rw [if_pos h15,if_pos h15]
    exact yields_more
  · rw [if_neg h15,if_neg h15]
    cases hcrlf : findCrlf (blocks.flatten.take 108) with
    | none =>
        have hleft : recordLeft blocks.flatten out = out := by rw [recordLeft,if_pos hv1,hcrlf]
        dsimp only
        rw [List.length_take,hleft]
        by_cases h108 : blocks.flatten.length ≥ 108
        · rw [if_pos h108,if_pos (by omega)]
          exact yields_bad
        · rw [if_neg h108,if_neg (by omega)]
          exact yields_more
    | some n =>
        have hin := (findCrlf_eq_some.mp hcrlf).1
        rw [List.length_take] at hin
        have htake : (blocks.flatten.take 108).take n = blocks.flatten.take n := by
          rw [List.take_take,Nat.min_eq_left (by omega)]
        have hleft : recordLeft blocks.flatten out =
            (parseLineInto (((blocks.flatten.take n).drop 6).takeWhile (· ≠ 0))).2 := by
          rw [recordLeft,if_pos hv1,hcrlf]
        dsimp only
        rw [htake,parseLineInto_eq]
        cases hline : parseLineInto (((blocks.flatten.take n).drop 6).takeWhile (· ≠ 0)) with
        | mk ok r =>
            rw [hline] at hleft
            cases ok with
            | false =>
                dsimp only at hleft
                rw [hleft]
                exact yields_bad
            | true => exact yields_header (by omega) (by omega) r

/-- What is seen of the first `m` bytes. -/
theorem window_take {m i : ℕ} (buf : Bytes) (hn : i+n ≤ m) (hm : m ≤ buf.length) :
    ((buf.take m).drop i).take n = (buf.drop i).take n := by
  refine (window ( List.take_prefix m buf) ?_).symm
  rw [List.length_take]
  omega

theorem parseV2Blocks_yields :
    Yields blocks out out (parseV2 blocks.flatten) (parseV2Blocks blocks out) := by
  rw [parseV2,parseV2Blocks]
  dsimp only
  rw [totalBytes_eq]
  by_cases h16 : blocks.flatten.length < 16
  · rw [if_pos h16,if_pos h16]
    exact yields_more
  · have hpre : blocks.flatten.take 16 <+: blocks.flatten := List.take_prefix _ _
    have hlen16 : (blocks.flatten.take 16).length = 16 := by
      rw [List.length_take]
      omega
    have h12 := getD_window hpre (i := 12) (by omega)
    have h13 := getD_window hpre (i := 13) (by omega)
    have h14 : ((blocks.flatten.take 16).drop 14).take 2 = (blocks.flatten.drop 14).take 2 :=
      window_take blocks.flatten (by decide) (by omega)
    rw [if_neg h16,if_neg h16,look_eq (by omega),← h12,← h13,h14]
    split_ifs with hbad hshort hlocal hinet hinet6
    · exact yields_bad
    · exact yields_more
    · exact yields_header (by omega) (by omega) _
    · rw [look_eq (by omega),window_take blocks.flatten (by decide) (by omega),
        window_take blocks.flatten (by decide) (by omega)]
      exact yields_header (by omega) (by omega) _
    · rw [look_eq (by omega),window_take blocks.flatten (by decide) (by omega),
        window_take blocks.flatten (by decide) (by omega)]
      exact yields_header (by omega) (by omega) _
    · exact yields_header (by omega) (by omega) _

theorem recordLeft_of_not_v1 (h : ¬ bytesOf "PROXY " <+: blocks.flatten) :
    recordLeft blocks.flatten out = out := if_neg h

/-- The call on the blocks does what the bytes in them say. -/
theorem parse_yields (blocks : List Bytes) (out : ProxyResult) :
    Yields blocks out (recordLeft blocks.flatten out) (proxyProtocolParse blocks.flatten)
      (proxyProtocolParseBlocks blocks out) := by
  have hpeek : rwmFetchLookup blocks (min (totalBytes blocks) 12) = blocks.flatten.take 12 := by
    rw [rwmFetchLookup_eq,totalBytes_eq,Nat.min_comm,← List.take_take,List.take_length]
  have hsigns : ∀ {sig : Bytes}, sig.length ≤ 12 →
      (sig <+: blocks.flatten.take 12 ↔ sig <+: blocks.flatten) := by
    intro sig hsig
    rw [List.prefix_take_iff]
    exact ⟨fun h => h.1,fun h => ⟨h,hsig⟩⟩
  rw [proxyProtocolParse,proxyProtocolParseBlocks]
  dsimp only
  rw [hpeek,totalBytes_eq,List.length_take]
  simp only [hsigns (show (bytesOf "PROXY ").length ≤ 12 by decide),
    hsigns (show pp2Signature.length ≤ 12 by decide)]
  by_cases h6 : blocks.flatten.length < 6
  · rw [if_pos h6,if_pos h6]
    exact yields_more
  · rw [if_neg h6,if_neg h6]
    by_cases hv1 : bytesOf "PROXY " <+: blocks.flatten
    · rw [if_pos hv1,if_pos hv1]
      exact parseV1Blocks_yields hv1
    · rw [if_neg hv1,if_neg hv1,recordLeft_of_not_v1 hv1]
      by_cases hv2 : pp2Signature <+: blocks.flatten
      · have h12 : 12 ≤ blocks.flatten.length := hv2.length_le
        rw [if_pos hv2,if_pos ⟨by omega,hv2⟩]
        exact parseV2Blocks_yields
      · have hv2' : ¬ (12 ≤ min 12 blocks.flatten.length ∧ pp2Signature <+: blocks.flatten) :=
          fun h => hv2 h.2
        rw [if_neg hv2,if_neg hv2']
        by_cases h12 : blocks.flatten.length < 12
        · rw [if_pos h12,if_pos (by omega)]
          exact yields_more
        · rw [if_neg h12,if_neg (by omega)]
          exact yields_bad

end Refinement

section Stable
variable {p q buf : Bytes} {out : ProxyResult} {n k : ℕ} {r : ProxyResult}

theorem take_extend (hp : p <+: q) (hn : n ≤ p.length) : q.take n = p.take n := by
  obtain ⟨t,rfl⟩ := hp
  exact List.take_append_of_le_length hn

theorem parseV1_bad (h : parseV1 buf = .bad) : 15 ≤ buf.length ∧
    (findCrlf (buf.take 108) = none ∧ 108 ≤ buf.length ∨ ∃ k, findCrlf (buf.take 108) = some k ∧
      k ≤ buf.length ∧ parseLine (((buf.take k).drop 6).takeWhile (· ≠ 0)) = none) := by
  unfold parseV1 at h
  split at h
  · cases h
  · refine ⟨by omega,?_⟩
    cases hcrlf : findCrlf (buf.take 108) with
    | none =>
        rw [hcrlf] at h
        dsimp only at h
        split at h
        · exact .inl ⟨rfl,by omega⟩
        · cases h
    | some k =>
        have hin := (findCrlf_eq_some.mp hcrlf).1
        rw [List.length_take] at hin
        rw [hcrlf] at h
        dsimp only at h
        split at h
        · rename_i hline
          exact .inr ⟨k,rfl,by omega,hline⟩
        · cases h

theorem parseV1_bad_append (h : parseV1 p = .bad) (hp : p <+: q) :
    parseV1 q = .bad ∧ findCrlf (q.take 108) = findCrlf (p.take 108) := by
  have hle := hp.length_le
  obtain ⟨h15,hcases⟩ := parseV1_bad h
  rw [parseV1,if_neg (by omega)]
  rcases hcases with ⟨hnone,h108⟩ | ⟨k,hcrlf,hk,hline⟩
  · rw [take_extend hp h108,hnone]
    exact ⟨if_pos (by omega),rfl⟩
  · rw [findCrlf_append hcrlf (hp.take 108),hcrlf]
    dsimp only
    rw [take_extend hp hk,hline]
    exact ⟨rfl,rfl⟩

theorem parseV2_bad (h : parseV2 buf = .bad) : 16 ≤ buf.length ∧
    ((buf.getD 12 0).toNat/16 ≠ 2 ∨ 1 < (buf.getD 12 0).toNat%16) := by
  unfold parseV2 at h
  dsimp only at h
  split_ifs at h with h16 hversion
  exact ⟨by omega,hversion⟩

theorem parseV2_bad_append (h : parseV2 p = .bad) (hp : p <+: q) : parseV2 q = .bad := by
  have hle := hp.length_le
  obtain ⟨h16,hversion⟩ := parseV2_bad h
  rw [← getD_window hp (by omega)] at hversion
  rw [parseV2,if_neg (by omega)]
  exact if_pos hversion

theorem starts_extend {sig : Bytes} (hp : p <+: q) (hn : sig.length ≤ p.length) :
    sig <+: q ↔ sig <+: p :=
  ⟨fun h => List.prefix_of_prefix_length_le h hp hn,fun h => h.trans hp⟩

theorem recordLeft_append (h6 : 6 ≤ p.length) (hp : p <+: q)
    (hv1 : bytesOf "PROXY " <+: p → findCrlf (q.take 108) = findCrlf (p.take 108)) :
    recordLeft q out = recordLeft p out := by
  rw [recordLeft,recordLeft]
  simp only [starts_extend hp (show (bytesOf "PROXY ").length ≤ p.length from h6)]
  by_cases hsig : bytesOf "PROXY " <+: p
  · rw [if_pos hsig,if_pos hsig,hv1 hsig]
    cases hcrlf : findCrlf (p.take 108) with
    | none => rfl
    | some k =>
        have hin := (findCrlf_eq_some.mp hcrlf).1
        rw [List.length_take] at hin
        dsimp only
        rw [take_extend hp (by omega)]
  · rw [if_neg hsig,if_neg hsig]

theorem parse_bad_append (h : proxyProtocolParse p = .bad) (hp : p <+: q) :
    proxyProtocolParse q = .bad ∧ recordLeft q out = recordLeft p out := by
  have hle := hp.length_le
  have h6 : 6 ≤ p.length := by
    by_contra hlt
    rw [proxyProtocolParse,if_pos (by omega)] at h
    cases h
  have hsig := starts_extend hp (show (bytesOf "PROXY ").length ≤ p.length from h6)
  rw [proxyProtocolParse,if_neg (by omega)] at h ⊢
  simp only [hsig]
  by_cases hv1 : bytesOf "PROXY " <+: p
  · rw [if_pos hv1] at h ⊢
    obtain ⟨hbad,hcrlf⟩ := parseV1_bad_append h hp
    exact ⟨hbad,recordLeft_append h6 hp fun _ => hcrlf⟩
  · rw [if_neg hv1] at h ⊢
    refine ⟨?_,recordLeft_append h6 hp fun hyes => absurd hyes hv1⟩
    by_cases hv2 : pp2Signature <+: p
    · rw [if_pos hv2] at h
      rw [if_pos (hv2.trans hp)]
      exact parseV2_bad_append h hp
    · rw [if_neg hv2] at h
      have h12 : ¬ p.length < 12 := by
        intro hlt
        rw [if_pos hlt] at h
        cases h
      have hv2' := starts_extend hp (show pp2Signature.length ≤ p.length by
        rw [show pp2Signature.length = 12 from rfl]
        omega)
      rw [if_neg (mt hv2'.mp hv2),if_neg (by omega)]

/-- A result other than 0 stays, and what is recorded with it. -/
theorem outcome_append (h : (outcome p out).1 ≠ 0) (hp : p <+: q) : outcome q out = outcome p out := by
  rw [outcome,outcome] at *
  cases hparse : proxyProtocolParse p with
  | more =>
      rw [hparse] at h
      exact absurd rfl h
  | bad =>
      obtain ⟨hbad,hleft⟩ : _ ∧ recordLeft q out = recordLeft p out := parse_bad_append hparse hp
      rw [hbad,hleft]
  | header n r =>
      rw [proxyProtocolParse_append hparse hp]
      rfl

theorem cutSpace_length {a b : Bytes} (h : cutSpace p = some (a,b)) : b.length < p.length := by
  unfold cutSpace at h
  split at h
  · rename_i hmem
    cases h
    have hne : p.dropWhile (· ≠ 32) ≠ [] := by
      intro hnil
      simpa using List.dropWhile_eq_nil_iff.mp hnil 32 hmem
    have hpos := List.length_pos_iff.mpr hne
    have hle := (List.dropWhile_suffix (l := p) (· ≠ 32)).length_le
    rw [List.length_drop]
    omega
  · cases h

theorem parseFields_length {inetPton : Bytes → Option ProxyResult} (h : parseFields inetPton p = some r) :
    3 ≤ p.length := by
  simp only [parseFields,Option.bind_eq_bind,Option.bind_eq_some_iff] at h
  obtain ⟨cut,hcut,r',-,cut',hcut',cut'',hcut'',-⟩ := h
  have h1 := cutSpace_length hcut
  have h2 := cutSpace_length hcut'
  have h3 := cutSpace_length hcut''
  omega

theorem parseLine_length (h : parseLine p = some r) : 7 ≤ p.length := by
  unfold parseLine at h
  split_ifs at h with hunknown
  · exact hunknown.length_le
  · have hlen := parseFields_length h
    rw [List.length_drop] at hlen
    omega
  · have hlen := parseFields_length h
    rw [List.length_drop] at hlen
    omega

theorem parseV1_take (h : parseV1 buf = .header n r) : parseV1 (buf.take n) = .header n r := by
  obtain ⟨h15,k,hcrlf,hn,hline⟩ := parseV1_eq_header.mp h
  obtain ⟨hlt,h6,hat,hfirst⟩ := findCrlf_eq_some.mp hcrlf
  rw [List.length_take] at hlt
  have hk : 15 ≤ n := by
    have hseven := parseLine_length hline
    have hle := ( List.takeWhile_prefix (l := (buf.take k).drop 6) (· ≠ 0)).length_le
    rw [List.length_drop,List.length_take] at hle
    omega
  have hlen : (buf.take n).length = n := by
    rw [List.length_take]
    omega
  have hpre : buf.take n <+: buf.take 108 := List.take_prefix_take_left (by omega)
  have hcut : (buf.take n).take 108 = buf.take n := List.take_of_length_le (by omega)
  refine parseV1_eq_header.mpr ⟨by omega,k,?_,hn,?_⟩
  · rw [hcut]
    refine findCrlf_eq_some.mpr ⟨by omega,h6,?_,?_⟩
    · rw [← window hpre (by omega)]
      exact hat
    · intro i hi hi6
      rw [← window hpre (by omega)]
      exact hfirst i hi hi6
  · rw [List.take_take,Nat.min_eq_left (by omega)]
    exact hline

theorem parseV2_take (h : parseV2 buf = .header n r) : parseV2 (buf.take n) = .header n r := by
  obtain ⟨h16,hn,hle,hver,hcmd⟩ := parseV2_eq_header h
  have hpre : buf.take n <+: buf := List.take_prefix _ _
  have hlen : (buf.take n).length = n := by
    rw [List.length_take]
    omega
  cases hparse : parseV2 (buf.take n) with
  | more =>
      rw [window hpre (by omega)] at hn
      rw [getD_window hpre (by omega)] at hver hcmd
      unfold parseV2 at hparse
      dsimp only at hparse
      rw [if_neg (by omega),if_neg (by omega),if_neg (by omega)] at hparse
      split_ifs at hparse
  | bad =>
      rw [parseV2_bad_append hparse hpre] at h
      cases h
  | header m r' =>
      rw [parseV2_append hparse hpre] at h
      exact h

/-- The header alone is parsed in the same way. -/
theorem parse_take (h : proxyProtocolParse buf = .header n r) :
    15 ≤ n ∧ proxyProtocolParse (buf.take n) = .header n r := by
  have hle := header_le_length h
  have hlen : (buf.take n).length = n := by
    rw [List.length_take]
    omega
  obtain ⟨-,⟨hv1,hparse⟩ | ⟨hv2,hparse⟩⟩ := parse_eq_header h
  · have htake := parseV1_take hparse
    have h15 := (parseV1_eq_header.mp htake).1
    have hsig := starts_extend ( List.take_prefix n buf) (show (bytesOf "PROXY ").length ≤ _ by
      rw [show (bytesOf "PROXY ").length = 6 by decide]
      omega)
    refine ⟨by omega,?_⟩
    rw [proxyProtocolParse,if_neg (by omega),if_pos (hsig.mp hv1)]
    exact htake
  · have htake := parseV2_take hparse
    have h16 := (parseV2_eq_header htake).1
    have hsig := starts_extend ( List.take_prefix n buf) (show pp2Signature.length ≤ _ by
      rw [show pp2Signature.length = 12 by decide]
      omega)
    refine ⟨by omega,?_⟩
    rw [proxyProtocolParse,if_neg (by omega),if_neg (not_v1_of_signature (hsig.mp hv2)),
      if_pos (hsig.mp hv2)]
    exact htake

theorem outcome_zero (h : (outcome buf out).1 = 0) : outcome buf out = (0,out) := by
  unfold outcome at h ⊢
  cases hparse : proxyProtocolParse buf with
  | more => rfl
  | bad =>
      rw [hparse] at h
      cases h
  | header n r =>
      have hpos := (parse_take hparse).1
      rw [hparse] at h
      simp only [outcomeOf] at h
      omega

theorem outcome_pos (h : 0 < (outcome buf out).1) : ∃ n r,
    proxyProtocolParse buf = .header n r ∧ outcome buf out = ((n : ℤ),r) := by
  unfold outcome at h ⊢
  cases hparse : proxyProtocolParse buf with
  | more =>
      rw [hparse] at h
      cases h
  | bad =>
      rw [hparse] at h
      cases h
  | header n r => exact ⟨n,r,rfl,rfl⟩

theorem outcome_le (buf : Bytes) (out : ProxyResult) : (outcome buf out).1.toNat ≤ buf.length := by
  by_cases hpos : 0 < (outcome buf out).1
  · obtain ⟨n,r,hparse,houtcome⟩ := outcome_pos hpos
    rw [houtcome,Int.toNat_natCast]
    exact header_le_length hparse
  · rw [Int.toNat_of_nonpos (by omega)]
    exact Nat.zero_le _

/-- What is recorded for a header depends on its bytes alone. -/
theorem outcome_of_take (h : 0 < (outcome buf out).1)
    (hq : q.take (outcome buf out).1.toNat = buf.take (outcome buf out).1.toNat) (out' : ProxyResult) :
    outcome q out' = outcome buf out := by
  obtain ⟨n,r,hparse,houtcome⟩ := outcome_pos h
  rw [houtcome] at hq ⊢
  simp only [Int.toNat_natCast] at hq
  have htake := (parse_take hparse).2
  rw [← hq] at htake
  rw [outcome,proxyProtocolParse_append htake ( List.take_prefix _ _)]
  rfl

end Stable

/-- Pieces of input arrive in front of which `message` is waiting. The header is parsed after
each piece until the result is not 0; what arrives later is left behind the message. -/
def receive (message : List Bytes) (out : ProxyResult) : List (List Bytes) → Option Run
  | [] => some ⟨0,out,message⟩
  | piece::pieces =>
      match proxyProtocolParseBlocks (message++piece) out with
      | none => none
      | some run =>
          if run.result = 0 then receive run.rest run.out pieces
          else some {run with rest := run.rest++pieces.flatten}

/-- The call succeeds with the outcome of the bytes. -/
theorem parseBlocks_outcome (blocks : List Bytes) (out : ProxyResult) : ∃ rest,
    proxyProtocolParseBlocks blocks out =
      some ⟨(outcome blocks.flatten out).1,(outcome blocks.flatten out).2,rest⟩ ∧
    ((outcome blocks.flatten out).1 ≤ 0 → rest = blocks) ∧
    rest.flatten = blocks.flatten.drop (outcome blocks.flatten out).1.toNat :=
  parse_yields blocks out

theorem receive_outcome (pieces : List (List Bytes)) (message : List Bytes) (out : ProxyResult)
    (hwait : (outcome message.flatten out).1 = 0) :
    ∃ rest, receive message out pieces =
      some ⟨(outcome (message++pieces.flatten).flatten out).1,
        (outcome (message++pieces.flatten).flatten out).2,rest⟩ ∧
      rest.flatten = (message++pieces.flatten).flatten.drop
        (outcome (message++pieces.flatten).flatten out).1.toNat := by
  induction pieces generalizing message with
  | nil =>
      rw [List.flatten_nil,List.append_nil,outcome_zero hwait]
      exact ⟨message,rfl,rfl⟩
  | cons piece pieces ih =>
      obtain ⟨rest,hcall,hnone,hrest⟩ := parseBlocks_outcome (message++piece) out
      have hassoc : message++(piece::pieces).flatten = (message++piece)++pieces.flatten := by
        rw [List.flatten_cons,List.append_assoc]
      rw [receive,hcall,hassoc]
      dsimp only
      by_cases hzero : (outcome (message++piece).flatten out).1 = 0
      · rw [if_pos hzero,hnone (by omega),outcome_zero hzero]
        exact ih (message++piece) hzero
      · have hsplit : ((message++piece)++pieces.flatten).flatten =
            (message++piece).flatten++pieces.flatten.flatten := List.flatten_append
        have hsame : outcome ((message++piece)++pieces.flatten).flatten out =
            outcome (message++piece).flatten out :=
          outcome_append hzero (by rw [hsplit]; exact List.prefix_append _ _)
        rw [if_neg hzero,hsame]
        refine ⟨rest++pieces.flatten,rfl,?_⟩
        rw [List.flatten_append,hrest,hsplit,
          List.drop_append_of_le_length (outcome_le (message++piece).flatten out)]

/-- A result other than 0 is the same for every continuation of the input, with the same
record; what is not a header is left alone, a header is taken off and it alone decides what
is recorded. Whichever pieces a stream arrives in, the caller comes to the same result. -/
theorem proxy_header_stable :
    (∀ (blocks : List Bytes) (out : ProxyResult), ∃ run,
      proxyProtocolParseBlocks blocks out = some run ∧
      (run.result ≤ 0 → run.rest = blocks) ∧
      (0 < run.result → run.result.toNat ≤ blocks.flatten.length ∧
        run.rest.flatten = blocks.flatten.drop run.result.toNat) ∧
      (run.result ≠ 0 → ∀ (c : Bytes) (blocks' : List Bytes), blocks'.flatten = blocks.flatten++c →
        ∃ run', proxyProtocolParseBlocks blocks' out = some run' ∧
          run'.result = run.result ∧ run'.out = run.out) ∧
      (0 < run.result → ∀ (out' : ProxyResult) (blocks' : List Bytes),
        blocks'.flatten.take run.result.toNat = blocks.flatten.take run.result.toNat →
        ∃ run', proxyProtocolParseBlocks blocks' out' = some run' ∧
          run'.result = run.result ∧ run'.out = run.out)) ∧
    ∀ (out : ProxyResult) (pieces pieces' : List (List Bytes)),
      pieces.flatten.flatten = pieces'.flatten.flatten → ∃ run run',
        receive [] out pieces = some run ∧ receive [] out pieces' = some run' ∧
        run'.result = run.result ∧ run'.out = run.out ∧ run'.rest.flatten = run.rest.flatten := by
  constructor
  · intro blocks out
    obtain ⟨rest,hcall,hnone,hrest⟩ := parseBlocks_outcome blocks out
    refine ⟨_,hcall,hnone,fun _ => ⟨outcome_le _ _,hrest⟩,?_,?_⟩
    · intro hne c blocks' hblocks'
      obtain ⟨rest',hcall',-⟩ := parseBlocks_outcome blocks' out
      have hsame : outcome blocks'.flatten out = outcome blocks.flatten out :=
        outcome_append hne (by rw [hblocks']; exact List.prefix_append _ _)
      rw [hsame] at hcall'
      exact ⟨_,hcall',rfl,rfl⟩
    · intro hpos out' blocks' htake
      obtain ⟨rest',hcall',-⟩ := parseBlocks_outcome blocks' out'
      rw [outcome_of_take hpos htake out'] at hcall'
      exact ⟨_,hcall',rfl,rfl⟩
  · intro out pieces pieces' hstream
    have hwait : (outcome ([] : List Bytes).flatten out).1 = 0 := rfl
    obtain ⟨rest,hrun,hrest⟩ := receive_outcome pieces [] out hwait
    obtain ⟨rest',hrun',hrest'⟩ := receive_outcome pieces' [] out hwait
    rw [List.nil_append] at hrun hrest hrun' hrest'
    rw [← hstream] at hrun' hrest'
    exact ⟨_,_,hrun,hrun',rfl,rfl,hrest'.trans hrest.symm⟩

end Teleproxy.ProxyHeaderStream
