import Teleproxy.ClientInput

/-!
# PROXY protocol headers

A load balancer in front of the proxy sends a header with the address of the
client, as a line of text or in a binary form, before the bytes of the client.
`proxy_protocol_parse` takes it off the buffer once it is complete. What it finds
depends on the header alone, and while a header is incomplete the parser waits.
-/
namespace Teleproxy.ProxyProtocol
open ClientInput

inductive Family where
  | unspec | inet | inet6
  deriving DecidableEq, Repr

/-- `struct proxy_protocol_result`; `unspec` is the family 0. -/
structure ProxyResult where
  family : Family := .unspec
  srcIp : ℕ := 0
  srcIpv6 : Bytes := List.replicate 16 0
  srcPort : ℕ := 0
  deriving DecidableEq, Repr

/-- The results 0, -1 and the length of the header that was parsed. -/
inductive Parsed where
  | more | bad
  | header (length : ℕ) (result : ProxyResult)
  deriving DecidableEq, Repr

def bigEndian (bs : Bytes) : ℕ := bs.foldl (fun n b => 256*n+b.toNat) 0

def isDigit (b : UInt8) : Bool := 48 ≤ b && b ≤ 57

def digitsValue (bs : Bytes) : ℕ := bs.foldl (fun n b => 10*n+(b.toNat-48)) 0

/-- One number of a dotted address: no leading zero, at most 255. -/
def octet (bs : Bytes) : Option UInt8 :=
  if bs ≠ [] ∧ bs.length ≤ 3 ∧ bs.all isDigit ∧ (bs.head? = some 48 → bs.length = 1) ∧
      digitsValue bs ≤ 255 then some (UInt8.ofNat (digitsValue bs))
  else none

/-- `inet_pton (AF_INET, ..)` -/
def inetPton4 (bs : Bytes) : Option Bytes :=
  match (bs.splitOn 46).map octet with
  | [some a,some b,some c,some d] => some [a,b,c,d]
  | _ => none

def hexDigit (b : UInt8) : Option ℕ :=
  if 48 ≤ b ∧ b ≤ 57 then some (b.toNat-48)
  else if 97 ≤ b ∧ b ≤ 102 then some (b.toNat-87)
  else if 65 ≤ b ∧ b ≤ 70 then some (b.toNat-55)
  else none

/-- The state of `inet_pton (AF_INET6, ..)`: the bytes so far, where `::` stood, the digits
of the current group and its text. -/
structure Groups where
  out : Bytes := []
  colon : Option ℕ := none
  digits : ℕ := 0
  value : ℕ := 0
  token : Bytes := []

def Groups.put (g : Groups) : Groups :=
  {g with out := g.out++[UInt8.ofNat (g.value/256),UInt8.ofNat (g.value%256)]}

/-- After the last character: the last group is stored and `::` is filled with zeros. -/
def Groups.finish (g : Groups) : Option Bytes :=
  if 0 < g.digits ∧ 16 < g.out.length+2 then none else
    let g := if 0 < g.digits then g.put else g
    match g.colon with
    | none => if g.out.length = 16 then some g.out else none
    | some n =>
        if g.out.length ≥ 16 then none
        else some (g.out.take n++List.replicate (16-g.out.length) 0++g.out.drop n)

def Groups.scan (g : Groups) : Bytes → Option Bytes
  | [] => g.finish
  | b::bs =>
      match hexDigit b with
      | some d =>
          if g.digits = 4 then none
          else Groups.scan {g with digits := g.digits+1, value := 16*g.value+d} bs
      | none =>
          if b = 58 then
            if g.digits = 0 then
              if g.colon.isSome then none
              else Groups.scan {g with colon := some g.out.length, token := bs} bs
            else if bs = [] ∨ 16 < g.out.length+2 then none
            else Groups.scan {g.put with digits := 0, value := 0, token := bs} bs
          else if b = 46 ∧ g.out.length+4 ≤ 16 then
            match inetPton4 g.token with
            | some v4 => Groups.finish {g with out := g.out++v4, digits := 0}
            | none => none
          else none

/-- `inet_pton (AF_INET6, ..)`. A leading `:` has to be followed by another one. -/
def inetPton6 (bs : Bytes) : Option Bytes :=
  match bs with
  | [] => none
  | b::rest =>
      if b = 58 then
        if rest.head? = some 58 then Groups.scan {token := rest} rest else none
      else Groups.scan {token := bs} bs

/-- `(unsigned short) atoi (p)` -/
def atoiPort (bs : Bytes) : ℕ :=
  let bs := bs.dropWhile fun b => b = 32 || (9 ≤ b && b ≤ 13)
  let negative := bs.head? = some 45
  let bs := if bs.head? = some 43 ∨ bs.head? = some 45 then bs.drop 1 else bs
  let n : ℤ := digitsValue (bs.takeWhile isDigit)
  let n := if negative then max (-n) (-2^63) else min n (2^63-1)
  (n % 2^16).toNat

/-- The scan of `parse_v1` for the line end, behind the first six bytes. -/
def findCrlf (buf : Bytes) : Option ℕ :=
  (List.range (buf.length-1)).find? fun i => 6 ≤ i && (buf.drop i).take 2 == crlf

/-- A text is cut at its first space. -/
def cutSpace (bs : Bytes) : Option (Bytes × Bytes) :=
  if 32 ∈ bs then some (bs.takeWhile (· ≠ 32),(bs.dropWhile (· ≠ 32)).drop 1) else none

/-- The fields of the line: the source, behind it the destination and the source port. -/
def parseFields (inetPton : Bytes → Option ProxyResult) (p : Bytes) : Option ProxyResult := do
  let (src,p) ← cutSpace p
  let r ← inetPton src
  let (_,p) ← cutSpace p
  let (port,_) ← cutSpace p
  some {r with srcPort := atoiPort port}

/-- What `parse_v1` makes of the line, without `PROXY ` and the line end. -/
def parseLine (p : Bytes) : Option ProxyResult :=
  if bytesOf "UNKNOWN" <+: p then some {}
  else if bytesOf "TCP4 " <+: p then
    parseFields (fun s => (inetPton4 s).map fun a => {family := .inet, srcIp := bigEndian a})
      (p.drop 5)
  else if bytesOf "TCP6 " <+: p then
    parseFields (fun s => (inetPton6 s).map fun a => {family := .inet6, srcIpv6 := a}) (p.drop 5)
  else none

/-- `parse_v1`. The line ends for the C string functions at a zero byte. -/
def parseV1 (buf : Bytes) : Parsed :=
  if buf.length < 15 then .more
  else
    match findCrlf (buf.take 108) with
    | none => if buf.length ≥ 108 then .bad else .more
    | some n =>
        match parseLine (((buf.take n).drop 6).takeWhile (· ≠ 0)) with
        | none => .bad
        | some r => .header (n+2) r

/-- `parse_v2` -/
def parseV2 (buf : Bytes) : Parsed :=
  if buf.length < 16 then .more
  else
    let version := (buf.getD 12 0).toNat/16
    let command := (buf.getD 12 0).toNat%16
    let fam := (buf.getD 13 0).toNat/16
    let addrLen := bigEndian ((buf.drop 14).take 2)
    if version ≠ 2 ∨ 1 < command then .bad
    else if buf.length < 16+addrLen then .more
    else if command = 0 then .header (16+addrLen) {}
    else if fam = 1 ∧ 12 ≤ addrLen then
      .header (16+addrLen) {
        family := .inet
        srcIp := bigEndian ((buf.drop 16).take 4)
        srcPort := bigEndian ((buf.drop 24).take 2)}
    else if fam = 2 ∧ 36 ≤ addrLen then
      .header (16+addrLen) {
        family := .inet6
        srcIpv6 := (buf.drop 16).take 16
        srcPort := bigEndian ((buf.drop 48).take 2)}
    else .header (16+addrLen) {}

def pp2Signature : Bytes := [0x0d,0x0a,0x0d,0x0a,0x00,0x0d,0x0a,0x51,0x55,0x49,0x54,0x0a]

/-- `proxy_protocol_parse`; the header is taken off the buffer by its caller here. -/
def proxyProtocolParse (buf : Bytes) : Parsed :=
  if buf.length < 6 then .more
  else if bytesOf "PROXY " <+: buf then parseV1 buf
  else if pp2Signature <+: buf then parseV2 buf
  else if buf.length < 12 then .more
  else .bad

variable {p q buf : Bytes} {i n : ℕ} {r : ProxyResult}

theorem window (hp : p <+: q) (hn : i+n ≤ p.length) : (q.drop i).take n = (p.drop i).take n := by
  obtain ⟨t,rfl⟩ := hp
  rw [List.drop_append_of_le_length (by omega),
    List.take_append_of_le_length (by rw [List.length_drop]; omega)]

theorem getD_window (hp : p <+: q) (hi : i < p.length) : q.getD i 0 = p.getD i 0 := by
  obtain ⟨t,rfl⟩ := hp
  rw [List.getD_eq_getElem?_getD,List.getD_eq_getElem?_getD,List.getElem?_append_left hi]

theorem findCrlf_eq_some : findCrlf buf = some n ↔ n+1 < buf.length ∧ 6 ≤ n ∧
    (buf.drop n).take 2 = crlf ∧ ∀ i < n, 6 ≤ i → (buf.drop i).take 2 ≠ crlf := by
  rw [findCrlf,List.find?_range_eq_some]
  simp only [Bool.and_eq_true,decide_eq_true_eq,beq_iff_eq,List.mem_range,Bool.not_eq_true',
    Bool.and_eq_false_iff,decide_eq_false_iff_not,beq_eq_false_iff_ne]
  constructor
  · rintro ⟨⟨h6,hcrlf⟩,hlt,hfirst⟩
    exact ⟨by omega,h6,hcrlf,fun i hi h => (hfirst i hi).resolve_left (by omega)⟩
  · rintro ⟨hlt,h6,hcrlf,hfirst⟩
    refine ⟨⟨h6,hcrlf⟩,by omega,fun i hi => ?_⟩
    by_cases h : 6 ≤ i
    · exact Or.inr (hfirst i hi h)
    · exact Or.inl h

theorem findCrlf_append (h : findCrlf p = some n) (hp : p <+: q) : findCrlf q = some n := by
  obtain ⟨hlt,h6,hcrlf,hfirst⟩ := findCrlf_eq_some.mp h
  have hle := hp.length_le
  refine findCrlf_eq_some.mpr ⟨by omega,h6,?_,fun i hi h => ?_⟩
  · rw [window hp (by omega),hcrlf]
  · rw [window hp (by omega)]
    exact hfirst i hi h

/-- A line with its end is at most 108 bytes long. -/
theorem parseV1_eq_header : parseV1 buf = .header n r ↔ 15 ≤ buf.length ∧ ∃ k,
    findCrlf (buf.take 108) = some k ∧ n = k+2 ∧
      parseLine (((buf.take k).drop 6).takeWhile (· ≠ 0)) = some r := by
  by_cases h15 : buf.length < 15
  · rw [parseV1,if_pos h15]
    exact ⟨fun h => Parsed.noConfusion h,fun h => absurd h.1 (by omega)⟩
  · rw [parseV1,if_neg h15]
    cases hf : findCrlf (buf.take 108) with
    | none =>
        dsimp only
        split_ifs <;> simp
    | some k =>
        dsimp only
        cases hl : parseLine (((buf.take k).drop 6).takeWhile (· ≠ 0)) with
        | none =>
            constructor
            · exact fun h => Parsed.noConfusion h
            · rintro ⟨-,k',hk',-,hk⟩
              rw [← Option.some.inj hk',hl] at hk
              exact (Option.some_ne_none r hk.symm).elim
        | some r' =>
            dsimp only
            rw [Parsed.header.injEq]
            constructor
            · rintro ⟨rfl,rfl⟩
              exact ⟨by omega,k,rfl,rfl,hl⟩
            · rintro ⟨-,k',hk',hn,hk⟩
              rw [← Option.some.inj hk',hl,Option.some.injEq] at hk
              rw [hn,Option.some.inj hk']
              exact ⟨rfl,hk⟩

theorem parseV1_append (h : parseV1 p = .header n r) (hp : p <+: q) :
    parseV1 q = .header n r := by
  obtain ⟨h15,k,hk,hlen,hline⟩ := parseV1_eq_header.mp h
  have hle := hp.length_le
  have hin := (findCrlf_eq_some.mp hk).1
  rw [List.length_take] at hin
  refine parseV1_eq_header.mpr ⟨by omega,k,findCrlf_append hk (hp.take 108),hlen,?_⟩
  have htake : q.take k = p.take k := by
    obtain ⟨t,rfl⟩ := hp
    rw [List.take_append_of_le_length (by omega)]
  rw [htake]
  exact hline

theorem parseV2_eq_header (h : parseV2 buf = .header n r) : 16 ≤ buf.length ∧
    n = 16+bigEndian ((buf.drop 14).take 2) ∧ n ≤ buf.length ∧
    (buf.getD 12 0).toNat/16 = 2 ∧ (buf.getD 12 0).toNat%16 ≤ 1 := by
  rw [parseV2] at h
  dsimp only at h
  split_ifs at h
  all_goals
    rw [Parsed.header.injEq] at h
    omega

theorem parseV2_append (h : parseV2 p = .header n r) (hp : p <+: q) :
    parseV2 q = .header n r := by
  obtain ⟨h16,hn,hle,hver,hcmd⟩ := parseV2_eq_header h
  have hle' := hp.length_le
  have h12 : q.getD 12 0 = p.getD 12 0 := getD_window hp (by omega)
  have h13 : q.getD 13 0 = p.getD 13 0 := getD_window hp (by omega)
  have h14 : (q.drop 14).take 2 = (p.drop 14).take 2 := window hp (by omega)
  rw [← h,parseV2,parseV2]
  dsimp only
  have hgood : ¬ ((p.getD 12 0).toNat/16 ≠ 2 ∨ 1 < (p.getD 12 0).toNat%16) := by omega
  rw [h12,h13,h14]
  simp only [hgood,show ¬ q.length < 16 by omega,show ¬ p.length < 16 by omega,
    show ¬ q.length < 16+bigEndian ((p.drop 14).take 2) by omega,
    show ¬ p.length < 16+bigEndian ((p.drop 14).take 2) by omega,if_false]
  by_cases hv4 : 12 ≤ bigEndian ((p.drop 14).take 2)
  · rw [window hp (show 16+4 ≤ p.length by omega),window hp (show 24+2 ≤ p.length by omega)]
    by_cases h36 : 36 ≤ bigEndian ((p.drop 14).take 2)
    · rw [window hp (show 16+16 ≤ p.length by omega),window hp (show 48+2 ≤ p.length by omega)]
    · simp only [h36,and_false,if_false]
  · have h36 : ¬ 36 ≤ bigEndian ((p.drop 14).take 2) := by omega
    simp only [hv4,h36,and_false,if_false]

/-- A complete header of either form. -/
theorem parse_eq_header (h : proxyProtocolParse buf = .header n r) : 6 ≤ buf.length ∧
    (bytesOf "PROXY " <+: buf ∧ parseV1 buf = .header n r ∨
      pp2Signature <+: buf ∧ parseV2 buf = .header n r) := by
  rw [proxyProtocolParse] at h
  split_ifs at h with h6 hv1 hv2
  · exact ⟨by omega,Or.inl ⟨hv1,h⟩⟩
  · exact ⟨by omega,Or.inr ⟨hv2,h⟩⟩

theorem not_v1_of_signature (h : pp2Signature <+: buf) : ¬ bytesOf "PROXY " <+: buf := by
  intro hv1
  have := List.prefix_of_prefix_length_le hv1 h (by decide)
  exact absurd this (by decide)

/-- What follows a header does not matter. -/
theorem proxyProtocolParse_append (h : proxyProtocolParse p = .header n r) (hp : p <+: q) :
    proxyProtocolParse q = .header n r := by
  have hle := hp.length_le
  obtain ⟨h6,⟨hv1,hparse⟩ | ⟨hv2,hparse⟩⟩ := parse_eq_header h
  · rw [proxyProtocolParse,if_neg (by omega),if_pos (hv1.trans hp),parseV1_append hparse hp]
  · rw [proxyProtocolParse,if_neg (by omega),if_neg (not_v1_of_signature (hv2.trans hp)),
      if_pos (hv2.trans hp),parseV2_append hparse hp]

/-- A header is a part of the buffer. -/
theorem header_le_length (h : proxyProtocolParse buf = .header n r) : n ≤ buf.length := by
  obtain ⟨-,⟨-,hparse⟩ | ⟨-,hparse⟩⟩ := parse_eq_header h
  · obtain ⟨-,k,hk,hn,-⟩ := parseV1_eq_header.mp hparse
    have hin := (findCrlf_eq_some.mp hk).1
    rw [List.length_take] at hin
    omega
  · exact (parseV2_eq_header hparse).2.2.1

end Teleproxy.ProxyProtocol
