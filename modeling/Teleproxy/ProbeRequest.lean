import Teleproxy.ProxyDomains
import Teleproxy.TlsParse

/-!
# The ClientHello of a probe

To learn how the server of a domain answers, `update_domain_info` sends it a ClientHello
that `create_request` builds in a block of 517 bytes: constants, random bytes, GREASE values,
the domain and, at the end, an extension with padding for the bytes that are left. What the
block holds when it is allocated, the random bytes and the generated key are parameters.
Writing outside the block and failed assertions end the model, and so does a copy of a
negative number of bytes.
-/
namespace Teleproxy.ProbeRequest
open ClientInput (Bytes)
open ProxyDomains (DomainInfo Registry parseEntry)
open Buffer TlsParse

def tlsRequestLength : ℕ := 517

/-- Everything that is drawn for a request. -/
structure Draws where
  greases : Vector UInt8 7
  random : Vector UInt8 32
  sessionId : Vector UInt8 32
  publicKey : Vector UInt8 32

/-- A value of the second loop that is the same as the one in front of it. -/
def separate (greases : Vector UInt8 7) (i : Fin 7) : Vector UInt8 7 :=
  if greases[i] = greases[i-1] then greases.set i (0x10 ^^^ greases[i]) i.isLt else greases

/-- The GREASE values of random bytes. -/
def makeGreases (bytes : Vector UInt8 7) : Vector UInt8 7 :=
  [1,3,5].foldl separate (bytes.map fun b => (b &&& 0xF0)+0x0A)

/-- The block with the position. -/
abbrev Filled := Bytes × ℕ

/-- `data` at the position, if the assertion holds. -/
def add (s : Filled) (data : Bytes) : Option Filled :=
  if wrap ((s.2 : ℤ)+data.length) ≤ tlsRequestLength then do
    let str ← write s.1 s.2 data
    some (str,s.2+data.length)
  else none

/-- One call that adds something to the request. -/
inductive Piece where
  | string (data : Bytes) (dataLen : ℤ)
  | random (bytes : Vector UInt8 32)
  | length (length : ℤ)
  | grease (num : Fin 7)
  | publicKey (key : Vector UInt8 32)

def addString (s : Filled) (data : Bytes) (dataLen : ℤ) : Option Filled :=
  if dataLen < 0 then none else add s (data.take dataLen.toNat)

def addLength (s : Filled) (length : ℤ) : Option Filled :=
  add s [UInt8.ofInt (length.tdiv 256),UInt8.ofInt (length.tmod 256)]

def addGrease (greases : Vector UInt8 7) (s : Filled) (num : Fin 7) : Option Filled :=
  add s [greases[num],greases[num]]

def addPiece (greases : Vector UInt8 7) (s : Filled) : Piece → Option Filled
  | .string data dataLen => addString s data dataLen
  | .random bytes => add s bytes.toList
  | .length length => addLength s length
  | .grease num => addGrease greases s num
  | .publicKey key => add s key.toList

/-- The calls up to the padding. -/
def requestPieces (draws : Draws) (domain : Bytes) : List Piece :=
  let domainLength := wrap domain.length
  [.string [0x16,0x03,0x01,0x02,0x00,0x01,0x00,0x01,0xfc,0x03,0x03] 11,
   .random draws.random,
   .string [0x20] 1,
   .random draws.sessionId,
   .string [0x00,0x22] 2,
   .grease 0,
   .string [0x13,0x01,0x13,0x02,0x13,0x03,0xc0,0x2b,0xc0,0x2f,0xc0,0x2c,0xc0,0x30,0xcc,0xa9,0xcc,0xa8,
     0xc0,0x13,0xc0,0x14,0x00,0x9c,0x00,0x9d,0x00,0x2f,0x00,0x35,0x00,0x0a,0x01,0x00,0x01,0x91] 36,
   .grease 2,
   .string [0x00,0x00,0x00,0x00] 4,
   .length (wrap (domainLength+5)),
   .length (wrap (domainLength+3)),
   .string [0x00] 1,
   .length domainLength,
   .string domain domainLength,
   .string [0x00,0x17,0x00,0x00,0xff,0x01,0x00,0x01,0x00,0x00,0x0a,0x00,0x0a,0x00,0x08] 15,
   .grease 4,
   .string [0x00,0x1d,0x00,0x17,0x00,0x18,0x00,0x0b,0x00,0x02,0x01,0x00,0x00,0x23,0x00,0x00,0x00,0x10,
     0x00,0x0e,0x00,0x0c,0x02,0x68,0x32,0x08,0x68,0x74,0x74,0x70,0x2f,0x31,0x2e,0x31,0x00,0x05,
     0x00,0x05,0x01,0x00,0x00,0x00,0x00,0x00,0x0d,0x00,0x14,0x00,0x12,0x04,0x03,0x08,0x04,0x04,
     0x01,0x05,0x03,0x08,0x05,0x05,0x01,0x08,0x06,0x06,0x01,0x02,0x01,0x00,0x12,0x00,0x00,0x00,
     0x33,0x00,0x2b,0x00,0x29] 77,
   .grease 4,
   .string [0x00,0x01,0x00,0x00,0x1d,0x00,0x20] 7,
   .publicKey draws.publicKey,
   .string [0x00,0x2d,0x00,0x02,0x01,0x01,0x00,0x2b,0x00,0x0b,0x0a] 11,
   .grease 6,
   .string [0x03,0x04,0x03,0x03,0x03,0x02,0x03,0x01,0x00,0x1b,0x00,0x03,0x02,0x00,0x02] 15,
   .grease 3,
   .string [0x00,0x01,0x00,0x00,0x15] 5]

/-- The request in a block that held `memory`. -/
def createRequest (memory : Vector UInt8 tlsRequestLength) (draws : Draws) (domain : Bytes) :
    Option Bytes := do
  let s ← (requestPieces draws domain).foldlM (addPiece (makeGreases draws.greases)) (memory.toList,0)
  let paddingLength : ℤ := tlsRequestLength-2-s.2
  if paddingLength ≥ 0 then do
    let (result,pos) ← addLength s paddingLength
    write result pos (List.replicate (tlsRequestLength-pos) 0)
  else none

def vec8 (bs : Bytes) : Bytes := [UInt8.ofNat bs.length]++bs

def vec16 (bs : Bytes) : Bytes := [UInt8.ofNat (bs.length/256),UInt8.ofNat bs.length]++bs

def vec24 (bs : Bytes) : Bytes :=
  [UInt8.ofNat (bs.length/65536),UInt8.ofNat (bs.length/256),UInt8.ofNat bs.length]++bs

/-- A ClientHello in a record, with a length in front of each of its parts. -/
def clientHello (random sessionId cipherSuites : Bytes) (extensions : List (ℕ × Bytes)) : Bytes :=
  [0x16,0x03,0x01]++vec16 ([0x01]++vec24 ([0x03,0x03]++random++vec8 sessionId++vec16 cipherSuites++
    vec8 [0x00]++vec16 (concat extension extensions)))

/-- The SNI for a name. -/
def sniExtension (name : Bytes) : ℕ × Bytes := (0,vec16 ([0x00]++vec16 name))

/-- Two bytes of GREASE. -/
def twice (greases : Vector UInt8 7) (num : Fin 7) : Bytes := [greases[num],greases[num]]

def greaseNumber (greases : Vector UInt8 7) (num : Fin 7) : ℕ := greases[num].toNat*257

def requestCiphers (greases : Vector UInt8 7) : Bytes :=
  twice greases 0++[0x13,0x01,0x13,0x02,0x13,0x03,0xc0,0x2b,0xc0,0x2f,0xc0,0x2c,0xc0,0x30,0xcc,0xa9,
    0xcc,0xa8,0xc0,0x13,0xc0,0x14,0x00,0x9c,0x00,0x9d,0x00,0x2f,0x00,0x35,0x00,0x0a]

/-- The extensions between the SNI and the padding. -/
def innerExtensions (greases : Vector UInt8 7) (publicKey : Bytes) : List (ℕ × Bytes) :=
  [(0x17,[]),
   (0xff01,vec8 []),
   (0x0a,vec16 (twice greases 4++[0x00,0x1d,0x00,0x17,0x00,0x18])),
   (0x0b,vec8 [0x00]),
   (0x23,[]),
   (0x10,vec16 (vec8 [0x68,0x32]++vec8 [0x68,0x74,0x74,0x70,0x2f,0x31,0x2e,0x31])),
   (0x05,[0x01]++vec16 []++vec16 []),
   (0x0d,vec16 [0x04,0x03,0x08,0x04,0x04,0x01,0x05,0x03,0x08,0x05,0x05,0x01,0x08,0x06,0x06,0x01,0x02,0x01]),
   (0x12,[]),
   (0x33,vec16 (twice greases 4++vec16 [0x00]++([0x00,0x1d]++vec16 publicKey))),
   (0x2d,vec8 [0x01]),
   (0x2b,vec8 (twice greases 6++[0x03,0x04,0x03,0x03,0x03,0x02,0x03,0x01])),
   (0x1b,vec8 [0x00,0x02]),
   (greaseNumber greases 3,[0x00])]

def requestExtensions (greases : Vector UInt8 7) (publicKey name : Bytes) (padding : ℕ) :
    List (ℕ × Bytes) :=
  [(greaseNumber greases 2,[]),sniExtension name]++innerExtensions greases publicKey++
    [(0x15,List.replicate padding 0)]

/-- What is to come of it. -/
def requestBytes (draws : Draws) (name : Bytes) (padding : ℕ) : Bytes :=
  clientHello draws.random.toList draws.sessionId.toList (requestCiphers (makeGreases draws.greases))
    (requestExtensions (makeGreases draws.greases) draws.publicKey.toList name padding)

/-- The bytes that a call adds. -/
def Piece.bytes (greases : Vector UInt8 7) : Piece → Bytes
  | .string data dataLen => data.take dataLen.toNat
  | .random bytes => bytes.toList
  | .length n => [UInt8.ofInt (n.tdiv 256),UInt8.ofInt (n.tmod 256)]
  | .grease num => twice greases num
  | .publicKey key => key.toList

/-- A number of bytes that can be copied. -/
def Piece.Countable : Piece → Prop
  | .string _ dataLen => 0 ≤ dataLen ∧ dataLen < 2147483648
  | _ => True

section Fill
variable {greases : Vector UInt8 7} {pre mem data : Bytes}

theorem add_eq (hblock : pre.length+mem.length = tlsRequestLength) (hdata : data.length < 2147483648) :
    add (pre++mem,pre.length) data = if pre.length+data.length ≤ tlsRequestLength then
      some (pre++data++mem.drop data.length,(pre++data).length) else none := by
  have hlimit : tlsRequestLength = 517 := rfl
  unfold add
  dsimp only
  by_cases hfits : pre.length+data.length ≤ tlsRequestLength
  · have hover : write (pre++mem.take data.length++mem.drop data.length) pre.length data = some _ :=
      write_over rfl (by rw [List.length_take]; omega)
    rw [List.append_assoc,List.take_append_drop] at hover
    rw [if_pos hfits,wrap_of_lt (by omega) (by omega),if_pos (by omega),hover,List.length_append]
    rfl
  · have hnone : write (pre++mem) pre.length data = none := by
      rw [write,if_neg (by rw [List.length_append]; omega)]
    rw [if_neg hfits,hnone]
    split_ifs <;> rfl

theorem addPiece_eq {p : Piece} (hp : p.Countable) (s : Filled) :
    addPiece greases s p = add s (p.bytes greases) := by
  cases p with
  | string data dataLen => rw [addPiece,addString,if_neg (by have := hp.1; omega)]; rfl
  | random bytes => rfl
  | length n => rfl
  | grease num => rfl
  | publicKey key => rfl

theorem Piece.length_bytes_lt {p : Piece} (hp : p.Countable) :
    (p.bytes greases).length < 2147483648 := by
  cases p with
  | string data dataLen =>
      obtain ⟨hlow,hhigh⟩ := hp
      rw [Piece.bytes,List.length_take]
      omega
  | random bytes => rw [Piece.bytes,Vector.length_toList]; decide
  | length n => exact Nat.lt_of_sub_eq_succ rfl
  | grease num => exact Nat.lt_of_sub_eq_succ rfl
  | publicKey key => rw [Piece.bytes,Vector.length_toList]; decide

/-- The calls fill the block as long as there is room for all of them. -/
theorem addPieces_eq (pieces : List Piece) (hall : ∀ p ∈ pieces, p.Countable)
    (hblock : pre.length+mem.length = tlsRequestLength) :
    pieces.foldlM (addPiece greases) (pre++mem,pre.length) =
      if pre.length+(pieces.flatMap (Piece.bytes greases)).length ≤ tlsRequestLength then
        some (pre++pieces.flatMap (Piece.bytes greases)++
          mem.drop (pieces.flatMap (Piece.bytes greases)).length,
          (pre++pieces.flatMap (Piece.bytes greases)).length)
      else none := by
  induction pieces generalizing pre mem with
  | nil =>
      rw [List.flatMap_nil,List.length_nil,List.append_nil,List.drop_zero,if_pos (by omega)]
      rfl
  | cons p pieces ih =>
      have hp := hall p List.mem_cons_self
      rw [List.foldlM_cons,addPiece_eq hp,add_eq hblock (Piece.length_bytes_lt hp),
        Option.bind_eq_bind,List.flatMap_cons]
      by_cases hfits : pre.length+(p.bytes greases).length ≤ tlsRequestLength
      · have hrest := @ih (pre++p.bytes greases) (mem.drop (p.bytes greases).length)
          (fun q hq => hall q (List.mem_cons_of_mem p hq))
          (by rw [List.length_append,List.length_drop]; omega)
        rw [if_pos hfits,Option.bind_some,hrest,List.drop_drop]
        simp only [List.append_assoc,List.length_append,Nat.add_assoc]
      · rw [if_neg hfits,if_neg (by rw [List.length_append]; omega)]
        rfl

/-- A copy of a negative number of bytes spoils everything. -/
theorem addPieces_negative {first rest : List Piece} {data : Bytes} {n : ℤ} (hn : n < 0) (s : Filled) :
    (first++.string data n::rest).foldlM (addPiece greases) s = none := by
  induction first generalizing s with
  | nil =>
      rw [List.nil_append,List.foldlM_cons,addPiece,addString,if_pos hn]
      rfl
  | cons p first ih =>
      rw [List.cons_append,List.foldlM_cons,Option.bind_eq_bind]
      cases addPiece greases s p with
      | none => rfl
      | some s' => exact ih s'

end Fill

section Bytes
variable {draws : Draws} {domain name : Bytes} {n padding : ℕ}

theorem requestPieces_countable (hlow : 0 ≤ wrap domain.length) (hhigh : wrap domain.length < 2147483648) :
    ∀ p ∈ requestPieces draws domain, p.Countable := by
  simp [requestPieces,Piece.Countable,hlow,hhigh]

theorem length_extensions (hkey : name.length+padding = 216) (greases : Vector UInt8 7) {publicKey : Bytes}
    (hpublic : publicKey.length = 32) :
    (concat extension (requestExtensions greases publicKey name padding)).length = 401 := by
  simp [requestExtensions,innerExtensions,sniExtension,concat,extension,vec16,vec8,twice,hpublic]
  omega

theorem ofNat_twice (b : UInt8) : UInt8.ofNat (b.toNat*257/256) = b := by
  have hb := b.toNat_lt
  rw [show b.toNat*257/256 = b.toNat by omega,UInt8.ofNat_toNat]

set_option maxRecDepth 4000 in
/-- The calls and the padding build the ClientHello. -/
theorem requestPieces_bytes (hname : wrap domain.length = n) (hlen : (domain.take n).length = n)
    (hpadding : n+padding = 216) :
    (requestPieces draws domain).flatMap (Piece.bytes (makeGreases draws.greases))++
      [UInt8.ofNat (padding/256),UInt8.ofNat padding]++List.replicate padding 0 =
        requestBytes draws (domain.take n) padding := by
  have hexts : (concat extension (requestExtensions (makeGreases draws.greases) draws.publicKey.toList
      (domain.take n) padding)).length = 401 :=
    length_extensions (by omega) (makeGreases draws.greases) draws.publicKey.length_toList
  have h5 : wrap ((n : ℤ)+5) = ((n+5 : ℕ) : ℤ) := wrap_of_lt (by omega) (by omega)
  have h3 : wrap ((n : ℤ)+3) = ((n+3 : ℕ) : ℤ) := wrap_of_lt (by omega) (by omega)
  simp only [requestPieces,hname,h5,h3,List.flatMap_cons,List.flatMap_nil,Piece.bytes,ofInt_tdiv,ofInt_tmod,
    Int.toNat_natCast]
  simp only [requestBytes,clientHello,vec16,vec24,vec8,List.length_append,List.length_cons,List.length_nil,
    Vector.length_toList,hexts]
  simp [requestCiphers,requestExtensions,innerExtensions,sniExtension,concat,extension,vec16,vec8,twice,
    greaseNumber,hlen]
  exact ⟨(ofNat_twice _).symm,by simp only [UInt8.add_assoc]; rfl,by simp only [UInt8.add_assoc]; rfl,
    (ofNat_twice _).symm⟩

theorem length_requestBytes (h : name.length+padding = 216) : (requestBytes draws name padding).length = 517 := by
  have hexts := length_extensions h (makeGreases draws.greases) draws.publicKey.length_toList
  simp [requestBytes,clientHello,vec16,vec24,vec8,hexts,requestCiphers,twice]

set_option maxRecDepth 4000 in
/-- The length of the request up to the padding. -/
theorem length_requestPieces (hname : wrap domain.length = n) (hlen : (domain.take n).length = n) :
    ((requestPieces draws domain).flatMap (Piece.bytes (makeGreases draws.greases))).length = 299+n := by
  simp [requestPieces,Piece.bytes,twice,hname]
  rw [List.length_take] at hlen
  omega

theorem wrap_lt (k : ℤ) : wrap k < 2147483648 := by
  unfold wrap
  rw [Int.bmod_def]
  split <;> omega

/-- A length is never too large when it is stored. -/
theorem length_take_wrap (hname : wrap domain.length = n) : (domain.take n).length = n := by
  unfold wrap at hname
  rw [Int.bmod_def] at hname
  rw [List.length_take]
  split at hname <;> omega

/-- The padding fills what is left of the block. -/
theorem addPadding_eq {flat mem : Bytes} (hflat : flat.length = 299+n) (hmem : 299+n+mem.length = tlsRequestLength)
    (hpadding : n+padding = 216) :
    ((addLength (flat++mem,flat.length) padding).bind fun s =>
      write s.1 s.2 (List.replicate (tlsRequestLength-s.2) 0)) =
      some (flat++[UInt8.ofNat (padding/256),UInt8.ofNat padding]++List.replicate padding 0) := by
  have hlimit : tlsRequestLength = 517 := rfl
  have hfield : (flat++[UInt8.ofNat (padding/256),UInt8.ofNat padding]).length = 301+n := by
    rw [List.length_append,hflat,List.length_cons,List.length_singleton]
    omega
  have hlength : add (flat++mem,flat.length) [UInt8.ofNat (padding/256),UInt8.ofNat padding] = _ :=
    add_eq (by omega) (Nat.lt_of_sub_eq_succ rfl)
  rw [← List.length_append,hfield,if_pos (by omega)] at hlength
  have hzeros : write (flat++[UInt8.ofNat (padding/256),UInt8.ofNat padding]++mem.drop 2++[]) (301+n)
      (List.replicate padding 0) =
        some (flat++[UInt8.ofNat (padding/256),UInt8.ofNat padding]++List.replicate padding 0++[]) :=
    write_over hfield (by rw [List.length_replicate,List.length_drop]; omega)
  rw [List.append_nil,List.append_nil] at hzeros
  rw [addLength,ofInt_tdiv,ofInt_tmod,hlength,Option.bind_some]
  dsimp only
  rw [show tlsRequestLength-(301+n) = padding by omega]
  exact hzeros

/-- Every byte of the block is filled if the domain leaves room for the rest. -/
theorem createRequest_eq (memory : Vector UInt8 tlsRequestLength) (hname : wrap domain.length = n) :
    createRequest memory draws domain =
      if n ≤ 216 then some (requestBytes draws (domain.take n) (216-n)) else none := by
  have hlimit : tlsRequestLength = 517 := rfl
  have hmemory : memory.toList.length = tlsRequestLength := memory.length_toList
  have hlen := length_take_wrap hname
  have htotal : ((requestPieces draws domain).flatMap (Piece.bytes (makeGreases draws.greases))).length =
      299+n := length_requestPieces hname hlen
  have hpieces : (requestPieces draws domain).foldlM (addPiece (makeGreases draws.greases)) ([]++memory.toList,0) =
      _ := addPieces_eq (requestPieces draws domain)
    (requestPieces_countable (by omega) (wrap_lt _)) (by rw [List.length_nil]; omega)
  rw [List.nil_append,List.nil_append,List.length_nil] at hpieces
  rw [createRequest,hpieces]
  by_cases hroom : n ≤ 216
  · have hpad : ((tlsRequestLength : ℤ)-2-((299+n : ℕ) : ℤ)) = ((216-n : ℕ) : ℤ) := by omega
    rw [if_pos (by omega),if_pos hroom,Option.bind_eq_bind,Option.bind_some]
    dsimp only
    rw [if_pos (by omega),← requestPieces_bytes hname hlen (show n+(216-n) = 216 by omega)]
    refine Eq.trans ?_ (addPadding_eq htotal
      (show 299+n+(memory.toList.drop (299+n)).length = tlsRequestLength by rw [List.length_drop]; omega)
      (show n+(216-n) = 216 by omega))
    rw [htotal,hpad]
  · rw [if_neg hroom]
    by_cases hfits : 0+(299+n) ≤ tlsRequestLength
    · rw [htotal,if_pos hfits,Option.bind_eq_bind,Option.bind_some,if_neg (by dsimp only; omega)]
    · rw [htotal,if_neg hfits]
      rfl

/-- A domain whose length is a negative `int` cannot be copied. -/
theorem createRequest_negative (memory : Vector UInt8 tlsRequestLength) (hneg : wrap domain.length < 0) :
    createRequest memory draws domain = none := by
  have hsplit : ∃ first rest, requestPieces draws domain =
      first++.string domain (wrap domain.length)::rest :=
    ⟨(requestPieces draws domain).take 13,(requestPieces draws domain).drop 14,rfl⟩
  obtain ⟨first,rest,heq⟩ := hsplit
  rw [createRequest,heq,addPieces_negative hneg]
  rfl

end Bytes

theorem separate_other (greases : Vector UInt8 7) {i j : Fin 7} (hij : i ≠ j) :
    (separate greases j)[i] = greases[i] := by
  unfold separate
  split
  · exact Vector.getElem_set_ne _ _ fun h => hij (Fin.ext h.symm)
  · rfl

theorem grease_ne_zero (b : UInt8) : (b &&& 0xF0)+0x0A ≠ 0 := by
  have hall : ∀ n : Fin 256, (UInt8.ofFin n &&& 0xF0)+0x0A ≠ 0 := by decide +kernel
  exact hall b.toFin

/-- The first extension has a number other than that of the SNI. -/
theorem greaseNumber_ne_zero (bytes : Vector UInt8 7) : greaseNumber (makeGreases bytes) 2 ≠ 0 := by
  have hvalue : (makeGreases bytes)[(2 : Fin 7)] = (bytes[(2 : Fin 7)] &&& 0xF0)+0x0A := by
    simp only [makeGreases,List.foldl_cons,List.foldl_nil]
    rw [separate_other _ (by decide),separate_other _ (by decide),separate_other _ (by decide)]
    exact Vector.getElem_map _ _
  have hne := grease_ne_zero bytes[(2 : Fin 7)]
  rw [greaseNumber,hvalue]
  intro hzero
  apply hne
  apply UInt8.toNat.inj
  rw [UInt8.toNat_zero]
  omega

section Sni
variable {pre body name rest : Bytes} {n : ℕ} {maxDomainLen : ℤ}

/-- An SNI of which every test finds what it wants. -/
theorem sniName_value (hlt : (pre++body).length < 2147483648) (hlist : word (part body 0 2) = n+3)
    (htype : part body 2 1 = [0]) (hdomain : word (part body 3 2) = n) (hfits : 5+n ≤ body.length)
    (hclean : 0 ∉ part body 5 n) (hpos : 0 < n) (hmax : n < maxDomainLen) :
    sniName (pre++body) maxDomainLen ((n+5 : ℕ) : ℤ) pre.length = .ok (some (part body 5 n)) := by
  have hlen : (pre++body).length = pre.length+body.length := List.length_append
  have hat : ∀ k : ℕ, k ≤ 5 → wrap ((pre.length : ℤ)+k) = ((pre.length+k : ℕ) : ℤ) := by
    intro k hk
    rw [wrap_of_lt (by omega) (by omega)]
    push_cast
    rfl
  have h2 : wrap ((pre.length : ℤ)+2) = ((pre.length+2 : ℕ) : ℤ) := hat 2 (by omega)
  have h3 : wrap ((pre.length : ℤ)+3) = ((pre.length+3 : ℕ) : ℤ) := hat 3 (by omega)
  have h5 : wrap ((pre.length : ℤ)+5) = ((pre.length+5 : ℕ) : ℤ) := hat 5 (by omega)
  have hinner : tlsReadLength (pre++body) (pre.length : ℤ) = .ok (word (part body 0 2) : ℤ) :=
    length_tail pre body (p := 0) (by omega)
  have hzero : noZero (pre++body) n ((pre.length+5 : ℕ) : ℤ) = .ok true :=
    (noZero_sound pre body hlt n 5 (by omega)).2.1 hclean (by omega)
  rw [sniName,h5,if_neg (by omega),hinner,ok_bind,if_neg (by omega),h2,read_tail pre body (by omega),ok_bind,
    if_neg (by simpa using htype),h3,length_tail pre body (by omega),ok_bind,if_neg (by omega),hdomain,
    Int.toNat_natCast]
  dsimp only
  rw [hzero,ok_bind,if_neg (by decide),if_neg (by omega),read_tail pre body (by omega),ok_bind]
  rfl

theorem length_sniExtension (name : Bytes) : (sniExtension name).2.length = name.length+5 := by
  simp [sniExtension,vec16]

/-- The SNI ends the loop with its name. -/
theorem sniPass_name (hlt : (pre++(extension (sniExtension name)++rest)).length < 2147483648)
    (hshort : name.length < 65000) (hne : name ≠ []) (hclean : 0 ∉ name) (hmax : name.length < maxDomainLen) :
    sniPass (pre++(extension (sniExtension name)++rest)) maxDomainLen pre.length =
      .ok (.leave (some name)) := by
  let body := (sniExtension name).2++rest
  have hext := length_extension (sniExtension name)
  have hdata := length_sniExtension name
  have hlen : (pre++(extension (sniExtension name)++rest)).length =
      pre.length+(4+(sniExtension name).2.length+rest.length) := by
    rw [List.length_append,List.length_append,hext]
  have hlength : word (part (extension (sniExtension name)++rest) 2 2) = name.length+5 := by
    rw [← hdata]
    exact word_pair (by omega)
  have hid : word (part (extension (sniExtension name)++rest) 0 2) = 0 :=
    word_pair (show 0 < 65536 by decide)
  have hfour : (pre++(extension (sniExtension name)++rest).take 4).length = pre.length+4 := by
    rw [List.length_append,List.length_take,List.length_append]
    omega
  have hvec : ([0x00]++vec16 name).length = name.length+3 := by simp [vec16]
  have hsplit : body = [UInt8.ofNat ((name.length+3)/256),UInt8.ofNat (name.length+3),0x00,
      UInt8.ofNat (name.length/256),UInt8.ofNat name.length]++(name++rest) := by
    simp only [body,sniExtension]
    rw [vec16,hvec]
    simp [vec16]
  have hbuf : pre++(extension (sniExtension name)++rest) =
      (pre++(extension (sniExtension name)++rest).take 4)++body := by
    rw [List.append_assoc]
    rfl
  have hpart : part body 5 name.length = name := by
    rw [hsplit]
    exact part_mid rfl rfl
  have hvalue : sniName ((pre++(extension (sniExtension name)++rest).take 4)++body) maxDomainLen
      ((name.length+5 : ℕ) : ℤ) (pre++(extension (sniExtension name)++rest).take 4).length =
        .ok (some (part body 5 name.length)) := sniName_value
    (by rw [← hbuf]; exact hlt) (by rw [hsplit]; exact word_pair (by omega))
    (by rw [hsplit]; rfl) (by rw [hsplit]; exact word_pair (by omega))
    (by rw [hsplit]; simp; omega) (by rw [hpart]; exact hclean) (List.length_pos_iff.mpr hne) hmax
  rw [← hbuf,hpart] at hvalue
  rw [sniPass_header hlt (by rw [List.length_append]; omega),hid,hlength,hvalue,hfour,
    wrap_of_lt (by omega) (by omega),if_neg (by omega),if_pos rfl]
  rfl

/-- Everything in front of the extensions. -/
theorem requestBytes_split (draws : Draws) (name : Bytes) (padding : ℕ) : ∃ pre,
    pre.length = 116 ∧ part pre 76 2 = [0x00,0x22] ∧ requestBytes draws name padding = pre++
      concat extension (requestExtensions (makeGreases draws.greases) draws.publicKey.toList name padding) := by
  let exts := concat extension (requestExtensions (makeGreases draws.greases) draws.publicKey.toList name padding)
  let ciphers := requestCiphers (makeGreases draws.greases)
  let body : Bytes := [0x03,0x03]++draws.random.toList++vec8 draws.sessionId.toList++vec16 ciphers++vec8 [0x00]++
    vec16 exts
  have hciphers : ciphers.length = 34 := rfl
  let start : Bytes := [0x16,0x03,0x01]++[UInt8.ofNat (([0x01]++vec24 body).length/256),
    UInt8.ofNat ([0x01]++vec24 body).length]++[0x01]++[UInt8.ofNat (body.length/65536),
    UInt8.ofNat (body.length/256),UInt8.ofNat body.length]++[0x03,0x03]++draws.random.toList++
    vec8 draws.sessionId.toList
  have hstart : start.length = 76 := by simp [start,vec8]
  refine ⟨start++([0x00,0x22]++(ciphers++vec8 [0x00]++[UInt8.ofNat (exts.length/256),
    UInt8.ofNat exts.length])),?_,part_mid hstart rfl,?_⟩
  · simp [hstart,hciphers,vec8]
  · simp only [requestBytes,clientHello]
    show [0x16,0x03,0x01]++vec16 ([0x01]++vec24 body) = _
    rw [vec16,vec24]
    simp only [body,start,vec16,vec24,List.append_assoc,hciphers]
    rfl

theorem tlsParseSni_request {draws : Draws} {padding fuel : ℕ} (hpadding : name.length+padding = 216)
    (hne : name ≠ []) (hclean : 0 ∉ name) (hmax : name.length < maxDomainLen) (hfuel : 517 < fuel) :
    tlsParseSni (requestBytes draws name padding) fuel maxDomainLen = .ok (some name) := by
  obtain ⟨pre,hpre,hciphers,hbuf⟩ := requestBytes_split draws name padding
  have hlen : (requestBytes draws name padding).length = 517 := length_requestBytes hpadding
  obtain ⟨rest,hrest⟩ : ∃ rest, concat extension (requestExtensions (makeGreases draws.greases)
      draws.publicKey.toList name padding) =
        extension (greaseNumber (makeGreases draws.greases) 2,[])++(extension (sniExtension name)++rest) :=
    ⟨_,rfl⟩
  have hother : IsOther (greaseNumber (makeGreases draws.greases) 2,[]) := by
    have hb := (makeGreases draws.greases)[(2 : Fin 7)].toNat_lt
    refine ⟨greaseNumber_ne_zero _,?_,show 0 < 65536 by decide⟩
    unfold greaseNumber
    omega
  rw [hrest] at hbuf
  have hlength : tlsReadLength (requestBytes draws name padding) ((76 : ℕ) : ℤ) = .ok ((34 : ℕ) : ℤ) := by
    rw [tlsReadLength_eq (by omega),hbuf,part_extend (by omega),hciphers]
    rfl
  have hlt : (requestBytes draws name padding).length < 2147483648 := by omega
  have hfirst : sniPass (requestBytes draws name padding) maxDomainLen pre.length =
      .ok (.again ((pre++extension (greaseNumber (makeGreases draws.greases) 2,[])).length : ℤ)) := by
    rw [hbuf] at hlt ⊢
    exact sniPass_extension hother hlt
  have hsecond : sniPass (requestBytes draws name padding) maxDomainLen
      (pre++extension (greaseNumber (makeGreases draws.greases) 2,[])).length = .ok (.leave (some name)) := by
    rw [hbuf,← List.append_assoc] at hlt ⊢
    exact sniPass_name hlt (by omega) hne hclean hmax
  obtain ⟨k,rfl⟩ : ∃ k, fuel = k+1+1 := ⟨fuel-2,by omega⟩
  have hrun := (run_again hfirst (k+1)).trans (run_leave hsecond k)
  rw [hpre] at hrun
  rw [tlsParseSni]
  dsimp only
  rw [if_neg (by omega),show (11+32+1+32 : ℤ) = ((76 : ℕ) : ℤ) from rfl,hlength,ok_bind,if_neg (by omega)]
  exact hrun

end Sni

/-- The name that a probe asks for. -/
def probeSni (info : DomainInfo) : Bytes :=
  if info.isWildcard then info.backendHost.getD info.domain else info.domain

/-- A name and a backend, as C strings, with the entry that is made of them. It has no unix
socket, and there is something to ask for: its domain, or the host behind a wildcard. -/
structure Probed where
  name : Bytes
  backend : Option Bytes
  info : DomainInfo
  name_clean : 0 ∉ name
  backend_clean : ∀ spec ∈ backend, 0 ∉ spec
  parsed : parseEntry name backend = some info
  acceptable : info.acceptable = true
  noUnix : info.unixPath = none
  sni : Bytes
  sni_eq : sni = info.domain ∨ sni = probeSni info
  sni_ne_nil : sni ≠ []

theorem parseHostPort_subset {spec host : Bytes} {port : ℤ}
    (h : ProxyDomains.parseHostPort spec = some (host,port)) : host ⊆ spec := by
  unfold ProxyDomains.parseHostPort at h
  split_ifs at h with hbracket hclosed hcount
  · cases h
    exact List.Subset.trans (List.takeWhile_subset _) (List.drop_subset 1 spec)
  · cases h
    exact List.takeWhile_subset _
  · cases h
    exact List.Subset.refl spec

/-- No byte of a name is zero. -/
theorem Probed.sni_clean (p : Probed) : 0 ∉ p.sni := by
  have hnames : 0 ∉ p.info.domain ∧ ∀ host ∈ p.info.backendHost, 0 ∉ host := by
    have hparsed := p.parsed
    unfold parseEntry at hparsed
    split at hparsed
    · obtain ⟨⟨host,port⟩,hhost,hinfo⟩ := Option.map_eq_some_iff.mp hparsed
      rw [← hinfo]
      exact ⟨fun h => p.name_clean (parseHostPort_subset hhost h),by simp⟩
    · rename_i spec hspec
      have hclean := p.backend_clean spec (Option.filter_eq_some_iff.mp hspec).1
      split_ifs at hparsed
      · rw [← Option.some.inj hparsed]
        exact ⟨p.name_clean,by simp⟩
      · rw [← Option.some.inj hparsed]
        exact ⟨p.name_clean,by simp⟩
      · obtain ⟨⟨host,port⟩,hhost,hinfo⟩ := Option.map_eq_some_iff.mp hparsed
        rw [← hinfo]
        refine ⟨p.name_clean,fun other hother => ?_⟩
        cases hother
        exact fun h => hclean (parseHostPort_subset hhost h)
  rcases p.sni_eq with h | h
  · rw [h]
    exact hnames.1
  · rw [h,probeSni]
    split_ifs
    · cases hhost : p.info.backendHost with
      | none => exact hnames.1
      | some host => exact hnames.2 host hhost
    · exact hnames.1

/-- A request of the right size with nothing but right lengths in it, from which the domain
is read as long as it fits the buffer for it, whose size is an `int`. -/
structure GoodRequest (draws : Draws) (domain request : Bytes) : Prop where
  length : request.length = tlsRequestLength
  nested : ∃ name padding, request = requestBytes draws name padding
  sni : ∀ (fuel : ℕ) (maxDomainLen : ℤ), tlsRequestLength < fuel → maxDomainLen < 2147483648 →
    domain.length < maxDomainLen → tlsParseSni request fuel maxDomainLen = .ok (some domain)

/-- The request for a domain is good exactly if the domain has, as an `int`, a length of at
most 216. -/
theorem probe_request_iff (p : Probed) (memory : Vector UInt8 tlsRequestLength) (draws : Draws) :
    (∃ request, createRequest memory draws p.sni = some request ∧ GoodRequest draws p.sni request) ↔
      0 ≤ wrap p.sni.length ∧ wrap p.sni.length ≤ 216 := by
  by_cases hneg : wrap p.sni.length < 0
  · rw [createRequest_negative memory hneg]
    constructor
    · intro ⟨_,hsome,_⟩
      cases hsome
    · intro ⟨hlow,_⟩
      omega
  obtain ⟨n,hn⟩ := Int.eq_ofNat_of_zero_le (not_lt.mp hneg)
  have hlen := length_take_wrap hn
  rw [createRequest_eq memory hn,hn]
  by_cases hroom : n ≤ 216
  · rw [if_pos hroom]
    refine ⟨fun _ => by omega,fun _ => ⟨_,rfl,length_requestBytes (by omega),⟨_,_,rfl⟩,?_⟩⟩
    intro fuel maxDomainLen hfuel hint hmax
    have hsmall : n = p.sni.length := by
      rw [wrap_of_lt (by omega) (by omega)] at hn
      omega
    rw [hsmall,List.take_length]
    exact tlsParseSni_request (by omega) p.sni_ne_nil p.sni_clean hmax hfuel
  · rw [if_neg hroom]
    constructor
    · intro ⟨_,hsome,_⟩
      cases hsome
    · intro ⟨_,hhigh⟩
      omega

/-- A host name of 217 bytes. -/
def longName : Bytes :=
  List.replicate 63 97++[46]++List.replicate 63 97++[46]++List.replicate 63 97++[46]++List.replicate 25 97

set_option maxRecDepth 2000 in
/-- It is an alias of a server at 127.0.0.1. -/
def longEntry : Probed where
  name := longName
  backend := some (ClientInput.bytesOf "127.0.0.1")
  info := {domain := longName, backendHost := some (ClientInput.bytesOf "127.0.0.1")}
  name_clean := by decide
  backend_clean := by decide
  parsed := by decide
  acceptable := by decide
  noUnix := rfl
  sni := longName
  sni_eq := .inl rfl
  sni_ne_nil := by decide

/-- The assertion on the padding fails, whatever is drawn. -/
theorem long_domain_aborts : longEntry.sni.length = 217 ∧ ∀ memory draws,
    createRequest memory draws longEntry.sni = none ∧
      ¬ ∃ request, createRequest memory draws longEntry.sni = some request ∧
        GoodRequest draws longEntry.sni request := by
  have hlen : longEntry.sni.length = 217 := by
    show longName.length = 217
    simp only [longName,List.length_append,List.length_replicate,List.length_singleton]
  have hwrap : wrap longEntry.sni.length = (217 : ℕ) := by
    rw [hlen]
    decide
  refine ⟨hlen,fun memory draws => ?_⟩
  have hnone : createRequest memory draws longEntry.sni = none := by
    rw [createRequest_eq memory hwrap]
    rfl
  refine ⟨hnone,?_⟩
  intro ⟨_,hsome,_⟩
  rw [hnone] at hsome
  cases hsome

end Teleproxy.ProbeRequest
