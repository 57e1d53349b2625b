import Teleproxy.ClientInput
import Teleproxy.Lib.Framing
import Mathlib.Data.Nat.Digits.Lemmas
import Mathlib.Tactic.IntervalCases

/-!
# Messages of the SOCKS5 tunnel

The relay thread of a tunnel exchanges messages with the shim over one of two codecs,
`ws_write_encrypt` with `ws_read_decrypt` and `ld_write_encrypt` with
`ld_read_decrypt`. The first puts a message into a binary WebSocket frame, the second
into a chunk of an HTTP body, with two lengths in front of the payload. The cipher is a
keystream that both ends share.

The input of a reader is what is left of the stream; `recv_all` fails behind its end.
Calls of `send_all` and `malloc` succeed here.
-/
namespace Teleproxy.TunnelCodec
open ClientInput (Bytes Cipher crypt_crypt length_crypt)

/-- One end of the tunnel while it reads. -/
structure Relay where
  input : Bytes
  dec : Cipher
  /-- What was sent in answer to control frames. -/
  sent : Bytes := []

def recvAll (r : Relay) (len : ℕ) : Option (Bytes × Relay) :=
  if r.input.length < len then none
  else some (r.input.take len,{r with input := r.input.drop len})

/-- The length of an unmasked frame; the writer and the answer to a ping share this form. -/
def wsHeader (first : UInt8) (len : ℕ) : Bytes :=
  if len < 126 then [first,.ofNat len] else [first,126,.ofNat (len >>> 8),.ofNat (len &&& 0xff)]

def wsWriteEncrypt (enc : Cipher) (plain : Bytes) : Option (Bytes × Cipher) :=
  if plain.length ≤ 0 ∨ 2^20 < plain.length then none
  else some (wsHeader 0x82 plain.length++enc.crypt plain,enc.advance plain.length)

structure WsFrame where
  fin : Bool
  op : UInt8
  payload : Bytes

/-- One frame, unmasked. -/
def wsRecvFrame (r : Relay) : Option (WsFrame × Relay) := do
  let (h2,r) ← recvAll r 2
  let h0 := h2.getD 0 0
  let h1 := h2.getD 1 0
  let (plen,r) ←
    if h1 &&& 0x7f = 126 then do
      let (ext,r) ← recvAll r 2
      some ((ext.getD 0 0).toNat <<< 8 ||| (ext.getD 1 0).toNat,r)
    else if h1 &&& 0x7f = 127 then none
    else some ((h1 &&& 0x7f).toNat,r)
  let (mask,r) ← if h1 &&& 0x80 ≠ 0 then recvAll r 4 else some ([0,0,0,0],r)
  if 2^20 < plen then none
  else do
    let (buf,r) ← recvAll r plen
    let buf := if h1 &&& 0x80 ≠ 0 then buf.mapIdx fun i b => b ^^^ mask.getD (i % 4) 0 else buf
    some (⟨h0 &&& 0x80 ≠ 0,h0 &&& 0x0f,buf⟩,r)

/-- Control frames are answered or left out until there is a frame with data. -/
def wsReadLoop : ℕ → Relay → Option (Bytes × Relay)
  | 0, _ => none
  | fuel+1, r =>
      match wsRecvFrame r with
      | none => none
      | some (f,r) =>
          if f.op = 0x9 then
            wsReadLoop fuel {r with sent := r.sent++wsHeader 0x8a f.payload.length++f.payload}
          else if f.op = 0xa then wsReadLoop fuel r
          else if f.op = 0x8 then none
          else if f.op ≠ 0x2 then none
          else if f.fin = false ∨ f.payload.length ≤ 0 then none
          else some (r.dec.crypt f.payload,{r with dec := r.dec.advance f.payload.length})

/-- Each frame has at least two bytes, so that the loop ends before the fuel does. -/
def wsReadDecrypt (r : Relay) : Option (Bytes × Relay) := wsReadLoop (r.input.length+1) r

/-- A line without its end, cut off at 14 characters. -/
def recvLine : Bytes → Bytes → Option (Bytes × Bytes)
  | _, [] => none
  | line, c::rest =>
      if c = 0x0a then some (line,rest)
      else recvLine (if c ≠ 0x0d ∧ line.length < 14 then line++[c] else line) rest

def isspace (c : UInt8) : Bool := c = 0x20 ∨ (0x09 ≤ c ∧ c ≤ 0x0d)

/-- The value of a hexadecimal digit of either case. -/
def hexValue (c : UInt8) : Option ℕ :=
  if 0x30 ≤ c ∧ c ≤ 0x39 then some (c.toNat-0x30)
  else if 0x61 ≤ c ∧ c ≤ 0x66 then some (c.toNat-0x61+10)
  else if 0x41 ≤ c ∧ c ≤ 0x46 then some (c.toNat-0x41+10)
  else none

def hexDigits (acc : ℕ) : Bytes → ℕ
  | [] => acc
  | c::s =>
      match hexValue c with
      | none => acc
      | some d => hexDigits (acc*16+d) s

/-- Without the `0x` that `strtol` allows in front of a digit. -/
def skipHexPrefix : Bytes → Bytes
  | c::x::d::s =>
      if c = 0x30 ∧ (x = 0x78 ∨ x = 0x58) ∧ (hexValue d).isSome then d::s else c::x::d::s
  | s => s

/-- `strtol (s, NULL, 16)`: spaces, a sign, a prefix and digits, up to the first character
that is none; the result is a `long`. -/
def strtol16 (s : Bytes) : ℤ :=
  match s.dropWhile isspace with
  | [] => 0
  | c::s =>
      if c = 0x2d then max (-(hexDigits 0 (skipHexPrefix s) : ℤ)) (-2^63)
      else if c = 0x2b then min (hexDigits 0 (skipHexPrefix s) : ℤ) (2^63-1)
      else min (hexDigits 0 (skipHexPrefix (c::s)) : ℤ) (2^63-1)

def hsRecvChunk (r : Relay) : Option (Bytes × Relay) := do
  let (line,rest) ← recvLine [] r.input
  let r := {r with input := rest}
  let sz := strtol16 line
  if sz ≤ 0 ∨ 2^20 < sz then none
  else do
    let (buf,r) ← recvAll r sz.toNat
    let (_,r) ← recvAll r 2
    some (r.dec.crypt buf,{r with dec := r.dec.advance buf.length})

/-- The four bytes in front, lowest first, without the top bit. -/
def wireLen (acc : Bytes) : ℕ :=
  ((acc.getD 0 0).toNat+256*((acc.getD 1 0).toNat+256*((acc.getD 2 0).toNat+
    256*(acc.getD 3 0).toNat))) % 2^31

/-- Chunks are put together until they hold a whole message. What is behind the message
in them is dropped. -/
def ldReadLoop : ℕ → Bytes → Relay → Option (Bytes × Relay)
  | 0, _, _ => none
  | fuel+1, acc, r =>
      let wl := wireLen acc
      if 6 ≤ acc.length ∧ 4+wl ≤ acc.length then
        let il := (acc.getD 4 0).toNat+256*(acc.getD 5 0).toNat
        let il := if wl < il+2 then wl-2 else il
        some ((acc.drop 6).take il,r)
      else
        match hsRecvChunk r with
        | none => none
        | some (chunk,r) => ldReadLoop fuel (acc++chunk) r

/-- Each chunk takes at least one byte of the input. -/
def ldReadDecrypt (r : Relay) : Option (Bytes × Relay) := ldReadLoop (r.input.length+1) [] r

def hexChar (d : ℕ) : UInt8 := if d < 10 then .ofNat (0x30+d) else .ofNat (0x61+(d-10))

/-- `"%x"` of an `unsigned`. -/
def hex (n : ℕ) : Bytes := if n = 0 then [0x30] else ((Nat.digits 16 n).map hexChar).reverse

def ldFrame (plain : Bytes) : Bytes :=
  let wl := 2+plain.length
  [.ofNat wl,.ofNat (wl >>> 8),.ofNat (wl >>> 16),.ofNat (wl >>> 24),
    .ofNat (plain.length &&& 0xff),.ofNat (plain.length >>> 8 &&& 0xff)]++plain

def ldWriteEncrypt (enc : Cipher) (plain : Bytes) : Option (Bytes × Cipher) :=
  if 2^20-6 < plain.length then none
  else
    let fl := 4+(2+plain.length)
    some (hex fl++[0x0d,0x0a]++enc.crypt (ldFrame plain)++[0x0d,0x0a],enc.advance fl)

section
variable (c : Cipher) (sent : Bytes)

theorem recvAll_append (xs ys : Bytes) :
    recvAll ⟨xs++ys,c,sent⟩ xs.length = some (xs,⟨ys,c,sent⟩) := by
  simp [recvAll]

/-- The length that a reader takes from a header. -/
def wsLen (len : ℕ) : ℕ := if len < 126 then len else len % 2^16

theorem short_length : ∀ n < 126, UInt8.ofNat n &&& 0x7f ≠ 126 ∧ UInt8.ofNat n &&& 0x7f ≠ 127 ∧
    (UInt8.ofNat n &&& 0x7f).toNat = n ∧ UInt8.ofNat n &&& 0x80 = 0 := by
  decide +kernel

theorem ext_length (len : ℕ) : (UInt8.ofNat (len >>> 8)).toNat <<< 8 |||
    (UInt8.ofNat (len &&& 0xff)).toNat = len % 2^16 := by
  have hlow : (UInt8.ofNat (len &&& 0xff)).toNat = len % 256 := by
    rw [show (0xff : ℕ) = 2^8-1 from rfl,Nat.and_two_pow_sub_one_eq_mod,UInt8.toNat_ofNat']
    omega
  rw [hlow,← Nat.shiftLeft_add_eq_or_of_lt (show len % 256 < 2^8 by omega),UInt8.toNat_ofNat',
    Nat.shiftRight_eq_div_pow,Nat.shiftLeft_eq]
  omega

theorem wsRecvFrame_header (len : ℕ) (rest : Bytes) :
    wsRecvFrame ⟨wsHeader 0x82 len++rest,c,sent⟩ =
      (recvAll ⟨rest,c,sent⟩ (wsLen len)).map fun f => (⟨true,2,f.1⟩,f.2) := by
  by_cases hlen : len < 126
  · obtain ⟨h126,h127,hvalue,hmask⟩ := short_length len hlen
    have htwo : recvAll ⟨[0x82,.ofNat len]++rest,c,sent⟩ 2 = _ := recvAll_append c sent _ rest
    rw [wsLen,if_pos hlen,wsHeader,if_pos hlen,wsRecvFrame,htwo]
    simp only [Option.bind_eq_bind,Option.bind_some,List.getD_cons_zero,List.getD_cons_succ,
      if_neg h126,if_neg h127,hvalue,hmask,ne_eq,not_true_eq_false,if_false,
      if_neg (show ¬2^20 < len by omega)]
    cases recvAll ⟨rest,c,sent⟩ len <;> rfl
  · have htwo : recvAll ⟨[0x82,126]++([.ofNat (len >>> 8),.ofNat (len &&& 0xff)]++rest),c,sent⟩ 2 =
        _ := recvAll_append c sent _ _
    have hext : recvAll ⟨[.ofNat (len >>> 8),.ofNat (len &&& 0xff)]++rest,c,sent⟩ 2 = _ :=
      recvAll_append c sent _ rest
    rw [wsLen,if_neg hlen,wsHeader,if_neg hlen,wsRecvFrame]
    change ((recvAll ⟨[0x82,126]++([.ofNat (len >>> 8),.ofNat (len &&& 0xff)]++rest),c,sent⟩ 2).bind _) = _
    rw [htwo,Option.bind_some]
    dsimp only [List.getD_cons_zero,List.getD_cons_succ]
    rw [if_pos (by decide),hext]
    simp only [Option.bind_eq_bind,Option.bind_some,List.getD_cons_zero,List.getD_cons_succ,
      ext_length]
    rw [if_neg (by decide),if_neg (show ¬2^20 < len % 2^16 by omega)]
    cases recvAll ⟨rest,c,sent⟩ (len % 2^16) <;> rfl

theorem wsReadDecrypt_header (len : ℕ) (rest : Bytes) :
    wsReadDecrypt ⟨wsHeader 0x82 len++rest,c,sent⟩ =
      (recvAll ⟨rest,c,sent⟩ (wsLen len)).bind fun f =>
        if f.1.length ≤ 0 then none
        else some (f.2.dec.crypt f.1,{f.2 with dec := f.2.dec.advance f.1.length}) := by
  rw [wsReadDecrypt,wsReadLoop,wsRecvFrame_header]
  cases recvAll ⟨rest,c,sent⟩ (wsLen len) with
  | none => rfl
  | some f => simp

end

/-- The reader gets back the messages whose length has 16 bits, and no other. -/
theorem ws_exact : Framing.Exact wsWriteEncrypt wsReadDecrypt (fun input c => ⟨input,c,[]⟩)
    (fun m => m.length < 2^16) where
  stops c := rfl
  nonempty {c m f} hf := by
    have hf := (Option.ite_none_left_eq_some.mp hf).2
    rw [← Option.some.inj hf,wsHeader]
    split_ifs <;> simp
  fits {c m f} hf hm rest := by
    obtain ⟨hacc,hf⟩ := Option.ite_none_left_eq_some.mp hf
    obtain rfl := Option.some.inj hf
    have hlen : wsLen m.length = (c.crypt m).length := by
      rw [wsLen,length_crypt]
      split_ifs <;> omega
    dsimp only
    rw [List.append_assoc,wsReadDecrypt_header,hlen,recvAll_append,Option.bind_some,
      if_neg (by rw [length_crypt]; omega),crypt_crypt,length_crypt]
  misfits {c m f} hf hm rest r := by
    obtain ⟨-,hf⟩ := Option.ite_none_left_eq_some.mp hf
    obtain rfl := Option.some.inj hf
    dsimp only
    rw [List.append_assoc,wsReadDecrypt_header,wsLen,if_neg (by omega)]
    intro hread
    obtain ⟨⟨buf,r'⟩,hrecv,hread⟩ := Option.bind_eq_some_iff.mp hread
    have hmsg := congrArg (fun p => p.1.length) (Option.some.inj (Option.ite_none_left_eq_some.mp hread).2)
    have hbuf := congrArg (fun p => p.1.length) (Option.some.inj (Option.ite_none_left_eq_some.mp hrecv).2)
    simp only [length_crypt,List.length_take] at hmsg hbuf
    omega

theorem recvLine_append {xs : Bytes} (hxs : ∀ c ∈ xs, c ≠ 0x0a ∧ c ≠ 0x0d) (rest : Bytes) :
    ∀ line, line.length+xs.length ≤ 14 →
      recvLine line (xs++0x0d::0x0a::rest) = some (line++xs,rest) := by
  induction xs with
  | nil =>
      intro line hlen
      simp [recvLine]
  | cons x xs ih =>
      intro line hlen
      rw [List.forall_mem_cons] at hxs
      rw [List.length_cons] at hlen
      rw [List.cons_append,recvLine,if_neg hxs.1.1,if_pos ⟨hxs.1.2,by omega⟩,
        ih hxs.2 _ (by rw [List.length_append,List.length_singleton]; omega)]
      simp

/-- What the characters of `"%x"` are to the reader. -/
theorem hexChar_spec : ∀ d < 16, hexValue (hexChar d) = some d ∧ isspace (hexChar d) = false ∧
    hexChar d ∉ ([0x0a,0x0d,0x2d,0x2b,0x78,0x58] : Bytes) := by
  decide +kernel

theorem hexDigits_map {ds : List ℕ} (hds : ∀ d ∈ ds, d < 16) (acc : ℕ) :
    hexDigits acc (ds.map hexChar) = ds.foldl (fun a d => a*16+d) acc := by
  induction ds generalizing acc with
  | nil => rfl
  | cons d ds ih =>
      rw [List.forall_mem_cons] at hds
      rw [List.map_cons,hexDigits,(hexChar_spec d hds.1).1,List.foldl_cons]
      exact ih hds.2 _

theorem skipHexPrefix_map {ds : List ℕ} (hds : ∀ d ∈ ds, d < 16) :
    skipHexPrefix (ds.map hexChar) = ds.map hexChar := by
  match ds with
  | [] => rfl
  | [d] => rfl
  | [d,e] => rfl
  | d::e::f::ds =>
      have he := (hexChar_spec e (hds e (by simp))).2.2
      simp only [List.mem_cons,not_or] at he
      simp only [List.map_cons,skipHexPrefix]
      rw [if_neg (by tauto)]

section
variable {n : ℕ}

theorem hex_eq (hpos : 0 < n) : hex n = (Nat.digits 16 n).reverse.map hexChar := by
  rw [hex,if_neg hpos.ne',List.map_reverse]

theorem digit_lt (n : ℕ) : ∀ d ∈ (Nat.digits 16 n).reverse, d < 16 := by
  intro d hd
  exact Nat.digits_lt_base (by decide) (List.mem_reverse.mp hd)

theorem mem_hex (hpos : 0 < n) {c : UInt8} (hc : c ∈ hex n) : ∃ d < 16, hexChar d = c := by
  rw [hex_eq hpos,List.mem_map] at hc
  obtain ⟨d,hd,rfl⟩ := hc
  exact ⟨d,digit_lt n d hd,rfl⟩

theorem hexDigits_hex (hpos : 0 < n) : hexDigits 0 (hex n) = n := by
  have hfold := Nat.ofDigits_digits 16 n
  rw [Nat.ofDigits_eq_foldr] at hfold
  rw [hex_eq hpos,hexDigits_map (digit_lt n),List.foldl_reverse]
  simpa [Nat.mul_comm,Nat.add_comm] using hfold

/-- `strtol` reads what `"%x"` prints. -/
theorem strtol16_hex (hpos : 0 < n) (hn : n < 2^63) : strtol16 (hex n) = n := by
  have hskip : skipHexPrefix (hex n) = hex n := by
    rw [hex_eq hpos,skipHexPrefix_map (digit_lt n)]
  have hvalue := hexDigits_hex hpos
  cases hs : hex n with
  | nil =>
      rw [hs,hexDigits] at hvalue
      omega
  | cons c s =>
      obtain ⟨d,hd,hc⟩ := mem_hex hpos (show c ∈ hex n by rw [hs]; simp)
      obtain ⟨-,hspace,hsign⟩ := hexChar_spec d hd
      rw [hc] at hspace hsign
      simp only [List.mem_cons,not_or] at hsign
      have hdrop : (c::s).dropWhile isspace = c::s := by
        rw [List.dropWhile_cons,hspace]
        rfl
      rw [strtol16,hdrop]
      dsimp only
      rw [if_neg hsign.2.2.1,if_neg hsign.2.2.2.1,← hs,hskip,hvalue]
      omega

theorem hex_chars (hpos : 0 < n) {c : UInt8} (hc : c ∈ hex n) : c ≠ 0x0a ∧ c ≠ 0x0d := by
  obtain ⟨d,hd,rfl⟩ := mem_hex hpos hc
  have hspec := (hexChar_spec d hd).2.2
  simp only [List.mem_cons,not_or] at hspec
  exact ⟨hspec.1,hspec.2.1⟩

theorem length_hex_le (hpos : 0 < n) (hn : n ≤ 2^20) : (hex n).length ≤ 14 := by
  rw [hex_eq hpos,List.length_map,List.length_reverse,Nat.digits_length_le_iff (by decide)]
  exact lt_of_le_of_lt hn (by norm_num)

/-- The line in front of a chunk. -/
theorem recvLine_hex (hpos : 0 < n) (hn : n ≤ 2^20) (rest : Bytes) :
    recvLine [] (hex n++0x0d::0x0a::rest) = some (hex n,rest) := by
  have hchars : ∀ c ∈ hex n, c ≠ 0x0a ∧ c ≠ 0x0d := fun c hc => hex_chars hpos hc
  have hlen := length_hex_le hpos hn
  exact recvLine_append hchars rest [] (by simpa using hlen)

end

theorem hsRecvChunk_hex (c : Cipher) {frame : Bytes} (hpos : 0 < frame.length)
    (hlen : frame.length ≤ 2^20) (rest : Bytes) :
    hsRecvChunk ⟨hex frame.length++[0x0d,0x0a]++c.crypt frame++[0x0d,0x0a]++rest,c,[]⟩ =
      some (frame,⟨rest,c.advance frame.length,[]⟩) := by
  have hline := recvLine_hex hpos hlen (c.crypt frame++([0x0d,0x0a]++rest))
  have hbuf := recvAll_append c [] (c.crypt frame) ([0x0d,0x0a]++rest)
  have hend : recvAll ⟨[0x0d,0x0a]++rest,c,[]⟩ 2 = _ := recvAll_append c [] _ rest
  rw [length_crypt] at hbuf
  rw [hsRecvChunk]
  simp only [List.append_assoc,List.cons_append,List.nil_append] at hline hbuf hend ⊢
  rw [hline]
  simp only [Option.bind_eq_bind,Option.bind_some]
  rw [strtol16_hex hpos (by omega),if_neg (by omega),Int.toNat_natCast,hbuf,Option.bind_some,hend,
    Option.bind_some,crypt_crypt,length_crypt]

theorem length_ldFrame (plain : Bytes) : (ldFrame plain).length = 4+(2+plain.length) := by
  rw [ldFrame,List.length_append]
  change 6+_ = _
  omega

theorem wireLen_ldFrame {plain : Bytes} (hlen : plain.length ≤ 2^20-6) :
    wireLen (ldFrame plain) = 2+plain.length := by
  simp only [wireLen,ldFrame,List.cons_append,List.nil_append,List.getD_cons_zero,
    List.getD_cons_succ,UInt8.toNat_ofNat',Nat.shiftRight_eq_div_pow]
  omega

/-- The inner length has 16 bits. -/
theorem innerLength_ldFrame (plain : Bytes) :
    ((ldFrame plain).getD 4 0).toNat+256*((ldFrame plain).getD 5 0).toNat = plain.length % 2^16 := by
  simp only [ldFrame,List.cons_append,List.nil_append,List.getD_cons_zero,List.getD_cons_succ,
    show (0xff : ℕ) = 2^8-1 from rfl,Nat.and_two_pow_sub_one_eq_mod,UInt8.toNat_ofNat',
    Nat.shiftRight_eq_div_pow]
  omega

/-- What is behind the inner length is lost. -/
theorem ldReadDecrypt_frame (c : Cipher) {plain : Bytes} (hlen : plain.length ≤ 2^20-6)
    (rest : Bytes) :
    ldReadDecrypt ⟨hex (4+(2+plain.length))++[0x0d,0x0a]++c.crypt (ldFrame plain)++[0x0d,0x0a]++rest,c,[]⟩ =
      some (plain.take (plain.length % 2^16),⟨rest,c.advance (4+(2+plain.length)),[]⟩) := by
  have hframe := length_ldFrame plain
  have hchunk := hsRecvChunk_hex c (show 0 < (ldFrame plain).length by omega) (by omega) rest
  rw [hframe] at hchunk
  have hfuel : ∃ fuel, (hex (4+(2+plain.length))++[0x0d,0x0a]++c.crypt (ldFrame plain)++
      [0x0d,0x0a]++rest).length = fuel+1 := ⟨(hex (4+(2+plain.length))).length+
        (ldFrame plain).length+rest.length+3,by simp; omega⟩
  obtain ⟨fuel,hfuel⟩ := hfuel
  rw [ldReadDecrypt,hfuel,ldReadLoop]
  dsimp only
  rw [if_neg (by simp),hchunk]
  dsimp only
  rw [List.nil_append,ldReadLoop,wireLen_ldFrame hlen,if_pos (by omega)]
  dsimp only
  rw [innerLength_ldFrame,if_neg (by omega)]
  rfl

theorem ld_exact : Framing.Exact ldWriteEncrypt ldReadDecrypt (fun input c => ⟨input,c,[]⟩)
    (fun m => m.length < 2^16) where
  stops c := rfl
  nonempty {c m f} hf := by
    obtain rfl := Option.some.inj (Option.ite_none_left_eq_some.mp hf).2
    simp
  fits {c m f} hf hm rest := by
    obtain ⟨hacc,hf⟩ := Option.ite_none_left_eq_some.mp hf
    obtain rfl := Option.some.inj hf
    dsimp only
    rw [ldReadDecrypt_frame c (by omega),Nat.mod_eq_of_lt hm,List.take_length]
  misfits {c m f} hf hm rest r := by
    obtain ⟨hacc,hf⟩ := Option.ite_none_left_eq_some.mp hf
    obtain rfl := Option.some.inj hf
    dsimp only
    rw [ldReadDecrypt_frame c (by omega)]
    intro h
    have hlen := congrArg (fun p => p.1.length) (Option.some.inj h)
    simp only [List.length_take] at hlen
    omega

open Framing (writeAll readAll readAll_eq_iff length_le_writeAll)

/-- The messages that `ws_read_decrypt` returns until it fails. -/
def wsReadAll (c : Cipher) (stream : Bytes) : List Bytes :=
  readAll wsReadDecrypt (stream.length+1) ⟨stream,c,[]⟩

def ldReadAll (c : Cipher) (stream : Bytes) : List Bytes :=
  readAll ldReadDecrypt (stream.length+1) ⟨stream,c,[]⟩

/-- What was written is read back, by either codec, if and only if the length of each message
has 16 bits. The writers accept up to about a million bytes. -/
theorem lossless_iff (c : Cipher) (msgs : List Bytes) (stream : Bytes) :
    (writeAll wsWriteEncrypt c msgs = some stream →
      (wsReadAll c stream = msgs ↔ ∀ m ∈ msgs, m.length < 2^16)) ∧
    (writeAll ldWriteEncrypt c msgs = some stream →
      (ldReadAll c stream = msgs ↔ ∀ m ∈ msgs, m.length < 2^16)) := by
  constructor
  · intro h
    exact readAll_eq_iff ws_exact h (Nat.lt_succ_of_le (length_le_writeAll ws_exact h))
  · intro h
    exact readAll_eq_iff ld_exact h (Nat.lt_succ_of_le (length_le_writeAll ld_exact h))

/-- A message of three bytes and one of two, with a keystream that is not constant. -/
theorem lossless_two : (∃ stream, writeAll wsWriteEncrypt ⟨UInt8.ofNat,0⟩ [[1,2,3],[4,5]] =
      some stream ∧ wsReadAll ⟨UInt8.ofNat,0⟩ stream = [[1,2,3],[4,5]]) ∧
    ∃ stream, writeAll ldWriteEncrypt ⟨UInt8.ofNat,0⟩ [[1,2,3],[4,5]] = some stream ∧
      ldReadAll ⟨UInt8.ofNat,0⟩ stream = [[1,2,3],[4,5]] :=
  ⟨⟨_,rfl,((lossless_iff _ _ _).1 rfl).mpr (by decide)⟩,
    ⟨_,rfl,((lossless_iff _ _ _).2 rfl).mpr (by decide)⟩⟩

/-- A message of 65536 bytes is accepted by both writers and lost. -/
theorem lossy_long : ¬∀ (c : Cipher) (msgs : List Bytes) (stream : Bytes),
    (writeAll wsWriteEncrypt c msgs = some stream → wsReadAll c stream = msgs) ∧
    (writeAll ldWriteEncrypt c msgs = some stream → ldReadAll c stream = msgs) := by
  intro h
  obtain ⟨m,hm⟩ : ∃ m : Bytes, m.length = 65536 :=
    ⟨List.replicate 65536 0,List.length_replicate⟩
  have hwrite : ∃ stream, writeAll wsWriteEncrypt ⟨fun _ => 0,0⟩ [m] = some stream := by
    rw [writeAll,wsWriteEncrypt,hm,if_neg (by decide)]
    exact ⟨_,rfl⟩
  obtain ⟨stream,hwrite⟩ := hwrite
  have hfits := (readAll_eq_iff ws_exact hwrite
    (Nat.lt_succ_of_le (length_le_writeAll ws_exact hwrite))).mp ((h _ _ stream).1 hwrite)
  have hlt := hfits m (by simp)
  omega

end Teleproxy.TunnelCodec
