import Teleproxy.ClientInput
import Mathlib.Tactic.IntervalCases

/-!
# Targets of the SOCKS5 tunnel

A client of the tunnel names a host and a port. `tcp_connect_target` resolves the
host and tries the addresses one after the other, but leaves out the addresses of
networks that a client must not reach through the proxy. The test is made on the
resolved addresses, of either family.

What the resolver answers is a parameter, and so is what becomes of a socket and
of a call of `connect` for each of its addresses. The networks that are inside are
stated on their own, by their prefixes.
-/
namespace Teleproxy.TunnelTarget
open ClientInput (Bytes)

structure InAddr where
  a : UInt8
  b : UInt8
  c : UInt8
  d : UInt8
  deriving DecidableEq, Repr

structure In6Addr where
  bytes : Bytes
  length_eq : bytes.length = 16
  deriving DecidableEq, Repr

inductive SockAddr where
  | inet (addr : InAddr)
  | inet6 (addr : In6Addr)
  /-- Any other `sa_family`. -/
  | other
  deriving DecidableEq, Repr

/-- The address in host byte order. -/
def InAddr.ntohl (x : InAddr) : BitVec 32 := x.a.toBitVec++x.b.toBitVec++x.c.toBitVec++x.d.toBitVec

def v4Blocked (ip : BitVec 32) : Bool :=
  ip >>> 24 == 127#32 || ip >>> 24 == 10#32 || ip >>> 24 == 0#32 ||
    ip &&& 0xfff00000#32 == 0xac100000#32 || ip >>> 16 == 0xc0a8#32 || ip >>> 16 == 0xa9fe#32 ||
    ip >>> 28 == 0xe#32

def loopback : Bytes := [0,0,0,0,0,0,0,0,0,0,0,0,0,0,0,1]

def v4mapped : Bytes := [0,0,0,0,0,0,0,0,0,0,0xff,0xff]

/-- The last four bytes of an IPv6 address. -/
def In6Addr.embedded (x : In6Addr) : InAddr :=
  ⟨x.bytes.getD 12 0,x.bytes.getD 13 0,x.bytes.getD 14 0,x.bytes.getD 15 0⟩

def v6Blocked (x : In6Addr) : Bool :=
  let b := x.bytes
  if b = loopback then true
  else if b.getD 0 0 &&& 0xfe = 0xfc then true
  else if b.getD 0 0 = 0xfe ∧ b.getD 1 0 &&& 0xc0 = 0x80 then true
  else if b.getD 0 0 = 0xff then true
  else if b.take 12 = v4mapped then v4Blocked x.embedded.ntohl
  else false

def sockaddrBlocked : SockAddr → Bool
  | .inet x => v4Blocked x.ntohl
  | .inet6 x => v6Blocked x
  | .other => true

/-- A resolved address, whether a socket can be made for it and whether it connects. -/
structure AddrInfo where
  addr : SockAddr
  socket : Bool := true
  connects : Bool := false
  deriving DecidableEq, Repr

/-- The loop over the answer of the resolver: the address that was connected to and
all addresses that `connect` was called with. -/
def connectLoop : List AddrInfo → Option SockAddr × List SockAddr
  | [] => (none,[])
  | p::res =>
      if sockaddrBlocked p.addr then connectLoop res
      else if p.socket = false then connectLoop res
      else if p.connects then (some p.addr,[p.addr])
      else
        let (tfd,calls) := connectLoop res
        (tfd,p.addr::calls)

def tcpConnectTarget (getaddrinfo : Bytes → UInt16 → Option (List AddrInfo)) (host : Bytes)
    (port : UInt16) : Option SockAddr × List SockAddr :=
  match getaddrinfo host port with
  | none => (none,[])
  | some res => connectLoop res

/-- The bits of an address, the highest one first. -/
def bits (bs : Bytes) : List Bool :=
  bs.flatMap fun b => (List.range 8).map fun i => b.toNat.testBit (7-i)

/-- The first `len` bits are those of `net`. -/
def InNet (bs net : Bytes) (len : ℕ) : Prop := (bits bs).take len = (bits net).take len

instance (bs net : Bytes) (len : ℕ) : Decidable (InNet bs net len) :=
  inferInstanceAs (Decidable (_ = _))

/-- Loopback, this network, the private networks, link-local and multicast. -/
def InAddr.Inside (x : InAddr) : Prop :=
  let bs := [x.a,x.b,x.c,x.d]
  InNet bs [127] 8 ∨ InNet bs [10] 8 ∨ InNet bs [0] 8 ∨ InNet bs [172,16] 12 ∨
    InNet bs [192,168] 16 ∨ InNet bs [169,254] 16 ∨ InNet bs [224] 4

def unspecified : Bytes := List.replicate 16 0

/-- Loopback, unspecified, unique-local, link-local and multicast, and IPv4 inside IPv6. -/
def In6Addr.Inside (x : In6Addr) : Prop :=
  x.bytes = loopback ∨ x.bytes = unspecified ∨ InNet x.bytes [0xfc] 7 ∨
    InNet x.bytes [0xfe,0x80] 10 ∨ InNet x.bytes [0xff] 8 ∨
    (InNet x.bytes v4mapped 96 ∧ x.embedded.Inside)

def Inside : SockAddr → Prop
  | .inet x => x.Inside
  | .inet6 x => x.Inside
  | .other => False

variable {bs ns : Bytes} {a n : UInt8} {len : ℕ}

theorem bits_cons (a : UInt8) (bs : Bytes) : bits (a::bs) = bits [a]++bits bs := by
  simp [bits]

theorem length_bits_singleton (a : UInt8) : (bits [a]).length = 8 := by
  simp [bits]

theorem take_bits_singleton (a : UInt8) (hlen : len ≤ 8) :
    (bits [a]).take len = (List.range len).map fun i => a.toNat.testBit (7-i) := by
  rw [bits,List.flatMap_singleton,← List.map_take,List.take_range,Nat.min_eq_left hlen]

/-- A prefix inside of one byte is what is left of it after a shift. -/
theorem take_bits_iff (a n : UInt8) (hlen : len ≤ 8) :
    (bits [a]).take len = (bits [n]).take len ↔ a.toNat/2^(8-len) = n.toNat/2^(8-len) := by
  have hbyte : ∀ x : UInt8, ∀ i, 8 ≤ i → x.toNat.testBit i = false := by
    intro x i hi
    apply Nat.testBit_lt_two_pow
    exact lt_of_lt_of_le x.toNat_lt (Nat.pow_le_pow_right (by decide) hi)
  rw [take_bits_singleton a hlen,take_bits_singleton n hlen,List.map_inj_left]
  constructor
  · intro h
    rw [← Nat.shiftRight_eq_div_pow,← Nat.shiftRight_eq_div_pow]
    apply Nat.eq_of_testBit_eq
    intro i
    rw [Nat.testBit_shiftRight,Nat.testBit_shiftRight]
    by_cases hi : 8-len+i < 8
    · have hbit := h (7-(8-len+i)) (List.mem_range.mpr (by omega))
      rw [show 7-(7-(8-len+i)) = 8-len+i by omega] at hbit
      exact hbit
    · rw [hbyte a _ (by omega),hbyte n _ (by omega)]
  · intro h i hi
    have hi := List.mem_range.mp hi
    have hbit := congrArg (fun x => Nat.testBit x (len-1-i)) h
    simp only [← Nat.shiftRight_eq_div_pow,Nat.testBit_shiftRight] at hbit
    rw [show 8-len+(len-1-i) = 7-i by omega] at hbit
    exact hbit

theorem inNet_short (hlen : len ≤ 8) :
    InNet (a::bs) (n::ns) len ↔ a.toNat/2^(8-len) = n.toNat/2^(8-len) := by
  rw [InNet,bits_cons a,bits_cons n,
    List.take_append_of_le_length (by rw [length_bits_singleton]; exact hlen),
    List.take_append_of_le_length (by rw [length_bits_singleton]; exact hlen)]
  exact take_bits_iff a n hlen

theorem inNet_cons (len : ℕ) : InNet (a::bs) (n::ns) (8+len) ↔ a = n ∧ InNet bs ns len := by
  have hwhole : bits [a] = bits [n] ↔ a = n := by
    have h := take_bits_iff a n (le_refl 8)
    rw [List.take_of_length_le (length_bits_singleton a).le,
      List.take_of_length_le (length_bits_singleton n).le] at h
    rw [h]
    simp [UInt8.toNat_inj]
  have htake : ∀ (x : UInt8) (xs : Bytes), (bits (x::xs)).take (8+len) =
      bits [x]++(bits xs).take len := by
    intro x xs
    rw [bits_cons,List.take_append,length_bits_singleton,Nat.add_sub_cancel_left,
      List.take_of_length_le (by rw [length_bits_singleton]; omega)]
  rw [InNet,htake,htake]
  constructor
  · intro h
    obtain ⟨hhead,htail⟩ := List.append_inj h
      ((length_bits_singleton a).trans (length_bits_singleton n).symm)
    exact ⟨hwhole.mp hhead,htail⟩
  · rintro ⟨rfl,h⟩
    rw [show (bits bs).take len = (bits ns).take len from h]

theorem ntohl_toNat (x : InAddr) :
    x.ntohl.toNat = ((x.a.toNat*256+x.b.toNat)*256+x.c.toNat)*256+x.d.toNat := by
  have ha := x.a.toNat_lt
  have hb := x.b.toNat_lt
  have hc := x.c.toNat_lt
  have hd := x.d.toNat_lt
  rw [InAddr.ntohl,BitVec.toNat_append,BitVec.toNat_append,BitVec.toNat_append,
    ← Nat.shiftLeft_add_eq_or_of_lt x.d.toBitVec.isLt,← Nat.shiftLeft_add_eq_or_of_lt x.c.toBitVec.isLt,
    ← Nat.shiftLeft_add_eq_or_of_lt x.b.toBitVec.isLt]
  simp only [Nat.shiftLeft_eq]
  rfl

theorem and_private (x : BitVec 32) :
    x &&& 0xfff00000#32 = 0xac100000#32 ↔ x.toNat/2^20 = 0xac1 := by
  have hshift : x &&& 0xfff00000#32 = x >>> 20 <<< 20 := by
    ext i hi
    interval_cases i <;> simp
  have hx := x.isLt
  rw [hshift,← BitVec.toNat_inj]
  simp only [BitVec.toNat_shiftLeft,BitVec.toNat_ushiftRight,Nat.shiftLeft_eq,
    Nat.shiftRight_eq_div_pow,BitVec.toNat_ofNat]
  omega

/-- The parts of an address that the tests look at. -/
theorem ntohl_div (x : InAddr) : x.ntohl.toNat/2^24 = x.a.toNat ∧
    x.ntohl.toNat/2^16 = x.a.toNat*256+x.b.toNat ∧
    x.ntohl.toNat/2^20 = x.a.toNat*16+x.b.toNat/16 ∧ x.ntohl.toNat/2^28 = x.a.toNat/16 := by
  have hb := x.b.toNat_lt
  have hc := x.c.toNat_lt
  have hd := x.d.toNat_lt
  have hip := ntohl_toNat x
  refine ⟨?_,?_,?_,?_⟩ <;> omega

/-- A shift of the address compares the bytes that are left. -/
theorem ushiftRight_eq_iff (x : BitVec 32) (k m : ℕ) (hm : m < 2^32) :
    x >>> k = BitVec.ofNat 32 m ↔ x.toNat/2^k = m := by
  rw [← BitVec.toNat_inj,BitVec.toNat_ushiftRight,Nat.shiftRight_eq_div_pow,BitVec.toNat_ofNat,
    Nat.mod_eq_of_lt hm]

theorem inNet_byte : InNet (a::bs) [n] 8 ↔ a.toNat = n.toNat := by
  rw [inNet_short (le_refl 8)]
  simp

theorem inNet_two {b m : UInt8} : InNet (a::b::bs) [n,m] 16 ↔ a.toNat = n.toNat ∧ b.toNat = m.toNat := by
  rw [inNet_cons 8,inNet_byte,← UInt8.toNat_inj]

/-- The tests of `v4_blocked` are those for the prefixes of its comments. -/
theorem v4Blocked_iff (x : InAddr) : v4Blocked x.ntohl = true ↔ x.Inside := by
  obtain ⟨h24,h16,h20,h28⟩ := ntohl_div x
  have hb := x.b.toNat_lt
  have hloop : x.ntohl >>> 24 = 127#32 ↔ InNet [x.a,x.b,x.c,x.d] [127] 8 := by
    rw [ushiftRight_eq_iff _ _ _ (by decide),h24,inNet_byte]
    rfl
  have hten : x.ntohl >>> 24 = 10#32 ↔ InNet [x.a,x.b,x.c,x.d] [10] 8 := by
    rw [ushiftRight_eq_iff _ _ _ (by decide),h24,inNet_byte]
    rfl
  have hthis : x.ntohl >>> 24 = 0#32 ↔ InNet [x.a,x.b,x.c,x.d] [0] 8 := by
    rw [ushiftRight_eq_iff _ _ _ (by decide),h24,inNet_byte]
    rfl
  have hprivate : x.ntohl &&& 0xfff00000#32 = 0xac100000#32 ↔
      InNet [x.a,x.b,x.c,x.d] [172,16] 12 := by
    rw [and_private,h20,inNet_cons 4,inNet_short (by decide),← UInt8.toNat_inj]
    change _ ↔ x.a.toNat = 172 ∧ x.b.toNat/16 = 1
    omega
  have hhome : x.ntohl >>> 16 = 0xc0a8#32 ↔ InNet [x.a,x.b,x.c,x.d] [192,168] 16 := by
    rw [ushiftRight_eq_iff _ _ _ (by decide),h16,inNet_two]
    change _ ↔ x.a.toNat = 192 ∧ x.b.toNat = 168
    omega
  have hlink : x.ntohl >>> 16 = 0xa9fe#32 ↔ InNet [x.a,x.b,x.c,x.d] [169,254] 16 := by
    rw [ushiftRight_eq_iff _ _ _ (by decide),h16,inNet_two]
    change _ ↔ x.a.toNat = 169 ∧ x.b.toNat = 254
    omega
  have hmulti : x.ntohl >>> 28 = 0xe#32 ↔ InNet [x.a,x.b,x.c,x.d] [224] 4 := by
    rw [ushiftRight_eq_iff _ _ _ (by decide),h28,inNet_short (by decide)]
    rfl
  rw [InAddr.Inside]
  simp only [v4Blocked,Bool.or_eq_true,beq_iff_eq,hloop,hten,hthis,hprivate,hhome,hlink,hmulti,or_assoc]

/-- The two tests with a mask. -/
theorem masks (b : UInt8) : (b &&& 0xfe = 0xfc ↔ b.toNat/2 = 0xfc/2) ∧
    (b &&& 0xc0 = 0x80 ↔ b.toNat/64 = 0x80/64) := by
  have hall : ∀ x < 256, (x &&& 0xfe = 0xfc ↔ x/2 = 0xfc/2) ∧
      (x &&& 0xc0 = 0x80 ↔ x/64 = 0x80/64) := by
    decide +kernel
  rw [← UInt8.toNat_inj,← UInt8.toNat_inj,UInt8.toNat_and,UInt8.toNat_and]
  exact hall b.toNat b.toNat_lt

theorem inNet_take : ∀ (ns bs : Bytes), ns.length ≤ bs.length →
    (InNet bs ns (8*ns.length) ↔ bs.take ns.length = ns) := by
  intro ns
  induction ns with
  | nil => simp [InNet]
  | cons n ns ih =>
      intro bs hlen
      cases bs with
      | nil => simp at hlen
      | cons b bs =>
          rw [List.length_cons,Nat.mul_add,Nat.add_comm,Nat.mul_one,inNet_cons,
            ih bs (by simpa using hlen),List.take_succ_cons,List.cons.injEq]

/-- The test of the first two bytes and of the rest, for the prefixes of the comments. -/
theorem v6Blocked_eq (x : In6Addr) : v6Blocked x = true ↔ x.bytes = loopback ∨
    InNet x.bytes [0xfc] 7 ∨ InNet x.bytes [0xfe,0x80] 10 ∨ InNet x.bytes [0xff] 8 ∨
    (InNet x.bytes v4mapped 96 ∧ x.embedded.Inside) := by
  have hmapped : InNet x.bytes v4mapped 96 ↔ x.bytes.take 12 = v4mapped :=
    inNet_take v4mapped x.bytes (by rw [x.length_eq]; decide)
  rw [hmapped,← v4Blocked_iff]
  obtain ⟨bs,hlen⟩ := x
  match bs,hlen with
  | b0::b1::bs,hlen =>
      have hlocal : b0 &&& 0xfe = 0xfc ↔ InNet (b0::b1::bs) [0xfc] 7 := by
        rw [(masks b0).1,inNet_short (by decide)]
        rfl
      have hlink : b0 = 0xfe ∧ b1 &&& 0xc0 = 0x80 ↔ InNet (b0::b1::bs) [0xfe,0x80] 10 := by
        rw [(masks b1).2,inNet_cons 2,inNet_short (by decide)]
        rfl
      have hmulti : b0 = 0xff ↔ InNet (b0::b1::bs) [0xff] 8 := by
        rw [inNet_byte,UInt8.toNat_inj]
      simp only [v6Blocked,List.getD_cons_zero,List.getD_cons_succ,← hlocal,← hlink,← hmulti]
      split_ifs <;> simp_all

/-- The only address inside that the tests let pass is the unspecified one. -/
theorem v6Blocked_iff (x : In6Addr) :
    v6Blocked x = true ↔ x.Inside ∧ x.bytes ≠ unspecified := by
  have hpass : x.bytes = unspecified → v6Blocked x = false := by
    intro h
    simp [v6Blocked,h,unspecified,loopback,v4mapped]
  have hinside : x.Inside ↔ v6Blocked x = true ∨ x.bytes = unspecified := by
    rw [v6Blocked_eq,In6Addr.Inside]
    tauto
  rw [hinside]
  constructor
  · intro h
    exact ⟨Or.inl h,fun hun => by rw [hpass hun] at h; cases h⟩
  · intro ⟨h,hne⟩
    exact h.resolve_right hne

/-- An address at which the loop ends. -/
def AddrInfo.Taken (p : AddrInfo) : Prop :=
  sockaddrBlocked p.addr = false ∧ p.socket = true ∧ p.connects = true

theorem mem_connectLoop (res : List AddrInfo) (a : SockAddr) : a ∈ (connectLoop res).2 ↔
    ∃ before p after, res = before++p::after ∧ p.addr = a ∧ sockaddrBlocked p.addr = false ∧
      p.socket = true ∧ ∀ q ∈ before, ¬q.Taken := by
  induction res with
  | nil => simp [connectLoop]
  | cons p res ih =>
      -- Either the first address is the one called, or it is passed and the rest decides.
      have hsplit : (∃ before q after, p::res = before++q::after ∧ q.addr = a ∧
            sockaddrBlocked q.addr = false ∧ q.socket = true ∧ ∀ r ∈ before, ¬r.Taken) ↔
          (p.addr = a ∧ sockaddrBlocked p.addr = false ∧ p.socket = true) ∨
            (¬p.Taken ∧ a ∈ (connectLoop res).2) := by
        rw [ih]
        constructor
        · intro ⟨before,q,after,hres,ha,hblocked,hsocket,hbefore⟩
          cases before with
          | nil =>
              obtain ⟨rfl,rfl⟩ := List.cons.inj hres
              exact Or.inl ⟨ha,hblocked,hsocket⟩
          | cons r before =>
              obtain ⟨rfl,htail⟩ := List.cons.inj hres
              exact Or.inr ⟨hbefore p (by simp),before,q,after,htail,ha,hblocked,hsocket,
                fun r hr => hbefore r (by simp [hr])⟩
        · intro h
          cases h with
          | inl h => exact ⟨[],p,res,rfl,h.1,h.2.1,h.2.2,by simp⟩
          | inr h =>
              obtain ⟨hp,before,q,after,hres,ha,hblocked,hsocket,hbefore⟩ := h
              refine ⟨p::before,q,after,by rw [hres]; rfl,ha,hblocked,hsocket,?_⟩
              intro r hr
              cases hr with
              | head => exact hp
              | tail _ hr => exact hbefore r hr
      rw [hsplit,connectLoop]
      by_cases hblocked : sockaddrBlocked p.addr = true
      · simp [hblocked,AddrInfo.Taken]
      · by_cases hsocket : p.socket = false
        · simp [hblocked,hsocket,AddrInfo.Taken]
        · by_cases hconnects : p.connects = true
          · simp [hblocked,hsocket,hconnects,AddrInfo.Taken,eq_comm (a := a)]
          · simp [hblocked,hsocket,hconnects,AddrInfo.Taken,eq_comm (a := a)]

/-- What a blocked address is, for both families. -/
theorem inside_of_allowed {a : SockAddr} (h : sockaddrBlocked a = false) :
    Inside a ↔ ∃ x, a = .inet6 x ∧ x.bytes = unspecified := by
  cases a with
  | inet x =>
      have hx : ¬x.Inside := fun hin => by simp [sockaddrBlocked,(v4Blocked_iff x).mpr hin] at h
      simp [Inside,hx]
  | inet6 x =>
      have hx : ¬(x.Inside ∧ x.bytes ≠ unspecified) := by
        rw [← v6Blocked_iff]
        simpa [sockaddrBlocked] using h
      have hun : x.bytes = unspecified → x.Inside := fun hun => Or.inr (Or.inl hun)
      simp only [Inside,SockAddr.inet6.injEq,exists_eq_left']
      tauto
  | other => simp [sockaddrBlocked] at h

theorem unspecified_allowed {x : In6Addr} (h : x.bytes = unspecified) :
    sockaddrBlocked (.inet6 x) = false := by
  have hx := (v6Blocked_iff x).not.mpr (fun hin => hin.2 h)
  simpa [sockaddrBlocked] using hx

variable (getaddrinfo : Bytes → UInt16 → Option (List AddrInfo)) (host : Bytes) (port : UInt16)

/-- Whatever the resolver answers, `connect` is called on addresses outside only, if and only
if each entry with the unspecified IPv6 address for which there is a socket comes after an
entry that is allowed and connects. -/
theorem connects_outside_iff :
    (∀ a ∈ (tcpConnectTarget getaddrinfo host port).2, ¬Inside a) ↔
      ∀ res, getaddrinfo host port = some res → ∀ before x after p, res = before++p::after →
        p.addr = .inet6 x → x.bytes = unspecified → p.socket = true → ∃ q ∈ before, q.Taken := by
  rw [tcpConnectTarget]
  cases getaddrinfo host port with
  | none => simp
  | some res =>
      simp only [Option.some.injEq,forall_eq']
      constructor
      · intro h before x after p hres hp hx hsocket
        by_contra hnone
        push Not at hnone
        have hallowed := unspecified_allowed hx
        rw [← hp] at hallowed
        have hcall := (mem_connectLoop res p.addr).mpr
          ⟨before,p,after,hres,rfl,hallowed,hsocket,hnone⟩
        exact h p.addr hcall ((inside_of_allowed hallowed).mpr ⟨x,hp,hx⟩)
      · intro h a ha hin
        obtain ⟨before,p,after,hres,rfl,hallowed,hsocket,hbefore⟩ := (mem_connectLoop res a).mp ha
        obtain ⟨x,hp,hx⟩ := (inside_of_allowed hallowed).mp hin
        obtain ⟨q,hq,htaken⟩ := h before x after p hres hp hx hsocket
        exact hbefore q hq htaken

/-- A resolver that answers with the unspecified IPv6 address: the proxy connects to itself. -/
theorem connects_unspecified : ¬∀ (getaddrinfo : Bytes → UInt16 → Option (List AddrInfo))
    (host : Bytes) (port : UInt16), ∀ a ∈ (tcpConnectTarget getaddrinfo host port).2,
      ¬Inside a := by
  intro h
  exact h (fun _ _ => some [⟨.inet6 ⟨unspecified,rfl⟩,true,true⟩]) [] 80 (.inet6 ⟨unspecified,rfl⟩)
    (by decide) (Or.inr (Or.inl rfl))

end Teleproxy.TunnelTarget
