import Teleproxy.RpcTransport

/-!
# Delivery over the RPC transport

The plaintext that a sender makes is a list of packets and filling words. Each side's
loop takes such an item from the front of its buffer once all of it has come, and only
then; so the packets are delivered in order, however the writer grouped them and
however the bytes were cut. Behind a packet whose checksum does not match nothing is
delivered.
-/
namespace Teleproxy.RpcDelivery
open ClientInput (Bytes)
open PacketParser (lookup4 store4 lookup4_store4 lookup4_append toInt_ofNat_of_lt and_quickack
  and_three and_top_eq_zero)
open RpcWriter RpcTransport
open BlockCipher (Cipher encrypt_append decrypt_part length_encrypt)
open StepSystem (run)

variable {σ : Type*} {cfg : Config}

inductive Item where
  | packet (payload : Bytes)
  | word
  deriving DecidableEq, Repr

/-- A packet in front of its checksum. -/
def rawPacket (num : BitVec 32) (payload : Bytes) : Bytes :=
  store4 (.ofNat 32 (payload.length+12))++store4 num++payload

def packetBytes (crc : Bytes → BitVec 32) (num : BitVec 32) (payload : Bytes) : Bytes :=
  rawPacket num payload++store4 (crc (rawPacket num payload))

def Item.bytes (crc : Bytes → BitVec 32) (num : BitVec 32) : Item → Bytes
  | .packet payload => packetBytes crc num payload
  | .word => store4 4#32

/-- The number behind an item. -/
def Item.next (num : BitVec 32) : Item → BitVec 32
  | .packet _ => num+1#32
  | .word => num

def encode (crc : Bytes → BitVec 32) : BitVec 32 → List Item → Bytes
  | _, [] => []
  | num, i::is => i.bytes crc num++encode crc (i.next num) is

def Item.payload : Item → List Bytes
  | .packet payload => [payload]
  | .word => []

def payloads (is : List Item) : List Bytes := is.flatMap Item.payload

/-- A payload that may be sent to this receiver. -/
structure Sendable (cfg : Config) (payload : Bytes) : Prop where
  four_le : 4 ≤ payload.length
  words : 4 ∣ payload.length
  lt : payload.length < 2^30-12
  le_max : 0 < cfg.maxPacketLen → (payload.length : ℤ)+12 ≤ cfg.maxPacketLen

def Item.Ok (cfg : Config) : Item → Prop
  | .packet payload => Sendable cfg payload
  | .word => 0 < cfg.maxPacketLen → 4 ≤ cfg.maxPacketLen

variable {buf more rest : Bytes} {num : BitVec 32} {payload : Bytes}

@[simp] theorem length_store4 (w : BitVec 32) : (store4 w).length = 4 := rfl

theorem length_rawPacket (num : BitVec 32) (payload : Bytes) :
    (rawPacket num payload).length = payload.length+8 := by
  simp only [rawPacket,List.length_append,length_store4]
  omega

theorem length_packetBytes (crc : Bytes → BitVec 32) (num : BitVec 32) (payload : Bytes) :
    (packetBytes crc num payload).length = payload.length+12 := by
  rw [packetBytes,List.length_append,length_rawPacket,length_store4]

theorem Item.four_le (crc : Bytes → BitVec 32) (num : BitVec 32) (i : Item) :
    4 ≤ (i.bytes crc num).length := by
  cases i with
  | packet payload =>
      rw [Item.bytes,length_packetBytes]
      omega
  | word => exact (length_store4 _).ge

theorem and_bad_eq_zero {x : BitVec 32} (hlt : x.toNat < 2^30) (hwords : 4 ∣ x.toNat) :
    x &&& 0xc0000003#32 = 0#32 := by
  have hthree : x &&& 3#32 = 0#32 := by
    rw [← BitVec.toNat_inj,and_three]
    exact Nat.mod_eq_zero_of_dvd hwords
  rw [show (0xc0000003#32 : BitVec 32) = 0xc0000000#32 ||| 3#32 by decide,
    BitVec.and_or_distrib_left,(and_top_eq_zero x).mpr hlt,hthree,BitVec.or_zero]

/-- What a loop does with a length that passes its tests. -/
theorem next_length {n : ℕ} (hlookup : lookup4 buf = BitVec.ofNat 32 n) (hbuf : 4 ≤ buf.length)
    (hpos : 0 < n) (hlt : n < 2^30) (hwords : 4 ∣ n)
    (hmax : 0 < cfg.maxPacketLen → (n : ℤ) ≤ cfg.maxPacketLen) :
    next cfg buf = if n = 4 then .skip (buf.drop 4) else if n < 16 then .fail
      else RpcTransport.cutPacket cfg buf n := by
  have hvalue : (BitVec.ofNat 32 n).toNat = n := by
    rw [BitVec.toNat_ofNat]
    omega
  have hint : (BitVec.ofNat 32 n).toInt = n := toInt_ofNat_of_lt (by omega)
  have hmask : BitVec.ofNat 32 n &&& 0x7fffffff#32 = BitVec.ofNat 32 n := by
    rw [← BitVec.toNat_inj,and_quickack,hvalue]
    omega
  have hfour : BitVec.ofNat 32 n = 4#32 ↔ n = 4 := by
    rw [← BitVec.toNat_inj,hvalue]
    rfl
  have hbad := and_bad_eq_zero (x := BitVec.ofNat 32 n) (by omega) (by rwa [hvalue])
  have hrem : BitVec.ofNat 32 n &&& 3#32 = 0#32 := by
    rw [← BitVec.toNat_inj,and_three,hvalue]
    exact Nat.mod_eq_zero_of_dvd hwords
  rw [next]
  cases cfg.side with
  | client =>
      dsimp only
      rw [tcpRpccNext,if_neg (by omega)]
      dsimp only
      rw [hlookup,hint,hrem,hvalue,if_neg (by simp only [ne_eq,not_true_eq_false,false_or]; omega)]
      simp only [hfour,Nat.cast_lt_ofNat]
  | server quickack holes =>
      have hlen : (if quickack then lookup4 buf &&& 0x7fffffff#32 else lookup4 buf) =
          BitVec.ofNat 32 n := by
        rw [hlookup,hmask,ite_self]
      dsimp only
      rw [tcpRpcsNext,if_neg (by omega)]
      dsimp only
      rw [hlen,hint,hbad,hvalue,if_neg (by simp only [ne_eq,not_true_eq_false,or_false]; omega),
        if_neg (by omega)]
      simp only [hfour,Nat.cast_lt_ofNat]

theorem next_short (h : buf.length < 4) : next cfg buf = .need (4-buf.length) := by
  rw [next]
  cases cfg.side with
  | client => exact if_pos h
  | server quickack holes => exact if_pos h

theorem lookup4_front (hlen : 4 ≤ buf.length) {w : BitVec 32} (hbuf : buf++more = store4 w++rest) :
    lookup4 buf = w := by
  rw [← lookup4_append hlen more,hbuf,lookup4_store4]

theorem next_word (hok : Item.Ok cfg .word) (hbuf : buf++more = store4 4#32++rest) :
    next cfg buf = if buf.length < 4 then .need (4-buf.length) else .skip (buf.drop 4) := by
  split_ifs with hlen
  · exact next_short hlen
  · have hlookup := lookup4_front (by omega) hbuf
    rw [next_length hlookup (by omega) (by decide) (by decide) (by decide) hok,if_pos rfl]

/-- The checksum of a packet that was not changed matches. -/
theorem cutPacket_packet (hbuf : buf++more = packetBytes cfg.customCrcPartial num payload++rest) :
    RpcTransport.cutPacket cfg buf (payload.length+12) =
      if buf.length < payload.length+12 then .need (payload.length+12-buf.length)
      else .packet num payload (buf.drop (payload.length+12)) := by
  rw [RpcTransport.cutPacket]
  split_ifs with hlen
  · rfl
  · have hprefix : packetBytes cfg.customCrcPartial num payload <+: buf :=
      List.prefix_of_prefix_length_le (hbuf ▸ List.prefix_append _ rest)
        (List.prefix_append buf more) (by rw [length_packetBytes]; omega)
    obtain ⟨r,rfl⟩ := hprefix
    have hall : (packetBytes cfg.customCrcPartial num payload++r).take (payload.length+12) =
        packetBytes cfg.customCrcPartial num payload :=
      List.take_left' (length_packetBytes _ _ _)
    have hraw : (packetBytes cfg.customCrcPartial num payload++r).take (payload.length+12-4) =
        rawPacket num payload := by
      rw [packetBytes,List.append_assoc,List.take_left' (by rw [length_rawPacket]; omega)]
    have hcrc : (packetBytes cfg.customCrcPartial num payload).drop (payload.length+12-4) =
        store4 (cfg.customCrcPartial (rawPacket num payload)) := by
      rw [packetBytes,List.drop_left' (by rw [length_rawPacket]; omega)]
    have hnum : (rawPacket num payload).drop 4 = store4 num++payload := by
      rw [rawPacket,List.append_assoc,List.drop_left' (length_store4 _)]
    have hpayload : (rawPacket num payload).drop 8 = payload := by
      rw [show 8 = 4+4 from rfl,← List.drop_drop,hnum,List.drop_left' (length_store4 _)]
    have hself := lookup4_store4 (cfg.customCrcPartial (rawPacket num payload)) []
    rw [List.append_nil] at hself
    dsimp only
    rw [hall,hraw,hcrc,hself,if_pos rfl,hnum,hpayload,lookup4_store4]

theorem next_packet (hok : Sendable cfg payload)
    (hbuf : buf++more = packetBytes cfg.customCrcPartial num payload++rest) :
    next cfg buf = if buf.length < 4 then .need (4-buf.length)
      else if buf.length < payload.length+12 then .need (payload.length+12-buf.length)
      else .packet num payload (buf.drop (payload.length+12)) := by
  split_ifs with hlen hpart
  · exact next_short hlen
  all_goals
    have hfour := hok.four_le
    have hlt := hok.lt
    obtain ⟨k,hk⟩ := hok.words
    have hlookup : lookup4 buf = BitVec.ofNat 32 (payload.length+12) := by
      apply lookup4_front (by omega)
      rw [hbuf,packetBytes,rawPacket,List.append_assoc,List.append_assoc,List.append_assoc]
    rw [next_length hlookup (by omega) (by omega) (by omega) ⟨k+3,by omega⟩
      (by have hmax := hok.le_max; push_cast; exact hmax),if_neg (by omega),if_neg (by omega),
      cutPacket_packet hbuf]
  · rw [if_pos hpart]
  · rw [if_neg hpart]

/-- While an item is not complete the loop asks for bytes of it. -/
theorem next_part {i : Item} (hok : i.Ok cfg)
    (hbuf : buf++more = i.bytes cfg.customCrcPartial num++rest)
    (hpart : buf.length < (i.bytes cfg.customCrcPartial num).length) :
    ∃ n, next cfg buf = .need n ∧ n+buf.length ≤ (i.bytes cfg.customCrcPartial num).length := by
  cases i with
  | packet payload =>
      rw [Item.bytes,length_packetBytes] at hpart ⊢
      rw [next_packet hok hbuf,if_pos hpart]
      split_ifs with hfour
      · exact ⟨_,rfl,by omega⟩
      · exact ⟨_,rfl,by omega⟩
  | word =>
      rw [Item.bytes,length_store4] at hpart ⊢
      rw [next_word hok hbuf,if_pos hpart]
      exact ⟨_,rfl,by omega⟩

/-- Behind an item the loop goes on with the next. -/
def Item.outcome (num : BitVec 32) (rest : Bytes) : Item → Next
  | .packet payload => .packet num payload rest
  | .word => .skip rest

theorem next_whole {i : Item} (hok : i.Ok cfg)
    (hbuf : buf++more = i.bytes cfg.customCrcPartial num++rest)
    (hwhole : (i.bytes cfg.customCrcPartial num).length ≤ buf.length) :
    next cfg buf =
      i.outcome num (buf.drop (i.bytes cfg.customCrcPartial num).length) := by
  cases i with
  | packet payload =>
      rw [Item.bytes,length_packetBytes] at hwhole ⊢
      rw [next_packet hok hbuf,if_neg (by omega),if_neg (by omega)]
      rfl
  | word =>
      rw [Item.bytes,length_store4] at hwhole ⊢
      rw [next_word hok hbuf,if_neg (by omega)]
      rfl

/-- The number of packets in a list. -/
def packets (is : List Item) : ℕ := (payloads is).length

/-- Bytes from which the loop never takes anything. -/
def Dead (cfg : Config) (tail : Bytes) : Prop :=
  ∀ buf more, buf++more = tail → buf ≠ [] → (∃ n, next cfg buf = .need n) ∨ next cfg buf = .fail

/-- A receiver in the middle of a stream: what it holds and what is to come are the items
`is` with `tail` behind them, and with the payloads of `is` the delivered ones will be `goal`. -/
structure Stage (cfg : Config) (goal : List Bytes) (tail more : Bytes) (is : List Item)
    (r : Receiver σ) : Prop where
  ok : ∀ i ∈ is, i.Ok cfg
  numbers : r.inPacketNum.toNat+packets is ≤ 2^31
  working : r.status = .working
  buf : r.inBuf++more = encode cfg.customCrcPartial r.inPacketNum is++tail
  delivered : r.delivered++payloads is = goal

/-- The first item is not complete, and no bytes are waited for that it does not have. -/
def Waits (cfg : Config) (is : List Item) (r : Receiver σ) : Prop :=
  ∀ i is', is = i::is' →
    r.inBuf.length < (i.bytes cfg.customCrcPartial r.inPacketNum).length ∧
    r.skipBytes ≤ (i.bytes cfg.customCrcPartial r.inPacketNum).length

/-- Between two calls of the reader: at some stage, or failed behind the last item. -/
def Settled (cfg : Config) (goal : List Bytes) (tail more : Bytes) (r : Receiver σ) : Prop :=
  (r.status = .failed ∧ r.delivered = goal ∧ tail ≠ []) ∨
    ∃ is, Stage cfg goal tail more is r ∧ Waits cfg is r

theorem noteQuickack_eq (cfg : Config) (r : Receiver σ) :
    ∃ q, noteQuickack cfg r = {r with quickack := q} := by
  rw [noteQuickack]
  split
  · split_ifs
    · exact ⟨r.quickack,rfl⟩
    · exact ⟨_,rfl⟩
  · exact ⟨r.quickack,rfl⟩

/-- A packet with the expected number, which is not negative, is delivered. -/
theorem execute_expected {r : Receiver σ} (hr : r.inPacketNum = num) (hnum : num.toNat < 2^31)
    (msg : Bytes) : execute cfg r num msg =
      {r with inPacketNum := num+1#32, delivered := r.delivered++[msg]} := by
  have hstart : ¬(cfg.side ≠ .client ∧ num = -3#32) := by
    intro h
    rw [h.2] at hnum
    exact absurd hnum (by decide)
  have hsign : ¬num.toInt < 0 := by
    rw [BitVec.toInt_eq_toNat_cond,if_pos (by omega)]
    omega
  rw [execute,hr,if_neg hstart,if_neg (fun h => h.2 rfl),if_neg hsign]

section
variable {goal : List Bytes} {tail : Bytes} {is : List Item} {r : Receiver σ}

/-- The state behind an item that was taken. -/
def Item.taken (r : Receiver σ) (rest : Bytes) : Item → Receiver σ
  | .packet payload => {r with inBuf := rest, inPacketNum := r.inPacketNum+1#32,
                               delivered := r.delivered++[payload]}
  | .word => {r with inBuf := rest}

/-- Taking the first item leads to the stage of the others. -/
theorem Stage.taken {i : Item} (h : Stage cfg goal tail more (i::is) r)
    (hwhole : (i.bytes cfg.customCrcPartial r.inPacketNum).length ≤ r.inBuf.length) :
    Stage cfg goal tail more is
      (i.taken r (r.inBuf.drop (i.bytes cfg.customCrcPartial r.inPacketNum).length)) := by
  have hok := (List.forall_mem_cons.mp h.ok).2
  have hbuf := congrArg (List.drop (i.bytes cfg.customCrcPartial r.inPacketNum).length) h.buf
  rw [List.drop_append_of_le_length hwhole,encode,List.append_assoc,List.drop_left] at hbuf
  have hnumbers := h.numbers
  have hdelivered := h.delivered
  cases i with
  | packet payload =>
      simp only [packets,payloads,List.flatMap_cons,Item.payload,List.length_append,
        List.length_singleton] at hnumbers hdelivered
      refine ⟨hok,?_,h.working,hbuf,?_⟩
      · simp only [Item.taken,BitVec.toNat_add,BitVec.toNat_ofNat,packets,payloads]
        omega
      · simp only [Item.taken,payloads]
        rw [List.append_assoc]
        exact hdelivered
  | word => exact ⟨hok,hnumbers,h.working,hbuf,hdelivered⟩

theorem parseLoop_settled (hdead : Dead cfg tail) (hstage : Stage cfg goal tail more is r)
    (hcrypto : r.crypto = none → r.inU = []) (hskip : r.skipBytes = 0) {fuel : ℕ}
    (hfuel : r.inBuf.length < fuel) : Settled cfg goal tail more (parseLoop cfg fuel r) := by
  induction fuel generalizing is r with
  | zero => omega
  | succ fuel ih =>
      have hw := hstage.working
      by_cases hempty : r.inBuf = []
      · rw [parseLoop,if_pos (Or.inr hempty)]
        refine Or.inr ⟨is,hstage,?_⟩
        intro i is' _
        have hfour := i.four_le cfg.customCrcPartial r.inPacketNum
        rw [hempty,hskip,List.length_nil]
        omega
      obtain ⟨q,hnote⟩ := noteQuickack_eq cfg r
      have hnoted : Stage cfg goal tail more is {r with quickack := q} :=
        ⟨hstage.ok,hstage.numbers,hw,hstage.buf,hstage.delivered⟩
      rw [parseLoop,if_neg (by simp [hw,hempty])]
      simp only [hnote]
      cases is with
      | nil =>
          have hgoal : r.delivered = goal := by simpa [payloads] using hstage.delivered
          have htail : tail ≠ [] := by
            intro h
            have hbuf := hstage.buf
            simp [h,encode,hempty] at hbuf
          cases hdead r.inBuf more (by simpa [encode] using hstage.buf) hempty with
          | inl h =>
              obtain ⟨n,hn⟩ := h
              rw [hn]
              exact Or.inr ⟨[],⟨hstage.ok,hstage.numbers,hw,hstage.buf,hstage.delivered⟩,
                fun i is' h => by cases h⟩
          | inr h =>
              rw [h]
              exact Or.inl ⟨rfl,hgoal,htail⟩
      | cons i is =>
          have hok := hstage.ok i (by simp)
          have hbuf : r.inBuf++more = i.bytes cfg.customCrcPartial r.inPacketNum++
              (encode cfg.customCrcPartial (i.next r.inPacketNum) is++tail) := by
            rw [hstage.buf,encode,List.append_assoc]
          rcases Nat.lt_or_ge r.inBuf.length (i.bytes cfg.customCrcPartial r.inPacketNum).length
            with hpart | hwhole
          · obtain ⟨n,hn,hle⟩ := next_part hok hbuf hpart
            rw [hn]
            refine Or.inr ⟨i::is,⟨hstage.ok,hstage.numbers,hw,hstage.buf,hstage.delivered⟩,?_⟩
            intro j is' hj
            cases hj
            refine ⟨hpart,?_⟩
            dsimp only
            cases hc : r.crypto with
            | none => simp [hcrypto hc]; omega
            | some key => simpa using hle
          · have hfour := i.four_le cfg.customCrcPartial r.inPacketNum
            have htaken := hnoted.taken hwhole
            rw [next_whole hok hbuf hwhole]
            cases i with
            | packet payload =>
                have hnum : r.inPacketNum.toNat < 2^31 := by
                  have hnumbers := hstage.numbers
                  simp only [packets,payloads,List.flatMap_cons,Item.payload,List.length_append,
                    List.length_singleton] at hnumbers
                  omega
                simp only [Item.outcome]
                rw [execute_expected (by rfl) hnum]
                refine ih htaken hcrypto hskip ?_
                simp only [List.length_drop]
                omega
            | word =>
                refine ih htaken hcrypto hskip ?_
                simp only [List.length_drop]
                omega

/-- The loops leave the cipher and the bytes in front of it alone. -/
theorem parseLoop_crypto (cfg : Config) (fuel : ℕ) (r : Receiver σ) :
    (parseLoop cfg fuel r).crypto = r.crypto ∧ (parseLoop cfg fuel r).inU = r.inU := by
  induction fuel generalizing r with
  | zero => exact ⟨rfl,rfl⟩
  | succ fuel ih =>
      obtain ⟨q,hnote⟩ := noteQuickack_eq cfg r
      rw [parseLoop]
      split_ifs
      · exact ⟨rfl,rfl⟩
      · simp only [hnote]
        cases next cfg r.inBuf with
        | need n => exact ⟨rfl,rfl⟩
        | fail => exact ⟨rfl,rfl⟩
        | skip rest => exact ih _
        | packet num msg rest =>
            have hexec : ∀ r : Receiver σ, (execute cfg r num msg).crypto = r.crypto ∧
                (execute cfg r num msg).inU = r.inU := by
              intro r
              rw [execute]
              split_ifs <;> exact ⟨rfl,rfl⟩
            exact ⟨(ih _).1.trans (hexec _).1,(ih _).2.trans (hexec _).2⟩

end

variable {k : Cipher UInt8 σ}

/-- The bytes `coming` from the socket, behind those that the receiver holds encrypted, are
the plaintext `more`. -/
def Link (k : Cipher UInt8 σ) (r : Receiver σ) (coming more : Bytes) : Prop :=
  match r.crypto with
  | none => r.inU = [] ∧ coming = more
  | some key => r.inU.length < k.size ∧
      ∃ n, more.length = n*k.size ∧ (k.encrypt n key more).1 = r.inU++coming

theorem receive_link {r : Receiver σ} {piece coming : Bytes} (h : Link k r (piece++coming) more) :
    ∃ p more' r', receive k r piece = r' ∧ more = p++more' ∧ Link k r' coming more' ∧
      r'.inBuf = r.inBuf++p ∧ r'.skipBytes = r.skipBytes ∧ r'.inPacketNum = r.inPacketNum ∧
      r'.delivered = r.delivered ∧ r'.status = r.status := by
  cases hc : r.crypto with
  | none =>
      rw [Link,hc] at h
      refine ⟨piece,coming,_,rfl,h.2.symm,?_,?_⟩
      · rw [Link,receive,hc]
        exact ⟨h.1,rfl⟩
      · rw [receive,hc]
        exact ⟨rfl,rfl,rfl,rfl,rfl⟩
  | some key =>
      rw [Link,hc] at h
      obtain ⟨-,n,hlen,henc⟩ := h
      rw [← List.append_assoc] at henc
      obtain ⟨m,key',hm,hmn,hdec,hrest⟩ := decrypt_part k hlen henc
      have hrec : receive k r piece =
          {r with crypto := some key', inU := (r.inU++piece).drop (m*k.size),
                  inBuf := r.inBuf++more.take (m*k.size)} := by
        rw [receive,hc]
        dsimp only
        rw [← hm,hdec]
      refine ⟨more.take (m*k.size),more.drop (m*k.size),_,hrec,(List.take_append_drop _ _).symm,?_,
        rfl,rfl,rfl,rfl,rfl⟩
      refine ⟨?_,n-m,?_,congrArg Prod.fst hrest⟩
      · dsimp only
        rw [List.length_drop,hm,Nat.mul_comm,← Nat.mod_eq_sub_mul_div]
        exact Nat.mod_lt _ k.size_pos
      · rw [List.length_drop,hlen,Nat.sub_mul]

section
variable {goal : List Bytes} {tail : Bytes}

/-- Between two calls of the reader, with the bytes that are still to come from the socket. -/
def Ready (k : Cipher UInt8 σ) (cfg : Config) (goal : List Bytes) (tail coming : Bytes)
    (r : Receiver σ) : Prop :=
  (r.status = .failed ∧ r.delivered = goal ∧ tail ≠ []) ∨
    ∃ more is, Link k r coming more ∧ Stage cfg goal tail more is r ∧ Waits cfg is r

theorem Link.of_eq {r r' : Receiver σ} {coming : Bytes} (h : Link k r coming more)
    (hcrypto : r'.crypto = r.crypto) (hinU : r'.inU = r.inU) : Link k r' coming more := by
  rw [Link,hcrypto,hinU]
  exact h

theorem Link.inU_eq_nil {r : Receiver σ} {coming : Bytes} (h : Link k r coming more)
    (hcrypto : r.crypto = none) : r.inU = [] := by
  rw [Link,hcrypto] at h
  exact h.1

theorem Link.more_eq_nil {r : Receiver σ} (h : Link k r [] more) : more = [] := by
  cases hc : r.crypto with
  | none =>
      rw [Link,hc] at h
      exact h.2.symm
  | some key =>
      rw [Link,hc] at h
      obtain ⟨hlt,n,hlen,henc⟩ := h
      have hall := congrArg List.length henc
      rw [length_encrypt k key hlen.ge,List.append_nil] at hall
      have hn : n = 0 := by
        by_contra hn
        have hle := Nat.le_mul_of_pos_left k.size (Nat.pos_of_ne_zero hn)
        omega
      rw [hn,Nat.zero_mul] at hlen
      exact List.length_eq_zero_iff.mp hlen

theorem reader_ready (hdead : Dead cfg tail) {r : Receiver σ} {piece coming : Bytes}
    (h : Ready k cfg goal tail (piece++coming) r) :
    Ready k cfg goal tail coming (reader k cfg r piece) := by
  cases h with
  | inl h =>
      rw [reader,if_pos (by rw [h.1]; decide)]
      exact Or.inl h
  | inr h =>
      obtain ⟨more,is,hlink,hstage,hwaits⟩ := h
      obtain ⟨p,more',r',hrec,rfl,hlink',hbuf,hskip,hnum,hdelivered,hstatus⟩ := receive_link hlink
      have hnext : Stage cfg goal tail more' is r' := by
        refine ⟨hstage.ok,?_,hstatus.trans hstage.working,?_,?_⟩
        · rw [hnum]
          exact hstage.numbers
        · rw [hnum,hbuf,List.append_assoc]
          exact hstage.buf
        · rw [hdelivered]
          exact hstage.delivered
      rw [reader,if_neg (not_not_intro hstage.working)]
      dsimp only
      rw [hrec]
      split_ifs with hlen
      · refine Or.inr ⟨more',is,hlink',hnext,?_⟩
        intro i is' his
        have hle := (hwaits i is' his).2
        rw [hnum]
        omega
      · have hloop : Stage cfg goal tail more' is {r' with skipBytes := 0} :=
          ⟨hnext.ok,hnext.numbers,hnext.working,hnext.buf,hnext.delivered⟩
        have hcrypto := parseLoop_crypto cfg (r'.inBuf.length+1) {r' with skipBytes := 0}
        cases parseLoop_settled hdead hloop hlink'.inU_eq_nil rfl (Nat.lt_succ_self _) with
        | inl hfailed => exact Or.inl hfailed
        | inr hsettled =>
            obtain ⟨is',hstage',hwaits'⟩ := hsettled
            exact Or.inr ⟨more',is',hlink'.of_eq hcrypto.1 hcrypto.2,hstage',hwaits'⟩

theorem run_ready (hdead : Dead cfg tail) (pieces : List Bytes) {r : Receiver σ}
    (h : Ready k cfg goal tail pieces.flatten r) :
    Ready k cfg goal tail [] (run (reader k cfg) r pieces) := by
  induction pieces generalizing r with
  | nil => exact h
  | cons piece pieces ih => exact ih (reader_ready hdead h)

/-- When all bytes have come, all payloads of the items have been delivered. -/
theorem Ready.delivered {r : Receiver σ} (h : Ready k cfg goal tail [] r) :
    r.delivered = goal ∧ (tail = [] → r.status = .working) := by
  cases h with
  | inl h => exact ⟨h.2.1,fun htail => absurd htail h.2.2⟩
  | inr h =>
      obtain ⟨more,is,hlink,hstage,hwaits⟩ := h
      obtain rfl := hlink.more_eq_nil
      have hnone : is = [] := by
        cases is with
        | nil => rfl
        | cons i is =>
            have hlt := (hwaits i is rfl).1
            have hbuf := congrArg List.length hstage.buf
            rw [List.append_nil,encode,List.append_assoc,List.length_append] at hbuf
            omega
      have hdelivered := hstage.delivered
      rw [hnone] at hdelivered
      exact ⟨by simpa [payloads] using hdelivered,fun _ => hstage.working⟩

end

end Teleproxy.RpcDelivery
