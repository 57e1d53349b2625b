import Teleproxy.RpcDelivery

/-!
# Round trip over the RPC transport

What runs of the writer put on the wire, for any grouping of the packets, is read back by
the loop of either side. A changed packet ends the delivery, unless its length has become
that of a filling word.
-/
namespace Teleproxy.RpcRoundTrip
open ClientInput (Bytes)
open PacketParser (lookup4 store4 lookup4_append and_quickack)
open FrameLength (rpcFMedium rpcFCompact)
open RpcWriter RpcTransport RpcDelivery
open BlockCipher (Cipher encrypt_append)
open StepSystem (run)

variable {σ : Type*} {k : Cipher UInt8 σ}

/-- The number of words that fill the last block behind the packets of a run. -/
def fillWords (crypto : Bool) (queue : List Bytes) : ℕ :=
  if crypto then (16-(queue.map fun p => p.length+12).sum % 16) % 16/4 else 0

def runItems (crypto : Bool) (queue : List Bytes) : List Item :=
  queue.map .packet++List.replicate (fillWords crypto queue) .word

/-- The plaintext of all runs. -/
def plan (crypto : Bool) (queues : List (List Bytes)) : List Item :=
  queues.flatMap (runItems crypto)

theorem plan_cons (crypto : Bool) (q : List Bytes) (queues : List (List Bytes)) :
    plan crypto (q::queues) = runItems crypto q++plan crypto queues := rfl

/-- The plaintext as it goes to the socket, and the cipher behind it. -/
def sealBytes (k : Cipher UInt8 σ) (crypto : Option σ) (bs : Bytes) : Bytes × Option σ :=
  match crypto with
  | none => (bs,none)
  | some key => ((k.encrypt (bs.length/k.size) key bs).1,some (k.encrypt (bs.length/k.size) key bs).2)

def numberAfter (num : BitVec 32) (is : List Item) : BitVec 32 := is.foldl (fun n i => i.next n) num

theorem encode_append (crc : Bytes → BitVec 32) (num : BitVec 32) (as bs : List Item) :
    encode crc num (as++bs) = encode crc num as++encode crc (numberAfter num as) bs := by
  induction as generalizing num with
  | nil => rfl
  | cons i as ih =>
      rw [List.cons_append,encode,encode,ih,List.append_assoc]
      rfl

theorem sealBytes_append {crypto : Option σ} {as bs : Bytes} (h : crypto.isSome → k.size ∣ as.length) :
    sealBytes k crypto (as++bs) = ((sealBytes k crypto as).1++(sealBytes k (sealBytes k crypto as).2 bs).1,
      (sealBytes k (sealBytes k crypto as).2 bs).2) := by
  cases crypto with
  | none => rfl
  | some key =>
      obtain ⟨m,hm⟩ := h rfl
      have hdiv : (as++bs).length/k.size = m+bs.length/k.size := by
        rw [List.length_append,hm,Nat.mul_add_div k.size_pos]
      have hm' : as.length/k.size = m := by
        rw [hm,Nat.mul_div_cancel_left _ k.size_pos]
      simp only [sealBytes,hdiv,hm']
      rw [encrypt_append k key (by rw [hm,Nat.mul_comm])]

theorem length_encode_packets (crc : Bytes → BitVec 32) (num : BitVec 32) (queue : List Bytes) :
    (encode crc num (queue.map .packet)).length = (queue.map fun p => p.length+12).sum := by
  induction queue generalizing num with
  | nil => rfl
  | cons p queue ih =>
      rw [List.map_cons,encode,List.length_append,ih,List.map_cons,List.sum_cons]
      exact congrArg (·+_) (length_packetBytes crc num p)

theorem encode_words (crc : Bytes → BitVec 32) (num : BitVec 32) (n : ℕ) :
    encode crc num (List.replicate n .word) = (List.replicate n (store4 4#32)).flatten := by
  induction n with
  | zero => rfl
  | succ n ih =>
      rw [List.replicate_succ,List.replicate_succ,encode,List.flatten_cons,← ih]
      rfl

theorem length_encode_words (crc : Bytes → BitVec 32) (num : BitVec 32) (n : ℕ) :
    (encode crc num (List.replicate n .word)).length = 4*n := by
  rw [encode_words]
  induction n with
  | zero => rfl
  | succ n ih =>
      rw [List.replicate_succ,List.flatten_cons,List.length_append,ih,length_store4]
      omega

theorem numberAfter_append (num : BitVec 32) (as bs : List Item) :
    numberAfter num (as++bs) = numberAfter (numberAfter num as) bs := List.foldl_append

theorem numberAfter_words (num : BitVec 32) (n : ℕ) :
    numberAfter num (List.replicate n .word) = num := by
  induction n with
  | zero => rfl
  | succ n ih =>
      rw [List.replicate_succ]
      exact ih

theorem foldl_write {c : OutConn} (hflags : c.flags &&& (rpcFCompact ||| rpcFMedium) = 0#32)
    (queue : List Bytes) : queue.foldl tcpRpcWritePacket c =
      {c with outPacketNum := numberAfter c.outPacketNum (queue.map .packet),
              out := c.out++encode c.customCrcPartial c.outPacketNum (queue.map .packet)} := by
  induction queue generalizing c with
  | nil => simp [numberAfter,encode]
  | cons p queue ih =>
      rw [List.foldl_cons,tcpRpcWritePacket,if_pos hflags]
      dsimp only
      rw [ih (by exact hflags),List.map_cons,encode]
      dsimp only
      rw [List.append_assoc]
      rfl

theorem padBytes_eq (n : ℕ) : (-(BitVec.ofNat 32 n) &&& 15#32).toNat = (16-n % 16) % 16 := by
  have hand : ∀ x : ℕ, x &&& 15 = x % 16 := fun x => Nat.and_two_pow_sub_one_eq_mod x 4
  rw [BitVec.toNat_and,BitVec.toNat_neg,BitVec.toNat_ofNat]
  change _ &&& 15 = _
  rw [hand]
  omega

/-- The last block is filled with whole words. -/
theorem flush_eq {c : OutConn} (num : BitVec 32) (h : 4 ∣ c.out.length) :
    tcpRpcFlush true c = some
      {c with out := c.out++encode c.customCrcPartial num
                (List.replicate ((16-c.out.length % 16) % 16/4) .word)} := by
  obtain ⟨m,hm⟩ := h
  have hpad := padBytes_eq c.out.length
  rw [tcpRpcFlush,if_pos rfl,encode_words]
  dsimp only
  rw [hpad]
  obtain ⟨w,hw,hfill⟩ : ∃ w < 4, (16-c.out.length % 16) % 16 = 4*w := ⟨(4-m % 4) % 4,by omega,by omega⟩
  rw [hfill,Nat.mul_div_cancel_left _ (by decide)]
  interval_cases w
  · simp
  · rfl
  · rfl
  · rfl

/-- A sender in full mode between two runs of its writer. -/
structure Idle (s : Sender σ) : Prop where
  full : s.conn.flags &&& (rpcFCompact ||| rpcFMedium) = 0#32
  out : s.conn.out = []

variable {s : Sender σ}

theorem sum_dvd {queue : List Bytes} (h : ∀ p ∈ queue, 4 ∣ p.length) :
    4 ∣ (queue.map fun p => p.length+12).sum := by
  induction queue with
  | nil => simp
  | cons p queue ih =>
      rw [List.forall_mem_cons] at h
      rw [List.map_cons,List.sum_cons]
      exact Nat.dvd_add (Nat.dvd_add h.1 (by decide)) (ih h.2)

theorem length_runItems (crc : Bytes → BitVec 32) (num : BitVec 32) {queue : List Bytes}
    (h : ∀ p ∈ queue, 4 ∣ p.length) : 16 ∣ (encode crc num (runItems true queue)).length := by
  obtain ⟨m,hm⟩ := sum_dvd h
  rw [runItems,encode_append,List.length_append,length_encode_packets,length_encode_words,fillWords,
    if_pos rfl,hm]
  omega

/-- One run of the writer puts the packets and the filling words on the wire. -/
theorem writerRun_eq (hk : k.size = 16) (hs : Idle s) {queue : List Bytes}
    (h : ∀ p ∈ queue, 4 ∣ p.length) :
    ∃ s', writerRun k s queue = some s' ∧ Idle s' ∧
      s'.conn.customCrcPartial = s.conn.customCrcPartial ∧
      s'.conn.outPacketNum = numberAfter s.conn.outPacketNum (runItems s.crypto.isSome queue) ∧
      s'.wire = s.wire++(sealBytes k s.crypto (encode s.conn.customCrcPartial s.conn.outPacketNum
        (runItems s.crypto.isSome queue))).1 ∧
      s'.crypto = (sealBytes k s.crypto (encode s.conn.customCrcPartial s.conn.outPacketNum
        (runItems s.crypto.isSome queue))).2 := by
  have hfold := foldl_write hs.full queue
  rw [hs.out,List.nil_append] at hfold
  have hwords := sum_dvd h
  rw [← length_encode_packets s.conn.customCrcPartial s.conn.outPacketNum] at hwords
  cases hc : s.crypto with
  | none =>
      have hitems : runItems (none : Option σ).isSome queue = queue.map .packet := by
        simp [runItems,fillWords]
      rw [writerRun,hc,hfold,hitems]
      exact ⟨_,rfl,⟨hs.full,rfl⟩,rfl,rfl,rfl,rfl⟩
  | some key =>
      obtain ⟨m,hm⟩ := length_runItems s.conn.customCrcPartial s.conn.outPacketNum h
      have hnum : numberAfter s.conn.outPacketNum (runItems true queue) =
          numberAfter s.conn.outPacketNum (queue.map .packet) := by
        rw [runItems,numberAfter_append,numberAfter_words]
      have hflush : tcpRpcFlush true (queue.foldl tcpRpcWritePacket s.conn) = some
          {s.conn with outPacketNum := numberAfter s.conn.outPacketNum (runItems true queue),
                       out := encode s.conn.customCrcPartial s.conn.outPacketNum
                         (runItems true queue)} := by
        rw [hfold,flush_eq (numberAfter s.conn.outPacketNum (queue.map .packet)) hwords,hnum]
        dsimp only
        rw [runItems,encode_append,length_encode_packets]
        rfl
      have hdrop : (encode s.conn.customCrcPartial s.conn.outPacketNum (runItems true queue)).drop
          ((encode s.conn.customCrcPartial s.conn.outPacketNum (runItems true queue)).length/k.size*
            k.size) = [] := by
        rw [hk,Nat.div_mul_cancel ⟨m,hm⟩,List.drop_length]
      rw [writerRun,hc]
      rw [show (some key).isSome = true from rfl,hflush]
      exact ⟨_,rfl,⟨hs.full,hdrop⟩,rfl,rfl,rfl,rfl⟩

theorem sealBytes_isSome (crypto : Option σ) (bs : Bytes) :
    (sealBytes k crypto bs).2.isSome = crypto.isSome := by
  cases crypto <;> rfl

theorem encode_plan_dvd (crc : Bytes → BitVec 32) (num : BitVec 32) {queues : List (List Bytes)}
    (h : ∀ q ∈ queues, ∀ p ∈ q, 4 ∣ p.length) : 16 ∣ (encode crc num (plan true queues)).length := by
  induction queues generalizing num with
  | nil => exact Nat.dvd_zero 16
  | cons q queues ih =>
      rw [List.forall_mem_cons] at h
      rw [plan_cons,encode_append,List.length_append]
      exact Nat.dvd_add (length_runItems crc num h.1) (ih _ h.2)

/-- All runs of the writer together. -/
theorem writerRuns_eq (hk : k.size = 16) {queues : List (List Bytes)} (hs : Idle s)
    (h : ∀ q ∈ queues, ∀ p ∈ q, 4 ∣ p.length) :
    ∃ s', writerRuns k s queues = some s' ∧
      s'.wire = s.wire++(sealBytes k s.crypto (encode s.conn.customCrcPartial s.conn.outPacketNum
        (plan s.crypto.isSome queues))).1 := by
  induction queues generalizing s with
  | nil =>
      refine ⟨s,rfl,?_⟩
      cases hc : s.crypto <;> simp [plan,encode,sealBytes,Cipher.encrypt,BlockCipher.blocks]
  | cons q queues ih =>
      rw [List.forall_mem_cons] at h
      obtain ⟨s₁,hrun,hidle,hcrc,hnum,hwire,hcrypto⟩ := writerRun_eq hk hs h.1
      obtain ⟨s₂,hruns,hwire₂⟩ := ih hidle h.2
      refine ⟨s₂,?_,?_⟩
      · rw [writerRuns,List.foldlM_cons,hrun]
        exact hruns
      · have hdvd : s.crypto.isSome → k.size ∣ (encode s.conn.customCrcPartial s.conn.outPacketNum
            (runItems s.crypto.isSome q)).length := by
          intro hc
          rw [hc,hk]
          exact length_runItems _ _ h.1
        rw [hwire₂,hwire,hcrc,hnum,hcrypto,sealBytes_isSome,List.append_assoc,plan_cons,
          encode_append,sealBytes_append hdvd]

/-- What is on the wire is linked to its plaintext. -/
theorem link_sealBytes {crypto : Option σ} {bs : Bytes} (h : crypto.isSome → k.size ∣ bs.length)
    (num : BitVec 32) :
    Link k {crypto := crypto, inPacketNum := num} (sealBytes k crypto bs).1 bs := by
  cases crypto with
  | none => exact ⟨rfl,rfl⟩
  | some key =>
      refine ⟨k.size_pos,bs.length/k.size,?_,rfl⟩
      rw [Nat.div_mul_cancel (h rfl)]

theorem payloads_append (as bs : List Item) : payloads (as++bs) = payloads as++payloads bs :=
  List.flatMap_append

theorem payloads_runItems (crypto : Bool) (q : List Bytes) : payloads (runItems crypto q) = q := by
  have hpackets : payloads (q.map .packet) = q := by
    induction q with
    | nil => rfl
    | cons p q ih => exact congrArg (p::·) ih
  have hwords : ∀ n, payloads (List.replicate n .word) = [] := by
    intro n
    induction n with
    | zero => rfl
    | succ n ih => exact ih
  rw [runItems,payloads_append,hpackets,hwords,List.append_nil]

theorem payloads_plan (crypto : Bool) (queues : List (List Bytes)) :
    payloads (plan crypto queues) = queues.flatten := by
  induction queues with
  | nil => rfl
  | cons q queues ih =>
      rw [plan_cons,payloads_append,payloads_runItems,ih,List.flatten_cons]

variable {cfg : Config}

/-- Filling words are sent only behind a packet, so that their length is not above the limit. -/
theorem plan_ok (crypto : Bool) {queues : List (List Bytes)}
    (h : ∀ q ∈ queues, ∀ p ∈ q, Sendable cfg p) : ∀ i ∈ plan crypto queues, i.Ok cfg := by
  intro i hi
  obtain ⟨q,hq,hi⟩ := List.mem_flatMap.mp hi
  cases List.mem_append.mp hi with
  | inl hpacket =>
      obtain ⟨p,hp,rfl⟩ := List.mem_map.mp hpacket
      exact h q hq p hp
  | inr hword =>
      obtain ⟨hfill,rfl⟩ := List.mem_replicate.mp hword
      cases q with
      | nil => simp [fillWords] at hfill
      | cons p q =>
          intro hpos
          have hmax := (h _ hq p (by simp)).le_max hpos
          omega

/-- The length that the loop takes from the start of a stream. -/
def readLength (cfg : Config) (stream : Bytes) : BitVec 32 :=
  match cfg.side with
  | .client => lookup4 stream
  | .server quickack _ => if quickack then lookup4 stream &&& 0x7fffffff#32 else lookup4 stream

/-- The checksum at the end of this length is there and matches. -/
def CrcMatches (cfg : Config) (stream : Bytes) : Prop :=
  (readLength cfg stream).toNat ≤ stream.length ∧
    lookup4 ((stream.take (readLength cfg stream).toNat).drop ((readLength cfg stream).toNat-4)) =
      cfg.customCrcPartial (stream.take ((readLength cfg stream).toNat-4))

theorem cutPacket_mismatch {buf more tail : Bytes} {n : ℕ} (hbuf : buf++more = tail)
    (hcrc : ¬(n ≤ tail.length ∧
      lookup4 ((tail.take n).drop (n-4)) = cfg.customCrcPartial (tail.take (n-4)))) :
    (∃ m, RpcTransport.cutPacket cfg buf n = .need m) ∨
      RpcTransport.cutPacket cfg buf n = .fail := by
  rw [RpcTransport.cutPacket]
  split_ifs with hlen
  · exact Or.inl ⟨_,rfl⟩
  · right
    have htake : ∀ m ≤ n, tail.take m = buf.take m := by
      intro m hm
      rw [← hbuf,List.take_append_of_le_length (by omega)]
    have hall : n ≤ tail.length := by
      rw [← hbuf,List.length_append]
      omega
    rw [htake n (le_refl n),htake (n-4) (by omega)] at hcrc
    dsimp only
    rw [if_neg fun h => hcrc ⟨hall,h⟩]

/-- Nothing is taken from a stream whose first checksum does not match, unless it starts
with a filling word. -/
theorem dead_of_mismatch {tail : Bytes} (hword : readLength cfg tail ≠ 4#32)
    (hcrc : ¬CrcMatches cfg tail) : Dead cfg tail := by
  intro buf more hbuf _
  by_cases hlen : buf.length < 4
  · exact Or.inl ⟨_,next_short hlen⟩
  have hlookup : lookup4 tail = lookup4 buf := by
    rw [← hbuf,lookup4_append (by omega)]
  rw [CrcMatches] at hcrc
  have hcut := cutPacket_mismatch hbuf hcrc
  rw [readLength,hlookup] at hword hcut
  rw [next]
  cases hside : cfg.side with
  | client =>
      simp only [hside] at hword hcut ⊢
      rw [tcpRpccNext,if_neg hlen]
      dsimp only
      rw [if_neg hword]
      split_ifs
      · exact Or.inr rfl
      · exact Or.inr rfl
      · exact hcut
  | server quickack holes =>
      simp only [hside] at hword hcut ⊢
      rw [tcpRpcsNext,if_neg hlen]
      dsimp only
      generalize (if quickack = true then lookup4 buf &&& 0x7fffffff#32 else lookup4 buf) = len
        at hword hcut
      rw [if_neg hword]
      split_ifs
      · exact Or.inr rfl
      · exact Or.inr rfl
      · exact Or.inr rfl
      · exact hcut

/-- A fresh receiver in front of a stream of items with `tail` behind them delivers their
payloads, however the stream is cut. -/
theorem run_delivers {tail : Bytes} (hdead : Dead cfg tail) {crypto : Option σ} {num : BitVec 32}
    {is : List Item} (hok : ∀ i ∈ is, i.Ok cfg) (hnum : num.toNat+packets is ≤ 2^31)
    (hdvd : crypto.isSome → k.size ∣ (encode cfg.customCrcPartial num is++tail).length)
    (pieces : List Bytes) (hpieces : pieces.flatten =
      (sealBytes k crypto (encode cfg.customCrcPartial num is++tail)).1) :
    (run (reader k cfg) {crypto := crypto, inPacketNum := num} pieces).delivered = payloads is ∧
    (tail = [] →
      (run (reader k cfg) {crypto := crypto, inPacketNum := num} pieces).status = .working) := by
  have hlink := link_sealBytes hdvd num
  rw [← hpieces] at hlink
  have hstage : Stage cfg (payloads is) tail (encode cfg.customCrcPartial num is++tail) is
      ({crypto := crypto, inPacketNum := num} : Receiver σ) :=
    ⟨hok,hnum,rfl,rfl,rfl⟩
  have hwaits : Waits cfg is ({crypto := crypto, inPacketNum := num} : Receiver σ) := by
    intro i is' _
    have hfour := i.four_le cfg.customCrcPartial num
    exact ⟨by simp only [List.length_nil]; omega,Nat.zero_le _⟩
  have hready := run_ready hdead pieces (Or.inr ⟨_,is,hlink,hstage,hwaits⟩)
  exact hready.delivered

/-- For every grouping of the payloads into runs of the writer, with a block cipher or without,
and for every cut, the loop of either side delivers the payloads in order, as long as the
numbers of the packets are not negative. If one byte of a packet is changed so that its length
is not that of a filling word and the checksum at the end of that length does not match,
then exactly the payloads before that packet are delivered. -/
theorem transport_round_trip (k : Cipher UInt8 σ) (hk : k.size = 16) (cfg : Config)
    (conn : OutConn) (crypto : Option σ) (queues : List (List Bytes))
    (hfull : conn.flags &&& (rpcFCompact ||| rpcFMedium) = 0#32) (hout : conn.out = [])
    (hcrc : conn.customCrcPartial = cfg.customCrcPartial)
    (hqueues : ∀ q ∈ queues, ∀ p ∈ q, Sendable cfg p)
    (hnum : conn.outPacketNum.toNat+queues.flatten.length ≤ 2^31) :
    ∃ s, writerRuns k ⟨conn,crypto,[]⟩ queues = some s ∧
      s.wire = (sealBytes k crypto (encode cfg.customCrcPartial conn.outPacketNum
        (plan crypto.isSome queues))).1 ∧
      (∀ pieces : List Bytes, pieces.flatten = s.wire →
        (run (reader k cfg) ⟨crypto,[],[],0,conn.outPacketNum,false,[],.working⟩ pieces).delivered =
          queues.flatten) ∧
      ∀ before p after, plan crypto.isSome queues = before++.packet p::after →
        ∀ i b, i < (packetBytes cfg.customCrcPartial (numberAfter conn.outPacketNum before) p).length →
        ∀ changed, changed =
          (packetBytes cfg.customCrcPartial (numberAfter conn.outPacketNum before) p).set i b++
            encode cfg.customCrcPartial (numberAfter conn.outPacketNum before+1#32) after →
        readLength cfg changed ≠ 4#32 → ¬CrcMatches cfg changed →
        ∀ pieces : List Bytes, pieces.flatten = (sealBytes k crypto
            (encode cfg.customCrcPartial conn.outPacketNum before++changed)).1 →
          (run (reader k cfg) ⟨crypto,[],[],0,conn.outPacketNum,false,[],.working⟩ pieces).delivered =
            payloads before := by
  have hwords : ∀ q ∈ queues, ∀ p ∈ q, 4 ∣ p.length := fun q hq p hp => (hqueues q hq p hp).words
  have hok := plan_ok crypto.isSome hqueues
  have hcount : conn.outPacketNum.toNat+packets (plan crypto.isSome queues) ≤ 2^31 := by
    rw [packets,payloads_plan]
    exact hnum
  have hdvd : crypto.isSome → k.size ∣ (encode cfg.customCrcPartial conn.outPacketNum
      (plan crypto.isSome queues)).length := by
    intro hc
    rw [hc,hk]
    exact encode_plan_dvd _ _ hwords
  obtain ⟨s,hruns,hwire⟩ := writerRuns_eq (s := ⟨conn,crypto,[]⟩) hk ⟨hfull,hout⟩ hwords
  dsimp only at hwire
  rw [hcrc,List.nil_append] at hwire
  refine ⟨s,hruns,hwire,?_,?_⟩
  · intro pieces hpieces
    have hdead : Dead cfg [] := by
      intro buf more hbuf hne
      exact absurd (List.append_eq_nil_iff.mp hbuf).1 hne
    have hdelivers := run_delivers hdead hok hcount (by rwa [List.append_nil]) pieces
      (by rw [List.append_nil,hpieces,hwire])
    rw [payloads_plan] at hdelivers
    exact hdelivers.1
  · intro before p after hplan i b hi changed hchanged hword hmismatch pieces hpieces
    rw [hplan] at hok hcount hdvd
    have hbefore : conn.outPacketNum.toNat+packets before ≤ 2^31 := by
      rw [packets,payloads_append,List.length_append] at hcount
      rw [packets]
      omega
    have hlen : (encode cfg.customCrcPartial conn.outPacketNum before++changed).length =
        (encode cfg.customCrcPartial conn.outPacketNum (before++.packet p::after)).length := by
      rw [encode_append,hchanged,encode,List.length_append,List.length_append,List.length_append,
        List.length_append,List.length_set]
      rfl
    exact (run_delivers (dead_of_mismatch hword hmismatch)
      (fun j hj => hok j (List.mem_append_left _ hj)) hbefore (by rwa [hlen]) pieces hpieces).1

/-- A cipher for the runs on fixed input: the state is a byte that counts the blocks. -/
def sampleCipher : Cipher UInt8 UInt8 where
  size := 16
  size_pos := by decide
  enc s b := (b.map (· ^^^ s),s+1)
  dec s b := (b.map (· ^^^ s),s+1)
  length_enc s b h := by simpa using h
  dec_enc s b _ := by
    have hback : ∀ x : UInt8, x ^^^ s ^^^ s = x := fun x => by
      rw [UInt8.xor_assoc,UInt8.xor_self,UInt8.xor_zero]
    simp only [List.map_map,Function.comp_def,hback,List.map_id']

def sampleSum (bs : Bytes) : BitVec 32 := .ofNat 32 (bs.map UInt8.toNat).sum

def sampleConfig (maxPacketLen : ℤ) : Config := ⟨.client,maxPacketLen,sampleSum⟩

def sampleConn (num : BitVec 32) : OutConn :=
  {flags := 0#32, outPacketNum := num, customCrcPartial := sampleSum}

/-- Two runs of the writer, read as they were sent and with a byte of the first payload changed. -/
theorem transport_round_trip_sample :
    ∃ s, writerRuns sampleCipher ⟨sampleConn 0#32,some 7,[]⟩ [[[1,2,3,4]],[[5,6,7,8],[9,10,11,12]]] =
        some s ∧
      (run (reader sampleCipher (sampleConfig 64)) ⟨some 7,[],[],0,0#32,false,[],.working⟩
        [s.wire.take 5,s.wire.drop 5]).delivered = [[1,2,3,4],[5,6,7,8],[9,10,11,12]] ∧
      ∃ wire, (run (reader sampleCipher (sampleConfig 64)) ⟨some 7,[],[],0,0#32,false,[],.working⟩
        [wire]).delivered = [] := by
  obtain ⟨s,hruns,-,hdelivered,hchanged⟩ := transport_round_trip sampleCipher rfl (sampleConfig 64)
    (sampleConn 0#32) (some 7) [[[1,2,3,4]],[[5,6,7,8],[9,10,11,12]]] (by decide) rfl rfl
    (by
      intro q hq p hp
      have hp : p ∈ ([[1,2,3,4],[5,6,7,8],[9,10,11,12]] : List Bytes) :=
        List.mem_flatten.mpr ⟨q,hq,hp⟩
      simp only [List.mem_cons,List.not_mem_nil,or_false] at hp
      rcases hp with rfl | rfl | rfl <;> exact ⟨by decide,by decide,by decide,by decide⟩)
    (by decide)
  refine ⟨s,hruns,hdelivered _ (by simp),_,hchanged [] [1,2,3,4] _ rfl 8 9 (by decide) _ rfl (by decide)
    ?_ [_] (List.append_nil _)⟩
  rw [CrcMatches]
  decide

/-- Three streams that are not delivered as one would expect. The number behind
`0x7fffffff` is negative; a payload of 12 bytes below a limit of 20 has a packet above it; and
a packet whose length was changed to 4 lets a packet inside of its payload through. -/
theorem transport_exceptions :
    (∃ s, writerRuns sampleCipher ⟨sampleConn 0x7fffffff#32,none,[]⟩ [[[1,2,3,4],[5,6,7,8]]] = some s ∧
      (run (reader sampleCipher (sampleConfig 0)) ⟨none,[],[],0,0x7fffffff#32,false,[],.working⟩
        [s.wire]).delivered ≠ [[1,2,3,4],[5,6,7,8]]) ∧
    (∃ s, writerRuns sampleCipher ⟨sampleConn 0#32,none,[]⟩ [[[1,2,3,4,5,6,7,8,9,10,11,12]]] = some s ∧
      (run (reader sampleCipher (sampleConfig 20)) ⟨none,[],[],0,0#32,false,[],.working⟩
        [s.wire]).delivered ≠ [[1,2,3,4,5,6,7,8,9,10,11,12]]) ∧
    ∃ s, writerRuns sampleCipher ⟨sampleConn 4#32,none,[]⟩ [[packetBytes sampleSum 4#32 [9,9,9,9]]] =
        some s ∧
      lookup4 (((s.wire.set 0 4).take 28).drop 24) ≠ sampleSum ((s.wire.set 0 4).take 24) ∧
      (run (reader sampleCipher (sampleConfig 0)) ⟨none,[],[],0,4#32,false,[],.working⟩
        [s.wire.set 0 4]).delivered = [[9,9,9,9]] := by
  refine ⟨⟨_,rfl,?_⟩,⟨_,rfl,?_⟩,⟨_,rfl,?_,?_⟩⟩
  · decide
  · decide
  · decide
  · decide

end Teleproxy.RpcRoundTrip
