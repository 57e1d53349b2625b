import Teleproxy.RpcHandshake
import Teleproxy.RpcRoundTrip

/-!
# One direction of an RPC connection

Between a sender and a receiver there is a list of packets and filling words: the bytes
that the receiver holds, those under way and those that the sender has not encrypted yet
are its encoding, and behind the packets that were checked its packets are those that
were sent. Each packet has the number and the checksum that belong to its place in the
order, and the receiver looks for these. A run of the writer, bytes that come and a turn
of the receiver's loop keep this up.
-/
namespace Teleproxy.RpcChannel
open ClientInput (Bytes)
open PacketParser (lookup4 store4 and_quickack)
open RpcTransport (Side writerRun)
open RpcDelivery (packetBytes rawPacket Item encode length_packetBytes length_rawPacket length_store4
  lookup4_front cutPacket_packet)
open RpcRoundTrip (foldl_write flush_eq numberAfter encode_words length_encode_packets sum_dvd)
open RpcHandshake
open BlockCipher (Carries carries_nil)

variable {σ : Type*} {P : Primitives σ} {n : Node} {X : Crc} {a b : Endpoint σ}

inductive Piece where
  | word
  | packet (p : Packet)
  deriving DecidableEq, Repr

def Piece.bytes (P : Primitives σ) : Piece → Bytes
  | .word => store4 4#32
  | .packet p => packetBytes (P.crc p.crc) p.num p.payload

def Piece.packets : Piece → List Packet
  | .word => []
  | .packet p => [p]

def bytesOf (P : Primitives σ) (is : List Piece) : Bytes := is.flatMap (Piece.bytes P)

def packetsOf (is : List Piece) : List Packet := is.flatMap Piece.packets

/-- The number of the packet at a place in the order. -/
def number (i : ℕ) : BitVec 32 := BitVec.ofNat 32 i-2#32

/-- The checksum of the packet at a place in the order, when `X` is agreed upon. -/
def crcAt (X : Crc) (i : ℕ) : Crc := if i < 2 then .crc32 else X

/-- A payload whose length with the header is an `int`. -/
def Framed (raw : Bytes) : Prop := 4 ∣ raw.length ∧ raw.length+12 < 2^31

/-- The packets of a sender have their numbers and checksums, and those that wait will. -/
structure Sends (X : Crc) (a : Endpoint σ) : Prop where
  queue : ∀ raw ∈ a.outQueue, Framed raw
  framed : ∀ p ∈ a.sent, Framed p.payload
  number : a.outPacketNum = number a.sent.length
  stamped : ∀ i p, a.sent[i]? = some p → p.num = RpcChannel.number i ∧ p.crc = crcAt X i
  current : ∀ i < a.outQueue.length, a.customCrcPartial = crcAt X (a.sent.length+i)

/-- A receiver looks for the number and the checksum of the next packet. -/
structure Hears (X : Crc) (b : Endpoint σ) : Prop where
  number : b.inPacketNum = number b.checked.length
  crc : b.customCrcPartial = crcAt X b.checked.length
  count : b.checked.length ≤ 2^31+2

structure Flow (P : Primitives σ) (a b : Endpoint σ) (is : List Piece) (plain : Bytes) : Prop where
  carries : Carries P.cipher a.writeAeskey b.readAeskey (b.inU++a.socket) plain
  inU : b.readAeskey = none → b.inU = []
  bytes : b.inBuf++plain++a.out = bytesOf P is
  packets : b.checked++packetsOf is = a.sent
  words : a.writeAeskey = none → is = (packetsOf is).map .packet
  aligned : 4 ∣ a.out.length

/-- No packet was refused for its checksum or its number. -/
def Clean (b : Endpoint σ) : Prop :=
  ∀ code, b.error ≠ some (.checksum code) ∧ b.error ≠ some (.number code)

structure Joined (P : Primitives σ) (X : Crc) (a b : Endpoint σ) : Prop where
  flow : ∃ is plain, Flow P a b is plain
  sends : Sends X a
  hears : b.error = none → Hears X b
  clean : Clean b

/-- Both directions. -/
structure Pair (P : Primitives σ) (X : Crc) (a b : Endpoint σ) : Prop where
  forth : Joined P X a b
  back : Joined P X b a

theorem Pair.symm (h : Pair P X a b) : Pair P X b a := ⟨h.back,h.forth⟩

/-- All that a direction depends on at its sender. -/
def outView (a : Endpoint σ) :=
  (a.writeAeskey,a.socket,a.out,a.outQueue,a.sent,a.outPacketNum,a.customCrcPartial)

/-- All that a direction depends on at its receiver. -/
def inView (b : Endpoint σ) :=
  (b.readAeskey,b.inU,b.inBuf,b.checked,b.inPacketNum,b.customCrcPartial,b.error)

theorem Joined.congr {a' b' : Endpoint σ} (h : Joined P X a b) (ha : outView a' = outView a)
    (hb : inView b' = inView b) : Joined P X a' b' := by
  simp only [outView,inView,Prod.mk.injEq] at ha hb
  obtain ⟨hwrite,hsocket,hout,hqueue,hsent,hnum,hcrc⟩ := ha
  obtain ⟨hread,hinU,hinBuf,hchecked,hinNum,hinCrc,herror⟩ := hb
  obtain ⟨⟨is,plain,hflow⟩,hsends,hhears,hclean⟩ := h
  refine ⟨⟨is,plain,?_,?_,?_,?_,?_,?_⟩,⟨?_,?_,?_,?_,?_⟩,?_,?_⟩
  · rw [hwrite,hread,hinU,hsocket]
    exact hflow.carries
  · rw [hread,hinU]
    exact hflow.inU
  · rw [hinBuf,hout]
    exact hflow.bytes
  · rw [hchecked,hsent]
    exact hflow.packets
  · rw [hwrite]
    exact hflow.words
  · rw [hout]
    exact hflow.aligned
  · rw [hqueue]
    exact hsends.queue
  · rw [hsent]
    exact hsends.framed
  · rw [hnum,hsent]
    exact hsends.number
  · rw [hsent]
    exact hsends.stamped
  · rw [hqueue,hsent,hcrc]
    exact hsends.current
  · rw [herror]
    intro he
    have hhear := hhears he
    refine ⟨?_,?_,?_⟩
    · rw [hinNum,hchecked]
      exact hhear.number
    · rw [hinCrc,hchecked]
      exact hhear.crc
    · rw [hchecked]
      exact hhear.count
  · rw [Clean,herror]
    exact hclean

@[simp] theorem bytesOf_append (is js : List Piece) :
    bytesOf P (is++js) = bytesOf P is++bytesOf P js := List.flatMap_append

@[simp] theorem packetsOf_append (is js : List Piece) :
    packetsOf (is++js) = packetsOf is++packetsOf js := List.flatMap_append

@[simp] theorem packetsOf_map (ps : List Packet) : packetsOf (ps.map .packet) = ps := by
  induction ps with
  | nil => rfl
  | cons p ps ih => exact congrArg (p::·) ih

theorem packetsOf_words (m : ℕ) : packetsOf (List.replicate m .word) = [] := by
  induction m with
  | zero => rfl
  | succ m ih =>
      rw [List.replicate_succ]
      exact ih

theorem number_succ (i : ℕ) : number i+1#32 = number (i+1) := by
  rw [number,number,BitVec.ofNat_add]
  bv_omega

@[simp] theorem length_stamps (crc : Crc) (num : BitVec 32) (queue : List Bytes) :
    (stamps crc num queue).length = queue.length := by
  induction queue generalizing num with
  | nil => rfl
  | cons raw queue ih => exact congrArg (·+1) (ih _)

theorem payload_stamps (crc : Crc) (num : BitVec 32) (queue : List Bytes) :
    (stamps crc num queue).map Packet.payload = queue := by
  induction queue generalizing num with
  | nil => rfl
  | cons raw queue ih => exact congrArg (raw::·) (ih _)

/-- The packets of a queue are numbered one after the other. -/
theorem stamps_get {crc : Crc} {m i : ℕ} {queue : List Bytes} {p : Packet}
    (h : (stamps crc (number m) queue)[i]? = some p) :
    p.num = number (m+i) ∧ p.crc = crc ∧ i < queue.length := by
  induction queue generalizing m i with
  | nil => cases h
  | cons raw queue ih =>
      rw [stamps,number_succ] at h
      cases i with
      | zero =>
          rw [List.getElem?_cons_zero,Option.some.injEq] at h
          subst h
          exact ⟨rfl,rfl,Nat.succ_pos _⟩
      | succ i =>
          rw [List.getElem?_cons_succ] at h
          obtain ⟨hnum,hcrc,hlt⟩ := ih h
          exact ⟨by rw [hnum]; ring_nf,hcrc,Nat.succ_lt_succ hlt⟩

theorem encode_stamps (crc : Crc) (num : BitVec 32) (queue : List Bytes) :
    encode (P.crc crc) num (queue.map .packet) = bytesOf P ((stamps crc num queue).map .packet) := by
  induction queue generalizing num with
  | nil => rfl
  | cons raw queue ih => exact congrArg (packetBytes (P.crc crc) num raw++·) (ih _)

theorem bytesOf_words (num : BitVec 32) (crc : Bytes → BitVec 32) (m : ℕ) :
    encode crc num (List.replicate m .word) = bytesOf P (List.replicate m .word) := by
  induction m with
  | zero => rfl
  | succ m ih => exact congrArg (store4 4#32++·) ih

theorem numberAfter_queue (m : ℕ) (queue : List Bytes) :
    numberAfter (number m) (queue.map Item.packet) = number (m+queue.length) := by
  induction queue generalizing m with
  | nil => rfl
  | cons raw queue ih =>
      rw [List.map_cons,numberAfter,List.foldl_cons]
      change numberAfter (number m+1#32) _ = _
      rw [number_succ,ih,List.length_cons]
      congr 1
      omega

/-- The filling words make whole blocks. -/
theorem flush_plain {c : RpcWriter.OutConn} (h : 4 ∣ c.out.length) :
    ∃ m plain, plain = c.out++bytesOf P (List.replicate m .word) ∧ 16 ∣ plain.length ∧
      RpcWriter.tcpRpcFlush true c = some {c with out := plain} := by
  have hwords := RpcRoundTrip.length_encode_words c.customCrcPartial 0#32
    ((16-c.out.length % 16) % 16/4)
  refine ⟨(16-c.out.length % 16) % 16/4,_,rfl,?_,?_⟩
  · rw [← bytesOf_words 0#32 c.customCrcPartial,List.length_append,hwords]
    omega
  · rw [flush_eq 0#32 h,bytesOf_words]

/-- One run of the writer: the queue is numbered and framed, and all of `c->out` goes out. -/
theorem writer_eq (haligned : 4 ∣ a.out.length) (hnumber : a.outPacketNum = number a.sent.length)
    (hqueue : ∀ raw ∈ a.outQueue, Framed raw) :
    ∃ m bytes w,
      cpuTcpServerWriter P a =
        {a with outPacketNum := number (a.sent.length+a.outQueue.length), out := [],
                socket := a.socket++bytes, writeAeskey := w, outQueue := [],
                sent := a.sent++stamps a.customCrcPartial a.outPacketNum a.outQueue} ∧
      w.isSome = a.writeAeskey.isSome ∧ (a.writeAeskey = none → m = 0) ∧
      ∀ r coming plain, Carries P.cipher a.writeAeskey r coming plain →
        Carries P.cipher w r (coming++bytes) (plain++(a.out++bytesOf P
          ((stamps a.customCrcPartial a.outPacketNum a.outQueue).map .packet++
            List.replicate m .word))) := by
  have hfold := foldl_write (c := (a.sender P).conn) (BitVec.zero_and) a.outQueue
  have hnum : numberAfter a.outPacketNum (a.outQueue.map Item.packet) =
      number (a.sent.length+a.outQueue.length) := by
    rw [hnumber,numberAfter_queue]
  have hwords := sum_dvd fun raw h => (hqueue raw h).1
  rw [← length_encode_packets (P.crc a.customCrcPartial) a.outPacketNum] at hwords
  cases hw : a.writeAeskey with
  | none =>
      refine ⟨0,_,none,?_,rfl,fun _ => rfl,fun r coming plain h => h.write_plain _⟩
      rw [cpuTcpServerWriter,writerRun,hfold]
      simp only [Endpoint.sender,hw,hnum,encode_stamps]
      simp [RpcWriter.tcpRpcFlush]
  | some key =>
      have hlen : 4 ∣ (a.out++encode (P.crc a.customCrcPartial) a.outPacketNum
          (a.outQueue.map .packet)).length := by
        rw [List.length_append]
        exact Nat.dvd_add haligned hwords
      obtain ⟨m,plain,hplain,hdvd,hflush⟩ := flush_plain (P := P)
        (c := {(a.sender P).conn with
          outPacketNum := number (a.sent.length+a.outQueue.length),
          out := a.out++encode (P.crc a.customCrcPartial) a.outPacketNum
            (a.outQueue.map .packet)}) hlen
      dsimp only at hplain hflush
      rw [encode_stamps,List.append_assoc,← bytesOf_append] at hplain
      have hsize : plain.length = plain.length/P.cipher.size*P.cipher.size := by
        rw [P.size_eq,Nat.div_mul_cancel hdvd]
      refine ⟨m,(P.cipher.encrypt (plain.length/P.cipher.size) key plain).1,
        some (P.cipher.encrypt (plain.length/P.cipher.size) key plain).2,?_,rfl,
        fun h => absurd h (Option.some_ne_none key),?_⟩
      · rw [cpuTcpServerWriter,writerRun,hfold]
        simp only [Endpoint.sender] at hflush ⊢
        rw [hw,hnum]
        simp only [Option.isSome_some,hflush]
        rw [Option.map_some]
        dsimp only
        rw [← hsize,List.drop_length]
      · intro r coming before h
        rw [← hplain]
        exact h.write hsize

/-- A run of the writer adds its packets to what is under way. -/
theorem Flow.writer {is : List Piece} {plain : Bytes} (h : Flow P a b is plain)
    (hnumber : a.outPacketNum = number a.sent.length) (hqueue : ∀ raw ∈ a.outQueue, Framed raw) :
    ∃ is' plain', Flow P (cpuTcpServerWriter P a) b is' plain' := by
  obtain ⟨m,bytes,w,heq,hsome,hnone,hcarries⟩ := writer_eq (P := P) h.aligned hnumber hqueue
  have hnext := hcarries _ _ _ h.carries
  rw [List.append_assoc] at hnext
  rw [heq]
  refine ⟨is++((stamps a.customCrcPartial a.outPacketNum a.outQueue).map .packet++
    List.replicate m .word),_,hnext,h.inU,?_,?_,?_,Nat.dvd_zero 4⟩
  · rw [bytesOf_append is,← h.bytes]
    simp only [List.append_assoc,List.append_nil]
  · rw [packetsOf_append,packetsOf_append,packetsOf_map,packetsOf_words,List.append_nil,
      ← List.append_assoc,h.packets]
  · intro hw
    have hplain : a.writeAeskey = none := by
      change w = none at hw
      rw [hw] at hsome
      exact Option.isSome_eq_false_iff.mp hsome.symm |> Option.isNone_iff_eq_none.mp
    obtain rfl := hnone hplain
    rw [List.replicate_zero,List.append_nil,packetsOf_append,packetsOf_map,List.map_append,
      ← h.words hplain]

theorem Sends.writer (h : Sends X a) (haligned : 4 ∣ a.out.length) :
    Sends X (cpuTcpServerWriter P a) := by
  obtain ⟨m,bytes,w,heq,-⟩ := writer_eq (P := P) haligned h.number h.queue
  rw [heq]
  refine ⟨nofun,?_,?_,?_,nofun⟩
  · intro p hp
    rcases List.mem_append.mp hp with hp | hp
    · exact h.framed p hp
    · apply h.queue
      rw [← payload_stamps a.customCrcPartial a.outPacketNum a.outQueue]
      exact List.mem_map_of_mem hp
  · rw [List.length_append,length_stamps]
  · intro i p hp
    rw [List.getElem?_append] at hp
    split_ifs at hp with hi
    · exact h.stamped i p hp
    · rw [h.number] at hp
      obtain ⟨hnum,hcrc,hlt⟩ := stamps_get hp
      rw [Nat.add_sub_cancel' (Nat.le_of_not_lt hi)] at hnum
      refine ⟨hnum,?_⟩
      rw [hcrc,h.current _ hlt,Nat.add_sub_cancel' (Nat.le_of_not_lt hi)]

theorem Pair.writer (h : Pair P X a b) : Pair P X (cpuTcpServerWriter P a) b := by
  obtain ⟨is,plain,hflow⟩ := h.forth.flow
  refine ⟨⟨hflow.writer h.forth.sends.number h.forth.sends.queue,
    h.forth.sends.writer hflow.aligned,h.forth.hears,h.forth.clean⟩,?_⟩
  obtain ⟨m,bytes,w,heq,-⟩ := writer_eq (P := P) hflow.aligned h.forth.sends.number
    h.forth.sends.queue
  rw [heq]
  exact h.back.congr rfl rfl

theorem receive_plain (hr : b.readAeskey = none) (piece : Bytes) :
    b.receive P piece = {b with inBuf := b.inBuf++piece} := by
  rw [Endpoint.receive,RpcTransport.receive,hr]

theorem Flow.receive {is : List Piece} {plain : Bytes} (h : Flow P a b is plain) (m : ℕ) :
    ∃ r inU rest plain', b.receive P (a.socket.take m) =
        {b with readAeskey := r, inU := inU, inBuf := b.inBuf++rest} ∧
      Flow P {a with socket := a.socket.drop m} (b.receive P (a.socket.take m)) is plain' := by
  have hcarries := h.carries
  rw [← List.take_append_drop m a.socket,← List.append_assoc] at hcarries
  cases hr : b.readAeskey with
  | none =>
      rw [hr,h.inU hr,List.nil_append] at hcarries
      obtain ⟨rest,rfl,hrest⟩ := hcarries.read_plain
      have heq := receive_plain (P := P) hr (a.socket.take m)
      refine ⟨b.readAeskey,b.inU,a.socket.take m,rest,heq,?_⟩
      rw [heq]
      refine ⟨?_,h.inU,?_,h.packets,h.words,h.aligned⟩
      · rw [hr,h.inU hr]
        exact hrest
      · rw [← h.bytes]
        simp only [List.append_assoc]
  | some key =>
      rw [hr] at hcarries
      obtain ⟨bs,key',rest,hdec,rfl,hrest⟩ := hcarries.read
      have heq : b.receive P (a.socket.take m) =
          {b with readAeskey := some key', inBuf := b.inBuf++bs,
                  inU := (b.inU++a.socket.take m).drop
                    ((b.inU++a.socket.take m).length/P.cipher.size*P.cipher.size)} := by
        rw [Endpoint.receive,RpcTransport.receive,hr]
        dsimp only
        rw [hdec]
      refine ⟨_,_,bs,rest,heq,?_⟩
      rw [heq]
      refine ⟨hrest,fun h => absurd h (Option.some_ne_none key'),?_,h.packets,h.words,h.aligned⟩
      rw [← h.bytes]
      simp only [List.append_assoc]

theorem Pair.receive (h : Pair P X a b) (m : ℕ) :
    Pair P X {a with socket := a.socket.drop m} (b.receive P (a.socket.take m)) := by
  obtain ⟨is,plain,hflow⟩ := h.forth.flow
  obtain ⟨r,inU,rest,plain',heq,hnext⟩ := hflow.receive m
  have hsends := h.forth.sends
  refine ⟨⟨⟨is,plain',hnext⟩,⟨hsends.queue,hsends.framed,hsends.number,hsends.stamped,hsends.current⟩,
    ?_,?_⟩,?_⟩
  · rw [heq]
    intro he
    have hhears := h.forth.hears he
    exact ⟨hhears.number,hhears.crc,hhears.count⟩
  · rw [heq]
    exact h.forth.clean
  · rw [heq]
    exact h.back.congr rfl rfl

/-- What the length is, where a loop gets beyond it. -/
def Fits (buf : Bytes) : Head → Prop
  | .word => 4 ≤ buf.length ∧ (lookup4 buf).toNat % 2^31 = 4
  | .packet packetLen => 4 ≤ buf.length ∧ (lookup4 buf).toNat % 2^31 = packetLen ∧
      16 ≤ packetLen ∧ packetLen ≤ buf.length
  | _ => True

theorem packetHead_fits {buf : Bytes} {x : BitVec 32} (hbuf : 4 ≤ buf.length)
    (hmod : x.toNat % 2^31 = (lookup4 buf).toNat % 2^31) : Fits buf (packetHead buf x) := by
  rw [packetHead]
  split_ifs with h4 h16 hlen
  · rw [h4] at hmod
    exact ⟨hbuf,hmod.symm⟩
  · trivial
  · trivial
  · rw [BitVec.toInt_eq_toNat_cond] at h16
    split_ifs at h16 with hx
    · refine ⟨hbuf,?_,?_,?_⟩ <;> omega
    · omega

theorem head_fits (side : Side) (maxPacketLen : ℤ) (buf : Bytes) :
    Fits buf (head side maxPacketLen buf) := by
  unfold head
  split_ifs with hbuf
  · trivial
  · cases side with
    | client =>
        dsimp only
        split_ifs with hbad
        · trivial
        · exact packetHead_fits (by omega) rfl
    | server quickack holes =>
        dsimp only
        split_ifs with hquick hbad hmax hbad hmax
        · trivial
        · trivial
        · exact packetHead_fits (by omega) (by rw [and_quickack,Nat.mod_mod])
        · trivial
        · trivial
        · exact packetHead_fits (by omega) rfl

section
variable {is : List Piece} {plain : Bytes} {p : Packet}

/-- The first bytes of a buffer in front of a list of pieces. -/
theorem drop_front {buf more front rest : Bytes} {m : ℕ} (h : buf++more = front++rest)
    (hfront : front.length = m) (hbuf : m ≤ buf.length) : buf.drop m++more = rest := by
  have hdrop := congrArg (List.drop m) h
  rwa [List.drop_append_of_le_length hbuf,List.drop_left' hfront] at hdrop

theorem Flow.word (h : Flow P a b (.word::is) plain) (hbuf : 4 ≤ b.inBuf.length) :
    Flow P a {b with inBuf := b.inBuf.drop 4} is plain := by
  have hbytes := h.bytes
  rw [List.append_assoc] at hbytes
  refine ⟨h.carries,h.inU,?_,h.packets,?_,h.aligned⟩
  · rw [List.append_assoc]
    exact drop_front hbytes (length_store4 _) hbuf
  · intro hw
    have hwords := h.words hw
    change _ = (packetsOf is).map Piece.packet at hwords
    cases hps : packetsOf is with
    | nil =>
        rw [hps] at hwords
        cases hwords
    | cons q qs =>
        rw [hps] at hwords
        cases hwords

theorem Flow.packet (h : Flow P a b (.packet p::is) plain)
    (hbuf : p.payload.length+12 ≤ b.inBuf.length) :
    Flow P a {b with inBuf := b.inBuf.drop (p.payload.length+12), checked := b.checked++[p]}
      is plain := by
  have hbytes := h.bytes
  rw [List.append_assoc] at hbytes
  refine ⟨h.carries,h.inU,?_,?_,?_,h.aligned⟩
  · rw [List.append_assoc]
    exact drop_front hbytes (length_packetBytes _ _ _) hbuf
  · rw [← h.packets,List.append_assoc]
    rfl
  · intro hw
    exact (List.cons.inj (h.words hw)).2

/-- The length in front of a piece. -/
def Piece.size : Piece → ℕ
  | .word => 4
  | .packet p => p.payload.length+12

theorem Piece.bytes_eq (i : Piece) : ∃ rest, i.bytes P = store4 (.ofNat 32 i.size)++rest := by
  cases i with
  | word => exact ⟨[],rfl⟩
  | packet p =>
      refine ⟨store4 p.num++p.payload++store4 (P.crc p.crc (rawPacket p.num p.payload)),?_⟩
      rw [Piece.bytes,packetBytes,rawPacket]
      simp only [List.append_assoc,Piece.size]

/-- Four bytes of the buffer are the length of the first piece. -/
theorem Flow.front (h : Flow P a b is plain) (hframed : ∀ p ∈ a.sent, Framed p.payload)
    (hbuf : 4 ≤ b.inBuf.length) :
    ∃ i is', is = i::is' ∧ (lookup4 b.inBuf).toNat % 2^31 = i.size := by
  have hbytes := h.bytes
  rw [List.append_assoc] at hbytes
  cases is with
  | nil =>
      have hlen := congrArg List.length hbytes
      rw [List.length_append] at hlen
      change _ = 0 at hlen
      omega
  | cons i is =>
      obtain ⟨rest,hrest⟩ := i.bytes_eq (P := P)
      change _ = i.bytes P++bytesOf P is at hbytes
      rw [hrest,List.append_assoc] at hbytes
      have hsize : i.size < 2^31 := by
        cases i with
        | word => decide
        | packet p =>
            refine (hframed p ?_).2
            rw [← h.packets]
            exact List.mem_append_right _ (List.mem_cons_self)
      refine ⟨i,is,rfl,?_⟩
      rw [lookup4_front hbuf hbytes,BitVec.toNat_ofNat]
      omega

/-- The packet in front of a list of pieces is the next of those that were sent. -/
theorem Flow.next (h : Flow P a b (.packet p::is) plain) : a.sent[b.checked.length]? = some p := by
  rw [← h.packets,List.getElem?_append_right (Nat.le_refl _),Nat.sub_self]
  rfl

/-- A packet that was not changed has its checksum, its number and its payload. -/
theorem cut_packet {buf more rest : Bytes}
    (hbuf : buf++more = packetBytes (P.crc p.crc) p.num p.payload++rest)
    (hlen : p.payload.length+12 ≤ buf.length) :
    lookup4 ((buf.take (p.payload.length+12)).drop (p.payload.length+12-4)) =
        P.crc p.crc (buf.take (p.payload.length+12-4)) ∧
      lookup4 ((buf.take (p.payload.length+12-4)).drop 4) = p.num ∧
      (buf.take (p.payload.length+12-4)).drop 8 = p.payload := by
  have hcut : RpcTransport.cutPacket ⟨.client,0,P.crc p.crc⟩ buf (p.payload.length+12) = _ :=
    cutPacket_packet hbuf
  rw [RpcTransport.cutPacket,if_neg (Nat.not_lt.mpr hlen),if_neg (Nat.not_lt.mpr hlen)] at hcut
  dsimp only at hcut
  split_ifs at hcut with hcrc
  injection hcut with hnum hmsg
  exact ⟨hcrc,hnum,hmsg⟩

end

theorem number_ne_three {i : ℕ} (h : i ≤ 2^31+2) : number i ≠ -3#32 := by
  intro heq
  have hnat := congrArg BitVec.toNat heq
  rw [number,BitVec.toNat_sub,BitVec.toNat_ofNat] at hnat
  simp at hnat
  omega

/-- What a turn of the loop can do: it waits, it fails for a length, it leaves out a word, or
it takes the next of the packets that were sent. -/
theorem turn_cases (h : Joined P X a b) (hb : b.error = none) (side : Side) (codes : Codes)
    (take : Endpoint σ → BitVec 32 → Bytes → Endpoint σ) :
    (∃ m, turn P n side codes take b = {b with skipBytes := m}) ∨
    (∃ code, turn P n side codes take b = b.fail (.length code)) ∨
    (∃ rest, turn P n side codes take b = {b with inBuf := rest} ∧
      ∃ is plain, Flow P a {b with inBuf := rest} is plain) ∨
    ∃ p rest, a.sent[b.checked.length]? = some p ∧
      turn P n side codes take b =
        take {b with inBuf := rest, checked := b.checked++[p]} p.num p.payload ∧
      ∃ is plain, Flow P a {b with inBuf := rest, checked := b.checked++[p]} is plain := by
  obtain ⟨is,plain,hflow⟩ := h.flow
  have hfits := head_fits side n.maxPacketLen b.inBuf
  unfold turn
  cases hhead : head side n.maxPacketLen b.inBuf with
  | need m => exact .inl ⟨_,rfl⟩
  | bad => exact .inr (.inl ⟨_,rfl⟩)
  | short => exact .inr (.inl ⟨_,rfl⟩)
  | word =>
      rw [hhead] at hfits
      obtain ⟨i,is,rfl,hlen⟩ := hflow.front h.sends.framed hfits.1
      rw [hfits.2] at hlen
      cases i with
      | word => exact .inr (.inr (.inl ⟨_,rfl,is,plain,hflow.word hfits.1⟩))
      | packet p => exact absurd hlen (by rw [Piece.size]; omega)
  | packet packetLen =>
      rw [hhead] at hfits
      obtain ⟨hfour,hvalue,hmin,hmax⟩ := hfits
      obtain ⟨i,is,rfl,hlen⟩ := hflow.front h.sends.framed hfour
      rw [hvalue] at hlen
      cases i with
      | word => exact absurd hlen (by rw [Piece.size]; omega)
      | packet p =>
          subst hlen
          have hbytes := hflow.bytes
          rw [List.append_assoc] at hbytes
          obtain ⟨hcrc,hnum,hmsg⟩ := cut_packet (p := p) hbytes hmax
          have hhears := h.hears hb
          obtain ⟨hnumber,hcrcAt⟩ := h.sends.stamped _ _ hflow.next
          have hexpected : (if side ≠ .client ∧ b.inPacketNum = -3#32 then 0#32
              else b.inPacketNum) = p.num := by
            rw [hhears.number,if_neg (fun h => number_ne_three hhears.count h.2),hnumber]
          have hcustom : b.customCrcPartial = p.crc := by rw [hhears.crc,hcrcAt]
          refine .inr (.inr (.inr ⟨p,_,hflow.next,?_,is,plain,hflow.packet hmax⟩))
          dsimp only [Piece.size]
          have hin : b.inPacketNum = p.num := by rw [hhears.number,hnumber]
          rw [hexpected,hcrc,hnum,hmsg]
          simp only [Endpoint.noted,hcustom,ne_eq,not_true_eq_false,and_false,if_false]
          rw [hin]

theorem Pair.waits (h : Pair P X a b) (m : ℕ) : Pair P X a {b with skipBytes := m} :=
  ⟨h.forth.congr rfl rfl,h.back.congr rfl rfl⟩

/-- A receiver that fails, with what it has taken before. -/
theorem Pair.ends (h : Pair P X a b) {b' : Endpoint σ} {f : Failure}
    (hflow : ∃ is plain, Flow P a b' is plain) (hout : outView b' = outView b)
    (hf : ∀ code, f ≠ .checksum code ∧ f ≠ .number code) : Pair P X a (b'.fail f) := by
  obtain ⟨is,plain,hnext⟩ := hflow
  refine ⟨⟨⟨is,plain,hnext.carries,hnext.inU,hnext.bytes,hnext.packets,hnext.words,hnext.aligned⟩,
    h.forth.sends,nofun,?_⟩,h.back.congr hout rfl⟩
  intro code
  exact ⟨fun he => (hf code).1 (Option.some.inj he),fun he => (hf code).2 (Option.some.inj he)⟩

theorem Pair.fail (h : Pair P X a b) {f : Failure} (hf : ∀ code, f ≠ .checksum code ∧
    f ≠ .number code) : Pair P X a (b.fail f) := h.ends h.forth.flow rfl hf

theorem Pair.skips (h : Pair P X a b) {rest : Bytes}
    (hflow : ∃ is plain, Flow P a {b with inBuf := rest} is plain) :
    Pair P X a {b with inBuf := rest} := by
  refine ⟨⟨hflow,h.forth.sends,?_,h.forth.clean⟩,h.back.congr rfl rfl⟩
  intro he
  have hhears := h.forth.hears he
  exact ⟨hhears.number,hhears.crc,hhears.count⟩

/-- What a turn can do, with both directions. -/
theorem turn_pair (h : Pair P X a b) (hb : b.error = none) (side : Side) (codes : Codes)
    (take : Endpoint σ → BitVec 32 → Bytes → Endpoint σ) :
    (∃ m rest f, turn P n side codes take b = {b with skipBytes := m, inBuf := rest, error := f} ∧
      Pair P X a {b with skipBytes := m, inBuf := rest, error := f}) ∨
    ∃ p rest, a.sent[b.checked.length]? = some p ∧
      turn P n side codes take b =
        take {b with inBuf := rest, checked := b.checked++[p]} p.num p.payload ∧
      ∃ is plain, Flow P a {b with inBuf := rest, checked := b.checked++[p]} is plain := by
  obtain ⟨m,heq⟩ | ⟨code,heq⟩ | ⟨rest,heq,hflow⟩ | hpacket :=
    turn_cases (n := n) h.forth hb side codes take
  · exact .inl ⟨m,b.inBuf,b.error,heq,h.waits m⟩
  · exact .inl ⟨b.skipBytes,b.inBuf,_,heq,h.fail fun _ => ⟨nofun,nofun⟩⟩
  · exact .inl ⟨b.skipBytes,rest,b.error,heq,h.skips hflow⟩
  · exact .inr hpacket

/-- A packet is queued by a side that has its last checksum. -/
theorem Pair.send (h : Pair P X a b) {raw : Bytes} (hraw : Framed raw)
    (hcrc : a.customCrcPartial = crcAt X (a.sent.length+a.outQueue.length)) :
    Pair P X (tcpRpcConnSend a raw) b := by
  obtain ⟨is,plain,hflow⟩ := h.forth.flow
  have hsends := h.forth.sends
  refine ⟨⟨⟨is,plain,hflow.carries,hflow.inU,hflow.bytes,hflow.packets,hflow.words,hflow.aligned⟩,
    ⟨?_,hsends.framed,hsends.number,hsends.stamped,?_⟩,h.forth.hears,h.forth.clean⟩,
    h.back.congr rfl rfl⟩
  · intro x hx
    rcases List.mem_append.mp hx with hx | hx
    · exact hsends.queue x hx
    · rw [List.mem_singleton.mp hx]
      exact hraw
  · intro i hi
    change i < (a.outQueue++[raw]).length at hi
    rw [List.length_append,List.length_singleton] at hi
    by_cases hlt : i < a.outQueue.length
    · exact hsends.current i hlt
    · obtain rfl : i = a.outQueue.length := by omega
      exact hcrc

theorem Hears.takes (h : Hears X b) (hcount : b.checked.length < 2^31+2)
    (hcrc : crcAt X (b.checked.length+1) = b.customCrcPartial) (p : Packet) :
    Hears X {b with checked := b.checked++[p], inPacketNum := b.inPacketNum+1#32} := by
  refine ⟨?_,?_,?_⟩
  · change b.inPacketNum+1#32 = RpcChannel.number (b.checked++[p]).length
    rw [h.number,number_succ,List.length_append]
    rfl
  · change b.customCrcPartial = crcAt X (b.checked++[p]).length
    rw [List.length_append,List.length_singleton,hcrc]
  · change (b.checked++[p]).length ≤ 2^31+2
    rw [List.length_append,List.length_singleton]
    omega

/-- A packet that is no part of the handshake was taken. -/
theorem Pair.takes (h : Pair P X a b) {p : Packet} {rest : Bytes}
    (hb : b.error = none) (hcount : b.checked.length < 2^31+2)
    (hcrc : crcAt X (b.checked.length+1) = b.customCrcPartial)
    (hflow : ∃ is plain, Flow P a {b with inBuf := rest, checked := b.checked++[p]} is plain) :
    Pair P X a {b with inBuf := rest, checked := b.checked++[p],
                       inPacketNum := b.inPacketNum+1#32} := by
  obtain ⟨is,plain,hnext⟩ := hflow
  have hhears := (h.forth.hears hb).takes hcount hcrc p
  exact ⟨⟨⟨is,plain,hnext.carries,hnext.inU,hnext.bytes,hnext.packets,hnext.words,hnext.aligned⟩,
    h.forth.sends,fun _ => ⟨hhears.number,hhears.crc,hhears.count⟩,h.forth.clean⟩,
    h.back.congr rfl rfl⟩

/-- All payloads that a side was given to send. -/
def offered (e : Endpoint σ) : List Bytes := e.sent.map Packet.payload++e.outQueue

theorem crcAt_early (X Y : Crc) {i : ℕ} (h : i < 2) : crcAt X i = crcAt Y i := by
  rw [crcAt,crcAt,if_pos h,if_pos h]

theorem crcAt_late (X : Crc) {i : ℕ} (h : 2 ≤ i) : crcAt X i = X :=
  if_neg (Nat.not_lt.mpr h)

theorem length_offered (e : Endpoint σ) :
    (offered e).length = e.sent.length+e.outQueue.length := by
  rw [offered,List.length_append,List.length_map]

theorem Joined.checked_le (h : Joined P X a b) : b.checked.length ≤ a.sent.length := by
  obtain ⟨is,plain,hflow⟩ := h.flow
  rw [← hflow.packets,List.length_append]
  exact Nat.le_add_right _ _

theorem crcAt_crc32 (i : ℕ) : crcAt .crc32 i = .crc32 := by
  rw [crcAt]
  split_ifs <;> rfl

/-- Everything that was sent has been taken, by sides without ciphers. -/
theorem Flow.drained {is : List Piece} {plain : Bytes} (h : Flow P a b is plain)
    (hplain : a.writeAeskey = none) (hall : a.sent.length ≤ b.checked.length) :
    is = [] ∧ plain = [] ∧ b.inBuf = [] ∧ a.out = [] ∧ b.inU = [] ∧ a.socket = [] ∧
      b.checked = a.sent ∧ b.readAeskey = none := by
  have hlen := congrArg List.length h.packets
  rw [List.length_append] at hlen
  have hnone : packetsOf is = [] := List.length_eq_zero_iff.mp (by omega)
  have his := h.words hplain
  rw [hnone,List.map_nil] at his
  subst his
  have hbytes := h.bytes
  change _ = [] at hbytes
  rw [List.append_eq_nil_iff,List.append_eq_nil_iff] at hbytes
  have hcarries := h.carries
  have hchecked := h.packets
  rw [hnone,List.append_nil] at hchecked
  cases hr : b.readAeskey with
  | none =>
      rw [hr,hbytes.1.2] at hcarries
      have hsocket := List.append_eq_nil_iff.mp hcarries.2
      exact ⟨rfl,hbytes.1.2,hbytes.1.1,hbytes.2,hsocket.1,hsocket.2,hchecked,rfl⟩
  | some key =>
      rw [hr,hplain] at hcarries
      obtain ⟨n,t,ht,-⟩ := hcarries
      cases ht

/-- The first two packets have the same checksum whatever is agreed upon. -/
theorem Sends.agree (h : Sends X a) (hlen : (offered a).length ≤ 2) (Y : Crc) : Sends Y a := by
  rw [length_offered] at hlen
  refine ⟨h.queue,h.framed,h.number,?_,?_⟩
  · intro i p hp
    obtain ⟨hnum,hcrc⟩ := h.stamped i p hp
    obtain ⟨hi,-⟩ := List.getElem?_eq_some_iff.mp hp
    exact ⟨hnum,hcrc.trans (crcAt_early X Y (by omega))⟩
  · intro i hi
    rw [h.current i hi]
    exact crcAt_early X Y (by omega)

theorem Hears.agree (h : Hears X b) (hlt : b.checked.length < 2) (Y : Crc) : Hears Y b :=
  ⟨h.number,h.crc.trans (crcAt_early X Y hlt),h.count⟩

/-- A packet that gets its number past the queue. -/
theorem Sends.stamp (h : Sends X a) (hqueue : a.outQueue = []) {raw : Bytes} (hraw : Framed raw)
    (hcrc : a.customCrcPartial = crcAt X a.sent.length) : Sends X (a.stamped raw) := by
  refine ⟨?_,?_,?_,?_,?_⟩
  · intro x hx
    change x ∈ a.outQueue at hx
    rw [hqueue] at hx
    cases hx
  · intro p hp
    rcases List.mem_append.mp hp with hp | hp
    · exact h.framed p hp
    · rw [List.mem_singleton.mp hp]
      exact hraw
  · change a.outPacketNum+1#32 = RpcChannel.number (a.sent++[_]).length
    rw [h.number,number_succ,List.length_append]
    rfl
  · intro i p hp
    change (a.sent++[_])[i]? = some p at hp
    rw [List.getElem?_append] at hp
    split_ifs at hp with hi
    · exact h.stamped i p hp
    · obtain ⟨hlt,hp⟩ := List.getElem?_eq_some_iff.mp hp
      obtain rfl : i = a.sent.length := by
        rw [List.length_singleton] at hlt
        omega
      subst hp
      simp only [Nat.sub_self,List.getElem_cons_zero]
      exact ⟨h.number,hcrc⟩
  · intro i hi
    change i < a.outQueue.length at hi
    rw [hqueue] at hi
    cases hi

theorem Flow.sendIm {is : List Piece} {plain raw : Bytes} (h : Flow P a b is plain)
    (hraw : Framed raw) :
    Flow P (tcpRpcConnSendIm P a raw) b
      (is++[.packet ⟨a.customCrcPartial,a.outPacketNum,raw⟩]) plain := by
  refine ⟨h.carries,h.inU,?_,?_,?_,?_⟩
  · change b.inBuf++plain++(a.out++a.frame P raw) = _
    rw [← List.append_assoc,h.bytes,bytesOf_append]
    exact congrArg (bytesOf P is++·) (List.append_nil _).symm
  · rw [packetsOf_append,← List.append_assoc,h.packets]
    rfl
  · intro hw
    rw [packetsOf_append,List.map_append,← h.words hw]
    rfl
  · change 4 ∣ (a.out++a.frame P raw).length
    rw [List.length_append]
    refine Nat.dvd_add h.aligned ?_
    rw [Endpoint.frame,RpcDelivery.length_packetBytes]
    exact Nat.dvd_add hraw.1 (by decide)

/-- A direction in which nothing is under way. -/
theorem Joined.fresh (hkeys : a.writeAeskey = b.readAeskey) (hinU : b.inU = [])
    (hsocket : a.socket = []) (hinBuf : b.inBuf = []) (hout : a.out = [])
    (hpackets : b.checked = a.sent) (hsends : Sends X a) (hhears : b.error = none → Hears X b)
    (hclean : Clean b) : Joined P X a b := by
  refine ⟨⟨[],[],?_,fun _ => hinU,?_,?_,fun _ => rfl,?_⟩,hsends,hhears,hclean⟩
  · rw [hkeys,hinU,hsocket]
    exact carries_nil _
  · rw [hinBuf,hout]
    rfl
  · rw [hpackets]
    exact List.append_nil _
  · rw [hout]
    exact Nat.dvd_zero 4

/-- The only payload that a side was given is the first that it sent. -/
theorem sent_single {raw : Bytes} {p : Packet} (h : offered a = [raw]) (hp : a.sent[0]? = some p) :
    a.sent = [p] ∧ a.outQueue = [] ∧ p.payload = raw := by
  rw [offered] at h
  cases hs : a.sent with
  | nil =>
      rw [hs] at hp
      cases hp
  | cons q qs =>
      rw [hs,List.getElem?_cons_zero,Option.some.injEq] at hp
      rw [hs,List.map_cons,List.cons_append,List.cons.injEq,List.append_eq_nil_iff,
        List.map_eq_nil_iff] at h
      obtain ⟨hq,rfl,hqueue⟩ := h
      subst hp
      exact ⟨rfl,hqueue,hq⟩

theorem number_late {i : ℕ} (h2 : 2 ≤ i) (hi : i < 2^31+2) : ¬(number i).toInt < 0 := by
  have hnat : (number i).toNat = i-2 := by
    rw [number,BitVec.toNat_sub,BitVec.toNat_ofNat,BitVec.toNat_ofNat]
    omega
  rw [BitVec.toInt_eq_toNat_cond,hnat]
  split_ifs <;> omega

theorem number_last : (number (2^31+2)).toInt < 0 ∧ number (2^31+2) ≠ -2#32 ∧
    number (2^31+2) ≠ -1#32 := by decide

/-- A receiver that has cut the next packet from its buffer. -/
def cut (b : Endpoint σ) (p : Packet) (rest : Bytes) : Endpoint σ :=
  {b with inBuf := rest, checked := b.checked++[p]}

/-- A receiver that looks for the next number. -/
def advance (b : Endpoint σ) : Endpoint σ := {b with inPacketNum := b.inPacketNum+1#32}

section
variable {p : Packet} {rest : Bytes}

theorem execute_eq (e : Endpoint σ) (msg : Bytes) :
    ∃ queue, tcpRpcDefaultExecute e msg = {e with outQueue := queue} := by
  unfold tcpRpcDefaultExecute
  split_ifs
  · exact ⟨_,rfl⟩
  · exact ⟨e.outQueue,rfl⟩

theorem pong_framed {msg : Bytes} (h : msg.length = 12) : Framed (store4 rpcPong++msg.drop 4) := by
  have hlen : (store4 rpcPong++msg.drop 4).length = 12 := by
    rw [List.length_append,List.length_drop,h]
    rfl
  rw [Framed,hlen]
  decide

/-- A packet behind the handshake is taken, and a ping answered. -/
theorem Pair.executes (h : Pair P X a b) (hb : b.error = none)
    (hchecked : 2 ≤ a.checked.length ∧ 2 ≤ b.checked.length) (hcount : b.checked.length < 2^31+2)
    (hcrc : b.customCrcPartial = X) (hflow : ∃ is plain, Flow P a (cut b p rest) is plain)
    (msg : Bytes) :
    Pair P X a (tcpRpcDefaultExecute (advance (cut b p rest)) msg) := by
  have hle := h.back.checked_le
  have htakes := h.takes hb hcount ((crcAt_late X (by omega)).trans hcrc.symm) hflow
  unfold tcpRpcDefaultExecute
  split_ifs with hping
  · refine (htakes.symm.send (pong_framed hping.2) ?_).symm
    change b.customCrcPartial = crcAt X (b.sent.length+b.outQueue.length)
    rw [hcrc,crcAt_late X (by omega)]
  · exact htakes

/-- A packet with the last number ends the connection. -/
theorem Pair.stops (h : Pair P X a b) {b' : Endpoint σ} {code : ℤ}
    (hb' : b' = cut b p rest ∨ b' = advance (cut b p rest))
    (hflow : ∃ is plain, Flow P a (cut b p rest) is plain) :
    Pair P X a (b'.fail (.refused code)) := by
  obtain ⟨is,plain,hnext⟩ := hflow
  rcases hb' with rfl | rfl
  · exact h.ends ⟨is,plain,hnext⟩ rfl fun _ => ⟨nofun,nofun⟩
  · exact h.ends ⟨is,plain,hnext.carries,hnext.inU,hnext.bytes,hnext.packets,hnext.words,
      hnext.aligned⟩ rfl fun _ => ⟨nofun,nofun⟩

/-- A side to which no more was offered than it has taken has no next packet. -/
theorem no_next {p : Packet} (h : (offered a).length ≤ b.checked.length)
    (hp : a.sent[b.checked.length]? = some p) : False := by
  have hlt := (List.getElem?_eq_some_iff.mp hp).1
  rw [length_offered] at h
  omega

end

theorem writerRun_idle {k : BlockCipher.Cipher UInt8 σ} {s : RpcTransport.Sender σ}
    (h : s.conn.out = []) : writerRun k s [] = some s := by
  have hflush : ∀ crypto, RpcWriter.tcpRpcFlush crypto s.conn = some s.conn := by
    intro crypto
    rw [RpcWriter.tcpRpcFlush]
    simp [h]
  obtain ⟨conn,crypto,wire⟩ := s
  rw [writerRun,List.foldl_nil,hflush]
  dsimp only at h ⊢
  cases crypto with
  | none =>
      rw [Option.map_some,h,List.append_nil,← h]
  | some key =>
      rw [Option.map_some]
      dsimp only
      rw [h,List.length_nil,Nat.zero_div,Nat.zero_mul,List.drop_zero,← h]
      exact congrArg (fun w => some (⟨conn,some key,w⟩ : RpcTransport.Sender σ))
        (List.append_nil wire)

/-- A writer without packets changes nothing. -/
theorem writer_idle (hqueue : a.outQueue = []) (hout : a.out = []) :
    cpuTcpServerWriter P a = a := by
  have hrun : writerRun P.cipher (a.sender P) [] = some (a.sender P) := writerRun_idle hout
  rw [cpuTcpServerWriter,hqueue,hrun]
  dsimp only [Endpoint.sender,stamps]
  rw [List.append_nil,← hqueue]

/-- A reader without bytes changes nothing. -/
theorem receive_nil (hinU : b.inU = []) : b.receive P [] = b := by
  rw [Endpoint.receive,RpcTransport.receive]
  cases hr : b.readAeskey with
  | none =>
      dsimp only
      rw [List.append_nil,← hr]
  | some key =>
      dsimp only
      rw [hinU,List.append_nil,List.length_nil,Nat.zero_div]
      dsimp only [BlockCipher.Cipher.decrypt,BlockCipher.blocks]
      rw [List.append_nil,Nat.zero_mul,List.drop_zero,← hinU,← hr]

end Teleproxy.RpcChannel
