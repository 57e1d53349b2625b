import Teleproxy.TunnelCodec

/-!
# Tunnel messages across chunks

The shim may cut the body of its request into chunks as it likes: a chunk may end inside
a message, and it may hold the end of one message and the start of the next.
`ld_read_decrypt` puts chunks together until they hold a whole message. What is behind
the message in the last of them is freed with it.
-/
namespace Teleproxy.TunnelChunks
open ClientInput (Bytes Cipher crypt_crypt length_crypt)
open TunnelCodec
open Framing (readAll readAll_simulates)

/-- A chunk as it is sent: a line with its size, in any spelling that `strtol` takes,
and its data. -/
structure Chunk where
  line : Bytes
  data : Bytes
  unbroken : 0x0a ∉ line
  size : strtol16 ((line.filter (· ≠ 0x0d)).take 14) = data.length
  nonempty : 0 < data.length
  le : data.length ≤ 2^20

/-- The plaintext of some chunks. -/
def body (chunks : List Chunk) : Bytes := chunks.flatMap Chunk.data

/-- The chunks on the wire. -/
def wire (c : Cipher) : List Chunk → Bytes
  | [] => []
  | k::ks => k.line++[0x0a]++c.crypt k.data++[0x0d,0x0a]++wire (c.advance k.data.length) ks

/-- The relay in front of the chunks. -/
def arrived (c : Cipher) (chunks : List Chunk) : Relay := ⟨wire c chunks,c,[]⟩

/-- The usual spelling of the size. -/
def Chunk.ofData (data : Bytes) (hpos : 0 < data.length) (hle : data.length ≤ 2^20) : Chunk where
  line := hex data.length++[0x0d]
  data := data
  unbroken := by
    intro h
    obtain h | h := List.mem_append.mp h
    · exact (hex_chars hpos h).1 rfl
    · simp at h
  size := by
    have hfilter : (hex data.length++[0x0d]).filter (· ≠ 0x0d) = hex data.length := by
      rw [List.filter_append,List.filter_eq_self.mpr fun c hc => by simpa using (hex_chars hpos hc).2]
      simp
    rw [hfilter,List.take_of_length_le (length_hex_le hpos hle)]
    exact strtol16_hex hpos (by omega)
  nonempty := hpos
  le := hle

theorem recvLine_line {line : Bytes} (hline : 0x0a ∉ line) (rest acc : Bytes)
    (hacc : acc.length ≤ 14) :
    recvLine acc (line++0x0a::rest) = some ((acc++line.filter (· ≠ 0x0d)).take 14,rest) := by
  induction line generalizing acc with
  | nil => simp [recvLine,List.take_of_length_le hacc]
  | cons b line ih =>
      rw [List.mem_cons,not_or] at hline
      rw [List.cons_append,recvLine,if_neg (Ne.symm hline.1)]
      by_cases hb : b = 0x0d
      · rw [if_neg (by simp [hb]),ih hline.2 acc hacc]
        simp [hb]
      · by_cases hlen : acc.length < 14
        · rw [if_pos ⟨hb,hlen⟩,ih hline.2 _ (by simpa using hlen)]
          simp [hb]
        · rw [if_neg (by tauto),ih hline.2 acc hacc]
          have hfull : acc.length = 14 := by omega
          simp [hfull]

/-- One chunk is received whole. -/
theorem hsRecvChunk_wire (c : Cipher) (k : Chunk) (ks : List Chunk) :
    hsRecvChunk (arrived c (k::ks)) = some (k.data,arrived (c.advance k.data.length) ks) := by
  have hline := recvLine_line k.unbroken
    (c.crypt k.data++([0x0d,0x0a]++wire (c.advance k.data.length) ks)) [] (by simp)
  have hbuf := recvAll_append c [] (c.crypt k.data)
    ([0x0d,0x0a]++wire (c.advance k.data.length) ks)
  have hend : recvAll ⟨[0x0d,0x0a]++wire (c.advance k.data.length) ks,c,[]⟩ 2 = _ :=
    recvAll_append c [] _ _
  have hpos := k.nonempty
  have hle := k.le
  rw [length_crypt] at hbuf
  rw [arrived,hsRecvChunk,wire]
  simp only [List.append_assoc,List.cons_append,List.nil_append] at hline hbuf hend ⊢
  rw [hline]
  simp only [Option.bind_eq_bind,Option.bind_some]
  rw [k.size,if_neg (by omega),Int.toNat_natCast,hbuf,Option.bind_some,hend,Option.bind_some,
    crypt_crypt,length_crypt]
  rfl

/-- The payload of the message at the start. -/
def payload (acc : Bytes) : Bytes :=
  let wl := wireLen acc
  let il := (acc.getD 4 0).toNat+256*(acc.getD 5 0).toNat
  (acc.drop 6).take (if wl < il+2 then wl-2 else il)

def Whole (acc : Bytes) : Prop := 6 ≤ acc.length ∧ 4+wireLen acc ≤ acc.length

instance (acc : Bytes) : Decidable (Whole acc) := inferInstanceAs (Decidable (_ ∧ _))

/-- `ld_read_decrypt` on the chunks themselves. -/
def takeMessage : Bytes → List Chunk → Option (Bytes × List Chunk)
  | acc, [] => if Whole acc then some (payload acc,[]) else none
  | acc, k::ks => if Whole acc then some (payload acc,k::ks) else takeMessage (acc++k.data) ks

theorem ldReadLoop_step (fuel : ℕ) (acc : Bytes) (r : Relay) :
    ldReadLoop (fuel+1) acc r = if Whole acc then some (payload acc,r)
      else match hsRecvChunk r with
        | none => none
        | some (chunk,r) => ldReadLoop fuel (acc++chunk) r := rfl

theorem ldReadLoop_takeMessage (c : Cipher) (acc : Bytes) (chunks : List Chunk) {fuel : ℕ}
    (hfuel : chunks.length < fuel) :
    Option.Rel (fun a b => a.1 = b.1 ∧ ∃ c', a.2 = arrived c' b.2)
      (ldReadLoop fuel acc (arrived c chunks)) (takeMessage acc chunks) := by
  induction chunks generalizing c acc fuel with
  | nil =>
      obtain ⟨fuel,rfl⟩ := Nat.exists_eq_succ_of_ne_zero (show fuel ≠ 0 by simpa using hfuel.ne')
      rw [ldReadLoop_step,takeMessage]
      by_cases hw : Whole acc
      · rw [if_pos hw,if_pos hw]
        exact .some ⟨rfl,c,rfl⟩
      · rw [if_neg hw,if_neg hw]
        exact .none
  | cons k ks ih =>
      obtain ⟨fuel,rfl⟩ := Nat.exists_eq_succ_of_ne_zero (show fuel ≠ 0 by omega)
      rw [ldReadLoop_step,takeMessage]
      by_cases hw : Whole acc
      · rw [if_pos hw,if_pos hw]
        exact .some ⟨rfl,c,rfl⟩
      · rw [if_neg hw,if_neg hw,hsRecvChunk_wire]
        exact ih _ _ (by simpa using hfuel)

theorem length_le_wire (c : Cipher) (chunks : List Chunk) :
    (body chunks).length+3*chunks.length ≤ (wire c chunks).length := by
  induction chunks generalizing c with
  | nil => simp [body]
  | cons k ks ih =>
      have := ih (c.advance k.data.length)
      simp only [wire,body,List.flatMap_cons,List.length_append,List.length_cons,List.length_nil,
        length_crypt] at this ⊢
      omega

/-- The calls of `ld_read_decrypt` return what the reader over chunks returns. -/
theorem ldReadAll_wire (c : Cipher) (chunks : List Chunk) :
    ldReadAll c (wire c chunks) = readAll (takeMessage []) ((wire c chunks).length+1) chunks := by
  refine readAll_simulates (R := fun r ks => ∃ c', r = arrived c' ks) ?_ _ ⟨c,rfl⟩
  intro r ks hr
  obtain ⟨c',rfl⟩ := hr
  have hlen := length_le_wire c' ks
  exact ldReadLoop_takeMessage c' [] ks (by simp only [arrived]; omega)

theorem length_payload {acc : Bytes} (h : Whole acc) : 6+(payload acc).length ≤ acc.length := by
  simp only [payload,List.length_take,List.length_drop]
  have := h.1
  omega

/-- What a message takes from the chunks has room for its payload and both lengths. -/
theorem takeMessage_length {acc m : Bytes} {chunks rest : List Chunk}
    (h : takeMessage acc chunks = some (m,rest)) :
    ∃ used, chunks = used++rest ∧ 6+m.length ≤ acc.length+(body used).length := by
  induction chunks generalizing acc with
  | nil =>
      rw [takeMessage] at h
      obtain ⟨hw,h⟩ := Option.ite_none_right_eq_some.mp h
      cases h
      refine ⟨[],rfl,?_⟩
      have := length_payload hw
      simpa [body] using this
  | cons k ks ih =>
      rw [takeMessage] at h
      by_cases hw : Whole acc
      · rw [if_pos hw] at h
        cases h
        refine ⟨[],rfl,?_⟩
        have := length_payload hw
        simpa [body] using this
      · rw [if_neg hw] at h
        obtain ⟨used,rfl,hlen⟩ := ih h
        refine ⟨k::used,rfl,?_⟩
        simp only [body,List.flatMap_cons,List.length_append] at hlen ⊢
        omega

section
variable {m acc rest : Bytes}

theorem getD_of_isPre {as bs : Bytes} (h : as <+: bs) {i : ℕ} (hi : i < as.length) :
    as.getD i 0 = bs.getD i 0 := by
  obtain ⟨cs,rfl⟩ := h
  simp [List.getD,List.getElem?_append_left hi]

/-- Six bytes of a frame tell its length. -/
theorem wireLen_of_agree (hm : m.length < 2^16) (hagree : ∀ i < 6, acc.getD i 0 = (ldFrame m).getD i 0) :
    wireLen acc = 2+m.length := by
  rw [← wireLen_ldFrame (show m.length ≤ 2^20-6 by omega),wireLen,wireLen,hagree 0 (by decide),
    hagree 1 (by decide),hagree 2 (by decide),hagree 3 (by decide)]

/-- A message is not taken before all of it is there. -/
theorem not_whole (hm : m.length < 2^16) (hpre : acc <+: ldFrame m)
    (hlt : acc.length < (ldFrame m).length) : ¬ Whole acc := by
  intro ⟨h6,hw⟩
  rw [wireLen_of_agree hm fun i hi => getD_of_isPre hpre (by omega)] at hw
  rw [length_ldFrame] at hlt
  omega

/-- Then it is taken, whatever follows. -/
theorem whole_frame (hm : m.length < 2^16) (rest : Bytes) :
    Whole (ldFrame m++rest) ∧ payload (ldFrame m++rest) = m := by
  have hlen := length_ldFrame m
  have hagree : ∀ i < 6, (ldFrame m++rest).getD i 0 = (ldFrame m).getD i 0 := fun i hi =>
    (getD_of_isPre (List.prefix_append ..) (by omega)).symm
  have hwire := wireLen_of_agree hm hagree
  refine ⟨⟨by rw [List.length_append]; omega,by rw [hwire,List.length_append]; omega⟩,?_⟩
  rw [payload,hwire,hagree 4 (by decide),hagree 5 (by decide)]
  simp only [innerLength_ldFrame,Nat.mod_eq_of_lt hm]
  rw [if_neg (by omega)]
  simp [ldFrame]

/-- The reader takes the chunks up to the first one that completes the message. -/
theorem takeMessage_frame (hm : m.length < 2^16) {chunks : List Chunk}
    (hlt : acc.length < (ldFrame m).length) (hacc : acc++body chunks = ldFrame m++rest) :
    ∃ used k left, chunks = used++k::left ∧ takeMessage acc chunks = some (m,left) ∧
      acc.length+(body used).length < (ldFrame m).length ∧
      (ldFrame m).length ≤ acc.length+(body (used++[k])).length := by
  induction chunks generalizing acc with
  | nil =>
      have := congrArg List.length hacc
      simp only [body,List.flatMap_nil,List.append_nil,List.length_append] at this
      omega
  | cons k ks ih =>
      have hbody : acc++k.data++body ks = ldFrame m++rest := by
        simpa [body,List.append_assoc] using hacc
      have hpre : acc <+: ldFrame m :=
        List.prefix_of_prefix_length_le ⟨_,hacc⟩ (List.prefix_append ..) hlt.le
      rw [takeMessage,if_neg (not_whole hm hpre hlt)]
      by_cases hmore : (acc++k.data).length < (ldFrame m).length
      · obtain ⟨used,k',left,rfl,htake,hless,hge⟩ := ih hmore hbody
        refine ⟨k::used,k',left,rfl,htake,?_,?_⟩
        · simp only [body,List.flatMap_cons,List.length_append] at hless ⊢
          omega
        · simp only [body,List.cons_append,List.flatMap_cons,List.length_append] at hge ⊢
          omega
      · obtain ⟨more,hsplit⟩ : ldFrame m <+: acc++k.data :=
          List.prefix_of_prefix_length_le (List.prefix_append ..) ⟨_,hbody⟩ (by omega)
        obtain ⟨hwhole,hpay⟩ := whole_frame hm more
        refine ⟨[],k,ks,rfl,?_,by simpa [body] using hlt,?_⟩
        · rw [← hsplit]
          cases ks with
          | nil => rw [takeMessage,if_pos hwhole,hpay]
          | cons k' ks => rw [takeMessage,if_pos hwhole,hpay]
        · simp only [body,List.nil_append,List.flatMap_cons,List.flatMap_nil,List.append_nil,
            List.length_append] at hmore ⊢
          omega

end

@[simp] theorem body_append (as bs : List Chunk) : body (as++bs) = body as++body bs :=
  List.flatMap_append

theorem eq_nil_of_body {chunks : List Chunk} (h : (body chunks).length = 0) : chunks = [] := by
  cases chunks with
  | nil => rfl
  | cons k ks =>
      have := k.nonempty
      simp only [body,List.flatMap_cons,List.length_append] at h
      omega

/-- Messages that were read were in the chunks, with their lengths. -/
theorem length_readAll {fuel : ℕ} {chunks : List Chunk} {msgs : List Bytes}
    (h : readAll (takeMessage []) fuel chunks = msgs) :
    (msgs.flatMap ldFrame).length ≤ (body chunks).length := by
  induction fuel generalizing chunks msgs with
  | zero =>
      subst h
      simp [readAll]
  | succ fuel ih =>
      rw [readAll] at h
      cases htake : takeMessage [] chunks with
      | none =>
          rw [htake] at h
          subst h
          simp
      | some a =>
          rw [htake] at h
          subst h
          obtain ⟨used,rfl,hlen⟩ := takeMessage_length htake
          have hrest := ih (rfl : readAll (takeMessage []) fuel a.2 = _)
          rw [List.flatMap_cons,List.length_append,length_ldFrame,body_append,List.length_append]
          simp only [List.length_nil] at hlen
          omega

/-- The chunks fall into groups, one for each message: no chunk holds the end of one
message and the start of the next. -/
def Aligned (msgs : List Bytes) (chunks : List Chunk) : Prop :=
  ∃ groups : List (List Chunk), groups.flatten = chunks ∧ groups.map body = msgs.map ldFrame

theorem aligned_nil : Aligned [] [] := ⟨[],rfl,rfl⟩

theorem Aligned.cons {m : Bytes} {msgs : List Bytes} {group chunks : List Chunk}
    (hgroup : body group = ldFrame m) (h : Aligned msgs chunks) :
    Aligned (m::msgs) (group++chunks) := by
  obtain ⟨groups,rfl,hmap⟩ := h
  exact ⟨group::groups,rfl,by rw [List.map_cons,List.map_cons,hgroup,hmap]⟩

theorem Aligned.uncons {m : Bytes} {msgs : List Bytes} {chunks : List Chunk}
    (h : Aligned (m::msgs) chunks) :
    ∃ group left, chunks = group++left ∧ body group = ldFrame m ∧ Aligned msgs left := by
  obtain ⟨groups,rfl,hmap⟩ := h
  cases groups with
  | nil => cases hmap
  | cons group groups =>
      rw [List.map_cons,List.map_cons,List.cons.injEq] at hmap
      exact ⟨group,groups.flatten,rfl,hmap.1,groups,rfl,hmap.2⟩

/-- A group that is a message is what the reader takes for it. -/
theorem group_eq {m : Bytes} {used group left left' : List Chunk} {k : Chunk}
    (hsplit : used++k::left = group++left') (hgroup : body group = ldFrame m)
    (hless : (body used).length < (ldFrame m).length)
    (hge : (ldFrame m).length ≤ (body (used++[k])).length) :
    group = used++[k] ∧ left' = left := by
  have hlong : used.length < group.length := by
    by_contra hshort
    obtain ⟨more,hmore⟩ : group <+: used :=
      List.prefix_of_prefix_length_le ⟨left',hsplit.symm⟩ ⟨k::left,rfl⟩ (by omega)
    have := congrArg List.length (congrArg body hmore)
    rw [body_append,List.length_append,hgroup] at this
    omega
  obtain ⟨more,hmore⟩ : used++[k] <+: group :=
    List.prefix_of_prefix_length_le ⟨left,by simpa using hsplit⟩ ⟨left',rfl⟩ (by simpa using hlong)
  have hnone : more = [] := by
    apply eq_nil_of_body
    have := congrArg List.length (congrArg body hmore)
    rw [body_append,List.length_append,hgroup] at this
    omega
  rw [hnone,List.append_nil] at hmore
  refine ⟨hmore.symm,?_⟩
  rw [← hmore,List.append_assoc] at hsplit
  exact (List.cons.inj (List.append_cancel_left hsplit)).2.symm

theorem readAll_eq_iff_aligned {fuel : ℕ} {chunks : List Chunk} {msgs : List Bytes}
    (hmsgs : ∀ m ∈ msgs, m.length < 2^16) (hbody : body chunks = msgs.flatMap ldFrame)
    (hfuel : msgs.length < fuel) :
    readAll (takeMessage []) fuel chunks = msgs ↔ Aligned msgs chunks := by
  induction msgs generalizing chunks fuel with
  | nil =>
      have hnil : chunks = [] := eq_nil_of_body (by rw [hbody]; rfl)
      subst hnil
      obtain ⟨fuel,rfl⟩ := Nat.exists_eq_succ_of_ne_zero (show fuel ≠ 0 by omega)
      exact iff_of_true rfl aligned_nil
  | cons m msgs ih =>
      rw [List.forall_mem_cons] at hmsgs
      obtain ⟨fuel,rfl⟩ := Nat.exists_eq_succ_of_ne_zero (show fuel ≠ 0 by omega)
      have hfuel : msgs.length < fuel := by simpa using hfuel
      rw [List.flatMap_cons] at hbody
      have hpos : ([] : Bytes).length < (ldFrame m).length := by
        rw [length_ldFrame,List.length_nil]
        omega
      obtain ⟨used,k,left,rfl,htake,hless,hge⟩ := takeMessage_frame hmsgs.1 hpos hbody
      simp only [List.length_nil,Nat.zero_add] at hless hge
      rw [readAll,htake]
      dsimp only
      rw [List.cons.injEq,and_iff_right rfl]
      have happend : body (used++[k])++body left = ldFrame m++msgs.flatMap ldFrame := by
        rw [← hbody,← body_append,List.append_assoc]
        rfl
      constructor
      · intro hread
        -- the messages that are still to come need all the bytes behind this one
        have hcount := length_readAll hread
        have hlen := congrArg List.length happend
        rw [List.length_append,List.length_append] at hlen
        obtain ⟨hgroup,hleft⟩ := List.append_inj happend (by omega)
        have halign := (ih hmsgs.2 hleft hfuel).mp hread
        have hcons := halign.cons hgroup
        rwa [List.append_assoc] at hcons
      · intro halign
        obtain ⟨group,left',hsplit,hgroup,hrest⟩ := halign.uncons
        obtain ⟨rfl,rfl⟩ := group_eq hsplit hgroup hless hge
        rw [hgroup] at happend
        exact (ih hmsgs.2 (List.append_cancel_left happend) hfuel).mpr hrest

/-- However the frames of some messages are cut into chunks, the calls return exactly the
messages if and only if every message ends where a chunk ends. -/
theorem chunked_messages_iff (c : Cipher) (msgs : List Bytes) (chunks : List Chunk)
    (hmsgs : ∀ m ∈ msgs, m.length < 2^16) (hbody : body chunks = msgs.flatMap ldFrame) :
    ldReadAll c (wire c chunks) = msgs ↔ Aligned msgs chunks := by
  have hcount : msgs.length ≤ (body chunks).length := by
    rw [hbody]
    clear hbody hmsgs
    induction msgs with
    | nil => simp
    | cons m msgs ih =>
        rw [List.flatMap_cons,List.length_append,length_ldFrame,List.length_cons]
        omega
  have hwire := length_le_wire c chunks
  rw [ldReadAll_wire]
  exact readAll_eq_iff_aligned hmsgs hbody (by omega)

/-- The first frame comes in two chunks, the second in one. -/
def alignedChunks : List Chunk :=
  [.ofData [5,0,0] (by decide) (by decide),.ofData [0,3,0,1,2,3] (by decide) (by decide),
    .ofData [4,0,0,0,2,0,4,5] (by decide) (by decide)]

theorem chunked_messages_two :
    ldReadAll ⟨UInt8.ofNat,0⟩ (wire ⟨UInt8.ofNat,0⟩ alignedChunks) = [[1,2,3],[4,5]] :=
  (chunked_messages_iff _ _ _ (by decide) rfl).mpr ⟨[alignedChunks.take 2,alignedChunks.drop 2],rfl,rfl⟩

/-- The end of the first frame and the start of the second share a chunk. -/
def sharedChunks : List Chunk :=
  [.ofData [5,0,0,0,3,0,1,2,3,4] (by decide) (by decide),
    .ofData [0,0,0,2,0,4,5] (by decide) (by decide)]

theorem shared_chunk_loses :
    body sharedChunks = [[1,2,3],[4,5]].flatMap ldFrame ∧
      ldReadAll ⟨UInt8.ofNat,0⟩ (wire ⟨UInt8.ofNat,0⟩ sharedChunks) ≠ [[1,2,3],[4,5]] := by
  refine ⟨rfl,?_⟩
  rw [ldReadAll_wire]
  decide

end Teleproxy.TunnelChunks
