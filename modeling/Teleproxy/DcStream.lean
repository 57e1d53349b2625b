import Teleproxy.DcTable
import Teleproxy.Obfs2Header
import Teleproxy.Lib.StepSystem

/-!
# What is sent to a DC

In direct mode there is a connection to a DC for each client, through a SOCKS5 proxy if one
is configured. When it is established, `tcp_direct_dc_connected` begins the handshake with
the proxy, or sends the obfs2 header at once and sets the cipher. Replies of the proxy are
read by `socks5_handle_response`, and the reply to CONNECT is followed by the header. The
data of the client waits until the cipher is there.

Requests go to `out`, which the writer sends as it is as long as there is no cipher, and the
header goes to `out_p`, behind the cipher. The steps of both connections can come in any
order. What is read from the DC goes to the client and is not followed any further; `refused`
says that the client is gone or has no quota left. AES is a parameter.
-/
namespace Teleproxy.DcStream
open ClientInput (Bytes Cipher crypt_append)
open DcTable (DcAddr connectRequest)
open Obfs2Header (Crypto RandomInit Sent tcpDirectDcSendObfs2Init)
open StepSystem (run Meets Throughout)

/-- `socks5_config`, the address for the CONNECT request and what the header says. -/
structure Config where
  enabled : Bool
  user : Bytes
  pass : Bytes
  ipv6Enabled : Bool
  addr : DcAddr
  crypto : Crypto
  extraInt3 : BitVec 32
  extraInt4 : BitVec 32

/-- `extra_int` of the connection. -/
inductive Socks5 where
  | none | greetingSent | authSent | connectSent
  deriving DecidableEq, Repr

/-- The connection to the DC and what the client has for it. The last fields record what
has happened. -/
structure Conn where
  connected : Bool := false
  failed : Bool := false
  socks : Socks5 := .none
  inQueue : Bytes := []
  inBuf : Bytes := []
  crypto : Option Cipher := none
  outQueue : List Bytes := []
  out : Bytes := []
  outP : Bytes := []
  clientIn : Bytes := []
  clientFailed : Bool := false
  sent : Bytes := []
  replies : List Bytes := []
  made : Option Sent := none
  clientData : Bytes := []
  relayed : Bytes := []

variable (cfg : Config)

def socks5SendGreeting : Bytes := if cfg.user ≠ [] then [5,2,0,2] else [5,1,0]

def socks5SendAuth : Bytes :=
  [1,UInt8.ofNat cfg.user.length]++cfg.user++[UInt8.ofNat cfg.pass.length]++cfg.pass

def socks5SendConnect : Bytes := connectRequest cfg.ipv6Enabled cfg.addr

/-- The keystream of the data for the DC. -/
def writeKeystream (made : Sent) : ℕ → UInt8 := cfg.crypto.aes256Ctr made.keys.writeKey made.keys.writeIv

/-- The counter of the cipher is behind the header. -/
def sendObfs2Init (random : RandomInit) (c : Conn) : Conn :=
  let made := tcpDirectDcSendObfs2Init cfg.crypto random cfg.extraInt3 cfg.extraInt4
  {c with outP := c.outP++made.init, crypto := some ⟨writeKeystream cfg made,64⟩, made := some made}

def tcpDirectDcConnected (random : RandomInit) (c : Conn) : Conn :=
  if cfg.enabled then {c with out := c.out++socks5SendGreeting cfg, socks := .greetingSent}
  else sendObfs2Init cfg random c

inductive Handled where
  | more | complete | error
  deriving DecidableEq, Repr

/-- The length of the address in a CONNECT reply. -/
def addrLen (peek : Bytes) : Option ℕ :=
  if peek.getD 3 0 = 1 then some 4
  else if peek.getD 3 0 = 4 then some 16
  else if peek.getD 3 0 = 3 then some (1+(peek.getD 4 0).toNat)
  else none

def socks5HandleResponse (c : Conn) : Conn × Handled :=
  match c.socks with
  | .greetingSent =>
      if c.inBuf.length < 2 then (c,.more)
      else
        let resp := c.inBuf.take 2
        let c := {c with inBuf := c.inBuf.drop 2, replies := c.replies++[resp]}
        if resp.getD 0 0 ≠ 5 then (c,.error)
        else if resp.getD 1 0 = 0 then
          ({c with out := c.out++socks5SendConnect cfg, socks := .connectSent},.more)
        else if resp.getD 1 0 = 2 then
          if cfg.user = [] then (c,.error)
          else ({c with out := c.out++socks5SendAuth cfg, socks := .authSent},.more)
        else (c,.error)
  | .authSent =>
      if c.inBuf.length < 2 then (c,.more)
      else
        let resp := c.inBuf.take 2
        let c := {c with inBuf := c.inBuf.drop 2, replies := c.replies++[resp]}
        if resp.getD 1 0 ≠ 0 then (c,.error)
        else ({c with out := c.out++socks5SendConnect cfg, socks := .connectSent},.more)
  | .connectSent =>
      if c.inBuf.length < 5 then (c,.more)
      else
        match addrLen c.inBuf with
        | none => ({c with replies := c.replies++[c.inBuf]},.error)
        | some n =>
            let total := 4+n+2
            if c.inBuf.length < total then (c,.more)
            else
              let reply := c.inBuf.take total
              let c := {c with inBuf := c.inBuf.drop total, replies := c.replies++[reply]}
              if reply.getD 1 0 ≠ 0 then (c,.error) else ({c with socks := .none},.complete)
  | .none => (c,.error)

/-- The flag says that 0 is returned. -/
def tcpDirectDcParseExecute (random : RandomInit) (refused : Bool) (c : Conn) : Conn × Bool :=
  if c.socks ≠ .none then
    match socks5HandleResponse cfg c with
    | (c,.more) => (c,false)
    | (c,.error) => ({c with failed := true},true)
    | (c,.complete) => (sendObfs2Init cfg random c,true)
  else if refused then ({c with failed := true},true)
  else ({c with inBuf := []},true)

/-- The loop of the reader. -/
def readLoop (random : RandomInit) (refused : Bool) : ℕ → Conn → Conn
  | 0, c => c
  | fuel+1, c =>
      if c.inBuf = [] ∨ c.failed = true then c
      else
        match tcpDirectDcParseExecute cfg random refused c with
        | (c,true) => readLoop random refused fuel c
        | (c,false) => c

def cpuTcpServerReader (random : RandomInit) (refused : Bool) (c : Conn) : Conn :=
  let c := {c with inBuf := c.inBuf++c.inQueue, inQueue := []}
  readLoop cfg random refused (c.inBuf.length+1) c

def cpuTcpServerWriter (c : Conn) : Conn :=
  let out := c.out++c.outQueue.flatten
  match c.crypto with
  | some k =>
      {c with outQueue := [], out := [], crypto := some (k.advance out.length), outP := [],
              sent := c.sent++(c.outP++k.crypt out)}
  | none => {c with outQueue := [], out := [], sent := c.sent++out}

/-- The data of the client, if the DC is ready. -/
def tcpDirectClientParseExecute (refused : Bool) (c : Conn) : Conn :=
  if c.crypto.isNone then c
  else if refused then {c with clientFailed := true}
  else {c with outQueue := c.outQueue++[c.clientIn], relayed := c.relayed++c.clientIn, clientIn := []}

inductive Event where
  | connect (random : RandomInit)
  | arrive (data : Bytes)
  | read (random : RandomInit) (refused : Bool)
  | write
  | clientData (data : Bytes)
  | relay (refused : Bool)
  | abort

def step (c : Conn) : Event → Conn
  | .connect random =>
      if c.connected ∨ c.failed then c else tcpDirectDcConnected cfg random {c with connected := true}
  | .arrive data => {c with inQueue := c.inQueue++data}
  | .read random refused => cpuTcpServerReader cfg random refused c
  | .write => cpuTcpServerWriter c
  | .clientData data => {c with clientIn := c.clientIn++data, clientData := c.clientData++data}
  | .relay refused =>
      if c.clientIn = [] ∨ c.clientFailed then c else tcpDirectClientParseExecute refused c
  | .abort => {c with failed := true}

/-- What the proxy has been asked, or what has come of it. -/
inductive Phase where
  | greeting | auth | connect | relay | closed
  deriving DecidableEq, Repr

/-- A complete reply to CONNECT with the code 0. -/
def isSuccess (reply : Bytes) : Bool :=
  reply.take 3 = [5,0,0] && (addrLen reply).map (4+·+2) = some reply.length

/-- The requests that the replies lead to. After a reply that is negative or malformed there
are no others. -/
def follow : Phase → List Bytes → Bytes × Phase
  | phase, [] => ([],phase)
  | .greeting, reply::replies =>
      if reply = [5,0] then
        (socks5SendConnect cfg++(follow .connect replies).1,(follow .connect replies).2)
      else if reply = [5,2] ∧ cfg.user ≠ [] then
        (socks5SendAuth cfg++(follow .auth replies).1,(follow .auth replies).2)
      else ([],.closed)
  | .auth, reply::replies =>
      if reply = [1,0] then
        (socks5SendConnect cfg++(follow .connect replies).1,(follow .connect replies).2)
      else ([],.closed)
  | .connect, reply::replies => if isSuccess reply then follow .relay replies else ([],.closed)
  | .relay, _ => ([],.relay)
  | .closed, _ => ([],.closed)

/-- The handshake so far. -/
def handshake (c : Conn) : Bytes × Phase :=
  if cfg.enabled then
    (socks5SendGreeting cfg++(follow cfg .greeting c.replies).1,(follow cfg .greeting c.replies).2)
  else ([],.relay)

/-- Everything that should be sent: the handshake, and when it has been successful the header
and the data of the client from position 64 of the keystream on. -/
def expected (c : Conn) : Bytes :=
  if c.connected then
    (handshake cfg c).1++
      match c.made with
      | some made => made.init++Cipher.crypt ⟨writeKeystream cfg made,64⟩ c.relayed
      | none => []
  else []

/-- What is sent, and will be when the writer runs, is what should be. There is a header
exactly after a successful handshake, and the data of the client waits for it and is kept in
its order. All of it is sent when both sides run once more. -/
structure Shape (c : Conn) : Prop where
  begun : c.sent <+: expected cfg c
  written : (cpuTcpServerWriter c).sent = expected cfg c
  header : c.made.isSome = true ↔ c.connected = true ∧ (handshake cfg c).2 = .relay
  length : ∀ made ∈ c.made, made.init.length = 64
  data : c.relayed++c.clientIn = c.clientData
  waits : c.made = none → c.relayed = []
  closed : c.connected = true → (handshake cfg c).2 = .closed → c.sent = expected cfg c ∧ c.failed = true
  delivered : ∀ made ∈ c.made, c.clientFailed = false →
    (cpuTcpServerWriter (step cfg c (.relay false))).sent =
      (handshake cfg c).1++(made.init++Cipher.crypt ⟨writeKeystream cfg made,64⟩ c.clientData)

/-- The bytes begin with a reply after which there is another request. -/
def asksMore (socks : Socks5) (bs : Bytes) : Bool :=
  match socks with
  | .greetingSent => bs.take 2 = [5,0] || (bs.take 2 = [5,2] && cfg.user ≠ [])
  | .authSent => 2 ≤ bs.length && bs.getD 1 0 = 0
  | _ => false

/-- The proxy sends a reply only after the request it answers: the last request has been
sent, and nothing follows a reply that leads to another one. -/
def Prompt (c : Conn) : Event → Prop
  | .arrive data => c.connected = true ∧ (c.socks ≠ .none → c.out = [] ∧
      (asksMore cfg c.socks (c.inBuf++c.inQueue++data) = true →
        (c.inBuf++c.inQueue++data).length = 2))
  | _ => True

/-- A positive reply to the authentication has the version 1, and one to CONNECT has the
version 5 and the reserved byte 0. -/
def Versioned (c : Conn) : Event → Prop
  | .read _ _ =>
      (c.socks = .authSent → 2 ≤ (c.inBuf++c.inQueue).length → (c.inBuf++c.inQueue).getD 1 0 = 0 →
        (c.inBuf++c.inQueue).getD 0 0 = 1) ∧
      (c.socks = .connectSent → 5 ≤ (c.inBuf++c.inQueue).length → (c.inBuf++c.inQueue).getD 1 0 = 0 →
        (c.inBuf++c.inQueue).getD 0 0 = 5 ∧ (c.inBuf++c.inQueue).getD 2 0 = 0)
  | _ => True

variable {cfg}

theorem follow_concat (phase : Phase) (replies : List Bytes) (reply : Bytes) :
    follow cfg phase (replies++[reply]) =
      ((follow cfg phase replies).1++(follow cfg (follow cfg phase replies).2 [reply]).1,
        (follow cfg (follow cfg phase replies).2 [reply]).2) := by
  induction replies generalizing phase with
  | nil =>
      cases phase <;> rw [List.nil_append] <;> simp [follow]
  | cons first replies ih =>
      rw [List.cons_append]
      cases phase with
      | greeting =>
          simp only [follow]
          split_ifs
          · rw [ih]
            simp only [List.append_assoc]
          · rw [ih]
            simp only [List.append_assoc]
          · rfl
      | auth =>
          simp only [follow]
          split_ifs
          · rw [ih]
            simp only [List.append_assoc]
          · rfl
      | connect =>
          simp only [follow]
          split_ifs
          · exact ih .relay
          · rfl
      | relay => rfl
      | closed => rfl

/-- What the replies have led to, and one more. -/
theorem handshake_concat {c c' : Conn} {reply : Bytes} (henabled : cfg.enabled = true)
    (h : c'.replies = c.replies++[reply]) :
    handshake cfg c' = ((handshake cfg c).1++(follow cfg (handshake cfg c).2 [reply]).1,
      (follow cfg (handshake cfg c).2 [reply]).2) := by
  rw [handshake,handshake,if_pos henabled,if_pos henabled,h,follow_concat,List.append_assoc]

/-- Without the header nothing can be on its way behind it. -/
structure Quiet (c : Conn) : Prop where
  crypto : c.crypto = none
  made : c.made = none
  outQueue : c.outQueue = []
  outP : c.outP = []
  relayed : c.relayed = []

/-- The request that a phase waits for an answer to. -/
def Phase.socks : Phase → Socks5
  | .greeting => .greetingSent
  | .auth => .authSent
  | .connect => .connectSent
  | _ => .none

variable (cfg)

structure Fresh (c : Conn) : Prop where
  connected : c.connected = false
  quiet : Quiet c
  socks : c.socks = .none
  inBuf : c.inBuf = []
  inQueue : c.inQueue = []
  out : c.out = []
  sent : c.sent = []
  replies : c.replies = []

structure Waiting (c : Conn) : Prop where
  connected : c.connected = true
  enabled : cfg.enabled = true
  quiet : Quiet c
  socks : c.socks = (handshake cfg c).2.socks
  waits : c.socks ≠ .none
  out : c.sent++c.out = (handshake cfg c).1
  asked : c.out ≠ [] → c.inBuf++c.inQueue = []
  ahead : asksMore cfg c.socks (c.inBuf++c.inQueue) = true → (c.inBuf++c.inQueue).length = 2

structure Relaying (c : Conn) (made : Sent) (pos : ℕ) : Prop where
  connected : c.connected = true
  phase : (handshake cfg c).2 = .relay
  socks : c.socks = .none
  header : c.made = some made
  length : made.init.length = 64
  crypto : c.crypto = some ⟨writeKeystream cfg made,pos⟩
  position : pos+(c.out++c.outQueue.flatten).length = 64+c.relayed.length
  stream : c.sent++(c.outP++Cipher.crypt ⟨writeKeystream cfg made,pos⟩ (c.out++c.outQueue.flatten)) =
    (handshake cfg c).1++(made.init++Cipher.crypt ⟨writeKeystream cfg made,64⟩ c.relayed)

structure Closed (c : Conn) : Prop where
  connected : c.connected = true
  phase : (handshake cfg c).2 = .closed
  quiet : Quiet c
  failed : c.failed = true
  out : c.out = []
  sent : c.sent = (handshake cfg c).1

/-- One of the four, and the data of the client is kept. -/
structure Inv (c : Conn) : Prop where
  state : Fresh c ∨ Waiting cfg c ∨ (∃ made pos, Relaying cfg c made pos) ∨ Closed cfg c
  data : c.relayed++c.clientIn = c.clientData

variable {cfg} {c : Conn} {made : Sent} {pos : ℕ}

theorem Quiet.written (h : Quiet c) : (cpuTcpServerWriter c).sent = c.sent++c.out := by
  rw [cpuTcpServerWriter]
  simp [h.crypto,h.outQueue]

theorem Waiting.phase (h : Waiting cfg c) : (handshake cfg c).2 ≠ .relay ∧ (handshake cfg c).2 ≠ .closed := by
  have hsocks := h.waits
  rw [h.socks] at hsocks
  constructor
  · intro heq
    rw [heq] at hsocks
    exact hsocks rfl
  · intro heq
    rw [heq] at hsocks
    exact hsocks rfl

theorem Fresh.write (h : Fresh c) : Fresh (cpuTcpServerWriter c) := by
  have hq := h.quiet
  rw [cpuTcpServerWriter,hq.crypto]
  refine ⟨h.connected,⟨rfl,hq.made,rfl,hq.outP,hq.relayed⟩,h.socks,h.inBuf,h.inQueue,rfl,?_,h.replies⟩
  rw [h.sent,h.out,hq.outQueue]
  rfl

theorem Waiting.write (h : Waiting cfg c) : Waiting cfg (cpuTcpServerWriter c) := by
  have hq := h.quiet
  rw [cpuTcpServerWriter,hq.crypto]
  refine ⟨h.connected,h.enabled,⟨rfl,hq.made,rfl,hq.outP,hq.relayed⟩,h.socks,h.waits,?_,
    fun hout => absurd rfl hout,h.ahead⟩
  show c.sent++(c.out++c.outQueue.flatten)++[] = (handshake cfg c).1
  rw [hq.outQueue,List.flatten_nil,List.append_nil,List.append_nil,h.out]

theorem Relaying.write (h : Relaying cfg c made pos) :
    Relaying cfg (cpuTcpServerWriter c) made (64+c.relayed.length) := by
  rw [cpuTcpServerWriter,h.crypto]
  refine ⟨h.connected,h.phase,h.socks,h.header,h.length,?_,rfl,?_⟩
  · exact congrArg (fun n => some (⟨writeKeystream cfg made,n⟩ : Cipher)) h.position
  · exact (List.append_nil _).trans h.stream

theorem Closed.write (h : Closed cfg c) : Closed cfg (cpuTcpServerWriter c) := by
  have hq := h.quiet
  rw [cpuTcpServerWriter,hq.crypto]
  refine ⟨h.connected,h.phase,⟨rfl,hq.made,rfl,hq.outP,hq.relayed⟩,h.failed,rfl,?_⟩
  show c.sent++(c.out++c.outQueue.flatten) = (handshake cfg c).1
  rw [h.out,hq.outQueue,List.flatten_nil,List.append_nil,List.append_nil,h.sent]

theorem Quiet.relay (h : Quiet c) (refused : Bool) : tcpDirectClientParseExecute refused c = c := by
  rw [tcpDirectClientParseExecute,h.crypto]
  rfl

/-- The data of the client goes on in the keystream where the last one ended. -/
theorem Relaying.relay (h : Relaying cfg c made pos) (refused : Bool) :
    Relaying cfg (tcpDirectClientParseExecute refused c) made pos := by
  rw [tcpDirectClientParseExecute,h.crypto]
  cases refused with
  | true => exact ⟨h.connected,h.phase,h.socks,h.header,h.length,rfl,h.position,h.stream⟩
  | false =>
      have hqueue : c.out++(c.outQueue++[c.clientIn]).flatten = c.out++c.outQueue.flatten++c.clientIn := by
        simp
      have hposition := h.position
      refine ⟨h.connected,h.phase,h.socks,h.header,h.length,rfl,?_,?_⟩
      · show pos+(c.out++(c.outQueue++[c.clientIn]).flatten).length = 64+(c.relayed++c.clientIn).length
        rw [hqueue]
        simp only [List.length_append] at hposition ⊢
        omega
      · show c.sent++(c.outP++Cipher.crypt ⟨writeKeystream cfg made,pos⟩
            (c.out++(c.outQueue++[c.clientIn]).flatten)) =
          (handshake cfg c).1++(made.init++Cipher.crypt ⟨writeKeystream cfg made,64⟩ (c.relayed++c.clientIn))
        rw [hqueue,crypt_append _ _ (c.out++c.outQueue.flatten),crypt_append _ _ c.relayed,hposition,
          ← List.append_assoc c.outP,← List.append_assoc c.sent,h.stream]
        simp only [List.append_assoc]

theorem Fresh.shape (h : Fresh c) (hdata : c.relayed++c.clientIn = c.clientData) : Shape cfg c := by
  have hmade := h.quiet.made
  have hexp : expected cfg c = [] := by
    rw [expected,h.connected]
    rfl
  constructor
  case begun =>
    rw [h.sent]
    exact List.nil_prefix
  case written =>
    rw [h.quiet.written,h.sent,h.out,hexp]
    rfl
  case header =>
    rw [hmade,h.connected]
    simp
  case length => simp [hmade]
  case data => exact hdata
  case waits => exact fun _ => h.quiet.relayed
  case closed => simp [h.connected]
  case delivered => simp [hmade]

theorem Waiting.shape (h : Waiting cfg c) (hdata : c.relayed++c.clientIn = c.clientData) : Shape cfg c := by
  have hmade := h.quiet.made
  have hexp : expected cfg c = (handshake cfg c).1 := by
    rw [expected,if_pos h.connected,hmade,List.append_nil]
  constructor
  case begun =>
    rw [hexp,← h.out]
    exact List.prefix_append _ _
  case written => rw [h.quiet.written,hexp,h.out]
  case header =>
    rw [hmade]
    simp [h.phase.1]
  case length => simp [hmade]
  case data => exact hdata
  case waits => exact fun _ => h.quiet.relayed
  case closed => exact fun _ hclosed => absurd hclosed h.phase.2
  case delivered => simp [hmade]

theorem Relaying.written (h : Relaying cfg c made pos) :
    (cpuTcpServerWriter c).sent =
      (handshake cfg c).1++(made.init++Cipher.crypt ⟨writeKeystream cfg made,64⟩ c.relayed) := by
  rw [← h.stream,cpuTcpServerWriter,h.crypto]

theorem Relaying.delivered (h : Relaying cfg c made pos) (hdata : c.relayed++c.clientIn = c.clientData)
    (hclient : c.clientFailed = false) :
    (cpuTcpServerWriter (step cfg c (.relay false))).sent =
      (handshake cfg c).1++(made.init++Cipher.crypt ⟨writeKeystream cfg made,64⟩ c.clientData) := by
  rw [step]
  by_cases hin : c.clientIn = []
  · rw [if_pos (.inl hin),h.written,← hdata,hin,List.append_nil]
  · have hgo : ¬ (c.clientIn = [] ∨ c.clientFailed = true) := by simp [hin,hclient]
    have hexec : tcpDirectClientParseExecute false c =
        {c with outQueue := c.outQueue++[c.clientIn], relayed := c.relayed++c.clientIn, clientIn := []} := by
      rw [tcpDirectClientParseExecute,h.crypto]
      rfl
    have hshake : handshake cfg (tcpDirectClientParseExecute false c) = handshake cfg c := by
      rw [hexec]
      rfl
    have hrelayed : (tcpDirectClientParseExecute false c).relayed = c.clientData := by
      rw [hexec]
      exact hdata
    rw [if_neg hgo,(h.relay false).written,hshake,hrelayed]

theorem Relaying.shape (h : Relaying cfg c made pos) (hdata : c.relayed++c.clientIn = c.clientData) :
    Shape cfg c := by
  have hexp : expected cfg c =
      (handshake cfg c).1++(made.init++Cipher.crypt ⟨writeKeystream cfg made,64⟩ c.relayed) := by
    rw [expected,if_pos h.connected,h.header]
  constructor
  case begun =>
    rw [hexp,← h.stream]
    exact List.prefix_append _ _
  case written => rw [hexp,h.written]
  case header =>
    rw [h.header]
    simp [h.connected,h.phase]
  case length =>
    intro other hother
    rw [h.header] at hother
    cases hother
    exact h.length
  case data => exact hdata
  case waits => simp [h.header]
  case closed => simp [h.phase]
  case delivered =>
    intro other hother hclient
    rw [h.header] at hother
    cases hother
    exact h.delivered hdata hclient

theorem Closed.shape (h : Closed cfg c) (hdata : c.relayed++c.clientIn = c.clientData) : Shape cfg c := by
  have hmade := h.quiet.made
  have hexp : expected cfg c = (handshake cfg c).1 := by
    rw [expected,if_pos h.connected,hmade,List.append_nil]
  constructor
  case begun => rw [hexp,h.sent]
  case written => rw [h.quiet.written,hexp,h.out,List.append_nil,h.sent]
  case header =>
    rw [hmade]
    simp [h.phase]
  case length => simp [hmade]
  case data => exact hdata
  case waits => exact fun _ => h.quiet.relayed
  case closed => exact fun _ _ => ⟨h.sent.trans hexp.symm,h.failed⟩
  case delivered => simp [hmade]

theorem Inv.shape (h : Inv cfg c) : Shape cfg c := by
  rcases h.state with hf | hw | ⟨made,pos,hr⟩ | hc
  · exact hf.shape h.data
  · exact hw.shape h.data
  · exact hr.shape h.data
  · exact hc.shape h.data

theorem Fresh.init (random : RandomInit) (h : Fresh c) (henabled : cfg.enabled = false) :
    ∃ made, Relaying cfg (sendObfs2Init cfg random {c with connected := true}) made 64 := by
  have hq := h.quiet
  refine ⟨tcpDirectDcSendObfs2Init cfg.crypto random cfg.extraInt3 cfg.extraInt4,rfl,?_,h.socks,rfl,
    Obfs2Header.length_sent _ _ _ _,rfl,?_,?_⟩
  · rw [handshake,henabled]
    rfl
  · show 64+(c.out++c.outQueue.flatten).length = 64+c.relayed.length
    rw [h.out,hq.outQueue,hq.relayed]
    rfl
  · rw [handshake,henabled]
    show c.sent++((c.outP++_)++Cipher.crypt _ (c.out++c.outQueue.flatten)) = []++(_++Cipher.crypt _ c.relayed)
    rw [h.sent,hq.outP,h.out,hq.outQueue,hq.relayed]
    rfl

theorem Fresh.connect (random : RandomInit) (h : Fresh c) :
    Waiting cfg (tcpDirectDcConnected cfg random {c with connected := true}) ∨
      ∃ made pos, Relaying cfg (tcpDirectDcConnected cfg random {c with connected := true}) made pos := by
  have hq := h.quiet
  rw [tcpDirectDcConnected]
  cases henabled : cfg.enabled with
  | false =>
      rw [if_neg (by decide)]
      obtain ⟨made,hr⟩ := h.init random henabled
      exact .inr ⟨made,64,hr⟩
  | true =>
      rw [if_pos rfl]
      have hshake : handshake cfg c = (socks5SendGreeting cfg++[],.greeting) := by
        rw [handshake,if_pos henabled,h.replies]
        rfl
      have hpending : c.inBuf++c.inQueue = [] := by rw [h.inBuf,h.inQueue]; rfl
      refine .inl ⟨rfl,henabled,⟨hq.crypto,hq.made,hq.outQueue,hq.outP,hq.relayed⟩,?_,?_,?_,?_,?_⟩
      · show Socks5.greetingSent = (handshake cfg c).2.socks
        rw [hshake]
        rfl
      · exact fun heq => Socks5.noConfusion heq
      · show c.sent++(c.out++socks5SendGreeting cfg) = (handshake cfg c).1
        rw [hshake,h.sent,h.out,List.append_nil]
        rfl
      · exact fun _ => hpending
      · show asksMore cfg .greetingSent (c.inBuf++c.inQueue) = true → _
        rw [hpending]
        intro hasks
        cases hasks

section Replies
variable {reply request rest : Bytes} {socks : Socks5}

/-- A reply that is there answers a request that has been sent. -/
theorem Waiting.out_nil (h : Waiting cfg c) (hne : c.inBuf ≠ []) : c.out = [] := by
  by_contra hout
  exact hne (List.append_eq_nil_iff.mp (h.asked hout)).1

theorem Waiting.close (h : Waiting cfg c) (hne : c.inBuf ≠ [])
    (hfollow : follow cfg (handshake cfg c).2 [reply] = ([],.closed)) :
    Closed cfg {c with inBuf := rest, replies := c.replies++[reply], failed := true, socks := socks} := by
  have hq := h.quiet
  have hout := h.out
  rw [h.out_nil hne,List.append_nil] at hout
  have hshake : handshake cfg {c with inBuf := rest, replies := c.replies++[reply], failed := true,
                                      socks := socks} = _ := handshake_concat (c := c) h.enabled rfl
  rw [hfollow] at hshake
  refine ⟨h.connected,?_,⟨hq.crypto,hq.made,hq.outQueue,hq.outP,hq.relayed⟩,rfl,h.out_nil hne,?_⟩
  · rw [hshake]
  · rw [hshake,List.append_nil]
    exact hout

theorem Waiting.ask (phase : Phase) (h : Waiting cfg c) (hqueue : c.inQueue = [])
    (hfollow : follow cfg (handshake cfg c).2 [reply] = (request,phase)) (hphase : phase.socks ≠ .none) :
    Waiting cfg {c with inBuf := [], replies := c.replies++[reply], out := c.out++request,
                        socks := phase.socks} := by
  have hq := h.quiet
  have hshake : handshake cfg {c with inBuf := [], replies := c.replies++[reply], out := c.out++request,
                                      socks := phase.socks} = _ := handshake_concat (c := c) h.enabled rfl
  rw [hfollow] at hshake
  refine ⟨h.connected,h.enabled,⟨hq.crypto,hq.made,hq.outQueue,hq.outP,hq.relayed⟩,?_,hphase,?_,?_,?_⟩
  · rw [hshake]
  · rw [hshake,← h.out,List.append_assoc]
  · intro _
    exact hqueue
  · show asksMore cfg phase.socks ([]++c.inQueue) = true → _
    rw [hqueue]
    cases phase <;> exact fun hasks => Bool.noConfusion hasks

theorem Waiting.succeed (random : RandomInit) (h : Waiting cfg c) (hne : c.inBuf ≠ [])
    (hfollow : follow cfg (handshake cfg c).2 [reply] = ([],.relay)) :
    ∃ made, Relaying cfg (sendObfs2Init cfg random
      {c with inBuf := rest, replies := c.replies++[reply], socks := .none}) made 64 := by
  have hq := h.quiet
  have hout := h.out
  rw [h.out_nil hne,List.append_nil] at hout
  have hshake : handshake cfg (sendObfs2Init cfg random
      {c with inBuf := rest, replies := c.replies++[reply], socks := .none}) = _ :=
    handshake_concat (c := c) h.enabled rfl
  rw [hfollow] at hshake
  refine ⟨tcpDirectDcSendObfs2Init cfg.crypto random cfg.extraInt3 cfg.extraInt4,h.connected,?_,rfl,rfl,
    Obfs2Header.length_sent _ _ _ _,rfl,?_,?_⟩
  · rw [hshake]
  · show 64+(c.out++c.outQueue.flatten).length = 64+c.relayed.length
    rw [h.out_nil hne,hq.outQueue,hq.relayed]
    rfl
  · rw [hshake,List.append_nil]
    show c.sent++((c.outP++_)++Cipher.crypt _ (c.out++c.outQueue.flatten)) =
      (handshake cfg c).1++(_++Cipher.crypt _ c.relayed)
    rw [hout,hq.outP,h.out_nil hne,hq.outQueue,hq.relayed]
    rfl

/-- What a pass of the reader leads to while a reply is waited for. -/
def Answered (cfg : Config) (r : Conn × Bool) : Prop :=
  Waiting cfg r.1 ∧ r.2 = false ∨ Closed cfg r.1 ∧ r.2 = true ∨
    (∃ made, Relaying cfg r.1 made 64) ∧ r.2 = true

theorem greeting_answered (random : RandomInit) (refused : Bool) (h : Waiting cfg c)
    (hphase : (handshake cfg c).2 = .greeting) (hqueue : c.inQueue = []) (hne : c.inBuf ≠ []) :
    Answered cfg (tcpDirectDcParseExecute cfg random refused c) := by
  have hsocks : c.socks = .greetingSent := by rw [h.socks,hphase]; rfl
  have hahead := h.ahead
  rw [hsocks,hqueue,List.append_nil] at hahead
  rw [tcpDirectDcParseExecute,if_pos (by rw [hsocks]; decide),socks5HandleResponse,hsocks]
  match hbuf : c.inBuf with
  | [] => exact absurd hbuf hne
  | [_] => exact .inl ⟨h,rfl⟩
  | a::b::rest =>
      have hrest : asksMore cfg .greetingSent (a::b::rest) = true → rest = [] := by
        intro hasks
        have hlen := hahead (by rw [hbuf]; exact hasks)
        rw [hbuf] at hlen
        simpa using hlen
      simp only [List.length_cons,show ¬ rest.length+1+1 < 2 by omega,if_false,List.take_succ_cons,
        List.take_zero,List.drop_succ_cons,List.drop_zero,List.getD_cons_zero,List.getD_cons_succ]
      have hclosed : ¬ [a,b] = [5,0] → ¬ ([a,b] = [5,2] ∧ cfg.user ≠ []) →
          follow cfg (handshake cfg c).2 [[a,b]] = ([],.closed) := by
        intro h0 h2
        rw [hphase,follow,if_neg h0,if_neg h2]
      by_cases ha : a ≠ 5
      · rw [if_pos ha]
        exact .inr (.inl ⟨h.close hne (hclosed (by simp [ha]) (by simp [ha])),rfl⟩)
      obtain rfl := not_not.mp ha
      rw [if_neg ha]
      by_cases hb : b = 0
      · subst hb
        obtain rfl := hrest (by simp [asksMore])
        rw [if_pos rfl]
        exact .inl ⟨h.ask .connect hqueue (by rw [hphase]; simp [follow]) (by decide),rfl⟩
      rw [if_neg hb]
      by_cases hauth : b = 2
      · subst hauth
        rw [if_pos rfl]
        by_cases huser : cfg.user = []
        · rw [if_pos huser]
          exact .inr (.inl ⟨h.close hne (hclosed (by decide) (by simp [huser])),rfl⟩)
        · obtain rfl := hrest (by simp [asksMore,huser])
          rw [if_neg huser]
          exact .inl ⟨h.ask .auth hqueue (by rw [hphase]; simp [follow,huser]) (by decide),rfl⟩
      · rw [if_neg hauth]
        exact .inr (.inl ⟨h.close hne (hclosed (by simp [hb]) (by simp [hauth])),rfl⟩)

theorem auth_answered (random : RandomInit) (refused : Bool) (h : Waiting cfg c)
    (hphase : (handshake cfg c).2 = .auth) (hqueue : c.inQueue = []) (hne : c.inBuf ≠ [])
    (hversion : 2 ≤ c.inBuf.length → c.inBuf.getD 1 0 = 0 → c.inBuf.getD 0 0 = 1) :
    Answered cfg (tcpDirectDcParseExecute cfg random refused c) := by
  have hsocks : c.socks = .authSent := by rw [h.socks,hphase]; rfl
  have hahead := h.ahead
  rw [hsocks,hqueue,List.append_nil] at hahead
  rw [tcpDirectDcParseExecute,if_pos (by rw [hsocks]; decide),socks5HandleResponse,hsocks]
  match hbuf : c.inBuf with
  | [] => exact absurd hbuf hne
  | [_] => exact .inl ⟨h,rfl⟩
  | a::b::rest =>
      rw [hbuf] at hahead hversion
      simp only [List.length_cons,show ¬ rest.length+1+1 < 2 by omega,if_false,List.take_succ_cons,
        List.take_zero,List.drop_succ_cons,List.drop_zero,List.getD_cons_zero,List.getD_cons_succ]
      by_cases hb : b ≠ 0
      · have hclosed : follow cfg (handshake cfg c).2 [[a,b]] = ([],.closed) := by
          rw [hphase,follow,if_neg (by simp [hb])]
        rw [if_pos hb]
        exact .inr (.inl ⟨h.close hne hclosed,rfl⟩)
      obtain rfl := not_not.mp hb
      obtain rfl : a = 1 := hversion (by simp) rfl
      obtain rfl : rest = [] := by
        have hlen := hahead (by simp [asksMore])
        simpa using hlen
      rw [if_neg hb]
      exact .inl ⟨h.ask .connect hqueue (by rw [hphase]; simp [follow]) (by decide),rfl⟩

/-- A complete reply to CONNECT is judged by its first three bytes. -/
theorem isSuccess_take {bs : Bytes} {n : ℕ} (haddr : addrLen bs = some n) (hlen : 4+n+2 ≤ bs.length) :
    isSuccess (bs.take (4+n+2)) = decide (bs.take 3 = [5,0,0]) := by
  have hpos : 1 ≤ n := by
    unfold addrLen at haddr
    split_ifs at haddr <;> cases haddr <;> omega
  have htake : (bs.take (4+n+2)).take 3 = bs.take 3 := by
    rw [List.take_take,Nat.min_eq_left (by omega)]
  have hget : ∀ i < 5, (bs.take (4+n+2)).getD i 0 = bs.getD i 0 := by
    intro i hi
    rw [List.getD_eq_getElem?_getD,List.getD_eq_getElem?_getD,List.getElem?_take_of_lt (by omega)]
  have haddr' : addrLen (bs.take (4+n+2)) = some n := by
    rw [← haddr,addrLen,addrLen,hget 3 (by decide),hget 4 (by decide)]
  rw [isSuccess,haddr',htake,List.length_take,Nat.min_eq_left hlen]
  simp

theorem take_three {bs : Bytes} (hlen : 3 ≤ bs.length) :
    bs.take 3 = [bs.getD 0 0,bs.getD 1 0,bs.getD 2 0] := by
  match bs with
  | a::b::d::rest => rfl

theorem connect_answered (random : RandomInit) (refused : Bool) (h : Waiting cfg c)
    (hphase : (handshake cfg c).2 = .connect) (hne : c.inBuf ≠ [])
    (hversion : 5 ≤ c.inBuf.length → c.inBuf.getD 1 0 = 0 → c.inBuf.getD 0 0 = 5 ∧ c.inBuf.getD 2 0 = 0) :
    Answered cfg (tcpDirectDcParseExecute cfg random refused c) := by
  have hsocks : c.socks = .connectSent := by rw [h.socks,hphase]; rfl
  have hclosed : ∀ reply, isSuccess reply = false → follow cfg (handshake cfg c).2 [reply] = ([],.closed) := by
    intro reply hreply
    rw [hphase,follow,hreply]
    rfl
  rw [tcpDirectDcParseExecute,if_pos (by rw [hsocks]; decide),socks5HandleResponse,hsocks]
  dsimp only
  by_cases hshort : c.inBuf.length < 5
  · rw [if_pos hshort]
    exact .inl ⟨h,rfl⟩
  rw [if_neg hshort]
  cases haddr : addrLen c.inBuf with
  | none =>
      have hbad : isSuccess c.inBuf = false := by
        rw [isSuccess,haddr]
        simp
      exact .inr (.inl ⟨h.close hne (hclosed _ hbad),rfl⟩)
  | some n =>
      dsimp only
      by_cases hmore : c.inBuf.length < 4+n+2
      · rw [if_pos hmore]
        exact .inl ⟨h,rfl⟩
      rw [if_neg hmore]
      have hcode : (c.inBuf.take (4+n+2)).getD 1 0 = c.inBuf.getD 1 0 := by
        rw [List.getD_eq_getElem?_getD,List.getD_eq_getElem?_getD,List.getElem?_take_of_lt (by omega)]
      have hjudged := isSuccess_take haddr (by omega)
      rw [take_three (by omega)] at hjudged
      by_cases hok : c.inBuf.getD 1 0 ≠ 0
      · have hbad : isSuccess (c.inBuf.take (4+n+2)) = false := by
          rw [hjudged,decide_eq_false_iff_not]
          intro heq
          exact hok (List.cons.inj (List.cons.inj heq).2).1
        rw [hcode,if_pos hok]
        exact .inr (.inl ⟨h.close hne (hclosed _ hbad),rfl⟩)
      · obtain ⟨hfive,hzero⟩ := hversion (by omega) (not_not.mp hok)
        have hgood : isSuccess (c.inBuf.take (4+n+2)) = true := by
          rw [hjudged,hfive,not_not.mp hok,hzero]
          rfl
        have hfollow : follow cfg (handshake cfg c).2 [c.inBuf.take (4+n+2)] = ([],.relay) := by
          rw [hphase,follow,hgood]
          rfl
        rw [hcode,if_neg hok]
        exact .inr (.inr ⟨h.succeed random hne hfollow,rfl⟩)

end Replies

/-- The reader has taken what has arrived. -/
def gathered (c : Conn) : Conn := {c with inBuf := c.inBuf++c.inQueue, inQueue := []}

theorem Closed.loop (random : RandomInit) (refused : Bool) (fuel : ℕ) (h : Closed cfg c) :
    readLoop cfg random refused fuel c = c := by
  cases fuel with
  | zero => rfl
  | succ fuel => rw [readLoop,if_pos (.inr h.failed)]

theorem Relaying.loop (random : RandomInit) (refused : Bool) (fuel : ℕ) (h : Relaying cfg c made pos) :
    Relaying cfg (readLoop cfg random refused fuel c) made pos := by
  induction fuel generalizing c with
  | zero => exact h
  | succ fuel ih =>
      rw [readLoop]
      by_cases hstop : c.inBuf = [] ∨ c.failed = true
      · rw [if_pos hstop]
        exact h
      · have hsocks : ¬ c.socks ≠ .none := not_not.mpr h.socks
        rw [if_neg hstop,tcpDirectDcParseExecute,if_neg hsocks]
        cases refused with
        | true => exact ih ⟨h.connected,h.phase,h.socks,h.header,h.length,h.crypto,h.position,h.stream⟩
        | false => exact ih ⟨h.connected,h.phase,h.socks,h.header,h.length,h.crypto,h.position,h.stream⟩

/-- After one pass the reader waits for more, has failed or relays. -/
theorem Answered.loop (random : RandomInit) (refused : Bool) (fuel : ℕ)
    (hgo : ¬ (c.inBuf = [] ∨ c.failed = true))
    (h : Answered cfg (tcpDirectDcParseExecute cfg random refused c)) :
    Waiting cfg (readLoop cfg random refused (fuel+1) c) ∨
      (∃ made pos, Relaying cfg (readLoop cfg random refused (fuel+1) c) made pos) ∨
      Closed cfg (readLoop cfg random refused (fuel+1) c) := by
  rw [readLoop,if_neg hgo]
  unfold Answered at h
  generalize tcpDirectDcParseExecute cfg random refused c = r at h ⊢
  obtain ⟨c',again⟩ := r
  rcases h with ⟨hw,hstop⟩ | ⟨hc,hagain⟩ | ⟨⟨made,hr⟩,hagain⟩
  · cases hstop
    exact .inl hw
  · cases hagain
    refine .inr (.inr ?_)
    show Closed cfg (readLoop cfg random refused fuel c')
    rw [hc.loop]
    exact hc
  · cases hagain
    exact .inr (.inl ⟨made,64,hr.loop random refused fuel⟩)

theorem Waiting.gather (h : Waiting cfg c) : Waiting cfg (gathered c) := by
  have hpending : (gathered c).inBuf++(gathered c).inQueue = c.inBuf++c.inQueue := List.append_nil _
  refine ⟨h.connected,h.enabled,⟨h.quiet.crypto,h.quiet.made,h.quiet.outQueue,h.quiet.outP,h.quiet.relayed⟩,
    h.socks,h.waits,h.out,?_,?_⟩
  · rw [hpending]
    exact h.asked
  · rw [hpending]
    exact h.ahead

theorem Waiting.read (random : RandomInit) (refused : Bool) (h : Waiting cfg c)
    (hversion : Versioned c (.read random refused)) :
    Waiting cfg (cpuTcpServerReader cfg random refused c) ∨
      (∃ made pos, Relaying cfg (cpuTcpServerReader cfg random refused c) made pos) ∨
      Closed cfg (cpuTcpServerReader cfg random refused c) := by
  have hg := h.gather
  show Waiting cfg (readLoop cfg random refused ((gathered c).inBuf.length+1) (gathered c)) ∨
    (∃ made pos, Relaying cfg (readLoop cfg random refused ((gathered c).inBuf.length+1) (gathered c)) made pos) ∨
    Closed cfg (readLoop cfg random refused ((gathered c).inBuf.length+1) (gathered c))
  by_cases hstop : (gathered c).inBuf = [] ∨ (gathered c).failed = true
  · rw [readLoop,if_pos hstop]
    exact .inl hg
  have hne : (gathered c).inBuf ≠ [] := fun hnil => hstop (.inl hnil)
  apply Answered.loop random refused _ hstop
  cases hphase : (handshake cfg (gathered c)).2 with
  | greeting => exact greeting_answered random refused hg hphase rfl hne
  | auth =>
      have hsocks : c.socks = .authSent := hg.socks.trans (by rw [hphase]; rfl)
      exact auth_answered random refused hg hphase rfl hne (hversion.1 hsocks)
  | connect =>
      have hsocks : c.socks = .connectSent := hg.socks.trans (by rw [hphase]; rfl)
      exact connect_answered random refused hg hphase hne (hversion.2 hsocks)
  | relay => exact absurd hphase hg.phase.1
  | closed => exact absurd hphase hg.phase.2

theorem Fresh.read (random : RandomInit) (refused : Bool) (h : Fresh c) :
    Fresh (cpuTcpServerReader cfg random refused c) := by
  have hnil : (gathered c).inBuf = [] := by
    show c.inBuf++c.inQueue = []
    rw [h.inBuf,h.inQueue]
    rfl
  have hsame : cpuTcpServerReader cfg random refused c = gathered c := by
    show readLoop cfg random refused ((gathered c).inBuf.length+1) (gathered c) = gathered c
    rw [readLoop,if_pos (.inl hnil)]
  rw [hsame]
  exact ⟨h.connected,⟨h.quiet.crypto,h.quiet.made,h.quiet.outQueue,h.quiet.outP,h.quiet.relayed⟩,h.socks,hnil,
    rfl,h.out,h.sent,h.replies⟩

theorem Relaying.read (random : RandomInit) (refused : Bool) (h : Relaying cfg c made pos) :
    Relaying cfg (cpuTcpServerReader cfg random refused c) made pos := by
  have hg : Relaying cfg (gathered c) made pos :=
    ⟨h.connected,h.phase,h.socks,h.header,h.length,h.crypto,h.position,h.stream⟩
  exact hg.loop random refused _

theorem Closed.gather (h : Closed cfg c) : Closed cfg (gathered c) :=
  ⟨h.connected,h.phase,⟨h.quiet.crypto,h.quiet.made,h.quiet.outQueue,h.quiet.outP,h.quiet.relayed⟩,h.failed,
    h.out,h.sent⟩

theorem Closed.read (random : RandomInit) (refused : Bool) (h : Closed cfg c) :
    Closed cfg (cpuTcpServerReader cfg random refused c) := by
  have hg := h.gather
  show Closed cfg (readLoop cfg random refused ((gathered c).inBuf.length+1) (gathered c))
  rw [hg.loop]
  exact hg

/-- What there is of the client. -/
def ofClient (c : Conn) : Bytes × Bytes × Bytes := (c.relayed,c.clientIn,c.clientData)

theorem response_client (c : Conn) : ofClient (socks5HandleResponse cfg c).1 = ofClient c := by
  unfold socks5HandleResponse
  dsimp only
  repeat' split
  all_goals rfl

theorem execute_client (random : RandomInit) (refused : Bool) (c : Conn) :
    ofClient (tcpDirectDcParseExecute cfg random refused c).1 = ofClient c := by
  have hresponse := @response_client cfg c
  unfold tcpDirectDcParseExecute
  split
  · generalize socks5HandleResponse cfg c = r at hresponse ⊢
    obtain ⟨c',handled⟩ := r
    cases handled <;> exact hresponse
  · split <;> rfl

/-- The reader leaves the client alone. -/
theorem readLoop_client (random : RandomInit) (refused : Bool) (fuel : ℕ) (c : Conn) :
    ofClient (readLoop cfg random refused fuel c) = ofClient c := by
  induction fuel generalizing c with
  | zero => rfl
  | succ fuel ih =>
      have hexecute := @execute_client cfg random refused c
      rw [readLoop]
      split
      · rfl
      · generalize tcpDirectDcParseExecute cfg random refused c = r at hexecute ⊢
        obtain ⟨c',again⟩ := r
        cases again with
        | true => exact (ih c').trans hexecute
        | false => exact hexecute

theorem read_client (random : RandomInit) (refused : Bool) (c : Conn) :
    ofClient (cpuTcpServerReader cfg random refused c) = ofClient c :=
  readLoop_client random refused _ (gathered c)

theorem write_client (c : Conn) : ofClient (cpuTcpServerWriter c) = ofClient c := by
  unfold cpuTcpServerWriter
  dsimp only
  split <;> rfl

theorem connect_client (random : RandomInit) (c : Conn) :
    ofClient (tcpDirectDcConnected cfg random c) = ofClient c := by
  unfold tcpDirectDcConnected
  split <;> rfl

theorem data_of_client {c' : Conn} (hdata : c.relayed++c.clientIn = c.clientData)
    (h : ofClient c' = ofClient c) : c'.relayed++c'.clientIn = c'.clientData := by
  obtain ⟨hrelayed,hin,hall⟩ :
      c'.relayed = c.relayed ∧ c'.clientIn = c.clientIn ∧ c'.clientData = c.clientData := by
    simpa [ofClient] using h
  rw [hrelayed,hin,hall,hdata]

theorem relay_data (refused : Bool) (hdata : c.relayed++c.clientIn = c.clientData) :
    (tcpDirectClientParseExecute refused c).relayed++(tcpDirectClientParseExecute refused c).clientIn =
      (tcpDirectClientParseExecute refused c).clientData := by
  unfold tcpDirectClientParseExecute
  split
  · exact hdata
  · split
    · exact hdata
    · show (c.relayed++c.clientIn)++[] = c.clientData
      rw [List.append_nil,hdata]

/-- A connection that has failed in the handshake stays so. -/
theorem Closed.step (h : Closed cfg c) (e : Event) : Closed cfg (step cfg c e) := by
  have hq := h.quiet
  cases e with
  | connect random =>
      rw [DcStream.step,if_pos (.inl h.connected)]
      exact h
  | arrive data =>
      exact ⟨h.connected,h.phase,⟨hq.crypto,hq.made,hq.outQueue,hq.outP,hq.relayed⟩,h.failed,h.out,h.sent⟩
  | read random refused => exact h.read random refused
  | write => exact h.write
  | clientData data =>
      exact ⟨h.connected,h.phase,⟨hq.crypto,hq.made,hq.outQueue,hq.outP,hq.relayed⟩,h.failed,h.out,h.sent⟩
  | relay refused =>
      rw [DcStream.step]
      split
      · exact h
      · rw [hq.relay]
        exact h
  | abort => exact ⟨h.connected,h.phase,⟨hq.crypto,hq.made,hq.outQueue,hq.outP,hq.relayed⟩,rfl,h.out,h.sent⟩

/-- Nothing more is sent on it. -/
theorem Closed.silent (h : Closed cfg c) (e : Event) : (DcStream.step cfg c e).sent = c.sent := by
  have hq := h.quiet
  cases e with
  | connect random => rw [DcStream.step,if_pos (.inl h.connected)]
  | arrive data => rfl
  | read random refused =>
      have hg := h.gather
      show (readLoop cfg random refused ((gathered c).inBuf.length+1) (gathered c)).sent = c.sent
      rw [hg.loop]
      rfl
  | write =>
      show (cpuTcpServerWriter c).sent = c.sent
      rw [hq.written,h.out,List.append_nil]
  | clientData data => rfl
  | relay refused =>
      rw [DcStream.step]
      split
      · rfl
      · rw [hq.relay]
  | abort => rfl

theorem Closed.run (h : Closed cfg c) (events : List Event) :
    (StepSystem.run (DcStream.step cfg) c events).sent = c.sent := by
  induction events generalizing c with
  | nil => rfl
  | cons e events ih => exact (ih (h.step e)).trans (h.silent e)

/-- What a step does to the data of the client. -/
theorem step_data (hdata : c.relayed++c.clientIn = c.clientData) (e : Event) :
    (step cfg c e).relayed++(step cfg c e).clientIn = (step cfg c e).clientData := by
  cases e with
  | connect random =>
      rw [step]
      split
      · exact hdata
      · exact data_of_client (c := c) hdata (connect_client random {c with connected := true})
  | arrive data => exact hdata
  | read random refused => exact data_of_client hdata (read_client random refused c)
  | write => exact data_of_client hdata (write_client c)
  | clientData data =>
      show c.relayed++(c.clientIn++data) = c.clientData++data
      rw [← List.append_assoc,hdata]
  | relay refused =>
      rw [step]
      split
      · exact hdata
      · exact relay_data refused hdata
  | abort => exact hdata

/-- Bytes that come in time keep the order of requests and replies. -/
theorem Waiting.arrive {data : Bytes} (h : Waiting cfg c) (hprompt : Prompt cfg c (.arrive data)) :
    Waiting cfg (step cfg c (.arrive data)) := by
  have hq := h.quiet
  obtain ⟨hout,hmore⟩ := hprompt.2 h.waits
  refine ⟨h.connected,h.enabled,⟨hq.crypto,hq.made,hq.outQueue,hq.outP,hq.relayed⟩,h.socks,h.waits,h.out,
    fun hne => absurd hout hne,?_⟩
  show asksMore cfg c.socks (c.inBuf++(c.inQueue++data)) = true → (c.inBuf++(c.inQueue++data)).length = 2
  rw [← List.append_assoc]
  exact hmore

theorem Fresh.step (h : Fresh c) {e : Event} (hprompt : Prompt cfg c e) :
    Fresh (step cfg c e) ∨ Waiting cfg (step cfg c e) ∨
      (∃ made pos, Relaying cfg (step cfg c e) made pos) ∨ Closed cfg (step cfg c e) := by
  have hq := h.quiet
  cases e with
  | connect random =>
      rw [DcStream.step]
      split
      · exact .inl h
      · exact .inr ((h.connect random).imp_right .inl)
  | arrive data =>
      have hconn := hprompt.1
      rw [h.connected] at hconn
      cases hconn
  | read random refused => exact .inl (h.read random refused)
  | write => exact .inl h.write
  | clientData data =>
      exact .inl ⟨h.connected,⟨hq.crypto,hq.made,hq.outQueue,hq.outP,hq.relayed⟩,h.socks,h.inBuf,h.inQueue,
        h.out,h.sent,h.replies⟩
  | relay refused =>
      rw [DcStream.step]
      split
      · exact .inl h
      · rw [hq.relay]
        exact .inl h
  | abort =>
      exact .inl ⟨h.connected,⟨hq.crypto,hq.made,hq.outQueue,hq.outP,hq.relayed⟩,h.socks,h.inBuf,h.inQueue,
        h.out,h.sent,h.replies⟩

theorem Waiting.step (h : Waiting cfg c) {e : Event} (hprompt : Prompt cfg c e) (hversion : Versioned c e) :
    Waiting cfg (step cfg c e) ∨ (∃ made pos, Relaying cfg (step cfg c e) made pos) ∨
      Closed cfg (step cfg c e) := by
  have hq := h.quiet
  cases e with
  | connect random =>
      rw [DcStream.step,if_pos (.inl h.connected)]
      exact .inl h
  | arrive data => exact .inl (h.arrive hprompt)
  | read random refused => exact h.read random refused hversion
  | write => exact .inl h.write
  | clientData data =>
      exact .inl ⟨h.connected,h.enabled,⟨hq.crypto,hq.made,hq.outQueue,hq.outP,hq.relayed⟩,h.socks,h.waits,
        h.out,h.asked,h.ahead⟩
  | relay refused =>
      rw [DcStream.step]
      split
      · exact .inl h
      · rw [hq.relay]
        exact .inl h
  | abort =>
      exact .inl ⟨h.connected,h.enabled,⟨hq.crypto,hq.made,hq.outQueue,hq.outP,hq.relayed⟩,h.socks,h.waits,
        h.out,h.asked,h.ahead⟩

theorem Relaying.step (h : Relaying cfg c made pos) (e : Event) :
    ∃ pos, Relaying cfg (step cfg c e) made pos := by
  cases e with
  | connect random =>
      rw [DcStream.step,if_pos (.inl h.connected)]
      exact ⟨pos,h⟩
  | arrive data => exact ⟨pos,h.connected,h.phase,h.socks,h.header,h.length,h.crypto,h.position,h.stream⟩
  | read random refused => exact ⟨pos,h.read random refused⟩
  | write => exact ⟨_,h.write⟩
  | clientData data => exact ⟨pos,h.connected,h.phase,h.socks,h.header,h.length,h.crypto,h.position,h.stream⟩
  | relay refused =>
      rw [DcStream.step]
      split
      · exact ⟨pos,h⟩
      · exact ⟨pos,h.relay refused⟩
  | abort => exact ⟨pos,h.connected,h.phase,h.socks,h.header,h.length,h.crypto,h.position,h.stream⟩

/-- One step keeps the invariant. -/
theorem Inv.step (h : Inv cfg c) {e : Event} (hok : Prompt cfg c e ∧ Versioned c e) :
    Inv cfg (step cfg c e) := by
  refine ⟨?_,step_data h.data e⟩
  rcases h.state with hf | hw | ⟨made,pos,hr⟩ | hc
  · exact hf.step hok.1
  · exact .inr (hw.step hok.1 hok.2)
  · obtain ⟨pos',hr'⟩ := hr.step e
    exact .inr (.inr (.inl ⟨made,pos',hr'⟩))
  · exact .inr (.inr (.inr (hc.step e)))

/-- Before the connection is established nothing has happened. -/
theorem inv_start : Inv cfg {} :=
  ⟨.inl ⟨rfl,⟨rfl,rfl,rfl,rfl,rfl⟩,rfl,rfl,rfl,rfl,rfl,rfl⟩,rfl⟩

theorem Inv.closed (h : Inv cfg c) (hconn : c.connected = true) (hphase : (handshake cfg c).2 = .closed) :
    Closed cfg c := by
  rcases h.state with hf | hw | ⟨made,pos,hr⟩ | hc
  · rw [hf.connected] at hconn
    cases hconn
  · exact absurd hphase hw.phase.2
  · rw [hr.phase] at hphase
    cases hphase
  · exact hc

variable (cfg)

/-- With a proxy that answers what it has been asked, and as long as its positive replies have
the right version, the stream has its shape in every state, and nothing is sent after a reply
that is negative or malformed. -/
theorem dc_stream_shape (events : List Event)
    (h : Meets (step cfg) (fun c e => Prompt cfg c e ∧ Versioned c e) {} events) :
    Throughout (step cfg) (Shape cfg) {} events ∧
      ∀ before after, events = before++after →
        (run (step cfg) {} before).connected = true →
        (handshake cfg (run (step cfg) {} before)).2 = .closed →
        (run (step cfg) {} events).sent = (run (step cfg) {} before).sent := by
  have hstep : ∀ c e, Inv cfg c → Prompt cfg c e ∧ Versioned c e → Inv cfg (step cfg c e) :=
    fun c e hinv hok => hinv.step hok
  constructor
  · exact StepSystem.throughout_of_invariant hstep (fun c hinv => hinv.shape) inv_start h
  · intro before after hevents hconn hphase
    rw [hevents,StepSystem.meets_append] at h
    have hinv := StepSystem.run_invariant hstep inv_start h.1
    rw [hevents,StepSystem.run_append]
    exact (hinv.closed hconn hphase).run after

instance (c : Conn) : ∀ e, Decidable (Prompt cfg c e)
  | .arrive _ => inferInstanceAs (Decidable (_ ∧ (_ → _ ∧ (_ → _))))
  | .connect _ | .read _ _ | .write | .clientData _ | .relay _ | .abort => isTrue trivial

instance (c : Conn) : ∀ e, Decidable (Versioned c e)
  | .read _ _ => inferInstanceAs (Decidable ((_ → _ → _ → _) ∧ (_ → _ → _ → _ ∧ _)))
  | .connect _ | .arrive _ | .write | .clientData _ | .relay _ | .abort => isTrue trivial

/-- A proxy with credentials, for a DC at 149.154.167.50. -/
def sampleConfig : Config :=
  {enabled := true, user := [117], pass := [112], ipv6Enabled := false,
   addr := {ipv4 := [149,154,167,50], port := 443#32},
   crypto := ⟨fun _ _ i => UInt8.ofNat i,List.take 32⟩, extraInt3 := 0xdddddddd#32, extraInt4 := 2#32}

def sampleRandom : RandomInit := ⟨List.replicate 64 1,rfl,by decide⟩

/-- The replies come in pieces, and the client has sent something before the last of them. -/
def sampleRun : List Event :=
  [.connect sampleRandom,.write,.arrive [5],.read sampleRandom false,.clientData [7,8],.relay false,
    .arrive [2],.read sampleRandom false,.write,.arrive [1,0],.read sampleRandom false,.write,
    .arrive [5,0,0,1,10,0],.read sampleRandom false,.arrive [0,1,4,56],.read sampleRandom false,
    .relay false,.write,.clientData [9],.relay false,.write]

theorem dc_stream_sample : Throughout (step sampleConfig) (Shape sampleConfig) {} sampleRun :=
  (dc_stream_shape sampleConfig sampleRun (by decide +kernel)).1

/-- The version in the reply to the authentication is 5. -/
def malformedRun : List Event :=
  [.connect sampleRandom,.write,.arrive [5,2],.read sampleRandom false,.write,.arrive [5,0],
    .read sampleRandom false,.write]

/-- The reply is accepted, and the CONNECT request is sent after it. -/
theorem malformed_reply_accepted :
    Meets (step sampleConfig) (Prompt sampleConfig) {} malformedRun ∧
      (run (step sampleConfig) {} malformedRun).sent = socks5SendGreeting sampleConfig++
        socks5SendAuth sampleConfig++socks5SendConnect sampleConfig ∧
      ¬ Throughout (step sampleConfig) (Shape sampleConfig) {} malformedRun := by
  refine ⟨by decide +kernel,by decide +kernel,?_⟩
  intro h
  have hclosed := h.last.closed (by decide +kernel) (by decide +kernel)
  exact absurd hclosed.1 (by decide +kernel)

end Teleproxy.DcStream
