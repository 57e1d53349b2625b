import Teleproxy.PeekInput
import Teleproxy.ProxyDomains

/-!
# Clients handed to the camouflage backend

A client that fails the check of its ClientHello, that does not speak TLS where
only TLS is allowed, or that says too little until its timer fires is connected
to the backend of a domain. From then on two connections of the type
`ct_proxy_pass` move bytes between the client and the backend.

The model follows such a client from its first byte: the probe for WebSocket and
HTTP streams, the PROXY header, the choice of `tcp_rpcs_compact_parse_execute`,
`proxy_connection` with the addresses that `alloc_new_connection` sets up, and
the reader, the writer and the end of both connections. A client that has been
sent a first byte, that an HTTP handler got, whose probe ended the process, or whose
obfs2 header is read next is not followed any further. A connection puts its output
into the queue of its socket job, which writes it as the socket takes it. What a
socket has not written when it is closed is lost.
-/
namespace Teleproxy.Camouflage
open ClientInput ProxyProtocol ProxyDomains StepSystem

structure Listener where
  /-- The domains and backends of the configuration. -/
  entries : List (Bytes × Option Bytes)
  resolve : Bytes → Option Host := fun _ => none
  proxyProtocolEnabled : Bool := false
  httpFallback : Bool := false
  ourPort : ℕ := 443

def Listener.registry (l : Listener) : Registry := register l.resolve l.entries

/-- The local end that the kernel gives to a socket. -/
structure Local where
  addr : ℕ := 0
  addrIpv6 : Bytes := List.replicate 16 0
  port : ℕ := 0

/-- What a call of the parser or of the timer finds in the worker. -/
structure Moment where
  haveSecrets : Bool := true
  ipAclCheck : ProxyResult → Bool := fun _ => true
  /-- What lies behind the peek buffer of the probe. -/
  memory : Bytes := []
  /-- The checks of a ClientHello from `have_client_random` on. -/
  clientHello : Bytes → Bool := fun _ => false
  /-- The socket for a backend, when there is one to be had. -/
  socket : Option Local := none

def Listener.cfg (l : Listener) (m : Moment) : Config where
  allowOnlyTls := l.registry.allowOnlyTls
  haveSecrets := m.haveSecrets
  httpFallback := l.httpFallback
  obfs2ParseHeader := fun _ => none

inductive Found where
  | needMore
  | need (n : ℕ)
  /-- `fail_connection` -/
  | fail
  /-- The first bytes for the client: 101, 200 or a ServerHello. -/
  | answered
  /-- An HTTP handler, the obfs2 header, or a probe whose assertion fails. -/
  | other
  /-- `RETURN_TLS_ERROR` -/
  | proxy (info : Option DomainInfo)

/-- The length that the record header of a ClientHello gives. -/
def helloLength (buf : Bytes) : ℕ := 5+256*(buf.getD 3 0).toNat+(buf.getD 4 0).toNat

/-- The checks of a ClientHello. Nothing may stand behind it. -/
def Listener.checkHello (l : Listener) (m : Moment) (buf : Bytes) : Found :=
  if buf.length < helloLength buf then .need (helloLength buf-buf.length)
  else
    match l.registry.getSniDomainInfo (buf.take 4096) with
    | none => .proxy l.registry.defaultDomainInfo
    | some info =>
        if l.ourPort = 80 ∨ helloLength buf < buf.length ∨ 4096 < buf.length ∨
            m.clientHello buf = false then .proxy (some info)
        else .answered

/-- The branches behind the PROXY header. -/
def Listener.detect (l : Listener) (m : Moment) (buf : Bytes) : Found :=
  if buf.length < 9 then .need (9-buf.length)
  else if looksHttp (l.cfg m) buf then .other
  else if looksTls (l.cfg m) buf then l.checkHello m buf
  else if l.registry.allowOnlyTls then .proxy l.registry.defaultDomainInfo
  else .other

inductive SockAddr where
  | inet (addr port : ℕ)
  | inet6 (addr : Bytes) (port : ℕ)
  | unix
  deriving DecidableEq, Repr

def is4in6 (a : Bytes) : Bool := a.take 12 == List.replicate 10 0++[0xff,0xff]

/-- `ntohl (extract_4in6 (a))` -/
def extract4in6 (a : Bytes) : ℕ := bigEndian ((a.drop 12).take 4)

/-- What `getsockname` says about a socket that was opened for an entry. A socket
that goes to an IPv4 address inside IPv6 has such an address itself. -/
def getsockname (info : DomainInfo) (x : Local) : SockAddr :=
  if info.unixPath.isSome then .unix
  else if info.target ≠ 0 then .inet x.addr x.port
  else if is4in6 info.targetIpv6 then
    .inet6 (List.replicate 10 0++[0xff,0xff]++x.addrIpv6.drop 12) x.port
  else .inet6 x.addrIpv6 x.port

structure Ends where
  ourIp : ℕ := 0
  ourIpv6 : Bytes := List.replicate 16 0
  ourPort : ℕ := 0
  remoteIp : ℕ := 0
  remoteIpv6 : Bytes := List.replicate 16 0
  remotePort : ℤ := 0
  /-- `C_IPV6` -/
  ipv6 : Bool := false
  deriving DecidableEq, Repr

/-- The addresses in `alloc_new_connection`; `none` is an assertion that fails. -/
def setUpAddresses (self : SockAddr) (peer : ℕ) (peerIpv6 : Bytes) (peerPort : ℤ) : Option Ends :=
  match self with
  | .inet addr port =>
      if peer = 0 then none
      else some {ourIp := addr, ourPort := port, remoteIp := peer, remotePort := peerPort}
  | .inet6 addr port =>
      if peer ≠ 0 then none
      else if is4in6 peerIpv6 then
        if is4in6 addr then
          some {ourIp := extract4in6 addr, ourPort := port, remoteIp := extract4in6 peerIpv6,
                remotePort := peerPort}
        else none
      else some {ourIpv6 := addr, ourPort := port, remoteIpv6 := peerIpv6, remotePort := peerPort,
                 ipv6 := true}
  | .unix => none

/-- An entry without an address; a unix socket needs none. -/
def noTarget (info : DomainInfo) : Bool :=
  info.unixPath.isNone && info.target == 0 && info.targetIpv6 == List.replicate 16 0

def Listener.backendPort (l : Listener) (info : DomainInfo) : ℤ :=
  if info.unixPath.isSome then 0 else if l.ourPort = 80 then 80 else info.port

inductive Phase where
  | detecting
  | passing
  | answered
  | other
  | aborted
  deriving DecidableEq, Repr

/-- A client `C` and, in the phase `passing`, the connection `E` to its backend. -/
structure Session where
  phase : Phase := .detecting
  client : Conn := {}
  /-- `C_PROXY_PROTOCOL` -/
  proxyProtocol : Bool := false
  /-- `c->in_queue`: what the socket has read since the last run. -/
  inQueue : Bytes := []
  /-- `c->out_queue` -/
  outQueue : Bytes := []
  /-- `out_packet_queue` and `out` of the client's socket job. -/
  clientSocket : Bytes := []
  /-- `C_ERROR` of the client's socket job. -/
  clientClosed : Bool := false
  ends : Ends := {}
  /-- `C_ERROR` of the backend's connection. -/
  backendError : Bool := false
  /-- `e->in_queue` -/
  backendIn : Bytes := []
  /-- `e->out_queue` -/
  backendOut : Bytes := []
  backendSocket : Bytes := []
  backendClosed : Bool := false
  /-- All bytes of the client. -/
  received : Bytes := []
  toBackend : Bytes := []
  /-- All bytes of the backend. -/
  answers : Bytes := []
  toClient : Bytes := []

def Session.fail (s : Session) : Session := {s with client := {s.client with error := true}}

def Session.failBackend (s : Session) : Session := {s with backendError := true}

/-- `tcp_proxy_pass_parse_execute`. The two connections hold each other until one
of them is closed. -/
def Session.tcpProxyPassParseExecute (s : Session) : Session :=
  {s with backendOut := s.backendOut++s.client.inBuf, client := {s.client with inBuf := []}}

/-- `proxy_connection`. It is not made for an entry that is not there. -/
def Session.proxyConnection (l : Listener) (s : Session) (info : Option DomainInfo)
    (socket : Option Local) : Session :=
  match info with
  | none => {s with phase := .aborted}
  | some info =>
      if noTarget info then s.fail
      else
        match socket with
        | none => s.fail
        | some x =>
            match setUpAddresses (getsockname info x) info.target info.targetIpv6
                (l.backendPort info) with
            | none => {s with phase := .aborted}
            | some ends =>
                Session.tcpProxyPassParseExecute {s with phase := .passing, ends := ends}

/-- The PROXY header is taken off. -/
def Session.stripProxy (m : Moment) (s : Session) : Session × Option Found :=
  if s.proxyProtocol then
    match proxyProtocolParse s.client.inBuf with
    | .more =>
        let len := s.client.inBuf.length
        (s,some (if len < 16 then .need (16-len) else .needMore))
    | .bad => (s,some .fail)
    | .header n r =>
        let s := {s with client := {s.client with inBuf := s.client.inBuf.drop n}
                         proxyProtocol := false}
        if r.family ≠ .unspec ∧ m.ipAclCheck r = false then (s,some .fail)
        else (s,if s.client.inBuf = [] then some .needMore else none)
  else (s,none)

/-- The branches behind the probe. -/
def Session.parseBehind (l : Listener) (m : Moment) (s : Session) : Session × Found :=
  if s.client.inBuf.length < 9 then (s,.need (9-s.client.inBuf.length))
  else
    match s.stripProxy m with
    | (s,some f) => (s,f)
    | (s,none) => (s,l.detect m s.client.inBuf)

/-- `tcp_rpcs_compact_parse_execute` on a client that no byte was sent to. -/
def Session.parseExecute (l : Listener) (m : Moment) (s : Session) : Session × Found :=
  match PeekInput.probe id m.memory s.client with
  | none => (s,.other)
  | some (k,r) =>
      let s := {s with client := k}
      if k.error then (s,.fail)
      else if k.wsState = .active ∨ k.wsState = .httpStream then (s,.answered)
      else
        match r with
        | some _ => (s,.needMore)
        | none => s.parseBehind l m

/-- What `cpu_tcp_server_reader` does with the result. There is no cipher, so that
nothing is added to the number of missing bytes. -/
def Session.settle (l : Listener) (m : Moment) (s : Session) : Found → Session
  | .needMore => s
  | .need n => {s with client := {s.client with skipBytes := n}}
  | .fail => s.fail
  | .answered => {s with phase := .answered}
  | .other => {s with phase := .other}
  | .proxy info => s.proxyConnection l info m.socket

def Session.withInput (s : Session) (buf : Bytes) (skip : ℤ) : Session :=
  {s with client := {s.client with inBuf := buf, skipBytes := skip}, inQueue := []}

/-- `cpu_tcp_server_reader` until it calls the parser, and whether it does. -/
def Session.fetch (s : Session) : Session × Bool :=
  let buf := s.client.inBuf++s.inQueue
  let skip := s.client.skipBytes
  if skip < 0 then
    let n := min (buf.length : ℤ) (-skip)
    let buf := buf.drop n.toNat
    (s.withInput buf (skip+n),skip+n = 0 ∧ buf ≠ [])
  else if buf.length < skip then (s.withInput buf skip,false)
  else (s.withInput buf 0,buf ≠ [])

def Session.read (l : Listener) (m : Moment) (s : Session) : Session :=
  match s.phase with
  | .detecting =>
      match s.fetch with
      | (s,false) => s
      | (s,true) => (s.parseExecute l m).1.settle l m (s.parseExecute l m).2
  | .passing =>
      match s.fetch with
      | (s,false) => s
      | (s,true) => s.tcpProxyPassParseExecute
  | _ => s

/-- `cpu_tcp_server_writer`; `tcp_proxy_pass_write_packet` adds nothing. -/
def Session.write (s : Session) : Session :=
  {s with clientSocket := s.clientSocket++s.outQueue, outQueue := []}

/-- The reader and the writer of the backend's connection. -/
def Session.backendReadWrite (s : Session) : Session :=
  {s with outQueue := s.outQueue++s.backendIn, backendIn := [],
          backendSocket := s.backendSocket++s.backendOut, backendOut := []}

/-- `net_server_socket_writer` of the client's socket, which takes `n` bytes. -/
def Session.socketWriter (n : ℕ) (s : Session) : Session :=
  {s with toClient := s.toClient++s.clientSocket.take n, clientSocket := s.clientSocket.drop n}

def Session.backendSocketWriter (n : ℕ) (s : Session) : Session :=
  {s with toBackend := s.toBackend++s.backendSocket.take n,
          backendSocket := s.backendSocket.drop n}

/-- `fail_socket_connection` -/
def Session.failSocket (s : Session) : Session := {s.fail with clientClosed := true}

def Session.failBackendSocket (s : Session) : Session := {s.failBackend with backendClosed := true}

/-- `tcp_rpcs_ext_alarm`; a handed over client has no alarm of its own. -/
def Session.alarm (l : Listener) (m : Moment) (s : Session) : Session :=
  match s.phase with
  | .detecting =>
      if s.proxyProtocol then s.fail
      else
        match l.registry.defaultDomainInfo with
        | none => s.fail
        | some info => s.proxyConnection l (some info) m.socket
  | _ => s

inductive Event where
  /-- The client's socket reads bytes. -/
  | receive (seg : Bytes)
  /-- `JS_RUN` of the client's connection. -/
  | run (m : Moment)
  /-- `JS_ALARM` of the client's connection. -/
  | alarm (m : Moment)
  /-- The client's socket takes `n` bytes. -/
  | clientWrites (n : ℕ)
  /-- The backend's socket reads bytes. -/
  | answer (seg : Bytes)
  /-- `JS_RUN` of the backend's connection. -/
  | backendRun
  | backendWrites (n : ℕ)
  /-- `JS_ABORT` of the client's socket job: the socket is at its end or fails, or the connection
  was aborted. -/
  | clientFails
  | backendFails
  /-- `JS_ABORT` of the client's connection: `tcp_proxy_pass_close`. -/
  | clientAborts
  | backendAborts

def Listener.step (l : Listener) (s : Session) (e : Event) : Session :=
  if s.phase = .aborted then s
  else
    match e with
    | .receive seg =>
        if s.clientClosed then s
        else {s with inQueue := s.inQueue++seg, received := s.received++seg}
    | .run m => if s.client.error then s else (s.read l m).write
    | .alarm m => if s.client.error then s else s.alarm l m
    | .clientWrites n => if s.clientClosed then s else s.socketWriter n
    | .answer seg =>
        if s.phase = .passing ∧ s.backendClosed = false then
          {s with backendIn := s.backendIn++seg, answers := s.answers++seg}
        else s
    | .backendRun =>
        if s.phase = .passing ∧ s.backendError = false then s.backendReadWrite else s
    | .backendWrites n =>
        if s.phase = .passing ∧ s.backendClosed = false then s.backendSocketWriter n else s
    | .clientFails => s.failSocket
    | .backendFails => if s.phase = .passing then s.failBackendSocket else s
    | .clientAborts => if s.phase = .passing ∧ s.client.error then s.failBackend else s
    | .backendAborts => if s.phase = .passing ∧ s.backendError then s.fail else s

/-- `tcp_rpcs_ext_init_accepted` -/
def Listener.accepted (l : Listener) : Session := {proxyProtocol := l.proxyProtocolEnabled}

/-- The bytes of a client from the first one after its PROXY header. -/
def Listener.ownBytes (l : Listener) (bs : Bytes) : Bytes :=
  if l.proxyProtocolEnabled then
    match proxyProtocolParse bs with
    | .header n _ => bs.drop n
    | _ => bs
  else bs

/-- Bytes of the backend that can still reach the client. A connection that was given up does
nothing more, and neither does a closed socket. -/
def Session.underWay (s : Session) : Bytes :=
  (if s.clientClosed then [] else s.clientSocket)++(if s.client.error then [] else s.outQueue)++
    (if s.backendError then [] else s.backendIn)

/-- Bytes of the client that can still reach the backend and wait for no further ones. -/
def Session.passingOn (s : Session) : Bytes :=
  (if s.backendClosed then [] else s.backendSocket)++
    (if s.backendError then [] else s.backendOut)++(if s.client.error then [] else s.inQueue)

/-- No assertion of `alloc_new_connection` fails; what a handed over client said has reached the
backend or is on its way there without waiting for more; and what the backend said has reached the
client or is under way. -/
structure Transparent (l : Listener) (s : Session) : Prop where
  running : s.phase ≠ .aborted
  passed : s.phase = .passing → s.toBackend++s.passingOn = l.ownBytes s.received
  answered : s.phase = .passing → s.toClient++s.underWay = s.answers

/-- The entry that a step calls `proxy_connection` with. -/
def Session.handOver (l : Listener) (s : Session) : Event → Option DomainInfo
  | .run m =>
      if s.phase = .detecting ∧ s.client.error = false then
        match s.fetch with
        | (_,false) => none
        | (t,true) =>
            match (t.parseExecute l m).2 with
            | .proxy info => info
            | _ => none
      else none
  | .alarm _ =>
      if s.phase = .detecting ∧ s.client.error = false ∧ s.proxyProtocol = false then
        l.registry.defaultDomainInfo
      else none
  | _ => none

def Event.socket : Event → Option Local
  | .run m => m.socket
  | .alarm m => m.socket
  | _ => none

/-- A run of a handed over client finds no bytes waiting, or at least `skip_bytes` of them and a
backend to pass them to. Nothing comes in on a connection that was given up and whose socket is
still open, nothing is passed to such a connection, and no connection is given up and no socket
closed with bytes in it. -/
def Session.FitsPassing (s : Session) : Event → Prop
  | .receive seg => s.client.error = true → s.clientClosed = true ∨ seg = []
  | .run _ => s.client.error = false → s.inQueue = [] ∨
      s.client.skipBytes ≤ s.inQueue.length ∧ s.backendError = false
  | .answer seg => s.backendError = true → s.backendClosed = true ∨ seg = []
  | .backendRun => s.backendError = false → s.client.error = true → s.backendIn = []
  | .clientFails => s.clientSocket = [] ∧ s.inQueue = [] ∧ s.outQueue = []
  | .backendFails => s.backendSocket = [] ∧ s.backendIn = [] ∧ s.backendOut = []
  | .clientAborts => s.client.error = true → s.backendIn = [] ∧ s.backendOut = []
  | .backendAborts => s.backendError = true → s.inQueue = [] ∧ s.outQueue = []
  | _ => True

/-- A client is not handed to a unix socket, and a handed over client keeps to
`FitsPassing`. -/
structure Fits (l : Listener) (s : Session) (e : Event) : Prop where
  address : ∀ info, s.handOver l e = some info → e.socket.isSome → info.unixPath = none
  passing : s.phase = .passing → s.FitsPassing e

variable {l : Listener} {m : Moment} {s t : Session} {e : Event} {f : Found} {info : DomainInfo}
  {x : Local} {bs : Bytes}

/-- The bytes hold a PROXY header where one is expected. -/
def Listener.Stripped (l : Listener) (bs : Bytes) : Prop :=
  l.proxyProtocolEnabled = true → ∃ n r, proxyProtocolParse bs = .header n r

theorem Listener.Stripped.append (h : l.Stripped bs) (seg : Bytes) : l.Stripped (bs++seg) := by
  intro hp
  obtain ⟨n,r,hparse⟩ := h hp
  exact ⟨n,r,proxyProtocolParse_append hparse (List.prefix_append bs seg)⟩

theorem ownBytes_append (h : l.Stripped bs) (seg : Bytes) :
    l.ownBytes (bs++seg) = l.ownBytes bs++seg := by
  rw [Listener.ownBytes,Listener.ownBytes]
  cases hp : l.proxyProtocolEnabled with
  | false => rfl
  | true =>
      obtain ⟨n,r,hparse⟩ := h hp
      rw [proxyProtocolParse_append hparse (List.prefix_append bs seg),hparse]
      exact List.drop_append_of_le_length (header_le_length hparse)

theorem ownBytes_header {n : ℕ} {r : ProxyResult} (hp : l.proxyProtocolEnabled = true)
    (h : proxyProtocolParse bs = .header n r) : l.ownBytes bs = bs.drop n := by
  rw [Listener.ownBytes,if_pos hp,h]

/-- Without a number of bytes to skip the reader keeps all bytes. -/
theorem fetch_eq (h : 0 ≤ s.client.skipBytes) : s.fetch =
    if (s.client.inBuf++s.inQueue).length < s.client.skipBytes then
      (s.withInput (s.client.inBuf++s.inQueue) s.client.skipBytes,false)
    else (s.withInput (s.client.inBuf++s.inQueue) 0,decide (s.client.inBuf++s.inQueue ≠ [])) := by
  rw [Session.fetch]
  dsimp only
  rw [if_neg (by omega)]

theorem setUpAddresses_unix (info : DomainInfo) (x : Local) (port : ℤ)
    (h : info.unixPath.isSome) :
    setUpAddresses (getsockname info x) info.target info.targetIpv6 port = none := by
  rw [getsockname,if_pos h,setUpAddresses]

/-- No assertion fails on the way to an IP address. -/
theorem setUpAddresses_isSome (info : DomainInfo) (x : Local) (port : ℤ)
    (h : info.unixPath = none) :
    (setUpAddresses (getsockname info x) info.target info.targetIpv6 port).isSome := by
  have hmapped : is4in6 (List.replicate 10 0++[0xff,0xff]++x.addrIpv6.drop 12) = true := by
    rw [is4in6,List.take_left' (by rfl)]
    rfl
  rw [getsockname,if_neg (by simp [h])]
  split_ifs with ht h4
  · simp [setUpAddresses,ht]
  · rw [setUpAddresses,if_neg ht,if_pos h4,if_pos hmapped]
    rfl
  · simp [setUpAddresses,h4,not_not.mp ht]

/-- A client that was handed over. -/
def Session.passed (s : Session) (ends : Ends) : Session :=
  {s with phase := .passing, ends := ends, backendOut := s.backendOut++s.client.inBuf,
          client := {s.client with inBuf := []}}

theorem proxyConnection_cases (s : Session) (info : DomainInfo) (socket : Option Local) :
    s.proxyConnection l (some info) socket = s.fail ∨
    (s.proxyConnection l (some info) socket = {s with phase := .aborted} ∧
      info.unixPath.isSome ∧ socket.isSome) ∨
    (∃ ends, s.proxyConnection l (some info) socket = s.passed ends) ∧ info.unixPath = none := by
  unfold Session.proxyConnection
  dsimp only
  split_ifs with htarget
  · exact Or.inl rfl
  · cases socket with
    | none => exact Or.inl rfl
    | some x =>
        right
        cases hu : info.unixPath with
        | some path =>
            left
            dsimp only
            rw [setUpAddresses_unix info x _ (by simp [hu])]
            exact ⟨rfl,rfl,rfl⟩
        | none =>
            right
            obtain ⟨ends,he⟩ := Option.isSome_iff_exists.mp
              (setUpAddresses_isSome info x (l.backendPort info) hu)
            dsimp only
            rw [he]
            exact ⟨⟨ends,rfl⟩,rfl⟩

/-- A handover to a unix socket that opens is never a success. -/
theorem proxyConnection_unix (s : Session) (socket : Option Local) (hu : info.unixPath.isSome)
    (hs : socket.isSome) : (s.proxyConnection l (some info) socket).phase = .aborted := by
  obtain ⟨x,rfl⟩ := Option.isSome_iff_exists.mp hs
  have htarget : noTarget info = false := by
    rw [noTarget,Option.isNone_eq_false_iff.mpr hu]
    rfl
  rw [Session.proxyConnection,htarget,setUpAddresses_unix info x _ hu]
  rfl

/-- A probe that neither fails nor answers looks at the bytes only. -/
theorem probe_cases {c k : Conn} {memory : Bytes} {r : Option Res}
    (hc : c.wsState = .handshake ∨ c.wsState = .none) (herror : c.error = false)
    (h : PeekInput.probe id memory c = some (k,r)) :
    k.error = true ∨ (k.wsState = .active ∨ k.wsState = .httpStream) ∨
      ∃ w, (w = .handshake ∨ w = .none) ∧ k = {c with wsState := w} := by
  unfold PeekInput.probe at h
  split at h
  · cases h
    exact Or.inr (Or.inr ⟨c.wsState,hc,rfl⟩)
  · split at h
    · cases h
    · next t ht =>
        cases h
        obtain hfailed | hanswers | ⟨hw,hskipped,hfailed⟩ := PeekMemory.probe_cases ht
        · exact Or.inl hfailed
        · exact Or.inr (Or.inl hanswers)
        · refine Or.inr (Or.inr ⟨t.wsState,hw,?_⟩)
          rw [hskipped,hfailed,List.drop_zero,← herror]

/-- The parser takes at most a PROXY header off the bytes of a client. -/
inductive Advances (s : Session) : Session → Prop
  | keeps {w : WorkerProcess.WsState} (hw : w = .handshake ∨ w = .none) :
      Advances s {s with client := {s.client with wsState := w}}
  | strips {w : WorkerProcess.WsState} {n : ℕ} {r : ProxyResult} (hw : w = .handshake ∨ w = .none)
      (hs : s.proxyProtocol = true) (hr : proxyProtocolParse s.client.inBuf = .header n r) :
      Advances s {s with client := {s.client with wsState := w, inBuf := s.client.inBuf.drop n}
                         proxyProtocol := false}

/-- A client is only sent to an entry that exists. -/
theorem detect_cases (l : Listener) (m : Moment) (buf : Bytes) :
    l.detect m buf = .answered ∨ l.detect m buf = .other ∨ (∃ n, l.detect m buf = .need n) ∨
      ∃ info, l.detect m buf = .proxy (some info) := by
  have hdefault : l.registry.allowOnlyTls = true →
      ∃ info, Found.proxy l.registry.defaultDomainInfo = .proxy (some info) := by
    intro h
    obtain ⟨info,hinfo⟩ := Option.isSome_iff_exists.mp
      ((register_valid l.resolve l.entries).default_isSome.trans h)
    exact ⟨info,congrArg Found.proxy hinfo⟩
  rw [Listener.detect]
  split_ifs with h9 hhttp htls honly
  · exact Or.inr (Or.inr (Or.inl ⟨_,rfl⟩))
  · exact Or.inr (Or.inl rfl)
  · have honly : l.registry.allowOnlyTls = true := by
      simp only [looksTls,Bool.and_eq_true] at htls
      exact htls.1.1.1.2
    rw [Listener.checkHello]
    cases l.registry.getSniDomainInfo (buf.take 4096) with
    | none =>
        dsimp only
        split_ifs
        · exact Or.inr (Or.inr (Or.inl ⟨_,rfl⟩))
        · exact Or.inr (Or.inr (Or.inr (hdefault honly)))
    | some info =>
        dsimp only
        split_ifs
        · exact Or.inr (Or.inr (Or.inl ⟨_,rfl⟩))
        · exact Or.inr (Or.inr (Or.inr ⟨info,rfl⟩))
        · exact Or.inl rfl
  · exact Or.inr (Or.inr (Or.inr (hdefault honly)))
  · exact Or.inr (Or.inl rfl)

/-- A client whose end is decided, or one that goes on with its own bytes. -/
def Resolved (s t : Session) (f : Found) : Prop :=
  f = .fail ∨ f = .answered ∨ f = .other ∨
    (Advances s t ∧ (f = .needMore ∨ (∃ n, f = .need n) ∨
      ((∃ info, f = .proxy (some info)) ∧ t.proxyProtocol = false)))

theorem stripProxy_cases (l : Listener) (m : Moment) {w : WorkerProcess.WsState}
    (hw : w = .handshake ∨ w = .none) (ht : t = {s with client := {s.client with wsState := w}}) :
    match t.stripProxy m with
    | (t,some f) => Resolved s t f
    | (t,none) => Resolved s t (l.detect m t.client.inBuf) := by
  have hdetect : ∀ u : Session, Advances s u → u.proxyProtocol = false →
      Resolved s u (l.detect m u.client.inBuf) := by
    intro u hu hp
    obtain h | h | h | h := detect_cases l m u.client.inBuf
    · exact Or.inr (Or.inl h)
    · exact Or.inr (Or.inr (Or.inl h))
    · exact Or.inr (Or.inr (Or.inr ⟨hu,Or.inr (Or.inl h)⟩))
    · exact Or.inr (Or.inr (Or.inr ⟨hu,Or.inr (Or.inr ⟨h,hp⟩)⟩))
  have hkeeps : Advances s t := by
    rw [ht]
    exact .keeps hw
  rw [Session.stripProxy]
  by_cases hp : t.proxyProtocol = true
  · rw [if_pos hp]
    cases hparse : proxyProtocolParse t.client.inBuf with
    | more =>
        dsimp only
        split_ifs
        · exact Or.inr (Or.inr (Or.inr ⟨hkeeps,Or.inr (Or.inl ⟨_,rfl⟩)⟩))
        · exact Or.inr (Or.inr (Or.inr ⟨hkeeps,Or.inl rfl⟩))
    | bad => exact Or.inl rfl
    | header n r =>
        have hstrips : Advances s {t with
            client := {t.client with inBuf := t.client.inBuf.drop n}, proxyProtocol := false} := by
          subst ht
          exact .strips hw hp hparse
        dsimp only
        split_ifs
        · exact Or.inl rfl
        · exact Or.inr (Or.inr (Or.inr ⟨hstrips,Or.inl rfl⟩))
        · exact hdetect _ hstrips rfl
  · rw [if_neg hp]
    exact hdetect t hkeeps (Bool.eq_false_iff.mpr hp)

theorem parseBehind_cases (l : Listener) (m : Moment) {w : WorkerProcess.WsState}
    (hw : w = .handshake ∨ w = .none) (ht : t = {s with client := {s.client with wsState := w}}) :
    Resolved s (t.parseBehind l m).1 (t.parseBehind l m).2 := by
  rw [Session.parseBehind]
  split_ifs with hshort
  · refine Or.inr (Or.inr (Or.inr ⟨?_,Or.inr (Or.inl ⟨_,rfl⟩)⟩))
    rw [ht]
    exact .keeps hw
  · have hstrip := stripProxy_cases l m hw ht
    cases hresult : t.stripProxy m with
    | mk u f =>
        rw [hresult] at hstrip
        cases f with
        | none => exact hstrip
        | some f => exact hstrip

theorem parseExecute_cases (l : Listener) (m : Moment)
    (hs : s.client.wsState = .handshake ∨ s.client.wsState = .none)
    (herror : s.client.error = false) :
    Resolved s (s.parseExecute l m).1 (s.parseExecute l m).2 := by
  rw [Session.parseExecute]
  cases hprobe : PeekInput.probe id m.memory s.client with
  | none => exact Or.inr (Or.inr (Or.inl rfl))
  | some found =>
      obtain ⟨k,r⟩ := found
      dsimp only
      split_ifs with hfailed hanswers
      · exact Or.inl rfl
      · exact Or.inr (Or.inl rfl)
      · obtain herr | hanswer | ⟨w,hw,rfl⟩ := probe_cases hs herror hprobe
        · exact absurd herr hfailed
        · exact absurd hanswer hanswers
        · cases r with
          | some r => exact Or.inr (Or.inr (Or.inr ⟨.keeps hw,Or.inl rfl⟩))
          | none => exact parseBehind_cases l m hw rfl

theorem stripProxy_phase (m : Moment) (s : Session) : (s.stripProxy m).1.phase = s.phase := by
  rw [Session.stripProxy]
  split_ifs
  · cases proxyProtocolParse s.client.inBuf with
    | more => rfl
    | bad => rfl
    | header n r =>
        dsimp only
        split_ifs <;> rfl
  · rfl

theorem parseBehind_phase (l : Listener) (m : Moment) (s : Session) :
    (s.parseBehind l m).1.phase = s.phase := by
  have hstrip := stripProxy_phase m s
  rw [Session.parseBehind]
  split_ifs
  · rfl
  · cases hresult : s.stripProxy m with
    | mk u f =>
        rw [hresult] at hstrip
        cases f with
        | none => exact hstrip
        | some f => exact hstrip

theorem parseExecute_phase (l : Listener) (m : Moment) (s : Session) :
    (s.parseExecute l m).1.phase = s.phase := by
  rw [Session.parseExecute]
  cases PeekInput.probe id m.memory s.client with
  | none => rfl
  | some found =>
      obtain ⟨k,r⟩ := found
      dsimp only
      split_ifs
      · rfl
      · rfl
      · cases r with
        | some r => rfl
        | none => exact parseBehind_phase l m _

/-- All bytes that were read wait in the buffers, and nothing was sent. -/
structure Detecting (l : Listener) (s : Session) : Prop where
  skip : 0 ≤ s.client.skipBytes
  ws : s.client.wsState = .handshake ∨ s.client.wsState = .none
  header : s.proxyProtocol = true →
    l.proxyProtocolEnabled = true ∧ s.client.inBuf++s.inQueue = s.received
  own : s.proxyProtocol = false →
    l.Stripped s.received ∧ s.client.inBuf++s.inQueue = l.ownBytes s.received
  unsent : s.toBackend = [] ∧ s.backendSocket = [] ∧ s.backendOut = []
  silent : s.outQueue = [] ∧ s.clientSocket = [] ∧ s.backendIn = [] ∧ s.toClient = [] ∧
    s.answers = []
  live : s.client.error = false ∧ s.clientClosed = false ∧ s.backendError = false ∧
    s.backendClosed = false

theorem Detecting.receive (h : Detecting l s) (seg : Bytes) :
    Detecting l {s with inQueue := s.inQueue++seg, received := s.received++seg} where
  skip := h.skip
  ws := h.ws
  header := by
    intro hp
    obtain ⟨hl,hb⟩ := h.header hp
    exact ⟨hl,by rw [← List.append_assoc,hb]⟩
  own := by
    intro hp
    obtain ⟨hl,hb⟩ := h.own hp
    exact ⟨hl.append seg,by rw [← List.append_assoc,hb,ownBytes_append hl]⟩
  unsent := h.unsent
  silent := h.silent
  live := h.live

theorem Detecting.withInput (h : Detecting l s) {k : ℤ} (hk : 0 ≤ k) :
    Detecting l (s.withInput (s.client.inBuf++s.inQueue) k) where
  skip := hk
  ws := h.ws
  header := by
    intro hp
    rw [Session.withInput,List.append_nil]
    exact h.header hp
  own := by
    intro hp
    rw [Session.withInput,List.append_nil]
    exact h.own hp
  unsent := h.unsent
  silent := h.silent
  live := h.live

theorem Detecting.fetch (h : Detecting l s) {b : Bool} (hf : s.fetch = (t,b)) :
    Detecting l t ∧ t.phase = s.phase := by
  rw [fetch_eq h.skip] at hf
  split_ifs at hf
  · rw [← (Prod.mk.inj hf).1]
    exact ⟨h.withInput h.skip,rfl⟩
  · rw [← (Prod.mk.inj hf).1]
    exact ⟨h.withInput (le_refl 0),rfl⟩

theorem Detecting.advances (h : Detecting l s) (ha : Advances s t) : Detecting l t := by
  cases ha with
  | keeps hw => exact ⟨h.skip,hw,h.header,h.own,h.unsent,h.silent,h.live⟩
  | strips hw hs hr =>
      obtain ⟨hl,hb⟩ := h.header hs
      have hparse := proxyProtocolParse_append hr (List.prefix_append _ s.inQueue)
      rw [hb] at hparse
      refine ⟨h.skip,hw,fun hp => Bool.noConfusion hp,fun _ => ⟨fun _ => ⟨_,_,hparse⟩,?_⟩,
        h.unsent,h.silent,h.live⟩
      rw [ownBytes_header hl hparse,← hb,List.drop_append_of_le_length (header_le_length hr)]

theorem Detecting.need (h : Detecting l s) (n : ℕ) :
    Detecting l {s with client := {s.client with skipBytes := n}} :=
  ⟨Int.natCast_nonneg n,h.ws,h.header,h.own,h.unsent,h.silent,h.live⟩

theorem Detecting.write (h : Detecting l s) : Detecting l s.write := by
  obtain ⟨hout,hsocket,hrest⟩ := h.silent
  refine ⟨h.skip,h.ws,h.header,h.own,h.unsent,⟨rfl,?_,hrest⟩,h.live⟩
  rw [Session.write,hsocket,hout]
  rfl

theorem Detecting.socketWriter (h : Detecting l s) (n : ℕ) : Detecting l (s.socketWriter n) := by
  obtain ⟨hout,hsocket,hback,hclient,hanswers⟩ := h.silent
  refine ⟨h.skip,h.ws,h.header,h.own,h.unsent,⟨hout,?_,hback,?_,hanswers⟩,h.live⟩
  · rw [Session.socketWriter,hsocket]
    exact List.drop_nil
  · rw [Session.socketWriter,hsocket,hclient,List.take_nil]
    rfl

/-- What the two connections of a handed over client hold together. -/
structure Passing (l : Listener) (s : Session) : Prop where
  skip : 0 ≤ s.client.skipBytes
  stripped : l.Stripped s.received
  bytes : s.toBackend++s.backendSocket++s.backendOut++(s.client.inBuf++s.inQueue) =
    l.ownBytes s.received
  answers : s.toClient++s.clientSocket++s.outQueue++s.backendIn = s.answers
  clientClosed : s.clientClosed = true → s.client.error = true
  backendClosed : s.backendClosed = true → s.backendError = true

/-- Nothing is held where it cannot be moved on. -/
structure Lossless (s : Session) : Prop where
  inBuf : s.client.inBuf = []
  client : s.client.error = true → s.inQueue = [] ∧ s.outQueue = []
  clientSocket : s.clientClosed = true → s.clientSocket = []
  backend : s.backendError = true → s.backendIn = [] ∧ s.backendOut = []
  backendSocket : s.backendClosed = true → s.backendSocket = []

/-- A part of a sum is left out only when it is empty. -/
theorem length_unless (b : Bool) (bs : Bytes) :
    (if b then [] else bs).length ≤ bs.length ∧
      ((if b then [] else bs).length = bs.length ↔ (b = true → bs = [])) := by
  cases b with
  | false => simp
  | true => simp [eq_comm]

theorem unless_eq {b : Bool} {bs : Bytes} (h : b = true → bs = []) :
    (if b then [] else bs) = bs := by
  cases b with
  | false => rfl
  | true => exact (h rfl).symm

theorem transparent_iff (hs : s.phase = .passing) (hp : Passing l s) :
    Transparent l s ↔ Lossless s := by
  constructor
  · intro h
    have hpassed := congrArg List.length ((h.passed hs).trans hp.bytes.symm)
    have hanswered := congrArg List.length ((h.answered hs).trans hp.answers.symm)
    simp only [Session.passingOn,Session.underWay,List.length_append] at hpassed hanswered
    have hbs := length_unless s.backendClosed s.backendSocket
    have hbo := length_unless s.backendError s.backendOut
    have hbi := length_unless s.backendError s.backendIn
    have hcs := length_unless s.clientClosed s.clientSocket
    have hco := length_unless s.client.error s.outQueue
    have hci := length_unless s.client.error s.inQueue
    exact ⟨List.length_eq_zero_iff.mp (by omega),
      fun hc => ⟨hci.2.mp (by omega) hc,hco.2.mp (by omega) hc⟩,hcs.2.mp (by omega),
      fun hb => ⟨hbi.2.mp (by omega) hb,hbo.2.mp (by omega) hb⟩,hbs.2.mp (by omega)⟩
  · intro h
    refine ⟨by simp [hs],fun _ => ?_,fun _ => ?_⟩
    · rw [← hp.bytes,h.inBuf,Session.passingOn,unless_eq h.backendSocket,
        unless_eq fun hb => (h.backend hb).2,unless_eq fun hc => (h.client hc).1]
      simp only [List.append_assoc,List.nil_append]
    · rw [← hp.answers,Session.underWay,unless_eq h.clientSocket,
        unless_eq fun hc => (h.client hc).2,unless_eq fun hb => (h.backend hb).1]
      simp only [List.append_assoc]

theorem Detecting.passed (h : Detecting l s) (hp : s.proxyProtocol = false) (ends : Ends) :
    Passing l (s.passed ends) ∧ Transparent l (s.passed ends) := by
  obtain ⟨hstripped,hbytes⟩ := h.own hp
  obtain ⟨hout,hsocket,hback,hclient,hanswers⟩ := h.silent
  obtain ⟨herror,hclosed,hbackend,hbackendClosed⟩ := h.live
  have hpassing : Passing l (s.passed ends) := by
    refine ⟨h.skip,hstripped,?_,?_,?_,?_⟩
    · simp [Session.passed,h.unsent,hbytes]
    · simp [Session.passed,hout,hsocket,hback,hclient,hanswers]
    · simp [Session.passed,hclosed]
    · simp [Session.passed,hbackendClosed]
  refine ⟨hpassing,(transparent_iff rfl hpassing).mpr ⟨rfl,?_,?_,?_,?_⟩⟩
  · simp [Session.passed,herror]
  · simp [Session.passed,hclosed]
  · simp [Session.passed,hbackend]
  · simp [Session.passed,hbackendClosed]

/-- What one step can make of a client that is not handed over yet. An assertion
fails only where `blocked` holds. -/
inductive Moves (l : Listener) (blocked : Prop) : Session → Prop
  | waits {t : Session} (hp : t.phase = .detecting) (ht : Detecting l t) : Moves l blocked t
  | fails {t : Session} (hp : t.phase = .detecting) (ht : t.client.error = true) : Moves l blocked t
  | leaves {t : Session} (hp : t.phase = .answered ∨ t.phase = .other) : Moves l blocked t
  | passes {t : Session} (ht : Detecting l t) (hp : t.proxyProtocol = false) (ends : Ends) :
      Moves l blocked (t.passed ends)
  | aborts {t : Session} (hp : t.phase = .aborted) (hb : blocked) : Moves l blocked t

theorem Moves.write {blocked : Prop} (h : Moves l blocked t) : Moves l blocked t.write := by
  cases h with
  | waits hp ht => exact .waits hp ht.write
  | fails hp ht => exact .fails hp ht
  | leaves hp => exact .leaves hp
  | passes ht hp ends => exact .passes ht.write hp ends
  | aborts hp hb => exact .aborts hp hb

theorem moves_proxyConnection {blocked : Prop} (hp : s.phase = .detecting) (h : Detecting l s)
    (hs : s.proxyProtocol = false) (socket : Option Local)
    (hb : info.unixPath.isSome → socket.isSome → blocked) :
    Moves l blocked (s.proxyConnection l (some info) socket) := by
  obtain hfail | ⟨habort,hu,hopen⟩ | ⟨⟨ends,hpass⟩,-⟩ := proxyConnection_cases (l := l) s info socket
  · rw [hfail]
    exact .fails hp rfl
  · rw [habort]
    exact .aborts rfl (hb hu hopen)
  · rw [hpass]
    exact .passes h hs ends

/-- A step hands a client to a unix socket that opens. -/
def Blocked (l : Listener) (s : Session) (e : Event) : Prop :=
  ∃ info, s.handOver l e = some info ∧ e.socket.isSome ∧ info.unixPath.isSome

theorem moves_settle {blocked : Prop} (h : Detecting l s) (hr : Resolved s t f)
    (hp : t.phase = .detecting)
    (hb : ∀ info, f = .proxy (some info) → info.unixPath.isSome → m.socket.isSome → blocked) :
    Moves l blocked (t.settle l m f) := by
  obtain rfl | rfl | rfl | ⟨ha,rfl | ⟨n,rfl⟩ | ⟨⟨info,rfl⟩,hs⟩⟩ := hr
  · exact .fails hp rfl
  · exact .leaves (Or.inl rfl)
  · exact .leaves (Or.inr rfl)
  · exact .waits hp (h.advances ha)
  · exact .waits hp ((h.advances ha).need n)
  · exact moves_proxyConnection hp (h.advances ha) hs m.socket (hb info rfl)

theorem moves_read (hp : s.phase = .detecting) (he : s.client.error = false) (h : Detecting l s)
    (m : Moment) : Moves l (Blocked l s (.run m)) (s.read l m) := by
  rw [Session.read,hp]
  dsimp only
  cases hfetch : s.fetch with
  | mk t b =>
      obtain ⟨ht,hphase⟩ := h.fetch hfetch
      rw [hp] at hphase
      cases b with
      | false => exact .waits hphase ht
      | true =>
          apply moves_settle ht (parseExecute_cases l m ht.ws ht.live.1)
          · rw [parseExecute_phase,hphase]
          · intro info hinfo hu hs
            refine ⟨info,?_,hs,hu⟩
            rw [Session.handOver,if_pos ⟨hp,he⟩,hfetch]
            dsimp only
            rw [hinfo]

theorem moves_alarm (hp : s.phase = .detecting) (he : s.client.error = false) (h : Detecting l s)
    (m : Moment) : Moves l (Blocked l s (.alarm m)) (s.alarm l m) := by
  rw [Session.alarm,hp]
  dsimp only
  split_ifs with hproxy
  · exact .fails hp rfl
  · have hproxy := Bool.eq_false_iff.mpr hproxy
    cases hdefault : l.registry.defaultDomainInfo with
    | none => exact .fails hp rfl
    | some info =>
        apply moves_proxyConnection hp h hproxy
        intro hu hs
        refine ⟨info,?_,hs,hu⟩
        rw [Session.handOver,if_pos ⟨hp,he,hproxy⟩,hdefault]

/-- The step with which a client is handed to a unix socket is its last one. -/
theorem step_blocked (hp : s.phase = .detecting) (hb : Blocked l s e) :
    (l.step s e).phase = .aborted := by
  obtain ⟨info,hinfo,hs,hu⟩ := hb
  cases e with
  | run m =>
      rw [Session.handOver] at hinfo
      split_ifs at hinfo with hlive
      cases hfetch : s.fetch with
      | mk t b =>
          rw [hfetch] at hinfo
          cases b with
          | false => exact absurd hinfo (by simp)
          | true =>
              dsimp only at hinfo
              rw [Listener.step,if_neg (by simp [hp]),if_neg (by simp [hlive.2]),Session.read,hp]
              dsimp only
              rw [hfetch]
              dsimp only
              cases hf : (t.parseExecute l m).2 with
              | proxy x =>
                  rw [hf] at hinfo
                  obtain rfl : x = some info := hinfo
                  exact proxyConnection_unix _ m.socket hu hs
              | _ => simp [hf] at hinfo
  | alarm m =>
      rw [Session.handOver] at hinfo
      split_ifs at hinfo with hlive
      rw [Listener.step,if_neg (by simp [hp]),if_neg (by simp [hlive.2.1]),Session.alarm,hp]
      dsimp only
      rw [if_neg (by simp [hlive.2.2]),hinfo]
      exact proxyConnection_unix s m.socket hu hs
  | _ => exact absurd hinfo (by simp [Session.handOver])

/-- The reader of a handed over client passes all bytes on, or none. -/
theorem read_passing (hs : s.phase = .passing) (hp : Passing l s) (m : Moment) : s.read l m =
    if (s.client.inBuf++s.inQueue).length < s.client.skipBytes then
      s.withInput (s.client.inBuf++s.inQueue) s.client.skipBytes
    else (s.withInput (s.client.inBuf++s.inQueue) 0).tcpProxyPassParseExecute := by
  rw [Session.read,hs]
  dsimp only
  rw [fetch_eq hp.skip]
  split_ifs with hlt
  · rfl
  · by_cases hnil : s.client.inBuf++s.inQueue = []
    · rw [hnil]
      simp [Session.withInput,Session.tcpProxyPassParseExecute]
    · rw [decide_eq_true hnil]

theorem Passing.withInput (hp : Passing l s) {k : ℤ} (hk : 0 ≤ k) :
    Passing l (s.withInput (s.client.inBuf++s.inQueue) k) where
  skip := hk
  stripped := hp.stripped
  bytes := by
    rw [Session.withInput,List.append_nil]
    exact hp.bytes
  answers := hp.answers
  clientClosed := hp.clientClosed
  backendClosed := hp.backendClosed

theorem Passing.parseExecute (hp : Passing l s) : Passing l s.tcpProxyPassParseExecute where
  skip := hp.skip
  stripped := hp.stripped
  bytes := by
    rw [Session.tcpProxyPassParseExecute,List.nil_append,← hp.bytes]
    simp only [List.append_assoc]
  answers := hp.answers
  clientClosed := hp.clientClosed
  backendClosed := hp.backendClosed

theorem Passing.write (hp : Passing l s) : Passing l s.write where
  skip := hp.skip
  stripped := hp.stripped
  bytes := hp.bytes
  answers := by
    rw [Session.write,List.append_nil,← List.append_assoc]
    exact hp.answers
  clientClosed := hp.clientClosed
  backendClosed := hp.backendClosed

theorem Passing.read (hs : s.phase = .passing) (hp : Passing l s) (m : Moment) :
    (s.read l m).phase = .passing ∧ Passing l (s.read l m) := by
  rw [read_passing hs hp m]
  split_ifs
  · exact ⟨hs,hp.withInput hp.skip⟩
  · exact ⟨hs,(hp.withInput (le_refl 0)).parseExecute⟩

theorem Passing.backendReadWrite (hp : Passing l s) : Passing l s.backendReadWrite where
  skip := hp.skip
  stripped := hp.stripped
  bytes := by
    rw [Session.backendReadWrite,List.append_nil,← List.append_assoc s.toBackend]
    exact hp.bytes
  answers := by
    rw [Session.backendReadWrite,List.append_nil,← List.append_assoc]
    exact hp.answers
  clientClosed := hp.clientClosed
  backendClosed := hp.backendClosed

theorem Passing.socketWriter (hp : Passing l s) (n : ℕ) : Passing l (s.socketWriter n) where
  skip := hp.skip
  stripped := hp.stripped
  bytes := hp.bytes
  answers := by
    rw [Session.socketWriter,List.append_assoc s.toClient,List.take_append_drop]
    exact hp.answers
  clientClosed := hp.clientClosed
  backendClosed := hp.backendClosed

theorem Passing.backendSocketWriter (hp : Passing l s) (n : ℕ) :
    Passing l (s.backendSocketWriter n) where
  skip := hp.skip
  stripped := hp.stripped
  bytes := by
    rw [Session.backendSocketWriter,List.append_assoc s.toBackend,List.take_append_drop]
    exact hp.bytes
  answers := hp.answers
  clientClosed := hp.clientClosed
  backendClosed := hp.backendClosed

theorem step_passing (hs : s.phase = .passing) (hp : Passing l s) (e : Event) :
    (l.step s e).phase = .passing ∧ Passing l (l.step s e) := by
  have hkeep : s.phase = .passing ∧ Passing l s := ⟨hs,hp⟩
  obtain ⟨hskip,hstripped,hbytes,hanswers,hclosed,hbackend⟩ := hp
  rw [Listener.step.eq_def,if_neg (by simp [hs])]
  cases e with
  | receive seg =>
      dsimp only
      split_ifs
      · exact hkeep
      · refine ⟨hs,hskip,hstripped.append seg,?_,hanswers,hclosed,hbackend⟩
        rw [ownBytes_append hstripped,← hbytes]
        simp only [List.append_assoc]
  | run m =>
      dsimp only
      split_ifs
      · exact hkeep
      · obtain ⟨hphase,hread⟩ := Passing.read hs hkeep.2 m
        exact ⟨hphase,hread.write⟩
  | alarm m =>
      dsimp only
      rw [Session.alarm,hs]
      split_ifs <;> exact hkeep
  | clientWrites n =>
      dsimp only
      split_ifs
      · exact hkeep
      · exact ⟨hs,hkeep.2.socketWriter n⟩
  | answer seg =>
      dsimp only
      split_ifs
      · refine ⟨hs,hskip,hstripped,hbytes,?_,hclosed,hbackend⟩
        rw [← hanswers]
        simp only [List.append_assoc]
      · exact hkeep
  | backendRun =>
      dsimp only
      split_ifs
      · exact ⟨hs,hkeep.2.backendReadWrite⟩
      · exact hkeep
  | backendWrites n =>
      dsimp only
      split_ifs
      · exact ⟨hs,hkeep.2.backendSocketWriter n⟩
      · exact hkeep
  | clientFails => exact ⟨hs,hskip,hstripped,hbytes,hanswers,fun _ => rfl,hbackend⟩
  | backendFails =>
      dsimp only
      rw [if_pos hs]
      exact ⟨hs,hskip,hstripped,hbytes,hanswers,hclosed,fun _ => rfl⟩
  | clientAborts =>
      dsimp only
      split_ifs
      · exact ⟨hs,hskip,hstripped,hbytes,hanswers,hclosed,fun _ => rfl⟩
      · exact hkeep
  | backendAborts =>
      dsimp only
      split_ifs
      · exact ⟨hs,hskip,hstripped,hbytes,hanswers,fun _ => rfl,hbackend⟩
      · exact hkeep

/-- A run of a handed over client leaves nothing behind exactly when no bytes wait, or all that wait
are passed on to a backend. -/
theorem run_lossless_iff (hs : s.phase = .passing) (hp : Passing l s) (h : Lossless s)
    (he : s.client.error = false) (hopen : s.clientClosed = false) (m : Moment) :
    Lossless (s.read l m).write ↔ s.inQueue = [] ∨
      s.client.skipBytes ≤ s.inQueue.length ∧ s.backendError = false := by
  obtain ⟨hin,-,-,hback,hbs⟩ := h
  rw [read_passing hs hp m,hin,List.nil_append]
  split_ifs with hlt
  · constructor
    · exact fun h => Or.inl h.inBuf
    · intro hfits
      have hnil := hfits.resolve_right fun hr => absurd hlt (not_lt.mpr hr.1)
      exact ⟨hnil,fun h => by simp [Session.write,Session.withInput,he] at h,
        fun h => by simp [Session.write,Session.withInput,hopen] at h,hback,hbs⟩
  · constructor
    · intro h
      cases hb : s.backendError with
      | false => exact Or.inr ⟨not_lt.mp hlt,rfl⟩
      | true => exact Or.inl (List.append_eq_nil_iff.mp (h.backend hb).2).2
    · intro hfits
      refine ⟨rfl,fun h => by simp [Session.write,Session.withInput,
        Session.tcpProxyPassParseExecute,he] at h,fun h => by simp [Session.write,
        Session.withInput,Session.tcpProxyPassParseExecute,hopen] at h,fun hb => ?_,hbs⟩
      have hb : s.backendError = true := hb
      have hnil := hfits.resolve_right (by simp [hb])
      exact ⟨(hback hb).1,List.append_eq_nil_iff.mpr ⟨(hback hb).2,hnil⟩⟩

/-- A step leaves nothing behind exactly when it fits. -/
theorem step_lossless_iff (hs : s.phase = .passing) (hp : Passing l s) (h : Lossless s)
    (e : Event) : Lossless (l.step s e) ↔ s.FitsPassing e := by
  have hkeep : ∀ {p : Prop}, p → (Lossless s ↔ p) := fun hfits => iff_of_true h hfits
  have hkept := h
  obtain ⟨hin,hclient,hcs,hback,hbs⟩ := h
  have hopen : s.client.error = false → s.clientClosed = false := fun he =>
    Bool.eq_false_iff.mpr fun hc => by simp [hp.clientClosed hc] at he
  have hbopen : s.backendError = false → s.backendClosed = false := fun he =>
    Bool.eq_false_iff.mpr fun hc => by simp [hp.backendClosed hc] at he
  rw [Listener.step.eq_def,if_neg (by simp [hs])]
  cases e with
  | receive seg =>
      dsimp only [Session.FitsPassing]
      split_ifs with hc
      · exact hkeep fun _ => Or.inl hc
      · constructor
        · intro h he
          exact Or.inr (List.append_eq_nil_iff.mp (h.client he).1).2
        · intro hfits
          refine ⟨hin,fun he => ?_,hcs,hback,hbs⟩
          rw [(hclient he).1,(hfits he).resolve_left hc]
          exact ⟨rfl,(hclient he).2⟩
  | run m =>
      dsimp only [Session.FitsPassing]
      cases he : s.client.error with
      | true =>
          rw [if_pos rfl]
          exact hkeep fun h => Bool.noConfusion h
      | false =>
          rw [if_neg (by simp),run_lossless_iff hs hp hkept he (hopen he) m]
          exact ⟨fun h _ => h,fun h => h rfl⟩
  | alarm m =>
      dsimp only
      rw [Session.alarm,hs]
      split_ifs <;> exact hkeep trivial
  | clientWrites n =>
      dsimp only
      split_ifs with hc
      · exact hkeep trivial
      · exact iff_of_true ⟨hin,hclient,fun h => absurd h hc,hback,hbs⟩ trivial
  | answer seg =>
      dsimp only [Session.FitsPassing]
      split_ifs with hc
      · constructor
        · intro h hb
          exact Or.inr (List.append_eq_nil_iff.mp (h.backend hb).1).2
        · intro hfits
          refine ⟨hin,hclient,hcs,fun hb => ?_,hbs⟩
          rw [(hback hb).1,(hfits hb).resolve_left (by simp [hc.2])]
          exact ⟨rfl,(hback hb).2⟩
      · exact hkeep fun _ => Or.inl (Bool.not_eq_false _ ▸ fun h => hc ⟨hs,h⟩)
  | backendRun =>
      dsimp only [Session.FitsPassing]
      split_ifs with hb
      · constructor
        · intro h _ he
          exact (List.append_eq_nil_iff.mp (h.client he).2).2
        · intro hfits
          refine ⟨hin,fun he => ?_,hcs,fun h => absurd h (by simp [Session.backendReadWrite,hb.2]),
            fun h => absurd h (by simp [Session.backendReadWrite,hbopen hb.2])⟩
          exact ⟨(hclient he).1,List.append_eq_nil_iff.mpr ⟨(hclient he).2,hfits hb.2 he⟩⟩
      · exact hkeep fun h => absurd ⟨hs,h⟩ hb
  | backendWrites n =>
      dsimp only
      split_ifs with hc
      · exact iff_of_true ⟨hin,hclient,hcs,hback,fun h => absurd h (by
          simp [Session.backendSocketWriter,hc.2])⟩ trivial
      · exact hkeep trivial
  | clientFails =>
      constructor
      · exact fun h => ⟨h.clientSocket rfl,h.client rfl⟩
      · exact fun hfits => ⟨hin,fun _ => hfits.2,fun _ => hfits.1,hback,hbs⟩
  | backendFails =>
      dsimp only
      rw [if_pos hs]
      constructor
      · exact fun h => ⟨h.backendSocket rfl,h.backend rfl⟩
      · exact fun hfits => ⟨hin,hclient,hcs,fun _ => hfits.2,fun _ => hfits.1⟩
  | clientAborts =>
      dsimp only [Session.FitsPassing]
      split_ifs with he
      · constructor
        · exact fun h _ => h.backend rfl
        · exact fun hfits => ⟨hin,hclient,hcs,fun _ => hfits he.2,hbs⟩
      · exact hkeep fun h => absurd ⟨hs,h⟩ he
  | backendAborts =>
      dsimp only [Session.FitsPassing]
      split_ifs with hb
      · constructor
        · exact fun h _ => h.client rfl
        · exact fun hfits => ⟨hin,fun _ => hfits hb.2,hcs,hback,hbs⟩
      · exact hkeep fun h => absurd ⟨hs,h⟩ hb

structure Tracked (l : Listener) (s : Session) : Prop where
  detecting : s.phase = .detecting → s.client.error = false → Detecting l s
  passing : s.phase = .passing → Passing l s
  transparent : Transparent l s

theorem tracked_accepted (l : Listener) : Tracked l l.accepted where
  detecting := by
    intro _ _
    refine ⟨le_refl 0,Or.inl rfl,fun hp => ⟨hp,rfl⟩,fun hp => ?_,⟨rfl,rfl,rfl⟩,
      ⟨rfl,rfl,rfl,rfl,rfl⟩,rfl,rfl,rfl,rfl⟩
    have hp : l.proxyProtocolEnabled = false := hp
    refine ⟨fun h => ?_,?_⟩
    · rw [hp] at h
      exact Bool.noConfusion h
    · rw [Listener.ownBytes,hp]
      rfl
  passing := fun h => Phase.noConfusion h
  transparent := ⟨Phase.noConfusion,fun h => Phase.noConfusion h,fun h => Phase.noConfusion h⟩

/-- A client that failed, or that is not followed any further. -/
def Ended (s : Session) : Prop :=
  s.phase = .detecting ∧ s.client.error = true ∨ s.phase = .answered ∨ s.phase = .other

theorem Ended.tracked (h : Ended s) : Tracked l s := by
  have hphase : s.phase ≠ .passing ∧ s.phase ≠ .aborted := by
    obtain ⟨h,-⟩ | h | h := h <;> simp [h]
  refine ⟨fun hp he => ?_,fun hp => absurd hp hphase.1,hphase.2,fun hp => absurd hp hphase.1,
    fun hp => absurd hp hphase.1⟩
  obtain ⟨-,h⟩ | h | h := h
  · exact absurd h (by simp [he])
  · exact absurd h (by simp [hp])
  · exact absurd h (by simp [hp])

theorem Ended.step (h : Ended s) (e : Event) : Ended (l.step s e) := by
  have hphase : s.phase ≠ .passing ∧ s.phase ≠ .aborted := by
    obtain ⟨h,-⟩ | h | h := h <;> simp [h]
  rw [Listener.step.eq_def,if_neg hphase.2]
  cases e with
  | receive seg =>
      dsimp only
      split_ifs <;> exact h
  | run m =>
      dsimp only
      split_ifs with he
      · exact h
      · obtain ⟨-,h⟩ | h | h := h
        · exact absurd h he
        · rw [Session.read,h]
          exact Or.inr (Or.inl h)
        · rw [Session.read,h]
          exact Or.inr (Or.inr h)
  | alarm m =>
      dsimp only
      split_ifs with he
      · exact h
      · obtain ⟨-,h⟩ | h | h := h
        · exact absurd h he
        · rw [Session.alarm,h]
          exact Or.inr (Or.inl h)
        · rw [Session.alarm,h]
          exact Or.inr (Or.inr h)
  | clientWrites n =>
      dsimp only
      split_ifs <;> exact h
  | clientFails =>
      obtain ⟨h,-⟩ | h | h := h
      · exact Or.inl ⟨h,rfl⟩
      · exact Or.inr (Or.inl h)
      · exact Or.inr (Or.inr h)
  | _ =>
      dsimp only
      rw [if_neg (by simp [hphase.1])]
      exact h

theorem step_moves (hp : s.phase = .detecting) (he : s.client.error = false) (h : Detecting l s)
    (e : Event) : Moves l (Blocked l s e) (l.step s e) := by
  rw [Listener.step.eq_def,if_neg (by simp [hp])]
  cases e with
  | receive seg =>
      dsimp only
      split_ifs
      · exact .waits hp h
      · exact .waits hp (h.receive seg)
  | run m =>
      dsimp only
      rw [if_neg (by simp [he])]
      exact (moves_read hp he h m).write
  | alarm m =>
      dsimp only
      rw [if_neg (by simp [he])]
      exact moves_alarm hp he h m
  | clientWrites n =>
      dsimp only
      split_ifs
      · exact .waits hp h
      · exact .waits hp (h.socketWriter n)
  | clientFails => exact .fails hp rfl
  | _ =>
      dsimp only
      rw [if_neg (by simp [hp])]
      exact .waits hp h

theorem Moves.tracked {blocked : Prop} (h : Moves l blocked t) (hb : ¬ blocked) : Tracked l t := by
  cases h with
  | waits hp ht =>
      have hpassing : t.phase ≠ .passing := by simp [hp]
      exact ⟨fun _ _ => ht,fun h => absurd h hpassing,by simp [hp],fun h => absurd h hpassing,
        fun h => absurd h hpassing⟩
  | fails hp ht => exact Ended.tracked (Or.inl ⟨hp,ht⟩)
  | leaves hp => exact Ended.tracked (Or.inr hp)
  | passes ht hp ends =>
      obtain ⟨hpass,htrans⟩ := ht.passed hp ends
      exact ⟨fun h => Phase.noConfusion h,fun _ => hpass,htrans⟩
  | aborts hp h => exact (hb h).elim

theorem fits_iff (s : Session) (e : Event) : Fits l s e ↔
    ¬ Blocked l s e ∧ (s.phase = .passing → s.FitsPassing e) := by
  constructor
  · intro h
    refine ⟨?_,h.passing⟩
    rintro ⟨info,hinfo,hs,hu⟩
    rw [h.address info hinfo hs] at hu
    exact Bool.noConfusion hu
  · rintro ⟨hb,hp⟩
    refine ⟨fun info hinfo hs => ?_,hp⟩
    by_contra hu
    exact hb ⟨info,hinfo,hs,Option.isSome_iff_ne_none.mpr hu⟩

/-- Only a client that is not handed over yet can be blocked. -/
theorem Blocked.live (h : Blocked l s e) : s.phase = .detecting ∧ s.client.error = false := by
  obtain ⟨info,hinfo,-,-⟩ := h
  cases e with
  | run m =>
      rw [Session.handOver] at hinfo
      split_ifs at hinfo with hlive
      exact hlive
  | alarm m =>
      rw [Session.handOver] at hinfo
      split_ifs at hinfo with hlive
      exact ⟨hlive.1,hlive.2.1⟩
  | _ => exact absurd hinfo (by simp [Session.handOver])

theorem Tracked.step (h : Tracked l s) (hf : Fits l s e) : Tracked l (l.step s e) := by
  obtain ⟨hb,hp⟩ := (fits_iff s e).mp hf
  have hended : Ended s → Tracked l (l.step s e) := fun hs => (hs.step e).tracked
  cases hs : s.phase with
  | detecting =>
      cases he : s.client.error with
      | false => exact (step_moves hs he (h.detecting hs he) e).tracked hb
      | true => exact hended (Or.inl ⟨hs,he⟩)
  | passing =>
      obtain ⟨hphase,hpass⟩ := step_passing hs (h.passing hs) e
      have hlossless := (transparent_iff hs (h.passing hs)).mp h.transparent
      have hnext := (step_lossless_iff hs (h.passing hs) hlossless e).mpr (hp hs)
      exact ⟨fun hd => absurd hd (by simp [hphase]),fun _ => hpass,
        (transparent_iff hphase hpass).mpr hnext⟩
  | answered => exact hended (Or.inr (Or.inl hs))
  | other => exact hended (Or.inr (Or.inr hs))
  | aborted => exact (h.transparent.running hs).elim

theorem Tracked.fits (h : Tracked l s) (ht : Transparent l (l.step s e)) : Fits l s e := by
  apply (fits_iff s e).mpr
  constructor
  · intro hb
    exact ht.running (step_blocked hb.live.1 hb)
  · intro hs
    obtain ⟨hphase,hpass⟩ := step_passing hs (h.passing hs) e
    have hlossless := (transparent_iff hs (h.passing hs)).mp h.transparent
    exact (step_lossless_iff hs (h.passing hs) hlossless e).mp
      ((transparent_iff hphase hpass).mp ht)

/-- A proxy for one domain. -/
def sampleListener (backend : Option Bytes) : Listener where
  entries := [(bytesOf "example.com",backend)]
  resolve := fun _ => some (.inet 0x01020304)

/-- A client that says five bytes until its timer fires and one byte after that. -/
def sampleTimeout : List Event :=
  [.receive (bytesOf "a\r\n\r\n"),.run {},.alarm {socket := some {}},.receive (bytesOf "b"),.run {}]

/-- A client says nine bytes, which reach the backend, and the backend says one. -/
def sampleAnswer : List Event :=
  [.receive (bytesOf "hello\r\n\r\n"),.run {socket := some {}},.backendRun,.backendWrites 9,
    .answer (bytesOf "x")]

/-- The byte is in the client's socket when the end of the backend closes it. -/
def sampleEnd : List Event :=
  sampleAnswer++[.backendRun,.run {},.backendFails,.backendAborts,.clientAborts,.clientFails]

end Teleproxy.Camouflage
