import Teleproxy.Lib.StepSystem
import Teleproxy.Lib.Store
import Teleproxy.SecretReload

/-!
# One worker process

The state of a worker is its slot table, its connections and the gauges of the
direct mode. Connections are never removed from the store; a connection whose
memory has been returned is marked `freed`. Everything the network decides is
part of an event: what a header decrypts to under each key, whether a socket
could be opened, which address of a data centre answered.

`extra` is the untyped field of `struct connection_info`. It holds the RPC
function table, nothing, or another connection, and the code decides which by
the type of the connection alone. Using anything but a live connection as one
is undefined in C; here it increments `wild` and has no other effect.

`refcnt` counts the references that decide when a connection is freed: one
that the job itself holds until `JS_ABORT` has run, one for a queued close
notification and one for every `extra` pointing at it. `leaked` counts those
of them that were forgotten without a `job_decref`.

Buffers and their contents, token buckets and statistics that nothing reads
are left out, as is the HTTP fallback type. The address of a connection is the
one after a PROXY protocol header.
-/
namespace Teleproxy.WorkerProcess
open SecretSlots SecretReload

abbrev directMaxRetries : ℤ := 3

inductive ConnType where
  | extServer | extServerDrs | directClient | directClientDrs | directDc | proxyPass
  deriving DecidableEq, Repr

inductive WsState where
  | none | handshake | active | httpStream
  deriving DecidableEq, Repr

inductive Extra where
  | null
  | rpcFunctions
  | conn (j : ℕ)
  deriving DecidableEq, Repr

inductive Tag where
  | pad | medium | compact
  deriving DecidableEq, Repr

def Tag.code : Tag → ℤ
  | .pad => 0xdddddddd
  | .medium => 0xeeeeeeee
  | .compact => 0xefefefef

/-- The fields of `connection_info` and `tcp_rpc_data` that decide anything
here. `extra_int` is the retry attempt of a client and the SOCKS5 state of a
data-centre connection; `extra_int2` is the secret id of a client and the
address index of a data-centre connection. -/
structure Conn where
  type : ConnType := .extServer
  extra : Extra := .rpcFunctions
  addr : Addr := ⟨0,zeroIpv6⟩
  wsState : WsState := .handshake
  isTls : Bool := false
  error : Bool := false
  failed : Bool := false
  closeQueued : Bool := false
  readyPending : Bool := false
  crypto : Bool := false
  skipping : Bool := false
  inPacketNum : ℤ := -3
  extraInt : ℤ := 0
  extraInt2 : ℤ := 0
  extraInt3 : ℤ := 0
  extraInt4 : ℤ := 0
  refcnt : ℤ := 1
  leaked : ℤ := 0
  freed : Bool := false
  deriving DecidableEq, Repr

structure Config where
  workers : ℤ := 0
  directMode : Bool := true
  allowOnlyTls : Bool := false
  extRandPadOnly : Bool := false
  hasDefaultDomain : Bool := false
  socks5 : Bool := false
  socks5User : Bool := false
  dcOverrides : List ℤ := []

structure Worker where
  table : SlotTable
  conns : Store Conn := .empty
  directDcConnectionsActive : ℤ := 0
  directDcConnectionsCreated : ℤ := 0
  directDcConnectionsFailed : ℤ := 0
  directDcConnectionsDcClosed : ℤ := 0
  directDcRetries : ℤ := 0
  now : ℤ := 0
  preciseNow : ℚ := 0
  drainTimeoutSecs : ℚ := 0
  wild : ℕ := 0

def Worker.modConn (w : Worker) (i : ℕ) (f : Conn → Conn) : Worker :=
  {w with conns := w.conns.modify i f}

def Worker.newConn (w : Worker) (c : Conn) : Worker := {w with conns := w.conns.push c}

def Worker.modSlot (w : Worker) (s : Fin extSecretMaxSlots) (f : Slot → Slot) : Worker :=
  {w with table := w.table.set s (f (w.table.slots s))}

def Worker.withConn (w : Worker) (i : ℕ) (f : Conn → Worker) : Worker :=
  match w.conns.get i with
  | some c => f c
  | none => w

/-- The slot of a secret id as it is stored in `extra_int2`. -/
def slotOfId (sid : ℤ) : Option (Fin extSecretMaxSlots) :=
  if h : 0 < sid ∧ sid ≤ extSecretMaxSlots then
    some ⟨(sid-1).toNat,by have := h.2; simp only [extSecretMaxSlots] at this ⊢; omega⟩
  else none

def ConnType.isExt : ConnType → Bool
  | .extServer | .extServerDrs => true
  | _ => false

def ConnType.isDirectClient : ConnType → Bool
  | .directClient | .directClientDrs => true
  | _ => false

/-- `conn_carries_secret_id`. -/
def ConnType.carriesSecretId (t : ConnType) : Bool := t.isExt || t.isDirectClient

/-- Does the pointer lead to a connection whose memory is still its own? -/
def Worker.isConnection (w : Worker) (x : Extra) : Bool :=
  match x with
  | .conn j => (w.conns.get j).any fun c => !c.freed
  | _ => false

/-- A pointer is about to be used as a connection. -/
def Worker.touch (w : Worker) (x : Extra) : Worker :=
  if w.isConnection x then w else {w with wild := w.wild+1}

/-- A pointer is overwritten while its reference stays counted. -/
def Worker.leak (w : Worker) (x : Extra) : Worker :=
  match x with
  | .conn j => w.modConn j fun c => {c with leaked := c.leaked+1}
  | _ => w

def failConnection (i : ℕ) (w : Worker) : Worker := w.modConn i fun c => {c with error := true}

def jobDecref (i : ℕ) (w : Worker) : Worker := w.modConn i fun c => {c with refcnt := c.refcnt-1}

/-- A new outbound connection for client `i`, once both ends hold each other. -/
def outboundConn (t : ConnType) (i : ℕ) : Conn :=
  {type := t, extra := .conn i, wsState := .none, readyPending := true, inPacketNum := 0,
   refcnt := 2}

/-- Outcome of opening the connection to the backend of a domain: no address or
no socket, a socket but no connection, or a connection. -/
inductive Backend where
  | unreachable | notAllocated | connected
  deriving DecidableEq, Repr

def tcpProxyPassParseExecute (i : ℕ) (x : Extra) (w : Worker) : Worker :=
  match x with
  | .null => failConnection i w
  | x => w.touch x

def proxyConnection (i : ℕ) (b : Backend) (w : Worker) : Worker :=
  let w := w.modConn i fun c => {c with extraInt2 := 0}
  match b with
  | .unreachable => failConnection i w
  | .notAllocated => failConnection i (w.modConn i fun c => {c with crypto := false})
  | .connected =>
      let e := w.conns.size
      let w := w.newConn (outboundConn .proxyPass i)
      let w := w.modConn i fun c =>
        {c with crypto := false, refcnt := c.refcnt+1, type := .proxyPass, extra := .conn e}
      tcpProxyPassParseExecute i (.conn e) w

def handleHandshakeTimeout (cfg : Config) (i : ℕ) (b : Backend) (w : Worker) : Worker :=
  if cfg.hasDefaultDomain then proxyConnection i b w else failConnection i w

/-- Which entry of the data-centre tables a target resolves to, by its id. -/
def directDcLookup (overrides : List ℤ) (dcId : ℤ) : Option ℤ :=
  let d := if dcId < 0 then -dcId else dcId
  let isTest : Bool := d ≥ 10000
  let d := if isTest then d-10000 else d
  if d ∈ overrides then some d else
    let d := if d > 200 ∧ d < 300 then d-200 else d
    if 1 ≤ d ∧ d ≤ (if isTest then 3 else 5) then some d else none

def directScheduleRetry (i : ℕ) (attempt : ℤ) (w : Worker) : Worker :=
  if attempt ≥ directMaxRetries then
    failConnection i {w with directDcConnectionsFailed := w.directDcConnectionsFailed+1}
  else
    let w := w.modConn i fun c => {c with extraInt := attempt+1}
    {w with directDcRetries := w.directDcRetries+1}

/-- The connection to address number `a` of a data centre, for client `i`. -/
def dcConn (cfg : Config) (i : ℕ) (c : Conn) (targetDc dcId : ℤ) (a : ℕ) : Conn :=
  {outboundConn .directDc i with
    extraInt2 := if cfg.socks5 then a else 0, extraInt3 := c.extraInt3,
    extraInt4 := if targetDc < 0 then -dcId else dcId}

/-- Both ends take a reference to each other once `direct_try_dc_addrs` has
returned a connection. -/
def linkDc (cfg : Config) (i : ℕ) (c : Conn) (targetDc dcId : ℤ) (a : ℕ) (w : Worker) : Worker :=
  let e := w.conns.size
  let w := w.newConn (dcConn cfg i c targetDc dcId a)
  let w := w.modConn i fun c => {c with extra := .conn e, refcnt := c.refcnt+1}
  {w with directDcConnectionsCreated := w.directDcConnectionsCreated+1,
          directDcConnectionsActive := w.directDcConnectionsActive+1}

/-- `attempt` is the address that could be connected to, if one could. -/
def directRetryDcConnection (cfg : Config) (i : ℕ) (c : Conn) (attempt : Option ℕ) (w : Worker) :
    Worker :=
  match directDcLookup cfg.dcOverrides c.extraInt4 with
  | none =>
      let w := w.modConn i fun c => {c with extraInt := 0}
      failConnection i {w with directDcConnectionsFailed := w.directDcConnectionsFailed+1}
  | some dcId =>
      match attempt with
      | some a => (linkDc cfg i c c.extraInt4 dcId a w).modConn i fun c => {c with extraInt := 0}
      | none =>
          directScheduleRetry i c.extraInt
            {w with directDcConnectionsFailed := w.directDcConnectionsFailed+1}

def directConnectToDc (cfg : Config) (i : ℕ) (c : Conn) (targetDc : ℤ) (attempt : Option ℕ)
    (w : Worker) : Worker :=
  match directDcLookup cfg.dcOverrides targetDc with
  | none =>
      failConnection i {w with directDcConnectionsFailed := w.directDcConnectionsFailed+1}
  | some dcId =>
      let w := w.modConn i fun c =>
        {c with type := if c.isTls then .directClientDrs else .directClient}
      match attempt with
      | some a => linkDc cfg i c targetDc dcId a w
      | none =>
          directScheduleRetry i 0
            {w with directDcConnectionsFailed := w.directDcConnectionsFailed+1}

def tcpDirectRelay (i : ℕ) (x : Extra) (w : Worker) : Worker := tcpProxyPassParseExecute i x w

/-- Bytes of a client are charged to its slot, then relayed or refused. -/
def relayCharged (cfg : Config) (i : ℕ) (x : Extra) (s : Fin extSecretMaxSlots)
    (charge : Slot → Slot) (w : Worker) : Worker :=
  let w := w.modSlot s charge
  if secretOverQuota cfg.workers (w.table.slots s) then
    failConnection i (w.modSlot s (countRejection .quota))
  else tcpDirectRelay i x w

def chargeReceived (n : ℕ) (s : Slot) : Slot := {s with bytesReceived := s.bytesReceived+n}
def chargeSent (n : ℕ) (s : Slot) : Slot := {s with bytesSent := s.bytesSent+n}

/-- `n` bytes of the client are waiting in `c->in`. -/
def tcpDirectClientParseExecute (cfg : Config) (i : ℕ) (c : Conn) (n : ℕ) (w : Worker) : Worker :=
  match c.extra with
  | .null => if c.extraInt > 0 then w else failConnection i w
  | .rpcFunctions => w.touch .rpcFunctions
  | .conn j =>
      let w := w.touch (.conn j)
      if (w.conns.get j).any fun dc => dc.crypto then
        match slotOfId c.extraInt2 with
        | some s =>
            if n > 0 then relayCharged cfg i (.conn j) s (chargeReceived n) w
            else tcpDirectRelay i (.conn j) w
        | none => tcpDirectRelay i (.conn j) w
      else w

/-- What the SOCKS5 server has answered so far: too little, something the
handshake cannot go on with, or the expected reply. -/
inductive Socks5Reply where
  | incomplete | refused | noAuth | userPass | granted
  deriving DecidableEq, Repr

/-- `none` is an error; otherwise the new state, 0 when the handshake is over. -/
def socks5HandleResponse (cfg : Config) (state : ℤ) (r : Socks5Reply) : Option ℤ :=
  match r with
  | .incomplete => some state
  | .refused => none
  | .noAuth => if state = 1 then some 3 else none
  | .userPass => if state = 1 ∧ cfg.socks5User then some 2 else none
  | .granted => if state = 2 then some 3 else if state = 3 then some 0 else none

def tcpDirectDcSendObfs2Init (i : ℕ) (w : Worker) : Worker :=
  w.modConn i fun c => {c with crypto := true}

def tcpDirectDcParseExecute (cfg : Config) (i : ℕ) (c : Conn) (n : ℕ) (r : Socks5Reply)
    (w : Worker) : Worker :=
  if c.extraInt > 0 then
    match socks5HandleResponse cfg c.extraInt r with
    | none => failConnection i w
    | some state =>
        let w := w.modConn i fun c => {c with extraInt := state}
        if state = 0 then tcpDirectDcSendObfs2Init i w else w
  else
    match c.extra with
    | .conn k =>
        let w := w.touch (.conn k)
        match (w.conns.get k).bind fun client => slotOfId client.extraInt2 with
        | some s =>
            if n > 0 then relayCharged cfg i (.conn k) s (chargeSent n) w
            else tcpDirectRelay i (.conn k) w
        | none => tcpDirectRelay i (.conn k) w
    | x => tcpDirectRelay i x w

def tcpDirectDcConnected (cfg : Config) (i : ℕ) (w : Worker) : Worker :=
  if cfg.socks5 then w.modConn i fun c => {c with extraInt := 1}
  else tcpDirectDcSendObfs2Init i w

/-- The end of both relay close handlers: the partner is failed and the
reference to it is given back. -/
def closeExtra (i : ℕ) (x : Extra) (w : Worker) : Worker :=
  match x with
  | .null => w
  | .rpcFunctions => (w.touch x).modConn i fun c => {c with extra := .null}
  | .conn k =>
      let w := (w.touch x).modConn i fun c => {c with extra := .null}
      jobDecref k (failConnection k w)

/-- The client of a data-centre connection that failed before its handshake,
while it has attempts left. -/
def retryClient (w : Worker) (c : Conn) : Option (ℕ × Conn) :=
  match c.extra with
  | .conn k =>
      if c.type = .directDc ∧ c.crypto = false then
        match w.conns.get k with
        | some client => if client.extraInt < directMaxRetries then some (k,client) else none
        | none => none
      else none
  | _ => none

/-- The client is detached and its retry scheduled. Its own pointer is set to
`NULL` without a `job_decref`. -/
def detachForRetry (i k : ℕ) (client : Conn) (w : Worker) : Worker :=
  let w := w.touch (.conn k)
  let w := (w.leak client.extra).modConn k fun c => {c with extra := .null}
  let w := w.modConn i fun c => {c with extra := .null}
  let w := {w with directDcConnectionsFailed := w.directDcConnectionsFailed+1}
  jobDecref k (directScheduleRetry k client.extraInt w)

/-- The per-secret part of `tcp_direct_close`, under the test of the gauge. -/
def releaseClient (c : Conn) (w : Worker) : Worker :=
  if c.type.isDirectClient ∧ w.directDcConnectionsActive > 0 then
    let w := {w with directDcConnectionsActive := w.directDcConnectionsActive-1}
    match slotOfId c.extraInt2 with
    | some s => w.modSlot s (detachSlot c.addr)
    | none => w
  else w

def tcpDirectClose (i : ℕ) (c : Conn) (who : ℤ) (w : Worker) : Worker :=
  match retryClient w c with
  | some (k,client) => detachForRetry i k client w
  | none =>
      let w := releaseClient c w
      let w :=
        if c.type = .directDc ∧ who ≠ 0 then
          {w with directDcConnectionsDcClosed := w.directDcConnectionsDcClosed+1}
        else w
      closeExtra i c.extra w

def tcpProxyPassClose (i : ℕ) (c : Conn) (w : Worker) : Worker := closeExtra i c.extra w

/-- The notification takes a reference and runs `rpc_close` later. -/
def tcpRpcsCloseConnection (i : ℕ) (w : Worker) : Worker :=
  w.modConn i fun c => {c with closeQueued := true, refcnt := c.refcnt+1}

def mtprotoExtRpcClose (c : Conn) (w : Worker) : Worker :=
  match slotOfId c.extraInt2 with
  | some s => w.modSlot s (detachSlot c.addr)
  | none => w

def closeConnection (i : ℕ) (c : Conn) (w : Worker) : Worker :=
  match c.type with
  | .extServer | .extServerDrs => tcpRpcsCloseConnection i w
  | .proxyPass => tcpProxyPassClose i c w
  | _ => tcpDirectClose i c 0 w

/-- A ClientHello that is complete. `acceptable` covers the server name, the
port and the length, `fresh` the cache of client randoms. -/
structure ClientHello where
  acceptable : Bool := true
  fresh : Bool := true
  authenticates : Key → Bool
  timestampAllowed : Key → Bool := fun _ => true
  cipherSupported : Bool := true

inductive HelloOutcome where
  | fallback
  | rejected (s : Fin extSecretMaxSlots) (r : Rejection)
  | accepted (s : Fin extSecretMaxSlots)
  deriving DecidableEq, Repr

def helloSlot (T : SlotTable) (h : ClientHello) : Option (Fin extSecretMaxSlots) :=
  allSlots.find? fun s =>
    s.val < T.cnt && (T.slots s).state != .free && h.authenticates (T.slots s).key

def helloOutcome (cfg : Config) (w : Worker) (c : Conn) (h : ClientHello) : HelloOutcome :=
  if h.acceptable = false ∨ h.fresh = false then .fallback else
    match helloSlot w.table h with
    | none => .fallback
    | some s =>
        if h.timestampAllowed (w.table.slots s).key = false then .fallback else
          match rejection cfg.workers w.now (w.table.slots s) c.addr with
          | some r => .rejected s r
          | none => if h.cipherSupported then .accepted s else .fallback

/-- What the 64 header bytes decrypt to under each key, or without one, when
they carry a known tag. `uninitialized` is the value that happens to lie in
`compact_to_slot[0]` before anything is stored there. -/
structure Header where
  decrypt : Option Key → Option (Tag × ℤ)
  uninitialized : ℤ := 0
  payloadDecrypts : Bool := true

def obfs2ParseHeader (decrypt : Option Key → Option (Tag × ℤ)) (secrets : List Key)
    (randPadOnly : Bool) : Option (Tag × ℤ × ℕ) :=
  (if secrets.isEmpty then [none] else secrets.map some).zipIdx.findSome? fun (k,sid) =>
    match decrypt k with
    | some (tag,dc) => if tag = .pad ∨ randPadOnly = false then some (tag,dc,sid) else none
    | none => none

/-- The slots the header is tried against. -/
def compactToSlot (T : SlotTable) : List (Fin extSecretMaxSlots) :=
  allSlots.filter fun s => s.val < T.cnt && (T.slots s).state != .free

inductive HeaderOutcome where
  | fallback
  | skip
  | cipherFailed
  | rejected (s : Fin extSecretMaxSlots) (r : Rejection)
  | accepted (secretId : ℤ) (tag : Tag) (dc : ℤ)
  deriving DecidableEq, Repr

def secretIdOf (T : SlotTable) (uninitialized : ℤ) (sid : ℕ) : ℤ :=
  match (compactToSlot T)[sid]? with
  | some s => (s.val : ℤ)
  | none => uninitialized

/-- The per-secret checks of the header. A TLS client passed them earlier. -/
def headerRejection (cfg : Config) (w : Worker) (c : Conn) (secretId : ℤ) :
    Option (Fin extSecretMaxSlots × Rejection) :=
  if c.isTls then none else
    match slotOfId (secretId+1) with
    | some s => (rejection cfg.workers w.now (w.table.slots s) c.addr).map fun r => (s,r)
    | none => none

def headerOutcome (cfg : Config) (w : Worker) (c : Conn) (h : Header) : HeaderOutcome :=
  if cfg.allowOnlyTls ∧ c.isTls = false ∧ c.wsState ≠ .active ∧ c.wsState ≠ .httpStream then
    .fallback
  else
    match obfs2ParseHeader h.decrypt ((compactToSlot w.table).map fun s => (w.table.slots s).key)
        cfg.extRandPadOnly with
    | none => .skip
    | some (tag,dc,sid) =>
        if tag ≠ .pad ∧ cfg.allowOnlyTls then .fallback
        else if h.payloadDecrypts = false then .cipherFailed
        else
          let secretId := secretIdOf w.table h.uninitialized sid
          match headerRejection cfg w c secretId with
          | some (s,r) => .rejected s r
          | none => .accepted secretId tag dc

/-- The client record after its header was read, whatever the checks say. -/
def Conn.startCrypto (c : Conn) : Conn := {c with crypto := true, inPacketNum := 0}

def Conn.attach (secretId : ℤ) (tag : Tag) (dc : ℤ) (c : Conn) : Conn :=
  {c.startCrypto with
    extraInt4 := dc, extraInt2 := secretId+1, extraInt3 := tag.code,
    type := if c.isTls then .extServerDrs else c.type}

def attachConnection (cfg : Config) (i : ℕ) (c : Conn) (secretId : ℤ) (tag : Tag) (dc : ℤ)
    (w : Worker) : Worker :=
  let w := w.modConn i (Conn.attach secretId tag dc)
  match slotOfId (secretId+1) with
  | some s => w.modSlot s (attachSlot cfg.workers w.preciseNow c.addr)
  | none => w

/-- Is the connection still waiting for a handshake it would act on? -/
def Conn.awaitsHeader (c : Conn) : Bool :=
  !c.error && !c.skipping && c.type.isExt && c.inPacketNum == -3

def clientHello (cfg : Config) (i : ℕ) (c : Conn) (h : ClientHello) (b : Backend) (w : Worker) :
    Worker :=
  if c.awaitsHeader = false ∨ c.isTls ∨ w.table.cnt = 0 ∨ cfg.allowOnlyTls = false then w else
    match helloOutcome cfg w c h with
    | .fallback => proxyConnection i b w
    | .rejected s r => proxyConnection i b (w.modSlot s (countRejection r))
    | .accepted _ => w.modConn i fun c => {c with isTls := true}

def obfs2Header (cfg : Config) (i : ℕ) (c : Conn) (h : Header) (attempt : Option ℕ) (b : Backend)
    (w : Worker) : Worker :=
  if c.awaitsHeader = false then w else
    match headerOutcome cfg w c h with
    | .fallback => proxyConnection i b w
    | .skip => w.modConn i fun c => {c with skipping := true}
    | .cipherFailed => failConnection i (w.modConn i Conn.startCrypto)
    | .rejected s r =>
        failConnection i ((w.modConn i Conn.startCrypto).modSlot s (countRejection r))
    | .accepted secretId tag dc =>
        let w := attachConnection cfg i c secretId tag dc w
        if cfg.directMode then directConnectToDc cfg i (c.attach secretId tag dc) dc attempt w
        else w

def alarm (cfg : Config) (i : ℕ) (c : Conn) (throttled : Bool) (attempt : Option ℕ) (b : Backend)
    (w : Worker) : Worker :=
  if c.error then w else
    match c.type with
    | .extServer => if c.inPacketNum = -3 then handleHandshakeTimeout cfg i b w else w
    | .extServerDrs =>
        if throttled then w
        else if c.inPacketNum = -3 then handleHandshakeTimeout cfg i b w else w
    | .directClient =>
        if throttled then w
        else if c.extra = .null ∧ c.extraInt > 0 then directRetryDcConnection cfg i c attempt w
        else w
    | .directClientDrs =>
        if throttled then w
        else if c.extra = .null ∧ c.extraInt > 0 then directRetryDcConnection cfg i c attempt w
        else if c.inPacketNum = -3 then handleHandshakeTimeout cfg i b w else w
    | _ => w

/-- The connections that a forced close of a slot reaches. -/
def Conn.forcedBy (s : Fin extSecretMaxSlots) (c : Conn) : Bool :=
  !c.failed && c.type.carriesSecretId && c.extraInt2 == s.val+1

def tcpRpcsDrainForceCloseForSlot (s : Fin extSecretMaxSlots) (w : Worker) : Worker :=
  if s.val < w.table.pinned then w else
    (List.range w.conns.size).foldl (fun w i =>
      w.withConn i fun c =>
        if c.forcedBy s then
          failConnection i (w.modSlot s fun x => {x with drainForced := x.drainForced+1})
        else w) w

def sweepSlot (w : Worker) (s : Fin extSecretMaxSlots) : Worker :=
  if (w.table.slots s).state ≠ .draining then w
  else if (w.table.slots s).connections = 0 then
    {w with table := tcpRpcsDrainReleaseSlotIfEmpty s w.table}
  else if w.drainTimeoutSecs > 0 ∧
      w.preciseNow-(w.table.slots s).drainStartedAt ≥ w.drainTimeoutSecs then
    tcpRpcsDrainForceCloseForSlot s w
  else w

/-- The bounds of the loop are read once, before its first round. -/
def drainSweepGw (w : Worker) : Worker :=
  (allSlots.filter fun s => w.table.pinned ≤ s.val ∧ s.val < w.table.cnt).foldl sweepSlot w

inductive Event where
  | accept (a : Addr)
  | upgrade (i : ℕ) (s : WsState)
  | clientHello (i : ℕ) (h : ClientHello) (b : Backend)
  | obfs2Header (i : ℕ) (h : Header) (attempt : Option ℕ) (b : Backend)
  | data (i : ℕ) (n : ℕ) (r : Socks5Reply)
  | connected (i : ℕ)
  | alarm (i : ℕ) (throttled : Bool) (attempt : Option ℕ) (b : Backend)
  | netFail (i : ℕ)
  | abort (i : ℕ)
  | closeNotified (i : ℕ)
  | finish (i : ℕ)
  | reload (confs : List SecretConf) (drainTimeoutSecs : ℚ)
  | sweep
  | tick (now : ℤ) (preciseNow : ℚ)

def parseExecute (cfg : Config) (i : ℕ) (c : Conn) (n : ℕ) (r : Socks5Reply) (w : Worker) :
    Worker :=
  match c.type with
  | .extServer | .extServerDrs =>
      if c.inPacketNum = -3 then w
      else w.modConn i fun c => {c with inPacketNum := c.inPacketNum+1}
  | .directClient | .directClientDrs => tcpDirectClientParseExecute cfg i c n w
  | .directDc => tcpDirectDcParseExecute cfg i c n r w
  | .proxyPass => tcpProxyPassParseExecute i c.extra w

def connected (cfg : Config) (i : ℕ) (c : Conn) (w : Worker) : Worker :=
  if c.error ∨ c.readyPending = false then w else
    let w := w.modConn i fun c => {c with readyPending := false}
    if c.type = .directDc then tcpDirectDcConnected cfg i w else w

/-- `JS_ABORT`: the job completes, so its own reference goes with the close. -/
def jsAbort (i : ℕ) (c : Conn) (w : Worker) : Worker :=
  if c.error = false ∨ c.failed then w else
    closeConnection i c (w.modConn i fun c => {c with failed := true, refcnt := c.refcnt-1})

def runCloseNotification (i : ℕ) (c : Conn) (w : Worker) : Worker :=
  if c.closeQueued then
    mtprotoExtRpcClose c (w.modConn i fun c => {c with closeQueued := false, refcnt := c.refcnt-1})
  else w

def jsFinish (i : ℕ) (c : Conn) (w : Worker) : Worker :=
  if c.failed ∧ c.refcnt = 0 then w.modConn i fun c => {c with freed := true, crypto := false}
  else w

def step (cfg : Config) (w : Worker) : Event → Worker
  | .accept a => w.newConn {addr := a}
  | .upgrade i s => w.withConn i fun c =>
      if c.awaitsHeader ∧ c.wsState = .handshake then w.modConn i fun c => {c with wsState := s}
      else w
  | .clientHello i h b => w.withConn i fun c => clientHello cfg i c h b w
  | .obfs2Header i h attempt b => w.withConn i fun c => obfs2Header cfg i c h attempt b w
  | .data i n r => w.withConn i fun c => if c.error then w else parseExecute cfg i c n r w
  | .connected i => w.withConn i fun c => connected cfg i c w
  | .alarm i throttled attempt b => w.withConn i fun c => alarm cfg i c throttled attempt b w
  | .netFail i => failConnection i w
  | .abort i => w.withConn i fun c => jsAbort i c w
  | .closeNotified i => w.withConn i fun c => runCloseNotification i c w
  | .finish i => w.withConn i fun c => jsFinish i c w
  | .reload confs timeout =>
      {w with table := (tcpRpcsReloadExtSecrets w.preciseNow confs w.table).2,
              drainTimeoutSecs := timeout}
  | .sweep => drainSweepGw w
  | .tick now preciseNow => {w with now := now, preciseNow := preciseNow}

/-- A worker that has just been started on a slot table. -/
def start (T : SlotTable) : Worker := {table := T}

end Teleproxy.WorkerProcess
