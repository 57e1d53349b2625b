import Teleproxy.ProxyProtocol

/-!
# Domains of the camouflage

A proxy that hides behind fake TLS knows a list of domains. Each entry has a
name that is compared with the server name of a ClientHello, and a place where
clients are sent that are not for the proxy: a host and a port, or the path of a
unix socket. The first accepted entry is the default one, and with it only fake
TLS is allowed.

The model follows `tcp_rpc_add_proxy_domain`, `tls_parse_sni` and
`get_sni_domain_info`. The hash table keeps the entries of a bucket with the
newest first and compares whole names, so that a list of all entries with the
newest first finds the same entry. What a host name resolves to is a parameter.
-/
namespace Teleproxy.ProxyDomains
open ClientInput ProxyProtocol

structure DomainInfo where
  domain : Bytes
  backendHost : Option Bytes := none
  unixPath : Option Bytes := none
  port : ℤ := 443
  /-- An IPv4 address in host order; 0 when there is none. -/
  target : ℕ := 0
  targetIpv6 : Bytes := List.replicate 16 0
  deriving DecidableEq, Repr

structure Registry where
  domains : List DomainInfo := []
  wildcardDomains : List DomainInfo := []
  allowOnlyTls : Bool := false
  defaultDomainInfo : Option DomainInfo := none
  deriving DecidableEq, Repr

/-- `atoi`, which is `strtol` cut to an `int`. -/
def atoi (bs : Bytes) : ℤ :=
  let bs := bs.dropWhile fun b => b = 32 || (9 ≤ b && b ≤ 13)
  let negative := bs.head? = some 45
  let bs := if bs.head? = some 43 ∨ bs.head? = some 45 then bs.drop 1 else bs
  let n : ℤ := digitsValue (bs.takeWhile isDigit)
  let n := if negative then max (-n) (-2^63) else min n (2^63-1)
  n.bmod (2^32)

/-- `parse_host_port`. Brackets stand around an IPv6 address; a text with several
colons and no brackets has no port. -/
def parseHostPort (spec : Bytes) : Option (Bytes × ℤ) :=
  if spec.head? = some 91 then
    if 93 ∈ spec then
      let host := (spec.drop 1).takeWhile (· ≠ 93)
      let rest := spec.drop (host.length+2)
      some (host,if rest.head? = some 58 then atoi (rest.drop 1) else 443)
    else none
  else if spec.count 58 = 1 then
    some (spec.takeWhile (· ≠ 58),atoi ((spec.dropWhile (· ≠ 58)).drop 1))
  else some (spec,443)

/-- The loop of `is_wildcard_domain`. -/
def wildcardLabels : Bytes → Bool → ℕ → Bool
  | [], sawDot, labelLen => sawDot && 0 < labelLen
  | b::p, sawDot, labelLen =>
      if b = 42 then false
      else if b = 46 then
        if labelLen = 0 then false else wildcardLabels p true 0
      else wildcardLabels p sawDot (labelLen+1)

def isWildcardDomain : Bytes → Bool
  | 42::46::b::p => wildcardLabels (b::p) false 0
  | _ => false

/-- The entry that a name and a backend describe. -/
def parseEntry (name : Bytes) (backend : Option Bytes) : Option DomainInfo :=
  match backend.filter (· ≠ []) with
  | none => (parseHostPort name).map fun (host,port) => {domain := host, port := port}
  | some spec =>
      if spec.head? = some 47 then some {domain := name, unixPath := some spec}
      else if bytesOf "unix:" <+: spec then some {domain := name, unixPath := some (spec.drop 5)}
      else
        (parseHostPort spec).map fun (host,port) =>
          {domain := name, backendHost := some host, port := port}

def DomainInfo.isWildcard (info : DomainInfo) : Bool := info.domain.head? = some 42

/-- What `tcp_rpc_add_proxy_domain` asks of an entry: a port, and for a wildcard a
valid pattern and a backend, since there is no host to connect to. -/
def DomainInfo.acceptable (info : DomainInfo) : Bool :=
  0 < info.port && info.port ≤ 65535 &&
    (!info.isWildcard ||
      isWildcardDomain info.domain && (info.backendHost.isSome || info.unixPath.isSome))

def Registry.insert (r : Registry) (info : DomainInfo) : Registry :=
  let r := if info.isWildcard then {r with wildcardDomains := info::r.wildcardDomains}
    else {r with domains := info::r.domains}
  if r.allowOnlyTls then r else {r with allowOnlyTls := true, defaultDomainInfo := some info}

def Registry.tcpRpcAddProxyDomain (r : Registry) (name : Bytes) (backend : Option Bytes) :
    Registry :=
  match parseEntry name backend with
  | none => r
  | some info => if info.acceptable then r.insert info else r

inductive Host where
  | inet (addr : ℕ)
  | inet6 (addr : Bytes)
  deriving DecidableEq, Repr

/-- The address that `update_domain_info` stores; a unix socket needs none. -/
def DomainInfo.update (resolve : Bytes → Option Host) (info : DomainInfo) : DomainInfo :=
  if info.unixPath.isSome then info
  else
    match resolve (info.backendHost.getD info.domain) with
    | none => info
    | some (.inet a) => {info with target := a, targetIpv6 := List.replicate 16 0}
    | some (.inet6 a) => {info with target := 0, targetIpv6 := a}

def Registry.tcpRpcInitProxyDomains (resolve : Bytes → Option Host) (r : Registry) : Registry where
  domains := r.domains.map (DomainInfo.update resolve)
  wildcardDomains := r.wildcardDomains.map (DomainInfo.update resolve)
  allowOnlyTls := r.allowOnlyTls
  defaultDomainInfo := r.defaultDomainInfo.map (DomainInfo.update resolve)

/-- The registry of a proxy that was started with these names and backends. -/
def register (resolve : Bytes → Option Host) (entries : List (Bytes × Option Bytes)) : Registry :=
  Registry.tcpRpcInitProxyDomains resolve
    (entries.foldl (fun (r : Registry) e => r.tcpRpcAddProxyDomain e.1 e.2) {})

/-- `tls_read_length` -/
def tlsReadLength (bs : Bytes) (pos : ℕ) : ℕ :=
  256*(bs.getD pos 0).toNat+(bs.getD (pos+1) 0).toNat

/-- The server name extension with `len` bytes at `pos`. -/
def serverName (hello : Bytes) (pos len : ℕ) : Option Bytes :=
  let n := tlsReadLength hello (pos+3)
  let name := (hello.drop (pos+5)).take n
  if hello.length < pos+5 ∨ tlsReadLength hello pos+2 ≠ len ∨ hello.getD (pos+2) 0 ≠ 0 ∨
      n+5 ≠ len ∨ 0 ∈ name ∨ 256 ≤ n ∨ n = 0 then none
  else some name

/-- The loop of `tls_parse_sni` over the extensions, the next of them at `pos`. -/
def findServerName (hello : Bytes) : ℕ → ℕ → Option Bytes
  | 0, _ => none
  | fuel+1, pos =>
      let len := tlsReadLength hello (pos+2)
      if hello.length < pos+4 ∨ hello.length < pos+4+len then none
      else if tlsReadLength hello pos = 0 then serverName hello (pos+4) len
      else findServerName hello fuel (pos+4+len)

def tlsParseSni (hello : Bytes) : Option Bytes :=
  let n := tlsReadLength hello 76
  if hello.length < 78 ∨ hello.length < 78+n+4 then none
  else findServerName hello hello.length (78+n+4)

/-- A pattern stands for exactly one label in front of its suffix. -/
def wildcardMatch (pattern sni : Bytes) : Bool :=
  let suffix := pattern.drop 1
  let labelLen := sni.length-suffix.length
  suffix.length < sni.length && !(sni.take labelLen).contains 46 &&
    !(sni.take labelLen).contains 42 && sni.drop labelLen == suffix

def Registry.getDomainInfo (r : Registry) (domain : Bytes) : Option DomainInfo :=
  match r.domains.find? fun info => info.domain = domain with
  | some info => some info
  | none => r.wildcardDomains.find? fun info => wildcardMatch info.domain domain

def Registry.getSniDomainInfo (r : Registry) (hello : Bytes) : Option DomainInfo :=
  (tlsParseSni hello).bind r.getDomainInfo

variable {r : Registry} {info : DomainInfo} {name : Bytes}

/-- Both tables hold acceptable entries only, and there is a default entry as soon
as only TLS is allowed. -/
structure Registry.Valid (r : Registry) : Prop where
  acceptable : ∀ info ∈ r.domains++r.wildcardDomains, info.acceptable
  default_mem : ∀ info, r.defaultDomainInfo = some info → info ∈ r.domains++r.wildcardDomains
  default_isSome : r.defaultDomainInfo.isSome = r.allowOnlyTls

theorem Registry.mem_insert (r : Registry) (info x : DomainInfo) :
    x ∈ (r.insert info).domains++(r.insert info).wildcardDomains ↔
      x = info ∨ x ∈ r.domains++r.wildcardDomains := by
  rw [Registry.insert]
  cases info.isWildcard <;> cases r.allowOnlyTls <;> simp [or_left_comm]

theorem Registry.insert_default (r : Registry) (info : DomainInfo) :
    (r.insert info).allowOnlyTls = true ∧ (r.insert info).defaultDomainInfo =
      if r.allowOnlyTls then r.defaultDomainInfo else some info := by
  rw [Registry.insert]
  cases info.isWildcard <;> cases r.allowOnlyTls <;> simp

theorem Registry.Valid.insert (h : r.Valid) (hinfo : info.acceptable) : (r.insert info).Valid where
  acceptable := by
    intro x hx
    obtain rfl | hx := (r.mem_insert info x).mp hx
    · exact hinfo
    · exact h.acceptable x hx
  default_mem := by
    intro x hx
    apply (r.mem_insert info x).mpr
    rw [(r.insert_default info).2] at hx
    split_ifs at hx
    · exact Or.inr (h.default_mem x hx)
    · exact Or.inl (Option.some.inj hx).symm
  default_isSome := by
    rw [(r.insert_default info).1,(r.insert_default info).2]
    split_ifs with hr
    · rw [h.default_isSome,hr]
    · rfl

theorem Registry.Valid.add (h : r.Valid) (name : Bytes) (backend : Option Bytes) :
    (r.tcpRpcAddProxyDomain name backend).Valid := by
  rw [Registry.tcpRpcAddProxyDomain]
  cases parseEntry name backend with
  | none => exact h
  | some info =>
      dsimp only
      split_ifs with hinfo
      · exact h.insert hinfo
      · exact h

/-- The address changes nothing that the registration looked at. -/
theorem DomainInfo.update_same (resolve : Bytes → Option Host) (info : DomainInfo) :
    (info.update resolve).acceptable = info.acceptable := by
  rw [DomainInfo.update]
  split_ifs
  · rfl
  · cases resolve (info.backendHost.getD info.domain) with
    | none => rfl
    | some a => cases a <;> rfl

theorem Registry.Valid.init (h : r.Valid) (resolve : Bytes → Option Host) :
    (r.tcpRpcInitProxyDomains resolve).Valid where
  acceptable := by
    intro x hx
    rw [Registry.tcpRpcInitProxyDomains,← List.map_append] at hx
    obtain ⟨y,hy,rfl⟩ := List.mem_map.mp hx
    rw [DomainInfo.update_same]
    exact h.acceptable y hy
  default_mem := by
    intro x hx
    obtain ⟨y,hy,rfl⟩ := Option.map_eq_some_iff.mp hx
    rw [Registry.tcpRpcInitProxyDomains,← List.map_append]
    exact List.mem_map_of_mem (h.default_mem y hy)
  default_isSome := by
    rw [Registry.tcpRpcInitProxyDomains,Option.isSome_map]
    exact h.default_isSome

/-- Every list of names and backends gives a valid registry. -/
theorem register_valid (resolve : Bytes → Option Host) (entries : List (Bytes × Option Bytes)) :
    (register resolve entries).Valid := by
  have hadd : ∀ r : Registry, r.Valid →
      (entries.foldl (fun (r : Registry) e => r.tcpRpcAddProxyDomain e.1 e.2) r).Valid := by
    induction entries with
    | nil => exact fun r hr => hr
    | cons e entries ih => exact fun r hr => ih _ (hr.add e.1 e.2)
  apply Registry.Valid.init
  apply hadd
  exact ⟨by simp,by simp,rfl⟩

example : (register (fun _ => none) [(bytesOf "*.example.com",none),
    (bytesOf "example.com:443",some (bytesOf "/run/site.sock"))]).domains =
      [{domain := bytesOf "example.com:443", unixPath := some (bytesOf "/run/site.sock")}] := by
  decide

end Teleproxy.ProxyDomains
