import Teleproxy.HandshakeAnswer

/-!
# The answer before a tunnel

A client that asks for a SOCKS5 tunnel is taken over by a relay thread as soon as its
obfs2 header has been read. The answer to its handshake is then in one of three places: the
writer has handed it to the socket's job, or it is still in `c->out` (the 101), or in
`c->out_p` (the 200). `socks5_tunnel_start` looks only at the last one. It tells the thread
through `send_http_200` to send the 200 itself, and sets that field for an HTTP stream
alone; for the others it keeps what `malloc` left there.

The writer runs once more behind the reader, on a connection that has a cipher by then.
The socket's job is aborted, so how much of what it was handed it still writes, before
and after the relay thread starts to write, is a parameter.
-/
namespace Teleproxy.TunnelAnswer
open WorkerProcess (WsState)
open ClientInput HeaderDetection ServerOutput HandshakeAnswer
open StepSystem (run)

/-- What the start of a tunnel depends on besides the connection. -/
structure Env where
  /-- What `malloc` left in `send_http_200`. -/
  sendHttp200 : ℤ
  activeNow : ℕ := 0
  /-- The arguments and the keys are allocated. -/
  allocates : Bool := true
  /-- The descriptor is copied and the thread is created. -/
  spawns : Bool := true
  /-- The draws of the writer behind the reader. -/
  draws : Draws := {}
  /-- What the socket's job writes before the thread does, and between its own first bytes
  and the first message of the tunnel. -/
  written : ℕ
  writtenLater : ℕ := 0

structure RelayArgs where
  sendHttp200 : ℤ
  deriving DecidableEq, Repr

def socks5TunnelMaxConcurrent : ℕ := 32

/-- The connection fails in any case; without arguments there is no thread. -/
def socks5TunnelStart (e : Env) (x : World) : World × Option RelayArgs :=
  let failed := {x with conn := {x.conn with error := true}}
  if x.conn.inBuf ≠ [] then (failed,none)
  else if socks5TunnelMaxConcurrent*2 ≤ e.activeNow then (failed,none)
  else if e.allocates = false then (failed,none)
  else
    let sendHttp200 : ℤ :=
      if x.conn.wsState = .httpStream then if x.output.outP ≠ [] then 1 else 0 else e.sendHttp200
    let output :=
      if x.conn.wsState = .httpStream ∧ x.output.outP ≠ [] then {x.output with outP := []}
      else x.output
    ({failed with output},if e.spawns then some ⟨sendHttp200⟩ else none)

/-- What the relay thread sends before it reads. -/
def relayThread (a : RelayArgs) : Bytes := if a.sendHttp200 ≠ 0 then http200 else []

/-- A read, up to the point where the writer is called. -/
def read (s : Settings) (arrives : ℕ) (x : World) : World :=
  let seg := x.coming.take arrives
  let c := reader s.cfg seg x.conn
  {x with conn := c, output := answer s x.conn c (x.conn.inBuf++seg) x.output,
          received := x.received++seg, coming := x.coming.drop arrives}

theorem nothing_lt : ([] : Bytes).length < 2^31 := by decide

/-- All bytes that reach the client before the first message of the tunnel. -/
def clientReceives (s : Settings) (e : Env) (x : World) (a : RelayArgs) : Bytes :=
  let handed := (writer s ⟨[],e.draws,nothing_lt⟩ (socks5TunnelStart e x).1).sent
  handed.take e.written++relayThread a++(handed.drop e.written).take e.writtenLater

/-- The plain answer to the handshake of the client's transport. -/
def plainAnswer (s : Settings) (x : World) : Bytes :=
  match x.conn.wsState with
  | .active => wsBuildUpgradeResponse (s.acceptKey (wsKey x.received))
  | .httpStream => http200
  | _ => []

section read
variable {cfg : Config} {c : Conn}

theorem wsState_dechunk (cfg : Config) (c : Conn) : (dechunk cfg c).1.wsState = c.wsState := by
  unfold dechunk
  split_ifs
  · cases dechunkLoop cfg (c.inBuf.length+1) c.inBuf [] <;> rfl
  · rfl

theorem wsState_wsUnwrap (c : Conn) : (wsUnwrap c).1.wsState = c.wsState := by
  unfold wsUnwrap
  split_ifs <;> rfl

theorem wsState_detect (cfg : Config) (c : Conn) : (detect cfg c).1.wsState = c.wsState := by
  unfold detect
  dsimp only
  split_ifs
  · rfl
  · rfl
  · rfl
  · rfl
  · cases cfg.obfs2ParseHeader (c.inBuf.take 64) with
    | none => rfl
    | some h =>
        dsimp only
        split_ifs
        · rfl
        · exact (handOver_spec cfg h c).1

/-- Only the probe changes the state of the transport. -/
theorem wsState_parseExecute (cfg : Config) (c : Conn) :
    (parseExecute cfg c).1.wsState = (probe c).1.wsState := by
  unfold parseExecute
  rcases probe c with ⟨c₁,_ | r⟩
  · have hchunk := wsState_dechunk cfg c₁
    dsimp only
    generalize dechunk cfg c₁ = d at hchunk
    obtain ⟨c₂,_ | r⟩ := d
    · have hunwrap := wsState_wsUnwrap c₂
      dsimp only at hchunk ⊢
      generalize wsUnwrap c₂ = d at hunwrap
      obtain ⟨c₃,_ | r⟩ := d
      · exact (wsState_detect cfg c₃).trans (hunwrap.trans hchunk)
      · exact hunwrap.trans hchunk
    · exact hchunk
  · rfl

theorem wsState_parse (hne : c.inBuf ≠ []) : (c.parse cfg).wsState = (probe c).1.wsState := by
  rw [← wsState_parseExecute cfg,Conn.parse,if_neg hne]
  rcases parseExecute cfg c with ⟨d,_ | _ | _ | _⟩ <;> rfl

/-- The probe waits, fails, or leaves the handshake. -/
theorem probe_cases (hs : c.wsState = .handshake) :
    probe c = (c,some .needMore) ∨ probe c = ({c with error := true},some .done) ∨
    ((probe c).1.wsState = .active ∧ wsParseUpgradeRequest c.inBuf = .upgrade) ∨
    (probe c).1.wsState = .httpStream ∨ (probe c).1.wsState = .none := by
  rw [probe,if_neg (by simp [hs])]
  split_ifs
  · unfold probePost
    split_ifs
    · exact .inl rfl
    · exact .inr (.inl rfl)
    · exact .inl rfl
    · exact .inr (.inr (.inr (.inl rfl)))
  · unfold probeUpgrade
    cases hparse : wsParseUpgradeRequest c.inBuf with
    | more => exact .inl rfl
    | notUpgrade => exact .inr (.inr (.inr (.inr rfl)))
    | upgrade => exact .inr (.inr (.inl ⟨rfl,rfl⟩))

/-- A connection whose transport is known keeps it. -/
theorem wsState_reader (hc : c.crypto = none) (hs : c.wsState ≠ .handshake) (seg : Bytes) :
    (reader cfg seg c).wsState = c.wsState := by
  have hparse (d : Conn) (hd : d.wsState = c.wsState) : (d.parse cfg).wsState = c.wsState := by
    by_cases hne : d.inBuf = []
    · rw [Conn.parse,if_pos hne,hd]
    · rw [wsState_parse hne,probe_none (by rwa [hd]),hd]
  unfold reader
  rw [if_neg (show ¬c.crypto.isSome = true by simp [hc])]
  dsimp only
  split_ifs
  · rfl
  · rfl
  · exact hparse _ rfl
  · rfl
  · exact hparse {c with inBuf := c.inBuf++seg, skipBytes := 0} rfl

/-- The request is not complete, or it is and the state of the transport says what it was. -/
theorem reader_handshake (hf : Fresh c) (seg : Bytes) :
    reader cfg seg c = {c with inBuf := c.inBuf++seg} ∨
    reader cfg seg c = {c with inBuf := c.inBuf++seg, error := true} ∨
    ((reader cfg seg c).wsState = .active ∧ wsParseUpgradeRequest (c.inBuf++seg) = .upgrade) ∨
    (reader cfg seg c).wsState = .httpStream ∨ (reader cfg seg c).wsState = .none := by
  rw [reader_fresh hf]
  by_cases hne : c.inBuf++seg = []
  · rw [Conn.parse,if_pos hne]
    exact .inl rfl
  · have hparse : ∀ d r, probe {c with inBuf := c.inBuf++seg} = (d,some r) →
        r = .needMore ∨ r = .done → Conn.parse cfg {c with inBuf := c.inBuf++seg} = d := by
      intro d r hprobe hr
      rw [Conn.parse,if_neg (show ({c with inBuf := c.inBuf++seg} : Conn).inBuf ≠ [] from hne),
        parseExecute,hprobe]
      rcases hr with rfl | rfl
      · rfl
      · rfl
    rw [wsState_parse (c := {c with inBuf := c.inBuf++seg}) hne]
    rcases probe_cases (c := {c with inBuf := c.inBuf++seg}) hf.handshake with hwait | hfail | hleave
    · exact .inl (hparse _ _ hwait (.inl rfl))
    · exact .inr (.inl (hparse _ _ hfail (.inr rfl)))
    · exact .inr (.inr hleave)

end read

/-- Where the answer is while there is no cipher: at the socket's job or in `c->out_p`. -/
structure Inv (s : Settings) (x : World) : Prop where
  fresh : x.conn.wsState = .handshake → x.conn.error = true ∨ Fresh x.conn ∧ x.conn.inBuf = x.received
  out : x.output.out = []
  outP : x.output.outP = if x.conn.wsState = .httpStream then http200 else []
  sent : if x.conn.wsState = .active then ∃ request t, x.received = request++t ∧
      wsParseUpgradeRequest request = .upgrade ∧
        x.sent = wsBuildUpgradeResponse (s.acceptKey (wsKey request))
    else x.sent = []

section run
variable {s : Settings} {x : World}

theorem inv_connect (s : Settings) (stream : Bytes) : Inv s (connect s stream) where
  fresh := fun _ => .inr ⟨⟨⟨rfl,rfl,rfl,rfl⟩,rfl,rfl,rfl⟩,rfl⟩
  out := rfl
  outP := rfl
  sent := rfl

/-- What a read does to the answer: nothing, unless it ends the handshake. -/
theorem read_cases (hx : Inv s x) (hc : x.conn.crypto = none) (n : ℕ) :
    ((read s n x).conn.wsState = x.conn.wsState ∧ (read s n x).output = x.output ∧
      ((read s n x).conn.wsState = .handshake → (read s n x).conn.crypto = none ∧
        ((read s n x).conn.error = true ∨
          Fresh (read s n x).conn ∧ (read s n x).conn.inBuf = (read s n x).received))) ∨
    (x.conn.wsState = .handshake ∧ (read s n x).conn.wsState = .active ∧
      wsParseUpgradeRequest (read s n x).received = .upgrade ∧ (read s n x).output =
        {x.output with out := wsBuildUpgradeResponse (s.acceptKey (wsKey (read s n x).received))}) ∨
    (x.conn.wsState = .handshake ∧ (read s n x).conn.wsState = .httpStream ∧
      (read s n x).output = {x.output with outP := http200}) ∨
    (x.conn.wsState = .handshake ∧ (read s n x).conn.wsState = .none ∧
      (read s n x).output = x.output) := by
  by_cases hs : x.conn.wsState = .handshake
  · have houtput : (read s n x).output =
        answer s x.conn (read s n x).conn (x.conn.inBuf++x.coming.take n) x.output := rfl
    rw [answer,if_pos hs] at houtput
    have hsame (h : (read s n x).conn.wsState = .handshake) : (read s n x).output = x.output := by
      rw [houtput,h]
    rcases hx.fresh hs with herror | ⟨hfresh,hbuf⟩
    · left
      have hconn : (read s n x).conn = x.conn := by
        show reader s.cfg (x.coming.take n) x.conn = x.conn
        rw [reader,if_pos (.inl herror)]
      have hstate : (read s n x).conn.wsState = .handshake := by rw [hconn,hs]
      refine ⟨by rw [hconn],hsame hstate,fun _ => ?_⟩
      rw [hconn]
      exact ⟨hc,.inl herror⟩
    · have hreceived : (read s n x).received = x.conn.inBuf++x.coming.take n :=
        congrArg (·++x.coming.take n) hbuf.symm
      rcases @reader_handshake s.cfg _ hfresh (x.coming.take n) with
        hwait | hfail | ⟨hactive,hupgrade⟩ | hstream | hnone
      · left
        have hconn : (read s n x).conn = {x.conn with inBuf := x.conn.inBuf++x.coming.take n} := hwait
        rw [hconn,hreceived]
        refine ⟨rfl,hsame (by rw [hconn]; exact hs),fun _ => ⟨hc,.inr ⟨?_,rfl⟩⟩⟩
        exact ⟨⟨hc,hfresh.before.inU,hfresh.before.noError,hfresh.before.notDiverted⟩,hs,
          hfresh.skipBytes,hfresh.ws⟩
      · left
        have hconn : (read s n x).conn =
          {x.conn with inBuf := x.conn.inBuf++x.coming.take n, error := true} := hfail
        rw [hconn]
        exact ⟨rfl,hsame (by rw [hconn]; exact hs),fun _ => ⟨hc,.inl rfl⟩⟩
      · right
        left
        have hstate : (read s n x).conn.wsState = .active := hactive
        rw [hstate,hx.out,List.nil_append,← hreceived] at houtput
        rw [← hreceived] at hupgrade
        exact ⟨hs,hstate,hupgrade,houtput⟩
      · right
        right
        left
        have hstate : (read s n x).conn.wsState = .httpStream := hstream
        have hempty : x.output.outP = [] := by rw [hx.outP,if_neg (by simp [hs])]
        rw [hstate,Output.push,hempty,List.nil_append] at houtput
        exact ⟨hs,hstate,houtput⟩
      · right
        right
        right
        have hstate : (read s n x).conn.wsState = .none := hnone
        rw [hstate] at houtput
        exact ⟨hs,hstate,houtput⟩
  · left
    have hstate := @wsState_reader s.cfg _ hc hs (x.coming.take n)
    refine ⟨hstate,?_,fun h => absurd (hstate.symm.trans h) hs⟩
    rw [read]
    dsimp only
    rw [answer,if_neg hs]

theorem inv_readWrite (hx : x.conn.crypto = none → Inv s x) (e : Event) :
    (readWrite s x e).conn.crypto = none → Inv s (readWrite s x e) := by
  intro hnone
  by_cases hstop : x.conn.error ∨ x.conn.diverted
  · rw [readWrite,if_pos hstop] at hnone ⊢
    exact hx hnone
  have hstep : readWrite s x e = writer s e.write (read s e.arrives x) := by
    rw [readWrite,if_neg hstop]
    rfl
  have hcrypto : (read s e.arrives x).conn.crypto = none := by
    rw [hstep,writer] at hnone
    split_ifs at hnone
    · exact hnone
    · exact hnone
  have hc : x.conn.crypto = none := by
    by_contra hsome
    have hkept : Kept x.conn (reader s.cfg (x.coming.take e.arrives) x.conn) :=
      reader_kept (Option.isSome_iff_ne_none.mpr hsome) (x.coming.take e.arrives)
    have hread : (reader s.cfg (x.coming.take e.arrives) x.conn).crypto = none := hcrypto
    have hsame := hkept.crypto
    rw [hread] at hsame
    exact hsome (Option.not_isSome_iff_eq_none.mp (by rw [← hsame]; simp))
  have hinv := hx hc
  rw [hstep,writer,if_neg (by simp [hcrypto])]
  have hcases := read_cases hinv hc e.arrives
  have hsent : (read s e.arrives x).sent = x.sent := rfl
  have hreceived : (read s e.arrives x).received = x.received++x.coming.take e.arrives := rfl
  have hold := hinv.sent
  generalize read s e.arrives x = y at hcases hsent hreceived
  rcases hcases with ⟨hstate,hout,hfresh⟩ | ⟨hs,hstate,hupgrade,hout⟩ | ⟨hs,hstate,hout⟩ | ⟨hs,hstate,hout⟩
  · refine ⟨fun h => (hfresh h).2,rfl,?_,?_⟩
    · dsimp only
      rw [hout,hinv.outP,hstate]
    · dsimp only
      rw [hout,hinv.out,List.append_nil,hsent,hstate]
      split_ifs at hold ⊢
      · obtain ⟨request,t,ht,hupgrade,hresponse⟩ := hold
        exact ⟨request,t++x.coming.take e.arrives,by rw [hreceived,ht,List.append_assoc],hupgrade,hresponse⟩
      · exact hold
  · rw [if_neg (by simp [hs])] at hold
    refine ⟨fun h => absurd (hstate.symm.trans h) (by decide),rfl,?_,?_⟩
    · dsimp only
      rw [hout,hinv.outP,if_neg (by simp [hs]),if_neg (by simp [hstate])]
    · dsimp only
      rw [hout,if_pos hstate,hsent,hold,List.nil_append]
      exact ⟨y.received,[],(List.append_nil _).symm,hupgrade,rfl⟩
  · rw [if_neg (by simp [hs])] at hold
    refine ⟨fun h => absurd (hstate.symm.trans h) (by decide),rfl,?_,?_⟩
    · dsimp only
      rw [hout,if_pos hstate]
    · dsimp only
      rw [hout,if_neg (by simp [hstate]),hsent,hold,hinv.out,List.nil_append]
  · rw [if_neg (by simp [hs])] at hold
    refine ⟨fun h => absurd (hstate.symm.trans h) (by decide),rfl,?_,?_⟩
    · dsimp only
      rw [hout,hinv.outP,if_neg (by simp [hs]),if_neg (by simp [hstate])]
    · dsimp only
      rw [hout,if_neg (by simp [hstate]),hsent,hold,hinv.out,List.nil_append]

theorem inv_run (s : Settings) (stream : Bytes) (events : List Event) :
    (run (readWrite s) (connect s stream) events).conn.crypto = none →
      Inv s (run (readWrite s) (connect s stream) events) :=
  StepSystem.run_preserves (P := fun x : World => x.conn.crypto = none → Inv s x)
    (fun _ e hx => inv_readWrite hx e) events fun _ => inv_connect s stream

end run

section start
variable {s : Settings} {e : Env} {y : World} {a : RelayArgs}

theorem encryptOutput_empty (ch : Channel) (d : Draws) {o : Output} (ho : o.out = []) :
    encryptOutput ch d o = o := by
  unfold encryptOutput
  split_ifs
  · rfl
  · rw [ho]
    rfl

/-- A thread that starts leaves the connection with the output it found, but for the 200. -/
theorem start_some (h : (socks5TunnelStart e y).2 = some a) :
    a.sendHttp200 = (if y.conn.wsState = .httpStream then if y.output.outP ≠ [] then 1 else 0
      else e.sendHttp200) ∧
    (socks5TunnelStart e y).1 = {y with
      conn := {y.conn with error := true}
      output := if y.conn.wsState = .httpStream ∧ y.output.outP ≠ [] then {y.output with outP := []}
        else y.output} := by
  unfold socks5TunnelStart at h ⊢
  dsimp only at h ⊢
  split_ifs at h ⊢ <;> cases h <;> exact ⟨rfl,rfl⟩

theorem handed_eq (hset : y.conn.crypto.isSome = true) (h : (socks5TunnelStart e y).2 = some a) :
    (writer s ⟨[],e.draws,nothing_lt⟩ (socks5TunnelStart e y).1).sent =
      y.sent++(encryptOutput (s.channel y.conn) e.draws (socks5TunnelStart e y).1.output).outP := by
  rw [(start_some h).2,writer,if_pos hset]
  dsimp only
  rw [send,List.append_nil]
  rfl

/-- The thread sends the 200 of an HTTP stream. -/
theorem receives_stream (hset : y.conn.crypto.isSome = true)
    (h : (socks5TunnelStart e y).2 = some a) (hstate : y.conn.wsState = .httpStream)
    (hout : y.output.out = []) (hp : y.output.outP = http200) (hsent : y.sent = []) :
    clientReceives s e y a = http200 := by
  have hne : http200 ≠ [] := by decide
  have hoff : y.conn.wsState = .httpStream ∧ y.output.outP ≠ [] := ⟨hstate,by rwa [hp]⟩
  obtain ⟨hflag,hstart⟩ := start_some h
  rw [if_pos hstate,if_pos hoff.2] at hflag
  have houtput : (socks5TunnelStart e y).1.output = {y.output with outP := []} := by
    rw [hstart,if_pos hoff]
  rw [clientReceives,handed_eq hset h,houtput,encryptOutput_empty (o := {y.output with outP := []}) _ _ hout,
    hsent,relayThread,hflag]
  simp

/-- For another transport with nothing in the buffers, the thread goes by what it finds. -/
theorem receives_flushed (hset : y.conn.crypto.isSome = true)
    (h : (socks5TunnelStart e y).2 = some a) (hstate : y.conn.wsState ≠ .httpStream)
    (hout : y.output.out = []) (hp : y.output.outP = []) :
    clientReceives s e y a = y.sent.take e.written++(if e.sendHttp200 ≠ 0 then http200 else [])++
      (y.sent.drop e.written).take e.writtenLater := by
  obtain ⟨hflag,hstart⟩ := start_some h
  rw [if_neg hstate] at hflag
  have houtput : (socks5TunnelStart e y).1.output = y.output := by
    rw [hstart,if_neg (fun hboth => hstate hboth.1)]
  rw [clientReceives,handed_eq hset h,houtput,encryptOutput_empty _ _ hout,hp,List.append_nil,
    relayThread,hflag]

/-- A 101 that is still queued goes out encrypted and in a frame, if it does. -/
theorem receives_queued (hset : y.conn.crypto.isSome = true)
    (h : (socks5TunnelStart e y).2 = some a) (hstate : y.conn.wsState = .active)
    (hout : y.output.out ≠ []) (hp : y.output.outP = []) (hsent : y.sent = []) :
    ∃ bs : Bytes, bs.head? = some 0x82 ∧ clientReceives s e y a =
      bs.take e.written++(if e.sendHttp200 ≠ 0 then http200 else [])++
        (bs.drop e.written).take e.writtenLater := by
  obtain ⟨hflag,hstart⟩ := start_some h
  rw [if_neg (by simp [hstate])] at hflag
  have houtput : (socks5TunnelStart e y).1.output = y.output := by
    rw [hstart,if_neg (by simp [hstate])]
  refine ⟨_,encryptOutput_head (show (s.channel y.conn).wsState = .active from hstate) e.draws hp hout,?_⟩
  rw [clientReceives,handed_eq hset h,houtput,hsent,relayThread,hflag,List.nil_append]

end start

section bytes
variable {key rest : Bytes}

/-- The 101 up to the key. -/
def upgradeStart : Bytes :=
  bytesOf ("HTTP/1.1 101 Switching Protocols\r\n"++"Upgrade: websocket\r\n"++
    "Connection: Upgrade\r\n"++"Sec-WebSocket-Accept: ")

theorem length_upgradeStart : upgradeStart.length = 97 := rfl

theorem length_http200 : http200.length = 111 := by decide +kernel

theorem response_eq (key : Bytes) :
    wsBuildUpgradeResponse key = upgradeStart++(key++bytesOf "\r\n\r\n") := by
  rw [wsBuildUpgradeResponse,List.append_assoc]
  rfl

theorem response_ne_stream (key rest : Bytes) : wsBuildUpgradeResponse key ≠ http200++rest := by
  intro heq
  have htake := congrArg (List.take 10) heq
  rw [response_eq,List.take_append_of_le_length (by rw [length_upgradeStart]; decide),
    List.take_append_of_le_length (by rw [length_http200]; decide)] at htake
  exact absurd htake (by decide +kernel)

theorem response_head (key : Bytes) : (wsBuildUpgradeResponse key).head? = some 0x48 := by
  rw [response_eq]
  rfl

/-- The 200 does not stand in a 101 with a key of the length of the digest. -/
theorem response_ne_between (hkey : key.length ≤ 28) (k l : ℕ) :
    (wsBuildUpgradeResponse key).take k++http200++((wsBuildUpgradeResponse key).drop k).take l ≠
      wsBuildUpgradeResponse key := by
  intro heq
  have hlen := congrArg List.length heq
  have hsize : (wsBuildUpgradeResponse key).length = 97+(key.length+4) := by
    rw [response_eq,List.length_append,List.length_append]
    rfl
  have hlong := length_http200
  have hdrop := congrArg (List.drop ((wsBuildUpgradeResponse key).take k).length) heq
  rw [List.append_assoc,List.drop_left] at hdrop
  have htake := congrArg (List.take 10) hdrop
  rw [List.length_append,List.length_append] at hlen
  generalize ((wsBuildUpgradeResponse key).take k).length = n at hlen hdrop htake
  have hstart := length_upgradeStart
  rw [List.take_append_of_le_length (by omega),response_eq,
    List.drop_append_of_le_length (by omega),
    List.take_append_of_le_length (by rw [List.length_drop]; omega)] at htake
  have hnone : ∀ m < 19, http200.take 10 ≠ (upgradeStart.drop m).take 10 := by decide +kernel
  exact hnone n (by omega) htake

end bytes

/-- When a client gets its answer once: an HTTP stream always, the others if `malloc` left a
zero, and a WebSocket only if the read before had ended its handshake and the socket's job
has written the 101. -/
def AnswersOnce (s : Settings) (e : Env) (x y : World) : Prop :=
  match y.conn.wsState with
  | .httpStream => True
  | .active => x.conn.wsState = .active ∧ e.sendHttp200 = 0 ∧
      (plainAnswer s y).length ≤ e.written+e.writtenLater
  | _ => e.sendHttp200 = 0

section result
variable {s : Settings} {e : Env} {x : World} {a : RelayArgs} {n : ℕ}

/-- Nothing was handed over, and there is nothing to hand over. -/
theorem once_plain (hsent : (read s n x).sent = []) (hout : (read s n x).output.out = [])
    (hp : (read s n x).output.outP = []) (hset : (read s n x).conn.crypto.isSome = true)
    (h : (socks5TunnelStart e (read s n x)).2 = some a)
    (hstate : (read s n x).conn.wsState = .none) :
    clientReceives s e (read s n x) a = plainAnswer s (read s n x) ↔
      AnswersOnce s e x (read s n x) := by
  rw [receives_flushed hset h (by simp [hstate]) hout hp,hsent,plainAnswer,AnswersOnce,hstate]
  simp only [List.take_nil,List.drop_nil,List.nil_append,List.append_nil]
  constructor
  · intro hempty
    by_contra hne
    rw [if_pos hne] at hempty
    exact absurd hempty (by decide)
  · intro hzero
    rw [if_neg (not_not.mpr hzero)]

/-- The 101 was handed over by the writer of an earlier read. -/
theorem once_flushed (hkey : ∀ key, (s.acceptKey key).length = 28)
    (hx : x.conn.wsState = .active) (hout : (read s n x).output.out = [])
    (hp : (read s n x).output.outP = []) (hset : (read s n x).conn.crypto.isSome = true)
    (h : (socks5TunnelStart e (read s n x)).2 = some a)
    (hstate : (read s n x).conn.wsState = .active)
    (hsent : (read s n x).sent = plainAnswer s (read s n x)) :
    clientReceives s e (read s n x) a = plainAnswer s (read s n x) ↔
      AnswersOnce s e x (read s n x) := by
  rw [receives_flushed hset h (by simp [hstate]) hout hp,hsent,AnswersOnce,hstate]
  have hanswer : plainAnswer s (read s n x) =
      wsBuildUpgradeResponse (s.acceptKey (wsKey (read s n x).received)) := by
    rw [plainAnswer,hstate]
  rw [hanswer]
  generalize wsKey (read s n x).received = key
  by_cases hzero : e.sendHttp200 = 0
  · rw [if_neg (not_not.mpr hzero),List.append_nil,← List.take_add]
    constructor
    · intro htake
      refine ⟨hx,hzero,?_⟩
      have hlen := congrArg List.length htake
      rw [List.length_take] at hlen
      omega
    · intro hok
      exact List.take_of_length_le hok.2.2
  · rw [if_pos hzero]
    exact iff_of_false (response_ne_between (hkey key).le _ _) fun hok => hzero hok.2.1

/-- The 101 is still queued. -/
theorem once_queued (hx : x.conn.wsState = .handshake) (hsent : (read s n x).sent = [])
    (hout : (read s n x).output.out = plainAnswer s (read s n x))
    (hp : (read s n x).output.outP = []) (hset : (read s n x).conn.crypto.isSome = true)
    (h : (socks5TunnelStart e (read s n x)).2 = some a)
    (hstate : (read s n x).conn.wsState = .active) :
    clientReceives s e (read s n x) a = plainAnswer s (read s n x) ↔
      AnswersOnce s e x (read s n x) := by
  have hanswer : plainAnswer s (read s n x) =
      wsBuildUpgradeResponse (s.acceptKey (wsKey (read s n x).received)) := by
    rw [plainAnswer,hstate]
  rw [hanswer] at hout ⊢
  generalize s.acceptKey (wsKey (read s n x).received) = key at hout
  have hhead := response_head key
  have hne : (read s n x).output.out ≠ [] := by
    intro hnil
    rw [← hout,hnil] at hhead
    cases hhead
  obtain ⟨bs,hbs,hreceives⟩ := receives_queued hset h hstate hne hp hsent
  refine iff_of_false ?_ ?_
  · rw [hreceives]
    intro heq
    have hheads := (congrArg List.head? heq).trans hhead
    obtain ⟨cs,rfl⟩ : ∃ cs, bs = 0x82::cs := by
      cases bs with
      | nil => cases hbs
      | cons b cs => exact ⟨cs,by rw [Option.some.inj hbs]⟩
    by_cases hwritten : e.written = 0
    · rw [hwritten,List.take_zero,List.nil_append,List.drop_zero] at heq hheads
      split_ifs at heq hheads
      · exact response_ne_stream _ _ heq.symm
      · cases hlater : e.writtenLater with
        | zero =>
            rw [hlater] at hheads
            cases hheads
        | succ l =>
            rw [hlater] at hheads
            exact absurd hheads (by simp)
    · obtain ⟨k,hk⟩ := Nat.exists_eq_succ_of_ne_zero hwritten
      rw [hk] at hheads
      exact absurd hheads (by simp)
  · intro hok
    rw [AnswersOnce,hstate] at hok
    rw [hx] at hok
    cases hok.1

end result

/-- For every client whose header has just been read and whose thread starts: what it gets
before the first message of the tunnel is its plain answer, once, just under these
conditions. The key of a 101 is a digest of 20 bytes in base64. -/
theorem tunnel_answers_once_iff (s : Settings) (hkey : ∀ key, (s.acceptKey key).length = 28)
    (stream : Bytes) (events : List Event) (arrives : ℕ) (e : Env) (a : RelayArgs)
    (hbefore : (run (readWrite s) (connect s stream) events).conn.crypto = none)
    (hset : (read s arrives (run (readWrite s) (connect s stream) events)).conn.crypto.isSome = true)
    (hstart : (socks5TunnelStart e
      (read s arrives (run (readWrite s) (connect s stream) events))).2 = some a) :
    clientReceives s e (read s arrives (run (readWrite s) (connect s stream) events)) a =
        plainAnswer s (read s arrives (run (readWrite s) (connect s stream) events)) ↔
      AnswersOnce s e (run (readWrite s) (connect s stream) events)
        (read s arrives (run (readWrite s) (connect s stream) events)) := by
  have hinv := inv_run s stream events hbefore
  generalize run (readWrite s) (connect s stream) events = x at hbefore hset hstart hinv
  have hsent : (read s arrives x).sent = x.sent := rfl
  have hreceived : (read s arrives x).received = x.received++x.coming.take arrives := rfl
  have hold := hinv.sent
  have hp := hinv.outP
  rcases read_cases hinv hbefore arrives with
    ⟨hstate,hout,hfresh⟩ | ⟨hs,hstate,-,hout⟩ | ⟨hs,hstate,hout⟩ | ⟨hs,hstate,hout⟩
  · cases hs : x.conn.wsState with
    | handshake =>
        rw [(hfresh (hstate.trans hs)).1] at hset
        cases hset
    | none =>
        rw [if_neg (by simp [hs])] at hold hp
        exact once_plain (hsent.trans hold) (by rw [hout,hinv.out]) (by rw [hout,hp]) hset hstart
          (hstate.trans hs)
    | httpStream =>
        rw [if_neg (by simp [hs])] at hold
        rw [if_pos hs] at hp
        rw [receives_stream hset hstart (hstate.trans hs) (by rw [hout,hinv.out]) (by rw [hout,hp])
          (hsent.trans hold),plainAnswer,AnswersOnce,hstate.trans hs]
        simp
    | active =>
        rw [if_neg (by simp [hs])] at hp
        rw [if_pos hs] at hold
        obtain ⟨request,t,ht,hupgrade,hresponse⟩ := hold
        refine once_flushed hkey hs (by rw [hout,hinv.out]) (by rw [hout,hp]) hset hstart
          (hstate.trans hs) ?_
        rw [hsent,hresponse,plainAnswer,hstate.trans hs,hreceived,ht,List.append_assoc,
          wsKey_append hupgrade]
  · rw [if_neg (by simp [hs])] at hold hp
    refine once_queued hs (hsent.trans hold) ?_ (by rw [hout,hp]) hset hstart hstate
    rw [hout,plainAnswer,hstate]
  · rw [if_neg (by simp [hs])] at hold
    rw [receives_stream hset hstart hstate (by rw [hout,hinv.out]) (by rw [hout])
      (hsent.trans hold),plainAnswer,AnswersOnce,hstate]
    simp
  · rw [if_neg (by simp [hs])] at hold hp
    exact once_plain (hsent.trans hold) (by rw [hout,hinv.out]) (by rw [hout,hp]) hset hstart hstate

/-- A client behind its upgrade request. -/
def upgraded : World :=
  run (readWrite sampleSettings)
    (connect sampleSettings (WebSocketInput.sampleRequest++sampleFrame))
    [sampleEvent WebSocketInput.sampleRequest.length]

/-- What the witness needs of the two reads, so that they are evaluated once. -/
theorem upgraded_reads :
    upgraded.conn.crypto = none ∧ (read sampleSettings 200 upgraded).conn.crypto.isSome = true ∧
    (socks5TunnelStart {sendHttp200 := 0, written := 200}
      (read sampleSettings 200 upgraded)).2 = some ⟨0⟩ ∧
    (read sampleSettings 200 upgraded).conn.wsState = .active ∧ upgraded.conn.wsState = .active ∧
    (plainAnswer sampleSettings (read sampleSettings 200 upgraded)).length ≤ 200 := by
  rw [← Option.isNone_iff_eq_none]
  decide +kernel

/-- Its header in a second read, and a flag that happens to be zero. -/
theorem tunnel_answers_upgraded :
    clientReceives sampleSettings {sendHttp200 := 0, written := 200}
        (read sampleSettings 200 upgraded) ⟨0⟩ =
      plainAnswer sampleSettings (read sampleSettings 200 upgraded) := by
  have ⟨hbefore,hset,hstart,hstate,hactive,hlength⟩ := upgraded_reads
  refine (tunnel_answers_once_iff sampleSettings (fun _ => rfl)
    (WebSocketInput.sampleRequest++sampleFrame) _ 200 {sendHttp200 := 0, written := 200} ⟨0⟩
    hbefore hset hstart).mpr ?_
  change AnswersOnce _ _ upgraded (read sampleSettings 200 upgraded)
  rw [AnswersOnce,hstate]
  exact ⟨hactive,rfl,hlength⟩

/-- With another value in the flag the same client gets the 200 of an HTTP stream behind its
101. In one read with its header the request is not answered. -/
theorem tunnel_answers_wrong :
    (socks5TunnelStart {sendHttp200 := 1, written := 200}
      (read sampleSettings 200 upgraded)).2 = some ⟨1⟩ ∧
    clientReceives sampleSettings {sendHttp200 := 1, written := 200}
        (read sampleSettings 200 upgraded) ⟨1⟩ =
      plainAnswer sampleSettings (read sampleSettings 200 upgraded)++http200 ∧
    (socks5TunnelStart {sendHttp200 := 0, written := 0} (read sampleSettings 200
      (connect sampleSettings (WebSocketInput.sampleRequest++sampleFrame)))).2 = some ⟨0⟩ ∧
    clientReceives sampleSettings {sendHttp200 := 0, written := 0} (read sampleSettings 200
      (connect sampleSettings (WebSocketInput.sampleRequest++sampleFrame))) ⟨0⟩ = [] ∧
    plainAnswer sampleSettings (read sampleSettings 200
      (connect sampleSettings (WebSocketInput.sampleRequest++sampleFrame))) ≠ [] := by
  decide +kernel

end Teleproxy.TunnelAnswer
