import Teleproxy.FrameLength

/-!
# Writing packets

A packet on its way out is put behind its length and appended to `c->out`. Between the
proxy and a backend it also has a number and a checksum; for a client it has one of the
short forms that its header asked for. `tcp_rpc_flush` fills the last block of a block
cipher with words of value 4.

A failed assertion is `none`. The random bytes of the padded mode are arguments, and the
checksum is a function of the connection.
-/
namespace Teleproxy.RpcWriter
open ClientInput (Bytes)
open PacketParser (store4)
open FrameLength (rpcFPad rpcFMedium rpcFCompact)

structure OutConn where
  flags : BitVec 32
  isTls : Bool := false
  leftTlsPacketLength : ℤ := 0
  outPacketNum : BitVec 32 := 0#32
  customCrcPartial : Bytes → BitVec 32 := fun _ => 0#32
  out : Bytes := []

def tcpRpcWritePacket (c : OutConn) (raw : Bytes) : OutConn :=
  if c.flags &&& (rpcFCompact ||| rpcFMedium) = 0#32 then
    let raw := store4 (.ofNat 32 (raw.length+12))++store4 c.outPacketNum++raw
    {c with outPacketNum := c.outPacketNum+1#32,
            out := c.out++(raw++store4 (c.customCrcPartial raw))}
  else c

/-- The length in front of a packet of a client. -/
def compactHeader (flags len : BitVec 32) : Bytes :=
  if flags &&& rpcFMedium ≠ 0#32 then store4 len
  else if len.toInt ≤ 0x7e*4 then (store4 (len >>> 2)).take 1
  else store4 ((len <<< 6) ||| 0x7f#32)

/-- `x` and `y` are the results of `lrand48_j` in padded mode. -/
def tcpRpcWritePacketCompact (c : OutConn) (raw : Bytes) (x y : BitVec 32) : Option OutConn :=
  if raw.length = 5 then
    if raw.getD 0 0 = 0xdd then some {c with out := c.out++raw.drop 1} else none
  else if c.isTls = true ∧ c.leftTlsPacketLength = -1 then some {c with out := c.out++raw}
  else if c.flags &&& (rpcFCompact ||| rpcFMedium) = 0#32 then some (tcpRpcWritePacket c raw)
  else
    let raw := if c.flags &&& rpcFPad ≠ 0#32 then raw++(store4 x).take (y &&& 3#32).toNat else raw
    let len := BitVec.ofNat 32 raw.length
    if len &&& 0xfc000000#32 ≠ 0#32 then none
    else if c.flags &&& rpcFPad = 0#32 ∧ len &&& 3#32 ≠ 0#32 then none
    else some {c with out := c.out++(compactHeader c.flags len++raw)}

/-- `crypto` says whether a block cipher is set. -/
def tcpRpcFlush (crypto : Bool) (c : OutConn) : Option OutConn :=
  if crypto then
    let padBytes := (-(BitVec.ofNat 32 c.out.length) &&& 15#32).toNat
    if 0 < padBytes then
      if padBytes % 4 ≠ 0 ∨ 12 < padBytes then none
      else some {c with out := c.out++(store4 4#32++store4 4#32++store4 4#32).take padBytes}
    else some c
  else some c

end Teleproxy.RpcWriter
