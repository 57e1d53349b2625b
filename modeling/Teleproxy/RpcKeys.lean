import Teleproxy.Obfs2Header

/-!
# The keys of the RPC transport

Both sides of an RPC connection make the same string from the two nonces, the addresses
and the secret, with "CLIENT" or "SERVER" in the middle. The key of the Diffie-Hellman
exchange, where there is one, is mixed in. The digests of the string are the key and
the vector for writing. Then the six bytes of the role are flipped in place, under what
was mixed in, and the digests of the new string are those for reading.

The digests are parameters.
-/
namespace Teleproxy.RpcKeys
open ClientInput (Bytes)
open PacketParser (lookup4 store4)
open Obfs2Header (store2)

/-- `char crypto_nonce[16]`. -/
abbrev Nonce := {b : Bytes // b.length = 16}

structure Digests where
  md5 : Bytes → Bytes
  sha1 : Bytes → Bytes

/-- The address of one end, as it goes into the keys. -/
structure Address where
  ip : BitVec 32
  port : BitVec 32
  ipv6 : Bytes
  deriving DecidableEq, Repr

structure AesKeyData where
  readKey : Bytes
  readIv : Bytes
  writeKey : Bytes
  writeIv : Bytes
  deriving DecidableEq, Repr

/-- The keys of the other side. -/
def AesKeyData.swap (d : AesKeyData) : AesKeyData :=
  {readKey := d.writeKey, readIv := d.writeIv, writeKey := d.readKey, writeIv := d.readIv}

def minPwdLen : ℕ := 32
def maxPwdLen : ℕ := 256

/-- What the two sides tell each other before they make keys. -/
structure Exchange where
  nonceServer : Nonce
  nonceClient : Nonce
  clientTimestamp : BitVec 32
  server : Address
  client : Address
  secret : Bytes
  tempKey : Bytes

def roleBytes (amClient : Bool) : Bytes :=
  if amClient then [0x43,0x4c,0x49,0x45,0x4e,0x54] else [0x53,0x45,0x52,0x56,0x45,0x52]

/-- The string up to the role. -/
def beforeRole (x : Exchange) : Bytes :=
  x.nonceServer.1++x.nonceClient.1++store4 x.clientTimestamp++store4 x.server.ip++
    store2 x.client.port

/-- The string behind the role. -/
def afterRole (x : Exchange) : Bytes :=
  store4 x.client.ip++store2 x.server.port++x.secret++x.nonceServer.1++
    (if x.server.ip = 0#32 then x.client.ipv6++x.server.ipv6 else [])++x.nonceClient.1

def keyString (amClient : Bool) (x : Exchange) : Bytes :=
  beforeRole x++roleBytes amClient++afterRole x

/-- The size of the array `str`. -/
def strSize : ℕ := 16+16+4+4+2+6+4+2+maxPwdLen+16+16+4+16*2+256

/-- The bytes of the temporary key are added to those of the string, and those that are left
over are put behind it. -/
def mixIn : Bytes → Bytes → Bytes
  | [], temp => temp
  | str, [] => str
  | b::str, t::temp => (b ^^^ t)::mixIn str temp

/-- `str[42] ^= 'C' ^ 'S'` and so on to `str[47]`. -/
def flipRole (str : Bytes) : Bytes :=
  (((((str.modify 42 (· ^^^ (0x43 ^^^ 0x53))).modify 43 (· ^^^ (0x4c ^^^ 0x45))).modify 44
    (· ^^^ (0x49 ^^^ 0x52))).modify 45 (· ^^^ (0x45 ^^^ 0x56))).modify 46
    (· ^^^ (0x4e ^^^ 0x45))).modify 47 (· ^^^ (0x54 ^^^ 0x52))

/-- The second digest is written over the end of the first. -/
def keyOf (h : Digests) (str : Bytes) : Bytes := (h.md5 (str.drop 1)).take 12++h.sha1 str

def ivOf (h : Digests) (str : Bytes) : Bytes := h.md5 (str.drop 2)

/-- `aes_create_keys`. `none` is a secret that is not set, or a failed assertion. -/
def aesCreateKeys (h : Digests) (amClient : Bool) (x : Exchange) : Option AesKeyData :=
  if x.secret.length = 0 then none
  else if x.secret.length < minPwdLen ∨ maxPwdLen < x.secret.length then none
  else if (x.server.ip = 0#32) ≠ (x.client.ip = 0#32) then none
  else
    let str := mixIn (keyString amClient x) (x.tempKey.take strSize)
    let flipped := flipRole str
    some {writeKey := keyOf h str, writeIv := ivOf h str,
          readKey := keyOf h flipped, readIv := ivOf h flipped}

theorem length_beforeRole (x : Exchange) : (beforeRole x).length = 42 := by
  simp [beforeRole,x.nonceServer.2,x.nonceClient.2,store4,store2]

/-- A byte that is flipped may be flipped before the temporary key is mixed in. -/
theorem modify_mixIn {str : Bytes} {i : ℕ} (h : i < str.length) (temp : Bytes) (m : UInt8) :
    (mixIn str temp).modify i (· ^^^ m) = mixIn (str.modify i (· ^^^ m)) temp := by
  induction str generalizing i temp with
  | nil => exact absurd h (Nat.not_lt_zero i)
  | cons b str ih =>
      cases temp with
      | nil =>
          cases i with
          | zero => rfl
          | succ i => rfl
      | cons t temp =>
          cases i with
          | zero =>
              rw [mixIn,List.modify_zero_cons,List.modify_zero_cons,mixIn,UInt8.xor_assoc,
                UInt8.xor_comm t,UInt8.xor_assoc]
          | succ i =>
              rw [mixIn,List.modify_succ_cons,List.modify_succ_cons,mixIn,
                ih (Nat.lt_of_succ_lt_succ h)]

theorem flipRole_mixIn {str : Bytes} (h : 48 ≤ str.length) (temp : Bytes) :
    flipRole (mixIn str temp) = mixIn (flipRole str) temp := by
  rw [flipRole,flipRole,modify_mixIn (by omega)]
  iterate 5 rw [modify_mixIn (by simp only [List.length_modify]; omega)]

theorem modify_behind {pre : Bytes} {n : ℕ} (h : pre.length = n) (i : ℕ) (str : Bytes)
    (f : UInt8 → UInt8) : (pre++str).modify (n+i) f = pre++str.modify i f := by
  induction pre generalizing n with
  | nil =>
      rw [← h]
      simp
  | cons b pre ih =>
      rw [← h,List.length_cons,Nat.add_right_comm,List.cons_append,List.modify_succ_cons,ih rfl]
      rfl

/-- Flipping the role makes the string of the other side. -/
theorem flipRole_keyString (amClient : Bool) (x : Exchange) :
    flipRole (keyString amClient x) = keyString (!amClient) x := by
  have hbehind := fun i => modify_behind (length_beforeRole x) i
  rw [keyString,keyString,List.append_assoc,List.append_assoc,flipRole]
  rw [hbehind 0,hbehind 1,hbehind 2,hbehind 3,hbehind 4,hbehind 5]
  cases amClient <;> rfl

theorem length_keyString (amClient : Bool) (x : Exchange) : 48 ≤ (keyString amClient x).length := by
  have hrole : (roleBytes amClient).length = 6 := by cases amClient <;> rfl
  rw [keyString,List.length_append,List.length_append,length_beforeRole,hrole]
  omega

/-- From the same exchange the two sides make the same keys, each for the other direction. -/
theorem aesCreateKeys_swap (h : Digests) (amClient : Bool) (x : Exchange) :
    aesCreateKeys h (!amClient) x = (aesCreateKeys h amClient x).map .swap := by
  have hflip : ∀ b, flipRole (mixIn (keyString b x) (x.tempKey.take strSize)) =
      mixIn (keyString (!b) x) (x.tempKey.take strSize) := by
    intro b
    rw [flipRole_mixIn (length_keyString b x),flipRole_keyString]
  unfold aesCreateKeys
  split_ifs
  · rfl
  · rfl
  · rfl
  · simp only [hflip,Bool.not_not,Option.map_some,AesKeyData.swap]

/-- The long addresses matter only where there is no short one. -/
theorem aesCreateKeys_ipv6 (h : Digests) (amClient : Bool) (x : Exchange) {i j : Bytes}
    (hipv6 : x.server.ip = 0#32 → i = x.server.ipv6 ∧ j = x.client.ipv6) :
    aesCreateKeys h amClient {x with server := {x.server with ipv6 := i},
                                     client := {x.client with ipv6 := j}} =
      aesCreateKeys h amClient x := by
  have hstring : keyString amClient {x with server := {x.server with ipv6 := i},
                                            client := {x.client with ipv6 := j}} =
      keyString amClient x := by
    rw [keyString,keyString,afterRole,afterRole]
    dsimp only
    split_ifs with hip
    · rw [(hipv6 hip).1,(hipv6 hip).2]
    · rfl
  simp only [aesCreateKeys,hstring]

end Teleproxy.RpcKeys
