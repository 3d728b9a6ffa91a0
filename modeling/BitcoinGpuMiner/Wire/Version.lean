import BitcoinGpuMiner.Encoding.Unserialize

/-! # The `version` message

Its last fields are optional: each is read only if the buffer has anything left, and keeps its old value otherwise.
-/

namespace BitcoinGpuMiner

open Foundation

set_option autoImplicit false

def headerSize : Nat := 24

/-- The four fields of `NetMessageHeader`, one after the other. -/
structure NetMessageHeader where
  pchMessageStart : Bytes
  pchCommand : Bytes
  nMessageSize : Nat
  pchChecksum : Bytes
deriving DecidableEq

structure NetAddress where
  services : Nat
  ip : Bytes
  port : Nat
deriving DecidableEq

structure NetMessageVersion where
  version : Int
  services : Nat
  timestamp : Int
  recvAddr : NetAddress
  transAddr : NetAddress
  nonce : Nat
  userAgent : Bytes
  startHeight : Int
  relay : Bool
deriving DecidableEq

variable (stale : Nat → UInt8)

/-- `NetMessageHeader` has no initial values. -/
def NetMessageHeader.unserialize : Reader NetMessageHeader := do
  let pchMessageStart ← Parser.read ((List.range 4).map stale)
  let pchCommand ← Parser.read ((List.range 12).map stale)
  let nMessageSize ← readData stale 4
  let pchChecksum ← Parser.read ((List.range 4).map stale)
  pure ⟨pchMessageStart, pchCommand, nMessageSize, pchChecksum⟩

/-- The port is in network byte order. -/
def NetAddress.unserialize (old : NetAddress) : Reader NetAddress := do
  let services ← readData stale 8
  let ip ← Parser.read old.ip
  let portN ← Parser.read (writeBE 2 old.port)
  pure ⟨services, ip, readBE portN⟩

/-- Something is read only while `s.empty()` is false. -/
def unlessEmpty {α : Type} (old : α) (read : Reader α) : Reader α := fun s =>
  if s.data.length = s.pos.toNat then .ok (old, s) else read s

def readBool : Reader Bool := do
  let f ← readData stale 1
  pure (decide (f ≠ 0))

def NetMessageVersion.unserialize (old : NetMessageVersion) : Reader NetMessageVersion := do
  let version ← readInt stale 4
  let services ← readData stale 8
  let timestamp ← readInt stale 8
  let recvAddr ← NetAddress.unserialize stale old.recvAddr
  let transAddr ← NetAddress.unserialize stale old.transAddr
  let nonce ← readData stale 8
  let userAgent ← unlessEmpty old.userAgent (readLimitedString stale 256 old.userAgent)
  let startHeight ← unlessEmpty old.startHeight (readInt stale 4)
  let relay ← unlessEmpty old.relay (readBool stale)
  pure ⟨version, services, timestamp, recvAddr, transAddr, nonce, userAgent, startHeight, relay⟩

/-- How `ProcessMessageHandler` reads a `version` message from the buffer it is given. -/
def readVersionMessage (old : NetMessageVersion) (data : Bytes) : Option NetMessageVersion :=
  let read : Reader NetMessageVersion := do
    let _hdr ← NetMessageHeader.unserialize stale
    NetMessageVersion.unserialize stale old
  match read ⟨data, 0, false⟩ with
  | .ok (version, _) => some version
  | .error _ => none

end BitcoinGpuMiner
