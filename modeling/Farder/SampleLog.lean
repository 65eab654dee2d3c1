import Farder.LogStep

/-! # A sample server

A small instance of the cryptographic parameter, on which logs can be evaluated: keys are
told apart by their low byte, and signatures and digests keep just what identifies an
event. `signed` builds the chains of a log the way `Event.next` does. -/
namespace SampleLog

open EventLog

def lowByte (b : BitVec 256) : UInt8 := UInt8.ofNat b.toNat

def crypto : Crypto where
  sha256Hex bytes := String.ofList ((bytes.filter (· ≠ 0)).map fun b => Char.ofNat (b.toNat + 48))
  publicKey k := ⟨k.signingKey⟩
  sign k _ := [lowByte k.signingKey]
  verify pk _ signature := signature = [lowByte pk.bytes]
  genesisBytes g := [lowByte g.owner.bytes]
  certCoreBytes c := [lowByte c.identity.bytes, lowByte c.devicePubkey.bytes]
  coreBytes c := [lowByte c.author.bytes, UInt8.ofNat c.seq]
  eventBytes e := lowByte e.core.author.bytes :: UInt8.ofNat (e.core.seq + 1) :: e.signature

def key (k : Keypair) : PublicKey := crypto.publicKey k
def device (k : Keypair) : DeviceId := deviceId crypto (key k)

/-- What a device submits at a time it claims. -/
structure Entry where
  author : Keypair
  device : Keypair
  timestamp : ℕ
  payload : EventPayload

def alice : Keypair := ⟨1⟩
def bob : Keypair := ⟨2⟩
def a0 : Keypair := ⟨3⟩
def a1 : Keypair := ⟨4⟩
def b0 : Keypair := ⟨5⟩

def genesis : Genesis := ⟨1, "sample", key alice, 0, 0⟩

/-- Sign an entry at the end of its device's chain in the log. -/
def nextEvent (log : List Event) (entry : Entry) : Event :=
  let prev := log.reverse.find? fun e =>
    e.core.author = key entry.author ∧ e.core.device = device entry.device
  Event.next crypto entry.device (key entry.author) (genesis.serverId crypto) prev 0
    entry.timestamp entry.payload

def signed (entries : List Entry) : List Event :=
  entries.foldl (fun log entry => log ++ [nextEvent log entry]) []

def stateOf (entries : List Entry) : LogState :=
  LogState.stateAfter crypto genesis (signed entries)

def ref (author device : Keypair) (seq : ℕ) : EventRef :=
  crypto.sha256Hex [lowByte author.signingKey, UInt8.ofNat (seq + 1), lowByte device.signingKey]

def cert (identity device : Keypair) (expiresAt : Option ℕ) : EventPayload :=
  .deviceAuthorized (DeviceCert.createInner crypto identity (key device) 0 expiresAt)

/-- A commit of channel 7 for an epoch, linking the digests `epoch` and `epoch + 1`. -/
def commit (generation epoch : ℕ) (adds : List DeclaredAdd) (removes : List DeclaredRemove) :
    EventPayload :=
  .mlsCommit ⟨7, generation, epoch, [], adds, removes, BitVec.ofNat 256 epoch,
    BitVec.ofNat 256 (epoch + 1), 0, "", 0⟩

/-- Alice's server: an encrypted channel that Bob has joined with one device. -/
def twoMembers : List Entry :=
  [⟨alice, a0, 1, cert alice a0 none⟩,
   ⟨alice, a0, 1, .channelCreated ⟨7, "sealed", "text", .e2ee, none⟩⟩,
   ⟨alice, a0, 1, .inviteCreated ⟨"", 5, 100, false⟩⟩,
   ⟨bob, b0, 1, cert bob b0 none⟩,
   ⟨bob, b0, 1, .memberJoined (key bob) (ref alice a0 2)⟩,
   ⟨bob, b0, 1, .mlsKeyPackagePublished ⟨[], 0, 100⟩⟩,
   ⟨alice, a0, 2, commit 0 0 [⟨key bob, device b0, ref bob b0 2⟩] []⟩,
   ⟨bob, b0, 2, .mlsLeafConfirmed ⟨7, 0, 1, 0, 0⟩⟩]

end SampleLog
