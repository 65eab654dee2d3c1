import Farder.Client.Desk
import Farder.Support.Bytes

/-! # Sealed messages

The words of a message are padded and sealed for the group. The event says who posts them, in which
generation and epoch; the one who opens them looks at the ciphertext alone. -/
namespace Client

open EventLog Effects Bytes

structure MessageEnvelope where
  content : String
  attachmentKeys : List (BitVec 256)
  filenames : List String
  mimes : List String
  deriving DecidableEq, Repr

structure EnvelopeCodec where
  encode : MessageEnvelope → Option (List UInt8)
  decode : List UInt8 → Option MessageEnvelope

def paddingBuckets : List ℕ := [256, 1024, 4096, 16384, 40960]
def maxPresealBytes : ℕ := 32 * 1024
def maxContentChars : ℕ := 8000
def maxE2eeCiphertextBytes : ℕ := 45 * 1024

/-- The length and the bytes, up to the next size of the ladder; bytes that fit none are refused. -/
def padToBucket (bytes : List UInt8) : Except String (List UInt8) :=
  match paddingBuckets.find? fun bucket => bytes.length + 4 ≤ bucket with
  | none => .error s!"payload of {bytes.length} bytes exceeds the top padding bucket"
  | some bucket =>
    .ok (toBigEndian 4 bytes.length ++ bytes ++ List.replicate (bucket - (bytes.length + 4)) 0)

def unpad (padded : List UInt8) : Except String (List UInt8) :=
  if padded.length ∉ paddingBuckets then
    .error s!"padded length {padded.length} is not a padding bucket size"
  else
    let len := ofBigEndian (padded.take 4)
    if padded.length - 4 < len then .error s!"length prefix {len} does not fit inside the bucket"
    else .ok ((padded.drop 4).take len)

def checkPresealLimits (envelope : MessageEnvelope) (encodedLen : ℕ) : Except String Unit :=
  let chars := envelope.content.length
  if maxContentChars < chars then
    .error s!"message content is {chars} chars, over the {maxContentChars}-char cap"
  else if maxPresealBytes < encodedLen then
    .error s!"encoded envelope is {encodedLen} bytes, over the {maxPresealBytes}-byte pre-seal cap"
  else .ok ()

variable {M : OpenMls} {σ : Type} (C : EnvelopeCodec)

namespace MlsChannelGroup

variable (g : MlsChannelGroup M)

def paddedBody (envelope : MessageEnvelope) : Except String (List UInt8) := do
  let encoded ← contextOf (C.encode envelope) "encode message envelope"
  checkPresealLimits envelope encoded.length
  padToBucket encoded

def sealMessage (envelope : MessageEnvelope) : Except String (List UInt8) × MlsChannelGroup M :=
  match paddedBody C envelope with
  | .error e => (.error e, g)
  | .ok padded =>
    let created := M.createMessage g.inner padded
    (contextOf (created.1.bind M.toBytes) "seal message", { g with inner := created.2 })

/-- Open a message of another member. The keys for it are gone afterwards, also if it fails. -/
def openMessage (bytes : List UInt8) : Except String MessageEnvelope × MlsChannelGroup M :=
  let processed := M.processMessage g.inner bytes
  let g : MlsChannelGroup M := { g with inner := processed.2 }
  match processed.1 with
  | none => (.error "open message", g)
  | some (.application padded) =>
    ((unpad padded).bind fun encoded => contextOf (C.decode encoded) "decode message envelope", g)
  | some _ => (.error "message is not an application message", g)

end MlsChannelGroup

inductive SealedOutcome where
  | decrypted (envelope : MessageEnvelope)
  | undecryptable (reason : String)
  deriving DecidableEq, Repr

def receiveSealed (g : MlsChannelGroup M) (ciphertext : List UInt8) :
    SealedOutcome × MlsChannelGroup M :=
  let opened := g.openMessage C ciphertext
  match opened.1 with
  | .ok envelope => (.decrypted envelope, opened.2)
  | .error reason => (.undecryptable reason, opened.2)

structure SealedAttachment where
  cap : AttachmentCap
  key : BitVec 256
  filename : String
  mime : String
  deriving DecidableEq, Repr

structure SealContext where
  key : ChannelKey
  generation : ℕ
  content : String
  replyTo : Option EventRef
  attachments : List SealedAttachment
  deriving DecidableEq, Repr

structure SealedSendOutcome where
  eventHash : EventHash
  epoch : ℕ
  deriving DecidableEq, Repr

def SealContext.envelope (ctx : SealContext) : MessageEnvelope :=
  ⟨ctx.content, ctx.attachments.map SealedAttachment.key,
    ctx.attachments.map SealedAttachment.filename, ctx.attachments.map SealedAttachment.mime⟩

/-- The words are sealed for the group as it is, and the event cites its epoch. -/
def sendSealed (K : Crypto) (T : Transport σ) (actor : Actor) (ctx : SealContext)
    (confirmed : Bool) : Action M σ SealedSendOutcome := do
  if confirmed = false then Prog.fail .notConfirmed
  else
    let head ← authzHead "sealed send needs a prior event to attest its folded head"
    let encoded ← Prog.ofOption (C.encode ctx.envelope) (.mls "encode message envelope")
    let _ ← Prog.ofExcept
      ((checkPresealLimits ctx.envelope encoded.length).mapError .sealedOverCap)
    let epoch := (← Prog.get).group.epoch
    let ciphertext ← onGroup (·.sealMessage C ctx.envelope) "seal message"
    if maxE2eeCiphertextBytes < ciphertext.length then
      Prog.fail (.sealedOverCap (s!"sealed ciphertext is {ciphertext.length} bytes, over the " ++
        s!"{maxE2eeCiphertextBytes}-byte ciphertext cap"))
    else
      let event ← nextEvent K T actor ctx.key.logServerId fun _ => .messagePostedE2ee
        { channelId := ctx.key.channelId
          generation := ctx.generation
          epoch, ciphertext
          replyTo := ctx.replyTo
          attachments := ctx.attachments.map SealedAttachment.cap
          authzHead := head }
      let accepted ← submitNext K T event
      return ⟨accepted.eventHash, epoch⟩

/-- Open the ciphertext of a message of the channel. Neither its author nor the generation and the
epoch that it cites are asked for. -/
def decryptSealedMessage (unlocked : Bool) (logServerId : ServerId) (channelId : ℕ)
    (ciphertext : List UInt8) (files : Files M) : Except String SealedOutcome × Files M :=
  if unlocked = false then (.ok (.undecryptable "identity is locked"), files)
  else match files.resumeStore channelId with
    | .error e => (.ok (.undecryptable s!"no usable MLS store: {e.describe}"), files)
    | .ok store =>
      let mls := files.loadMlsState channelId store.instanceHash
      match mls.poisoned with
      | some reason => (.ok (.undecryptable
          s!"channel state could not be confirmed (poisoned): {reason}"), files)
      | none =>
        let groupId := channelGroupId logServerId channelId mls.generation
        match store.loadGroup groupId with
        | .error e => (.error e, files)
        | .ok none => (.ok (.undecryptable "no MLS group"), files)
        | .ok (some g) =>
          let received := receiveSealed C g ciphertext
          (.ok received.1, files.putGroup channelId groupId received.2.inner)

end Client
