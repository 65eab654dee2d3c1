import Farder.Ui.Messages

/-! # Opening sealed messages

A ciphertext can be opened once. The client opens the sealed rows that it shows, and keeps what came
of it for each message, with the event hash of the row. -/
namespace Ui

open EventLog Server

/-- An entry of `sealedDecrypts`; the reason of a failure is only shown. -/
inductive SealedDecrypt where
  | decrypted (content : String) (eventHash : Option EventHash)
  | undecryptable (eventHash : Option EventHash)
  deriving DecidableEq

def SealedDecrypt.eventHash : SealedDecrypt → Option EventHash
  | decrypted _ eventHash => eventHash
  | undecryptable eventHash => eventHash

namespace MessageInfo

/-- A sealed row has empty content, and ciphertext. -/
def ciphertext (m : MessageInfo) : Option (List UInt8) :=
  if m.isE2ee = true ∧ m.content = "" then m.sealed.filter (· ≠ []) else none

/-- `flattenMessageInfoV2`, without the reactions. -/
def flatten (x : Server.MessageInfo) : MessageInfo where
  id := x.id
  channelId := x.row.channelId
  author := x.row.author
  content := x.row.content
  timestamp := x.row.timestamp
  editedAt := x.row.editedAt
  pinned := x.pinned
  reactions := []
  isE2ee := x.row.isE2ee
  sealed := x.row.sealed
  eventHash := x.row.eventHash

end MessageInfo

structure PerServer where
  messages : ℕ → List MessageInfo
  sealedDecrypts : ℕ → Option SealedDecrypt
  historyHydrated : ℕ → Bool
  ownSealedSends : EventHash → Option String

namespace PerServer

variable (s : PerServer)

def initial : PerServer := ⟨fun _ => [], fun _ => none, fun _ => false, fun _ => none⟩

/-- `SEALED_DECRYPTED` and `SEALED_UNDECRYPTABLE`. -/
def setDecrypt (messageId : ℕ) (entry : SealedDecrypt) : PerServer :=
  { s with
    sealedDecrypts := Function.update s.sealedDecrypts messageId (some entry)
    ownSealedSends :=
      match entry with
      | .decrypted _ (some eventHash) => Function.update s.ownSealedSends eventHash none
      | _ => s.ownSealedSends }

/-- `HISTORY_HYDRATED`. -/
def hydrated (channelId : ℕ) : PerServer :=
  { s with historyHydrated := Function.update s.historyHydrated channelId true }

/-- An action on the list of a channel. -/
def dispatch (action : Action) : PerServer :=
  { s with messages := Function.update s.messages action.channelId
            (reduce action (s.messages action.channelId)) }

theorem messages_dispatch (action : Action) (channelId : ℕ) :
    (s.dispatch action).messages channelId =
      reduceChannel channelId (s.messages channelId) action := by
  unfold dispatch reduceChannel
  split_ifs with h
  · subst h
    exact Function.update_self ..
  · exact Function.update_of_ne (Ne.symm h) ..

end PerServer

/-- What the effect does with a row. -/
inductive Pass where
  | skip
  | own (content : String)
  | opens (ciphertext : List UInt8)
  deriving DecidableEq

/-- The effect of `useSealedDecrypt` on a row of a channel that is hydrated; `inFlight` says whether
the row, with its event hash, is being opened. -/
def PerServer.pass (s : PerServer) (ownPk : PublicKey) (inFlight : Bool) (m : MessageInfo) : Pass :=
  match m.ciphertext with
  | none => .skip
  | some ciphertext =>
    match m.eventHash.bind s.ownSealedSends with
    | some content =>
      if s.sealedDecrypts m.id matches some (.decrypted ..) ∧
          (s.sealedDecrypts m.id).map SealedDecrypt.eventHash = some m.eventHash then .skip
      else .own content
    | none =>
      if m.author = ownPk then .skip
      else if (s.sealedDecrypts m.id).map SealedDecrypt.eventHash = some m.eventHash then .skip
      else if inFlight then .skip
      else .opens ciphertext

theorem pass_opens_iff {s : PerServer} {ownPk : PublicKey} {inFlight : Bool} {m : MessageInfo}
    {ciphertext : List UInt8} : s.pass ownPk inFlight m = .opens ciphertext ↔
      m.ciphertext = some ciphertext ∧ m.eventHash.bind s.ownSealedSends = none ∧
        m.author ≠ ownPk ∧ (s.sealedDecrypts m.id).map SealedDecrypt.eventHash ≠ some m.eventHash ∧
        inFlight = false := by
  unfold PerServer.pass
  rcases m.ciphertext with _ | ct
  · simp
  rcases m.eventHash.bind s.ownSealedSends with _ | content
  · simp only [true_and]
    split_ifs with hauthor hsettled hflight
    · simp [hauthor]
    · simp [hsettled]
    · simp [hflight]
    · simp [hauthor, hsettled, hflight]
  · simp only [reduceCtorEq, false_and, and_false, iff_false]
    split_ifs <;> simp

end Ui
