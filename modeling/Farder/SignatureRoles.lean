import Farder.EventBytes
import Farder.SampleLog

/-! # What a key signs

An identity's key signs the challenge of a login, device certificates and profiles, and a device's
key signs events and what its groups ask for. None of the bytes of a log says what they are for, and
yet what was signed as one of them is never taken for another. -/
namespace EventLog

open Bytes Forms Guarded

structure ProfileData where
  publicKey : PublicKey
  displayName : String
  avatar : Option (List UInt8)
  status : Option String
  effect : Option String
  deriving DecidableEq, Repr

structure LegacyProfileData where
  publicKey : PublicKey
  displayName : String
  avatar : Option (List UInt8)
  status : Option String
  deriving DecidableEq, Repr

structure SignedProfile where
  data : ProfileData
  signature : List UInt8
  deriving DecidableEq, Repr

def ProfileData.legacy (data : ProfileData) : LegacyProfileData :=
  ⟨data.publicKey, data.displayName, data.avatar, data.status⟩

def profileForm : Form ProfileData :=
  ((Fields.cons publicKeyForm <| .cons .text <| .cons (Form.bytes.option nofun) <|
      .cons optionalText <| .defaulted optionalText none rfl).as
    (fun p => (p.publicKey, p.displayName, p.avatar, p.status, p.effect))
    (fun (publicKey, displayName, avatar, status, effect) =>
      ⟨publicKey, displayName, avatar, status, effect⟩)).record (by decide)

def legacyProfileForm : Form LegacyProfileData :=
  ((Fields.cons publicKeyForm <| .cons .text <| .cons (Form.bytes.option nofun) <|
      .one optionalText).as
    (fun p => (p.publicKey, p.displayName, p.avatar, p.status))
    (fun (publicKey, displayName, avatar, status) =>
      ⟨publicKey, displayName, avatar, status⟩)).record (by decide)

def signedProfileForm : Form SignedProfile :=
  ((Fields.cons profileForm <| .one .bytes).as (fun p => (p.data, p.signature))
    (fun (data, signature) => ⟨data, signature⟩)).record (by decide)

variable (K : Crypto) (F : Format)

def SignedProfile.createWithEffect (keypair : Keypair) (displayName : String)
    (avatar : Option (List UInt8)) (status effect : Option String) : SignedProfile :=
  let data : ProfileData := ⟨K.publicKey keypair, displayName, avatar, status, effect⟩
  ⟨data, K.sign keypair (profileForm.toBytes F data)⟩

/-- The five fields; or the first four, if there is nothing in the fifth. -/
def SignedProfile.verify (p : SignedProfile) : Checked Unit :=
  let serialized := profileForm.toBytes F p.data
  match p.data.publicKey.verify K serialized p.signature with
  | .ok () => .ok ()
  | .error _ =>
    if p.data.effect = none then
      p.data.publicKey.verify K (legacyProfileForm.toBytes F p.data.legacy) p.signature
    else p.data.publicKey.verify K serialized p.signature

def SignedProfile.fromBytes (bytes : List UInt8) : Option SignedProfile :=
  signedProfileForm.fromBytes F bytes

/-- A challenge is 32 bytes that the server has chosen, and they are signed as they are. -/
def verifyChallenge (publicKey : PublicKey) (challenge : Digest) (signature : List UInt8) :
    Checked Unit :=
  publicKey.verify K (toBigEndian 32 challenge.toNat) signature

inductive Signable where
  | challenge (nonce : Digest)
  | cert (core : DeviceCertCore)
  | profile (data : ProfileData)
  | legacyProfile (data : LegacyProfileData)
  | event (core : EventCore)
  /-- The payload that MLS hands to a `DeviceSigner`. -/
  | mls (payload : List UInt8)
  deriving DecidableEq, Repr

/-- A payload begins with the length of its label, which is below 64, and has a key or a group in
it beside the label. -/
def isMlsPayload (payload : List UInt8) : Bool :=
  payload.head?.any (fun b => b.toNat < 64) && 32 < payload.length

namespace Signable

def bytes : Signable → List UInt8
  | .challenge nonce => toBigEndian 32 nonce.toNat
  | .cert core => certCoreForm.toBytes F core
  | .profile data => profileForm.toBytes F data
  | .legacyProfile data => legacyProfileForm.toBytes F data
  | .event core => coreForm.toBytes F core
  | .mls payload => payload

def fits : Signable → Bool
  | .challenge _ => true
  | .cert core => certCoreForm.fits core
  | .profile data => profileForm.fits data
  | .legacyProfile data => legacyProfileForm.fits data
  | .event core => coreForm.fits core
  | .mls payload => isMlsPayload payload

/-- The role is told from the shape of the first fields and from how many there are. -/
def ofValue (v : Value) : Option Signable :=
  match v with
  | .array (.str _ :: _) => (coreForm.get v).map .event
  | .array (_ :: .array _ :: _) => (certCoreForm.get v).map .cert
  | .array [_, .str _, _, _] => (legacyProfileForm.get v).map .legacyProfile
  | .array [_, .str _, _, _, _] => (profileForm.get v).map .profile
  | _ => none

variable {F} {s s' : Signable} {pk : PublicKey} {items : List Value}

/-- What is written as an array that is told by its shape, and has a key in it. -/
structure Written (s : Signable) (items : List Value) : Prop where
  bytes : ∀ F, s.bytes F = F.encode (.array items)
  fits : (Value.array items).fits = true
  depth : (Value.array items).depth ≤ maxDepth
  key : ∃ pk, publicKeyForm.put pk ∈ items
  told : ofValue (.array items) = some s

theorem bytes_cases (h : s.fits = true) : (∃ nonce, s = .challenge nonce) ∨
    (∃ payload, s = .mls payload) ∨ ∃ items, s.Written items := by
  cases s with
  | challenge nonce => exact .inl ⟨nonce, rfl⟩
  | mls payload => exact .inr (.inl ⟨payload, rfl⟩)
  | cert core =>
    obtain ⟨x, y, rest, hput⟩ : ∃ x y rest,
      certCoreForm.put core = .array (.array x :: .array y :: rest) := ⟨_, _, _, rfl⟩
    have hget := certCoreForm.get_put core h
    refine .inr (.inr ⟨_, fun F => rfl, certCoreForm.fits_put core h,
      (certCoreForm.depth_put core).trans (by decide), ⟨core.identity, List.mem_cons_self⟩, ?_⟩)
    change ofValue (certCoreForm.put core) = _
    rw [hput] at hget ⊢
    simp [ofValue, hget]
  | profile data =>
    obtain ⟨x, name, avatar, status, effect, hput⟩ : ∃ x name avatar status effect,
      profileForm.put data = .array [.array x, .str name, avatar, status, effect] :=
        ⟨_, _, _, _, _, rfl⟩
    have hget := profileForm.get_put data h
    refine .inr (.inr ⟨_, fun F => rfl, profileForm.fits_put data h,
      (profileForm.depth_put data).trans (by decide), ⟨data.publicKey, List.mem_cons_self⟩, ?_⟩)
    change ofValue (profileForm.put data) = _
    rw [hput] at hget ⊢
    simp [ofValue, hget]
  | legacyProfile data =>
    obtain ⟨x, name, avatar, status, hput⟩ : ∃ x name avatar status,
      legacyProfileForm.put data = .array [.array x, .str name, avatar, status] :=
        ⟨_, _, _, _, rfl⟩
    have hget := legacyProfileForm.get_put data h
    refine .inr (.inr ⟨_, fun F => rfl, legacyProfileForm.fits_put data h,
      (legacyProfileForm.depth_put data).trans (by decide),
      ⟨data.publicKey, List.mem_cons_self⟩, ?_⟩)
    change ofValue (legacyProfileForm.put data) = _
    rw [hput] at hget ⊢
    simp [ofValue, hget]
  | event core =>
    obtain ⟨serverId, rest, hput⟩ : ∃ serverId rest,
      coreForm.put core = .array (.str serverId :: rest) := ⟨_, _, rfl⟩
    have hget := coreForm.get_put core h
    refine .inr (.inr ⟨_, fun F => rfl, coreForm.fits_put core h,
      (coreForm.depth_put core).trans (by decide),
      ⟨core.author, List.mem_cons_of_mem _ List.mem_cons_self⟩, ?_⟩)
    change ofValue (coreForm.put core) = _
    rw [hput] at hget ⊢
    simp [ofValue, hget]

theorem length_publicKey (h : (publicKeyForm.put pk).fits = true) :
    32 < (F.encode (publicKeyForm.put pk)).length := by
  have hput : publicKeyForm.put pk = .array [digestForm.put pk.bytes] := rfl
  have hdigest : digestForm.put pk.bytes =
      .array (((toBigEndian 32 pk.bytes.toNat).map UInt8.toNat).map .uint) := rfl
  have hinner := F.length_lt_of_mem (hput ▸ h) (List.mem_singleton.mpr rfl)
  have hfits : (digestForm.put pk.bytes).fits = true := by
    rw [hput, Value.fits, Bool.and_eq_true, allFit_iff] at h
    exact h.2 _ (List.mem_singleton.mpr rfl)
  have hlength : 32 < (F.encode (digestForm.put pk.bytes)).length := by
    rw [hdigest] at hfits ⊢
    have hitems := F.length_lt_encode hfits
    simpa using hitems
  rw [hput]
  omega

/-- What is written is longer than a challenge, and does not begin as a payload does. -/
theorem Written.apart (h : s.Written items) :
    32 < (s.bytes F).length ∧ isMlsPayload (s.bytes F) = false := by
  obtain ⟨pk, hkey⟩ := h.key
  have hfits := h.fits
  rw [Value.fits, Bool.and_eq_true, allFit_iff] at hfits
  refine ⟨?_, ?_⟩
  · rw [h.bytes]
    exact (length_publicKey (hfits.2 _ hkey)).trans (F.length_lt_of_mem h.fits hkey)
  · obtain ⟨b, rest, hencode, hmark⟩ := F.marked items h.fits
    have hlarge : ¬b.toNat < 64 := by omega
    rw [h.bytes, hencode]
    simp [isMlsPayload, hlarge]

theorem not_isMlsPayload_challenge (nonce : Digest) :
    isMlsPayload ((Signable.challenge nonce).bytes F) = false := by
  simp [isMlsPayload, bytes]

theorem bytes_injective (h : s.fits = true) (h' : s'.fits = true)
    (heq : s.bytes F = s'.bytes F) : s = s' := by
  have hlength (nonce : Digest) : ((Signable.challenge nonce).bytes F).length = 32 := by
    simp [bytes]
  rcases bytes_cases h with ⟨nonce, rfl⟩ | ⟨payload, rfl⟩ | ⟨items, hwritten⟩ <;>
    rcases bytes_cases h' with ⟨nonce', rfl⟩ | ⟨payload', rfl⟩ | ⟨items', hwritten'⟩
  · have hread := congrArg ofBigEndian heq
    rw [bytes, bytes, ofBigEndian_toBigEndian (by exact nonce.isLt),
      ofBigEndian_toBigEndian (by exact nonce'.isLt)] at hread
    rw [BitVec.eq_of_toNat_eq hread]
  · have hnot := not_isMlsPayload_challenge (F := F) nonce
    rw [heq] at hnot
    exact absurd h' (by simpa [fits, bytes] using hnot)
  · have hlong := (hwritten'.apart (F := F)).1
    rw [← heq, hlength] at hlong
    exact absurd hlong (lt_irrefl _)
  · have hnot := not_isMlsPayload_challenge (F := F) nonce'
    rw [← heq] at hnot
    exact absurd h (by simpa [fits, bytes] using hnot)
  · exact congrArg Signable.mls heq
  · have hnot := (hwritten'.apart (F := F)).2
    rw [← heq] at hnot
    exact absurd h (by simpa [fits, bytes] using hnot)
  · have hlong := (hwritten.apart (F := F)).1
    rw [heq, hlength] at hlong
    exact absurd hlong (lt_irrefl _)
  · have hnot := (hwritten.apart (F := F)).2
    rw [heq] at hnot
    exact absurd h' (by simpa [fits, bytes] using hnot)
  · rw [hwritten.bytes, hwritten'.bytes] at heq
    have hvalue := F.encode_injective hwritten.fits hwritten.depth hwritten'.fits hwritten'.depth
      heq
    have htold := hwritten.told
    rw [hvalue, hwritten'.told] at htold
    exact (Option.some.inj htold).symm

end Signable

/-- Signatures are ideal: one is valid for a key and some bytes if its holder has signed them as
one of the things that there are to sign. -/
structure Ideal (signed : PublicKey → Signable → List UInt8 → Prop) : Prop where
  verify_iff : ∀ pk message signature, K.verify pk message signature = true ↔
    ∃ s, signed pk s signature ∧ s.bytes F = message
  fits : ∀ pk s signature, signed pk s signature → s.fits = true

variable {K F} {signed : PublicKey → Signable → List UInt8 → Prop} {pk : PublicKey}
  {signature bytes : List UInt8} {e : Event} {cert : DeviceCert} {p : SignedProfile}

theorem Ideal.verify_bytes (h : Ideal K F signed) {s : Signable} (hfits : s.fits = true) :
    K.verify pk (s.bytes F) signature = true ↔ signed pk s signature := by
  rw [h.verify_iff]
  constructor
  · rintro ⟨s', hsigned, heq⟩
    exact Signable.bytes_injective (h.fits _ _ _ hsigned) hfits heq ▸ hsigned
  · exact fun hsigned => ⟨s, hsigned, rfl⟩

theorem fits_of_event (h : Event.fromBytes F bytes = some e) : coreForm.fits e.core = true := by
  have hfits := eventForm.fits_of_fromBytes h
  simp only [eventForm, Fields.record, Fields.as, Fields.cons, Bool.and_eq_true] at hfits
  exact hfits.1

theorem fits_of_cert (h : coreForm.fits e.core = true)
    (hcert : e.core.payload = .deviceAuthorized cert) : certCoreForm.fits cert.core = true := by
  simp only [coreForm, Fields.record, Fields.as, Fields.cons, Fields.one, Bool.and_eq_true] at h
  obtain ⟨-, -, -, -, -, -, -, h⟩ := h
  rw [hcert] at h
  simp only [payloadForm, EventPayload.fits, certField, Fields.one, certForm, Fields.record,
    Fields.as, Fields.cons, Bool.and_eq_true] at h
  exact h.1

theorem fits_of_profile (h : SignedProfile.fromBytes F bytes = some p) :
    profileForm.fits p.data = true ∧ legacyProfileForm.fits p.data.legacy = true := by
  have hfits := signedProfileForm.fits_of_fromBytes h
  simp only [signedProfileForm, Fields.record, Fields.as, Fields.cons, Bool.and_eq_true] at hfits
  refine ⟨hfits.1, ?_⟩
  obtain ⟨hfits, -⟩ := hfits
  simp only [profileForm, legacyProfileForm, ProfileData.legacy, Fields.record, Fields.as,
    Fields.cons, Fields.one, Fields.defaulted, Bool.and_eq_true] at hfits ⊢
  obtain ⟨hkey, hname, havatar, hstatus, -⟩ := hfits
  exact ⟨hkey, hname, havatar, hstatus⟩

theorem verify_profile_eq_ok : p.verify K F = .ok () ↔
    K.verify p.data.publicKey (profileForm.toBytes F p.data) p.signature = true ∨
      p.data.effect = none ∧
        K.verify p.data.publicKey (legacyProfileForm.toBytes F p.data.legacy) p.signature =
          true := by
  unfold SignedProfile.verify PublicKey.verify ensure
  by_cases hnow : K.verify p.data.publicKey (profileForm.toBytes F p.data) p.signature = true
  · simp [hnow]
  · by_cases heffect : p.data.effect = none <;> simp [hnow, heffect]

/-- Whatever bytes arrive, in any format: a login, a certificate, an event, a profile or what a
group asks for is accepted if and only if the holder of the key has signed just that, a profile
without an effect maybe in the old form. -/
theorem accepted_iff_signed (h : Ideal K F signed) :
    (∀ pk nonce signature, verifyChallenge K pk nonce signature = .ok () ↔
      signed pk (.challenge nonce) signature) ∧
    (∀ bytes e, Event.fromBytes F bytes = some e →
      (∀ pk, e.verify (K.onWire F) pk = .ok () ↔ signed pk (.event e.core) e.signature) ∧
      ∀ cert, e.core.payload = .deviceAuthorized cert → (cert.verify (K.onWire F) = .ok () ↔
        cert.core.deviceId = deviceId K cert.core.devicePubkey ∧
          signed cert.core.identity (.cert cert.core) cert.signature)) ∧
    (∀ bytes p, SignedProfile.fromBytes F bytes = some p → (p.verify K F = .ok () ↔
      signed p.data.publicKey (.profile p.data) p.signature ∨
        p.data.effect = none ∧
          signed p.data.publicKey (.legacyProfile p.data.legacy) p.signature)) ∧
    ∀ pk payload signature, isMlsPayload payload = true →
      (K.verify pk payload signature = true ↔ signed pk (.mls payload) signature) := by
  refine ⟨fun pk nonce signature => ?_, fun bytes e he => ⟨fun pk => ?_, fun cert hcert => ?_⟩,
    fun bytes p hp => ?_, fun pk payload signature hpayload => ?_⟩
  · rw [verifyChallenge, PublicKey.verify, ensure_eq_ok]
    exact h.verify_bytes (s := .challenge nonce) rfl
  · rw [verify_event_eq_ok]
    exact h.verify_bytes (s := .event e.core) (fits_of_event he)
  · rw [verify_cert_eq_ok]
    exact and_congr_right' (h.verify_bytes (s := .cert cert.core)
      (fits_of_cert (fits_of_event he) hcert))
  · obtain ⟨hfits, hlegacy⟩ := fits_of_profile hp
    rw [verify_profile_eq_ok]
    exact or_congr (h.verify_bytes (s := .profile p.data) hfits)
      (and_congr_right' (h.verify_bytes (s := .legacyProfile p.data.legacy) hlegacy))
  · exact h.verify_bytes (s := .mls payload) hpayload

open SampleLog

/-- Alice has posted an event of hers, and has signed nothing else. -/
def aliceInvited : Crypto :=
  { crypto with
    verify := fun pk message signature => pk = key alice ∧
      message = coreForm.toBytes MessagePack.format Edition.oldInvite.core ∧ signature = [1, 2, 3] }

def signedByAlice (pk : PublicKey) (s : Signable) (signature : List UInt8) : Prop :=
  pk = key alice ∧ s = .event Edition.oldInvite.core ∧ signature = [1, 2, 3]

theorem ideal_alice : Ideal aliceInvited MessagePack.format signedByAlice where
  verify_iff pk message signature := by
    simp only [aliceInvited, signedByAlice, decide_eq_true_eq]
    constructor
    · rintro ⟨rfl, rfl, rfl⟩
      exact ⟨_, ⟨rfl, rfl, rfl⟩, rfl⟩
    · rintro ⟨s, ⟨rfl, rfl, rfl⟩, rfl⟩
      exact ⟨rfl, rfl, rfl⟩
  fits _ _ _ h := by
    obtain ⟨-, rfl, -⟩ := h
    decide +kernel

theorem accepted_from_alice :
    let F := MessagePack.format
    (verifyChallenge aliceInvited (key alice) 7 [1, 2, 3] = .ok () ↔
      signedByAlice (key alice) (.challenge 7) [1, 2, 3]) ∧
    (Edition.oldInvite.verify (aliceInvited.onWire F) (key alice) = .ok () ↔
      signedByAlice (key alice) (.event Edition.oldInvite.core) Edition.oldInvite.signature) ∧
    (aliceInvited.verify (key alice) (List.replicate 33 1) [1] = true ↔
      signedByAlice (key alice) (.mls (List.replicate 33 1)) [1]) := by
  intro F
  obtain ⟨hchallenge, hevent, -, hmls⟩ := accepted_iff_signed ideal_alice
  have hread : Event.fromBytes F (eventForm.toBytes F Edition.oldInvite ++ []) =
      some Edition.oldInvite :=
    eventForm.fromBytes_toBytes (by decide) (by decide +kernel) []
  exact ⟨hchallenge _ _ _, (hevent _ _ hread).1 _, hmls _ _ _ (by decide +kernel)⟩

end EventLog
