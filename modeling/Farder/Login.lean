import Farder.SignatureRoles
import Farder.Support.Execution
import Mathlib.Data.Finset.Basic

/-! # Logging in

A server sends a nonce on each connection, and the client signs it with its identity key. The client
takes any certificate for the server's, so what it has dialled may be somebody else, who chooses the
nonce, keeps the signature and has connections to servers too. -/
namespace Login

open EventLog Forms

/-- Whom a client talks to. -/
inductive Peer where
  | server (conn : ℕ)
  | intruder
  deriving DecidableEq, Repr

/-- A client has signed a nonce for its peer. -/
structure Answer where
  key : Keypair
  peer : Peer
  nonce : Digest
  deriving DecidableEq, Repr

structure State where
  /-- The nonce that was sent on each connection that a server has accepted. -/
  challenges : List (ℕ × Digest)
  /-- The connections whose `Authenticate` frame has not come. -/
  awaiting : Finset ℕ
  answers : List Answer
  /-- What else the clients' keys have signed. -/
  signed : List (Keypair × Signable)
  sessions : List (ℕ × PublicKey)

def initial : State := ⟨[], ∅, [], [], []⟩

inductive Event where
  /-- `authenticate` sends the challenge that `generate_challenge` has drawn. -/
  | accept (conn : ℕ) (nonce : Digest)
  /-- `run_client_handshake` gets a challenge from its peer, and answers. -/
  | handshake (key : Keypair) (peer : Peer) (nonce : Digest)
  | sign (key : Keypair) (s : Signable)
  /-- `authenticate` receives the frame that answers its challenge, from whomever. -/
  | authenticate (conn : ℕ) (publicKey : PublicKey) (signature : List UInt8)
  deriving DecidableEq

namespace State

variable (K : Crypto) (F : Format) (clients : Finset Keypair) (s : State)

/-- The key has signed the bytes, as a nonce or as something else. -/
def HasSigned (key : Keypair) (bytes : List UInt8) : Prop :=
  (∃ a ∈ s.answers, a.key = key ∧ (Signable.challenge a.nonce).bytes F = bytes) ∨
    ∃ x ∈ s.signed, x.1 = key ∧ x.2.bytes F = bytes

instance (key : Keypair) (bytes : List UInt8) : Decidable (s.HasSigned F key bytes) :=
  inferInstanceAs (Decidable ((∃ a ∈ s.answers, _) ∨ ∃ x ∈ s.signed, _))

/-- Nonces are drawn anew, a server sends its own, and nobody forges the signature of a client. -/
def Enabled : Event → Prop
  | .accept conn nonce => (∀ x ∈ s.challenges, x.1 ≠ conn ∧ x.2 ≠ nonce) ∧
    ∀ a ∈ s.answers, a.nonce ≠ nonce
  | .handshake key peer nonce => key ∈ clients ∧ match peer with
    | .server conn => (conn, nonce) ∈ s.challenges
    | .intruder => True
  | .sign key signable => key ∈ clients ∧ signable.fits = true ∧ match signable with
    | .challenge _ => False
    | _ => True
  | .authenticate conn publicKey signature => conn ∈ s.awaiting ∧
    ∀ x ∈ s.challenges, x.1 = conn → verifyChallenge K publicKey x.2 signature = .ok () →
      ∀ key ∈ clients, K.publicKey key = publicKey →
        s.HasSigned F key ((Signable.challenge x.2).bytes F)

instance (e : Event) : Decidable (s.Enabled K F clients e) := by
  unfold Enabled
  split <;> (try split) <;> infer_instance

def next : Event → State
  | .accept conn nonce =>
    { s with challenges := (conn, nonce) :: s.challenges, awaiting := insert conn s.awaiting }
  | .handshake key peer nonce => { s with answers := ⟨key, peer, nonce⟩ :: s.answers }
  | .sign key signable => { s with signed := (key, signable) :: s.signed }
  | .authenticate conn publicKey signature =>
    { s with
      awaiting := s.awaiting.erase conn
      sessions :=
        if s.challenges.any fun x => x.1 = conn ∧
            verifyChallenge K publicKey x.2 signature = .ok () then
          (conn, publicKey) :: s.sessions
        else s.sessions }

end State

variable {K : Crypto} {F : Format} {clients : Finset Keypair} {s t : State}
  {tr : List (Transition State Event)}

def Step (K : Crypto) (F : Format) (clients : Finset Keypair) (s : State) (e : Event)
    (t : State) : Prop :=
  s.Enabled K F clients e ∧ t = s.next K e

/-- The client with the key has answered the nonce of the connection, to the server or to an
intruder. -/
def State.Answered (s : State) (conn : ℕ) (key : Keypair) : Prop :=
  ∃ a ∈ s.answers, a.key = key ∧ (conn, a.nonce) ∈ s.challenges ∧
    (a.peer = .server conn ∨ a.peer = .intruder)

/-- Nonces are told apart, a connection has one session at most, and each session of a client's key
comes from an answer to the connection's own nonce. -/
structure State.Agreed (K : Crypto) (clients : Finset Keypair) (s : State) : Prop where
  conns : (s.challenges.map Prod.fst).Nodup
  nonces : (s.challenges.map Prod.snd).Nodup
  awaiting : ∀ conn ∈ s.awaiting, conn ∈ s.challenges.map Prod.fst ∧
    conn ∉ s.sessions.map Prod.fst
  seated : ∀ x ∈ s.sessions, x.1 ∈ s.challenges.map Prod.fst
  once : (s.sessions.map Prod.fst).Nodup
  /-- A client that talks to a server gets that server's nonce. -/
  peers : ∀ a ∈ s.answers, ∀ conn, a.peer = .server conn → (conn, a.nonce) ∈ s.challenges
  roles : ∀ x ∈ s.signed, x.2.fits = true ∧ ∀ nonce, x.2 ≠ .challenge nonce
  answered : ∀ x ∈ s.sessions, ∀ key ∈ clients, K.publicKey key = x.2 → s.Answered x.1 key

namespace State.Agreed

theorem start : initial.Agreed K clients where
  conns := List.nodup_nil
  nonces := List.nodup_nil
  awaiting _ h := absurd h (Finset.notMem_empty _)
  seated := List.forall_mem_nil _
  once := List.nodup_nil
  peers := List.forall_mem_nil _
  roles := List.forall_mem_nil _
  answered := List.forall_mem_nil _

theorem answered_mono {conn : ℕ} {key : Keypair} (h : s.Answered conn key)
    (hanswers : s.answers ⊆ t.answers) (hchallenges : s.challenges ⊆ t.challenges) :
    t.Answered conn key := by
  obtain ⟨a, ha, hkey, hnonce, hpeer⟩ := h
  exact ⟨a, hanswers ha, hkey, hchallenges hnonce, hpeer⟩

theorem accept {conn : ℕ} {nonce : Digest} (h : s.Agreed K clients)
    (henabled : s.Enabled K F clients (.accept conn nonce)) :
    (s.next K (.accept conn nonce)).Agreed K clients := by
  obtain ⟨hnew, -⟩ := henabled
  have hconn : conn ∉ s.challenges.map Prod.fst := by
    intro hmem
    obtain ⟨x, hx, rfl⟩ := List.mem_map.mp hmem
    exact (hnew x hx).1 rfl
  have hnonce : nonce ∉ s.challenges.map Prod.snd := by
    intro hmem
    obtain ⟨x, hx, rfl⟩ := List.mem_map.mp hmem
    exact (hnew x hx).2 rfl
  refine ⟨List.nodup_cons.mpr ⟨hconn, h.conns⟩, List.nodup_cons.mpr ⟨hnonce, h.nonces⟩,
    fun c hc => ?_, fun x hx => List.mem_cons_of_mem _ (h.seated x hx), h.once,
    fun a ha c hpeer => List.mem_cons_of_mem _ (h.peers a ha c hpeer), h.roles,
    fun x hx key hkey heq => answered_mono (h.answered x hx key hkey heq)
      (List.Subset.refl _) (List.subset_cons_self _ _)⟩
  rcases Finset.mem_insert.mp hc with rfl | hc
  · refine ⟨List.mem_cons_self, fun hmem => ?_⟩
    obtain ⟨x, hx, rfl⟩ := List.mem_map.mp hmem
    exact hconn (h.seated x hx)
  · exact (h.awaiting c hc).imp_left (List.mem_cons_of_mem _)

theorem handshake {key : Keypair} {peer : Peer} {nonce : Digest} (h : s.Agreed K clients)
    (henabled : s.Enabled K F clients (.handshake key peer nonce)) :
    (s.next K (.handshake key peer nonce)).Agreed K clients := by
  refine ⟨h.conns, h.nonces, h.awaiting, h.seated, h.once, ?_, h.roles,
    fun x hx key hkey heq => answered_mono (h.answered x hx key hkey heq)
      (List.subset_cons_self _ _) (List.Subset.refl _)⟩
  refine List.forall_mem_cons.mpr ⟨fun conn hpeer => ?_, h.peers⟩
  subst hpeer
  exact henabled.2

theorem sign {key : Keypair} {signable : Signable} (h : s.Agreed K clients)
    (henabled : s.Enabled K F clients (.sign key signable)) :
    (s.next K (.sign key signable)).Agreed K clients := by
  refine ⟨h.conns, h.nonces, h.awaiting, h.seated, h.once, h.peers, ?_, h.answered⟩
  refine List.forall_mem_cons.mpr ⟨⟨henabled.2.1, ?_⟩, h.roles⟩
  rintro nonce rfl
  exact henabled.2.2

/-- What the key has signed can only be an answer to the nonce, and only a server's own or an
intruder's. -/
theorem answered_of_signed {conn : ℕ} {nonce : Digest} {key : Keypair} (h : s.Agreed K clients)
    (hnonce : (conn, nonce) ∈ s.challenges)
    (hsigned : s.HasSigned F key ((Signable.challenge nonce).bytes F)) : s.Answered conn key := by
  rcases hsigned with ⟨a, ha, rfl, hbytes⟩ | ⟨x, hx, -, hbytes⟩
  · have hsame : Signable.challenge a.nonce = .challenge nonce :=
      Signable.bytes_injective rfl rfl hbytes
    obtain rfl : a.nonce = nonce := Signable.challenge.inj hsame
    refine ⟨a, ha, rfl, hnonce, ?_⟩
    cases hpeer : a.peer with
    | server c =>
      have hown := h.peers a ha c hpeer
      exact .inl (congrArg _ (Prod.mk.inj (List.inj_on_of_nodup_map h.nonces hown hnonce rfl)).1)
    | intruder => exact .inr rfl
  · obtain ⟨hfits, hrole⟩ := h.roles x hx
    exact absurd (Signable.bytes_injective hfits rfl hbytes) (hrole nonce)

theorem authenticate {conn : ℕ} {publicKey : PublicKey} {signature : List UInt8}
    (h : s.Agreed K clients)
    (henabled : s.Enabled K F clients (.authenticate conn publicKey signature)) :
    (s.next K (.authenticate conn publicKey signature)).Agreed K clients := by
  obtain ⟨hawaiting, hunforged⟩ := henabled
  obtain ⟨-, hnew⟩ := h.awaiting conn hawaiting
  simp only [next]
  split_ifs with hverified
  · obtain ⟨⟨c, nonce⟩, hnonce, hvalid⟩ := List.any_eq_true.mp hverified
    obtain ⟨rfl, hverify⟩ := of_decide_eq_true hvalid
    refine ⟨h.conns, h.nonces, fun c' hc => ?_, List.forall_mem_cons.mpr
      ⟨List.mem_map_of_mem hnonce, h.seated⟩, List.nodup_cons.mpr ⟨hnew, h.once⟩, h.peers, h.roles,
      List.forall_mem_cons.mpr ⟨fun key hkey heq => ?_, h.answered⟩⟩
    · obtain ⟨hne, hc⟩ := Finset.mem_erase.mp hc
      obtain ⟨hmem, hfree⟩ := h.awaiting c' hc
      exact ⟨hmem, fun hseat => (List.mem_cons.mp hseat).elim hne hfree⟩
    · exact h.answered_of_signed hnonce (hunforged _ hnonce rfl hverify key hkey heq)
  · exact ⟨h.conns, h.nonces, fun c hc => h.awaiting c (Finset.mem_of_mem_erase hc), h.seated,
      h.once, h.peers, h.roles, h.answered⟩

theorem step {e : Event} (h : s.Agreed K clients) (hstep : Step K F clients s e t) :
    t.Agreed K clients := by
  obtain ⟨henabled, rfl⟩ := hstep
  cases e with
  | accept conn nonce => exact h.accept henabled
  | handshake key peer nonce => exact h.handshake henabled
  | sign key signable => exact h.sign henabled
  | authenticate conn publicKey signature => exact h.authenticate henabled

end State.Agreed

/-- In every run, however the handshakes interleave: each session of a client's key comes from an
answer of that client to the connection's own nonce, no answer makes two sessions, and unless the
client has given the answer to an intruder it was logging in there itself. -/
theorem sessions_agree (h : Execution (Step K F clients) initial tr s) :
    (∀ x ∈ s.sessions, ∀ key ∈ clients, K.publicKey key = x.2 → s.Answered x.1 key ∧
      ((∀ a ∈ s.answers, a.key = key → (x.1, a.nonce) ∈ s.challenges → a.peer ≠ .intruder) →
        ∃ a ∈ s.answers, a.key = key ∧ a.peer = .server x.1)) ∧
    ∀ a : Answer, ∀ x ∈ s.sessions, ∀ x' ∈ s.sessions, (x.1, a.nonce) ∈ s.challenges →
      (x'.1, a.nonce) ∈ s.challenges → x = x' := by
  have hagreed : s.Agreed K clients :=
    h.invariant State.Agreed.start fun _ _ _ hagreed hstep => hagreed.step hstep
  refine ⟨fun x hx key hkey heq => ?_, fun a x hx x' hx' hnonce hnonce' => ?_⟩
  · have hanswered := hagreed.answered x hx key hkey heq
    refine ⟨hanswered, fun hhonest => ?_⟩
    obtain ⟨a, ha, hakey, hnonce, hpeer⟩ := hanswered
    exact ⟨a, ha, hakey, hpeer.resolve_right (hhonest a ha hakey hnonce)⟩
  · have hconn := List.inj_on_of_nodup_map hagreed.nonces hnonce hnonce' rfl
    exact List.inj_on_of_nodup_map hagreed.once hx hx' (Prod.mk.inj hconn).1

open SampleLog

/-- The intruder shows Alice the nonce that a server has sent to it. -/
def forwarded : List Event :=
  [.accept 1 7, .handshake alice .intruder 7, .authenticate 1 (key alice) [1]]

def stateAfter (events : List Event) : State := events.foldl (State.next crypto) initial

theorem run_path {events : List Event}
    (h : ∀ x ∈ Execution.path (State.next crypto) initial events,
      x.pre.Enabled crypto MessagePack.format {alice} x.event) :
    Execution (Step crypto MessagePack.format {alice}) initial
      (Execution.path (State.next crypto) initial events) (stateAfter events) :=
  (Execution.of_path (State.next crypto) events).of_steps fun x hx hstep => ⟨h x hx, hstep.symm⟩

/-- It is logged in as Alice at a server that she has not dialled. -/
theorem logged_in_elsewhere :
    ((stateAfter forwarded).sessions = [(1, key alice)] ∧
      (stateAfter forwarded).Answered 1 alice) ∧
    ∀ a ∈ (stateAfter forwarded).answers, a.peer ≠ .server 1 := by
  have hrun := @run_path forwarded (by decide +kernel)
  have hsession : (1, key alice) ∈ (stateAfter forwarded).sessions := by decide +kernel
  exact ⟨⟨by decide +kernel, ((sessions_agree hrun).1 _ hsession alice (by decide) rfl).1⟩,
    by decide +kernel⟩

end Login
