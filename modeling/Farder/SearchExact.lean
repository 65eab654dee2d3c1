import Farder.Server.SampleHost
import Farder.Support.Paging

/-! # What a search finds

A search takes the newest matches first and drops what the member cannot read afterwards, and in
one channel it asks for less than in all. It finds what it should as long as its own filter is the
rule on the newest matches, and none of these is in the way of an older one. -/
namespace Server

open EventLog Guarded Permissions

namespace Host

variable (host : Host) (member : PublicKey) (isOwner : Bool) (moment : Moment) (query : String)
  (channelId : Option ℕ) (limit : ℕ)

/-! ## What a search should find -/

def isDm (channelId : ℕ) : Bool :=
  host.db.channels.any fun ch => ch.id = channelId ∧ ch.channelType = .dm

/-- A direct message is read by its participants, any other channel by permission. -/
def isReader (channelId : ℕ) : Bool :=
  if host.isDm channelId then host.community.isDmParticipant member channelId
  else host.canRead member isOwner channelId

/-- The messages that are not sealed and match, in the channel if one is given, newest first. -/
def newestMatches : List (ℕ × MessageRow) :=
  (host.db.messages.rows.filter (host.isHit moment query channelId)).reverse

/-- The newest of those that the member may read. -/
def searchable : List MessageInfo :=
  (((host.newestMatches moment query channelId).filter fun x =>
    host.isReader member isOwner x.2.channelId).take (min limit maxHistory)).map host.messageInfo

/-! ## What it finds -/

/-- The messages that an answer shows; a refusal shows none. -/
def foundIn (answer : Checked Answer) : List MessageInfo :=
  match answer with
  | .ok ⟨.searchResults messages, _, _⟩ => messages
  | _ => []

def letsThrough (x : ℕ × MessageRow) : Bool :=
  match channelId with
  | some id => has (host.resolveMemberPerms member isOwner id) readMessages
  | none => isOwner || host.canRead member isOwner x.2.channelId

/-- The newest matches are let through exactly if the member may read them, and either it may read
all of them or none that is older. -/
def SearchFair : Prop :=
  (∀ x ∈ (host.newestMatches moment query channelId).take (min limit maxHistory),
    host.letsThrough member isOwner channelId x = host.isReader member isOwner x.2.channelId) ∧
  ((∀ x ∈ (host.newestMatches moment query channelId).take (min limit maxHistory),
      host.isReader member isOwner x.2.channelId = true) ∨
    ∀ x ∈ (host.newestMatches moment query channelId).drop (min limit maxHistory),
      host.isReader member isOwner x.2.channelId = false)

variable {host member isOwner moment query channelId limit}

theorem newestMatches_descending :
    (host.newestMatches moment query channelId).Pairwise fun x y => y.1 < x.1 :=
  List.pairwise_reverse.mpr ((List.pairwise_map.mp host.db.messages.sorted).filter _)

theorem messageInfo_injective : Function.Injective host.messageInfo := fun _ _ h =>
  Prod.ext (congrArg MessageInfo.id h) (congrArg MessageInfo.row h)

theorem foundIn_of_passed (hvalid : moment.fts.valid query = true)
    (hpassed : (forAll channelId.toList fun id =>
      host.requirePerm member isOwner id readMessages "READ_MESSAGES") = .ok ()) :
    foundIn (host.search member isOwner moment query channelId limit).2 =
      (((host.newestMatches moment query channelId).take (min limit maxHistory)).filter fun x =>
        !(decide (channelId = none) && !isOwner) || host.canRead member isOwner x.2.channelId).map
          host.messageInfo := by
  have hhits : host.searchMessages moment query channelId (min limit maxHistory) =
      .ok (((host.newestMatches moment query channelId).take (min limit maxHistory)).map
        host.messageInfo) := by
    rw [searchMessages, ensure, if_pos hvalid]
    rfl
  unfold search
  rw [hhits, hpassed]
  generalize (host.newestMatches moment query channelId).take (min limit maxHistory) = page
  show (if channelId = none ∧ isOwner = false then (page.map host.messageInfo).filter
    (fun x => host.canRead member isOwner x.row.channelId) else page.map host.messageInfo) = _
  by_cases hall : channelId = none ∧ isOwner = false
  · obtain ⟨rfl, rfl⟩ := hall
    rw [if_pos ⟨rfl, rfl⟩, List.filter_map]
    rfl
  · have hkept (x : ℕ × MessageRow) : (!(decide (channelId = none) && !isOwner) ||
        host.canRead member isOwner x.2.channelId) = true := by
      cases isOwner with
      | true => simp
      | false => simp_all
    rw [if_neg hall, List.filter_eq_self.mpr fun x _ => hkept x]

theorem foundIn_search (hvalid : moment.fts.valid query = true) :
    foundIn (host.search member isOwner moment query channelId limit).2 =
      (((host.newestMatches moment query channelId).take (min limit maxHistory)).filter
        (host.letsThrough member isOwner channelId)).map host.messageInfo := by
  cases channelId with
  | none =>
    rw [foundIn_of_passed hvalid rfl]
    refine congrArg _ (List.filter_congr fun x _ => ?_)
    cases isOwner <;> rfl
  | some id =>
    have hcheck (check : Checked Unit) : (check >>= fun _ => forAll [] fun id : ℕ =>
        host.requirePerm member isOwner id readMessages "READ_MESSAGES") = check := by
      cases check <;> rfl
    have hforAll : (forAll (some id).toList fun id =>
        host.requirePerm member isOwner id readMessages "READ_MESSAGES") =
          host.requirePerm member isOwner id readMessages "READ_MESSAGES" :=
      hcheck _
    by_cases hread : has (host.resolveMemberPerms member isOwner id) readMessages = true
    · have hpassed : host.requirePerm member isOwner id readMessages "READ_MESSAGES" = .ok () := by
        rw [requirePerm, ensure, if_pos hread]
      rw [foundIn_of_passed hvalid (hforAll.trans hpassed)]
      refine congrArg _ (List.filter_congr fun x _ => ?_)
      exact hread.symm
    · have hrefused : ∃ failure,
          host.requirePerm member isOwner id readMessages "READ_MESSAGES" = .error failure := by
        rw [requirePerm, ensure, if_neg hread]
        exact ⟨_, rfl⟩
      obtain ⟨failure, hrefused⟩ := hrefused
      have hnone : ((host.newestMatches moment query (some id)).take (min limit maxHistory)).filter
          (host.letsThrough member isOwner (some id)) = [] :=
        List.filter_eq_nil_iff.mpr fun _ _ => hread
      unfold search
      rw [hforAll, hrefused, hnone]
      rfl

end Host

variable {K : Crypto} {query : String} {host : Host} {member : PublicKey} {isOwner : Bool}
  {moment : Moment} {channelId : Option ℕ} {limit : ℕ}

/-- A search shows exactly the newest of what the member may read as long as it is fair. -/
theorem search_exact_iff (hgate : host.contentBlockReason member = none)
    (hvalid : moment.fts.valid query = true) :
    Host.foundIn (host.perform K moment
        (.request member isOwner (.read (.search query channelId limit)))).2 =
      host.searchable member isOwner moment query channelId limit ↔
    host.SearchFair member isOwner moment query channelId limit := by
  have hanswer : (host.perform K moment
      (.request member isOwner (.read (.search query channelId limit)))).2 =
        (host.search member isOwner moment query channelId limit).2 := by
    rw [Host.perform, Host.handleRequest_of_open hgate]
    rfl
  rw [hanswer, Host.foundIn_search hvalid, Host.searchable,
    (Host.messageInfo_injective.list_map).eq_iff, Paging.filter_take_eq_take_filter]
  rfl

/-! ## A message in the way -/

open SampleLog SampleHost

/-- Alice answers a word of Bob in a channel that nobody else may read. -/
def answerHidden : List (Moment × HostOp) :=
  joined ++ requests 9
    [(alice, .channel (.createChannel "hidden" .text none none)),
     (alice, .channel (.setChannelOverride 2 1 0 (viewChannel ||| readMessages))),
     (bob, .message (.sendMessage 1 "hello" none [])),
     (alice, .message (.sendMessage 2 "hello" none []))]

theorem search_exact_iff_of_two :
    ((hostAfter answerHidden).contentBlockReason (key bob) = none ∧
      (momentAt 13).fts.valid "hello" = true) ∧
    (Host.foundIn ((hostAfter answerHidden).perform crypto (momentAt 13)
        (.request (key bob) false (.read (.search "hello" none 2)))).2 =
      (hostAfter answerHidden).searchable (key bob) false (momentAt 13) "hello" none 2 ↔
    (hostAfter answerHidden).SearchFair (key bob) false (momentAt 13) "hello" none 2) :=
  ⟨⟨by decide +kernel, rfl⟩, search_exact_iff (by decide +kernel) rfl⟩

/-- Bob asks for one message and gets none, his own being the second. -/
theorem search_misses :
    ¬∀ (setup : Setup) (query : String) (tr : List (Transition Host (Moment × HostOp))) (host : Host)
      (member : PublicKey) (isOwner : Bool) (moment : Moment) (channelId : Option ℕ) (limit : ℕ),
      HostRun crypto (.firstRun setup) tr host → host.contentBlockReason member = none →
      moment.fts.valid query = true →
      Host.foundIn (host.perform crypto moment
          (.request member isOwner (.read (.search query channelId limit)))).2 =
        host.searchable member isOwner moment query channelId limit := by
  intro h
  have hfound := congrArg List.length <| h _ "hello" _ _ (key bob) false (momentAt 13) none 1
    (run_path answerHidden) (by decide +kernel) rfl
  exact absurd hfound (by decide +kernel)

end Server
