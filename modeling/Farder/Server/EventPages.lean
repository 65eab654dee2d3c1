import Farder.Support.Paging
import Farder.Server.ReadRequests

/-! # Pages of stored events

A device that has been away asks for the stored events page by page. A page goes through so many
rows, returns those that are wanted, and ends in a cursor from which the next page starts. -/
namespace Server

open EventLog

/-- The rows that a query goes through, and those of them that it returns. -/
structure PageQuery where
  kind : Event → Bool
  wanted : Event → Bool
  kind_of_wanted : ∀ e, wanted e = true → kind e = true

/-- A page: the cursor is past every row that has been examined. -/
structure EventPage where
  events : List Event
  nextAcceptSeq : ℕ
  more : Bool
  deriving DecidableEq, Repr

/-- A 64-bit number as the database reads it. -/
def asI64 (n : ℕ) : ℤ := if n < 2 ^ 63 then n else n - 2 ^ 64

namespace PageQuery

variable (q : PageQuery)

/-- The rows whose acceptance number is greater than the cursor, in the order of acceptance. -/
def rows (sinceAcceptSeq : ℕ) (events : List Event) : List (Event × ℕ) :=
  (events.zipIdx 1).filter fun x => q.kind x.1 && decide (asI64 sinceAcceptSeq < x.2)

/-- Go through the rows, up to so many of them. -/
def scan : List (Event × ℕ) → (scanned : ℕ) → EventPage → EventPage
  | [], _, page => page
  | (e, seq) :: rows, scanned, page =>
    if maxFetchEvents ≤ page.events.length ∨ maxFetchEvents ≤ scanned then
      { page with more := true }
    else if q.wanted e then scan rows (scanned + 1) ⟨page.events ++ [e], seq, page.more⟩
    else scan rows (scanned + 1) { page with nextAcceptSeq := seq }

def fetch (sinceAcceptSeq : ℕ) (events : List Event) : EventPage :=
  q.scan (q.rows sinceAcceptSeq events) 0 ⟨[], sinceAcceptSeq, false⟩

end PageQuery

def isWelcomeFor (recipient : PublicKey) (channelFilter : Option ℕ) (e : Event) : Bool :=
  match e.core.payload with
  | .mlsWelcome p => p.forMember = recipient ∧ ∀ want ∈ channelFilter, p.channelId = want
  | _ => false

def isMlsWelcome (e : Event) : Bool :=
  match e.core.payload with
  | .mlsWelcome _ => true
  | _ => false

def welcomesFor (recipient : PublicKey) (channelFilter : Option ℕ) : PageQuery where
  kind := isMlsWelcome
  wanted := isWelcomeFor recipient channelFilter
  kind_of_wanted e h := by
    unfold isWelcomeFor at h
    unfold isMlsWelcome
    split at h <;> simp_all

def mlsControl (channelId : ℕ) : PageQuery where
  kind e := (controlChannel e.core.payload).isSome
  wanted e := decide (controlChannel e.core.payload = some channelId)
  kind_of_wanted e h := by
    rw [of_decide_eq_true h]
    rfl

def fetchWelcomesFor (events : List Event) (recipient : PublicKey) (channelFilter : Option ℕ)
    (sinceAcceptSeq : ℕ) : EventPage :=
  (welcomesFor recipient channelFilter).fetch sinceAcceptSeq events

def fetchMlsControl (events : List Event) (channelId sinceAcceptSeq : ℕ) : EventPage :=
  (mlsControl channelId).fetch sinceAcceptSeq events

/-! ## What a page holds -/

namespace PageQuery

variable (q : PageQuery) {since : ℕ}

/-- The loop returns the wanted rows of those that the limit allows for, and stops at the last one
of these. -/
theorem scan_eq (rows : List (Event × ℕ)) {scanned : ℕ} {page : EventPage}
    (hevents : page.events.length ≤ scanned) (hscanned : scanned ≤ maxFetchEvents)
    (hmore : page.more = false) :
    q.scan rows scanned page =
      ⟨page.events ++ ((rows.take (maxFetchEvents - scanned)).filter fun x => q.wanted x.1).map
          Prod.fst,
        Paging.nextCursor page.nextAcceptSeq (rows.take (maxFetchEvents - scanned)),
        decide (maxFetchEvents - scanned < rows.length)⟩ := by
  induction rows generalizing scanned page with
  | nil => cases page; simp_all [scan, Paging.nextCursor]
  | cons row rows ih =>
    obtain ⟨e, seq⟩ := row
    rw [scan]
    by_cases hfull : maxFetchEvents ≤ scanned
    · rw [if_pos (.inr hfull)]
      simp [Nat.sub_eq_zero_of_le hfull, Paging.nextCursor]
    · obtain ⟨left, hleft⟩ : ∃ left, maxFetchEvents - scanned = left + 1 :=
        ⟨maxFetchEvents - scanned - 1, by omega⟩
      have hrest : maxFetchEvents - (scanned + 1) = left := by omega
      have hcursor (since : ℕ) : Paging.nextCursor since ((e, seq) :: rows.take left) =
          Paging.nextCursor seq (rows.take left) := by
        cases h : rows.take left <;> simp [Paging.nextCursor, List.getLast?_cons]
      have hmore' : decide (left < rows.length) =
          decide (left + 1 < ((e, seq) :: rows).length) := by simp
      rw [if_neg (by omega), hleft, List.take_succ_cons, hcursor, ← hmore']
      by_cases hwanted : q.wanted e = true
      · rw [if_pos hwanted, ih (by simpa using hevents) (by omega) (by exact hmore), hrest]
        simp [hwanted]
      · rw [if_neg hwanted, ih (by exact Nat.le_succ_of_le hevents) (by omega) (by exact hmore), hrest]
        simp [hwanted]

theorem fetch_eq (since : ℕ) (events : List Event) :
    q.fetch since events =
      ⟨((q.rows since events).take maxFetchEvents |>.filter fun x => q.wanted x.1).map Prod.fst,
        Paging.nextCursor since ((q.rows since events).take maxFetchEvents),
        decide (maxFetchEvents < (q.rows since events).length)⟩ := by
  rw [fetch, scan_eq q _ (Nat.le_refl 0) (Nat.zero_le _) rfl]
  simp

theorem rows_eq (h : since < 2 ^ 63) (events : List Event) :
    q.rows since events = Paging.after q.kind since events := by
  simp only [rows, Paging.after, asI64, if_pos h, Int.ofNat_lt]

/-- From there on, the cursor is negative for the database, and all rows come after it. -/
theorem rows_of_sign (h : 2 ^ 63 ≤ since) (hu64 : since < 2 ^ 64) (events : List Event) :
    q.rows since events = Paging.after q.kind 0 events := by
  refine List.filter_congr fun x hx => ?_
  have hpos := List.le_snd_of_mem_zipIdx hx
  have hneg : asI64 since < (x.2 : ℤ) := by
    rw [asI64, if_neg (by omega)]
    omega
  simp [hneg, show 0 < x.2 by omega]

/-- The wanted events after a cursor, in the order of acceptance. -/
def matching (since : ℕ) (events : List Event) : List Event :=
  (Paging.after q.wanted since events).map Prod.fst

theorem filter_after (since : ℕ) (events : List Event) :
    (Paging.after q.kind since events).filter (fun x => q.wanted x.1) =
      Paging.after q.wanted since events := by
  rw [Paging.after, Paging.after, List.filter_filter]
  refine List.filter_congr fun x _ => ?_
  by_cases hwanted : q.wanted x.1 = true
  · simp [hwanted, q.kind_of_wanted _ hwanted]
  · simp [hwanted]

/-- A page and what is wanted after it, by any later state of the log, are what is wanted after the
cursor that the page has been asked for with. -/
theorem fetch_append (h : since < 2 ^ 63) {events later : List Event} (hlater : events <+: later) :
    (q.fetch since events).events ++ q.matching (q.fetch since events).nextAcceptSeq later =
      q.matching since later := by
  have hpage : (Paging.after q.kind since events).take maxFetchEvents <+:
      Paging.after q.kind since later :=
    (List.take_prefix _ _).trans (Paging.after_prefix hlater)
  rw [fetch_eq, rows_eq q h, matching, matching, ← filter_after, ← filter_after,
    ← Paging.append_after hpage, List.filter_append, List.map_append]

theorem fetch_last (h : since < 2 ^ 63) {events : List Event}
    (hlast : (q.fetch since events).more = false) :
    (q.fetch since events).events = q.matching since events := by
  rw [fetch_eq, rows_eq q h] at hlast ⊢
  have hlength := of_decide_eq_false hlast
  simp only [matching, ← filter_after]
  rw [List.take_of_length_le (by omega)]

theorem lt_nextAcceptSeq (h : since < 2 ^ 63) {events : List Event}
    (hmore : (q.fetch since events).more = true) :
    since < (q.fetch since events).nextAcceptSeq := by
  rw [fetch_eq, rows_eq q h] at hmore ⊢
  exact Paging.lt_nextCursor (of_decide_eq_true hmore) (by decide)

theorem nextAcceptSeq_le (h : since < 2 ^ 63) (events : List Event) :
    (q.fetch since events).nextAcceptSeq ≤ max since events.length := by
  rw [fetch_eq, rows_eq q h]
  exact (Paging.nextCursor_bounds ..).2

end PageQuery

/-- This is the page that the request for the control events of a channel answers with. -/
theorem fetchMlsControl_answer (host : Host) (member : PublicKey) (isOwner : Bool)
    {channelId since : ℕ} (h : since < 2 ^ 63) :
    let page := fetchMlsControl host.db.events channelId since
    host.fetchMlsControl member isOwner channelId since =
      host.commit
        (do
          host.requireV2 member
          host.requirePerm member isOwner channelId Permissions.readMessages "READ_MESSAGES"
          return host)
        fun _ => return .of (.mlsControl page.events page.nextAcceptSeq page.more) [] := by
  have hrows : host.scannedControl since = Paging.after (mlsControl channelId).kind since
      host.db.events := by
    simp [Host.scannedControl, Paging.after, mlsControl]
  simp only [fetchMlsControl, PageQuery.fetch_eq, PageQuery.rows_eq _ h, Host.fetchMlsControl, hrows]
  rfl

/-- The states of a stored log, one after the other: events are added at the end, and an acceptance
number is a positive 64-bit number with a sign. -/
structure StoredLog where
  events : ℕ → List Event
  grows : ∀ n, events n <+: events (n + 1)
  bounded : ∀ n, (events n).length < 2 ^ 63

namespace PageQuery

variable (q : PageQuery)

/-- A reader who follows the cursor: the cursor and the events that so many pages have led to. -/
def read (log : ℕ → List Event) (since : ℕ) : ℕ → ℕ × List Event
  | 0 => (since, [])
  | n + 1 =>
    let page := q.fetch (read log since n).1 (log n)
    (page.nextAcceptSeq, (read log since n).2 ++ page.events)

def page (log : ℕ → List Event) (since n : ℕ) : EventPage :=
  q.fetch (q.read log since n).1 (log n)

/-- The reader gets on, comes to an end, has got everything by then, and can go on from there. -/
structure ReadsAll (log : ℕ → List Event) (since : ℕ) : Prop where
  advances : ∀ n, (q.page log since n).more = true →
    (q.read log since n).1 < (q.read log since (n + 1)).1
  ends : ∃ n, (q.page log since n).more = false
  complete : ∀ n, (q.page log since n).more = false →
    (q.read log since (n + 1)).2 = q.matching since (log n)
  resumes : ∀ n later, log n <+: later →
    (q.read log since n).2 ++ q.matching (q.read log since n).1 later = q.matching since later

variable (log : StoredLog) {since : ℕ}

theorem read_cursor_lt (h : since < 2 ^ 63) (n : ℕ) : (q.read log.events since n).1 < 2 ^ 63 := by
  induction n with
  | zero => exact h
  | succ n ih =>
    have hle := q.nextAcceptSeq_le ih (log.events n)
    have hbounded := log.bounded n
    show (q.fetch _ _).nextAcceptSeq < 2 ^ 63
    omega

theorem read_append (h : since < 2 ^ 63) (n : ℕ) {later : List Event} (hlater : log.events n <+: later) :
    (q.read log.events since n).2 ++ q.matching (q.read log.events since n).1 later =
      q.matching since later := by
  induction n with
  | zero => rfl
  | succ n ih =>
    have hbefore := (log.grows n).trans hlater
    have hpage := q.fetch_append (q.read_cursor_lt log h n) hbefore
    rw [← ih hbefore, ← hpage, ← List.append_assoc]
    rfl

theorem readsAll (h : since < 2 ^ 63) : q.ReadsAll log.events since where
  advances n hmore := q.lt_nextAcceptSeq (q.read_cursor_lt log h n) hmore
  ends := by
    by_contra hnever
    push Not at hnever
    have hall (n : ℕ) : n ≤ (q.read log.events since n).1 := by
      induction n with
      | zero => exact Nat.zero_le _
      | succ n ih =>
        have hmore : (q.page log.events since n).more = true := by simpa using hnever n
        have hlt : _ < (q.read log.events since (n + 1)).1 :=
          q.lt_nextAcceptSeq (q.read_cursor_lt log h n) hmore
        omega
    have hle := hall (2 ^ 63)
    have hlt := q.read_cursor_lt log h (2 ^ 63)
    omega
  complete n hlast := by
    have hpage := q.fetch_last (q.read_cursor_lt log h n) hlast
    rw [← q.read_append log h n (List.prefix_refl _), ← hpage]
    rfl
  resumes n later hlater := q.read_append log h n hlater

/-- From the sign bit on, the reader starts over: what is returned is not after the cursor. -/
theorem not_readsAll (h : 2 ^ 63 ≤ since) (hu64 : since < 2 ^ 64)
    (hsome : ∃ e ∈ log.events 0, q.wanted e = true) : ¬q.ReadsAll log.events since := by
  intro hreads
  have hbounded := log.bounded 0
  have hnone : q.matching since (log.events 0) = [] := by
    rw [matching, List.map_eq_nil_iff, List.eq_nil_iff_forall_not_mem]
    intro x hx
    obtain ⟨hmem, -, hlt⟩ := Paging.mem_after.mp hx
    have hle := Paging.position_le hmem
    omega
  have hpage := q.fetch_eq since (log.events 0)
  rw [q.rows_of_sign h hu64] at hpage
  by_cases hmore : maxFetchEvents < (Paging.after q.kind 0 (log.events 0)).length
  · -- The cursor goes back to the last row that has been examined.
    have hlt : since < (q.fetch since (log.events 0)).nextAcceptSeq :=
      hreads.advances 0 (by rw [page, read, hpage]; exact decide_eq_true hmore)
    have hne : (Paging.after q.kind 0 (log.events 0)).take maxFetchEvents ≠ [] := by
      intro hnil
      have hlength := congrArg List.length hnil
      rw [List.length_take, List.length_nil, maxFetchEvents] at hlength
      omega
    obtain ⟨x, hx, hnext⟩ := Paging.nextCursor_mem since hne
    have hle := Paging.position_le (Paging.mem_after.mp (List.mem_of_mem_take hx)).1
    rw [hpage] at hlt
    have hback : since < x.2 := hnext ▸ hlt
    omega
  · obtain ⟨e, he, hwanted⟩ := hsome
    have hgot : (q.fetch since (log.events 0)).events = q.matching since (log.events 0) :=
      hreads.complete 0 (by rw [page, read, hpage]; exact decide_eq_false hmore)
    rw [hnone, hpage, List.take_of_length_le (by omega), filter_after,
      Paging.map_fst_after_zero] at hgot
    exact List.filter_eq_nil_iff.mp hgot e he hwanted

end PageQuery

end Server
