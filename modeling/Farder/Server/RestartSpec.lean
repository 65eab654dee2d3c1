import Farder.Server.Advance
import Farder.Server.ReconcileSpec

/-! # What a restart does

On a server whose view is consistent with the log and misses no row, a restart links rows and
attaches files to posts. The passes of a second restart find nothing to do. -/
namespace Server

open EventLog EventLog.LogState Guarded

variable {K : Crypto} {g : Genesis} {db db' : Db} {v : View} {ls : LogState} {e : Event}
  {row : MessageRow}

namespace Db

variable {messageId position : ℕ} {author owner : PublicKey} {cap : AttachmentCap}

/-- The cap describes no file of the server, or one that the message has attached. -/
def Attributed (db : Db) (messageId : ℕ) (author owner : PublicKey) (cap : AttachmentCap) : Prop :=
  ∀ x, db.fileByHash cap.contentHash = some x → AttachmentValid cap author owner x.2 →
    db.Attached messageId x.1

theorem deriveAttachment_eq_self (h : db.Attributed messageId author owner cap) :
    db.deriveAttachment messageId author owner position cap = db := by
  unfold deriveAttachment
  split
  · rfl
  · rename_i fileId file hfile
    refine if_neg fun ⟨hvalid, hnone⟩ => ?_
    obtain ⟨a, ha, hmessage, hid⟩ := h _ hfile hvalid
    exact hnone a ha ⟨hmessage, hid⟩

theorem fileByHash_create {fileId : ℕ} {name hash : String} {media : MediaInfo} :
    (db.createMessageAttachment messageId fileId position name media).fileByHash hash =
      (db.fileByHash hash).map fun x =>
        (x.1, if x.1 = fileId then { x.2 with refCount := x.2.refCount + 1 } else x.2) := by
  simp only [fileByHash, files_create, Table.find?, Table.modify, Table.map, List.find?_map]
  congr 1
  congr 1
  funext x
  simp only [Function.comp_apply]
  split_ifs <;> rfl

theorem Attributed.create {fileId : ℕ} {name : String} {media : MediaInfo} {m : ℕ}
    (h : db.Attributed messageId author owner cap) :
    (db.createMessageAttachment m fileId position name media).Attributed messageId author owner
      cap := by
  intro x hx hvalid
  rw [fileByHash_create] at hx
  obtain ⟨y, hy, rfl⟩ := Option.map_eq_some_iff.mp hx
  refine attached_create.mpr (.inl (h y hy ?_))
  simp only at hvalid
  split_ifs at hvalid <;> exact hvalid

theorem attributed_deriveAttachment :
    (db.deriveAttachment messageId author owner position cap).Attributed messageId author owner
      cap := by
  unfold deriveAttachment
  split
  · rename_i hnone
    intro x hx
    simp [hnone] at hx
  · rename_i fileId file hfile
    split_ifs with hcond
    · intro x hx _
      rw [fileByHash_create, hfile] at hx
      obtain rfl := Option.some.inj hx
      exact attached_create.mpr (.inr ⟨rfl, rfl⟩)
    · intro x hx hvalid
      obtain rfl := Option.some.inj (hfile.symm.trans hx)
      by_contra hnone
      exact hcond ⟨hvalid, fun a ha hlink => hnone ⟨a, ha, hlink.1, hlink.2⟩⟩

theorem Attributed.deriveAttachment (h : db.Attributed messageId author owner cap) (m : ℕ)
    (author' owner' : PublicKey) (position : ℕ) (cap' : AttachmentCap) :
    (db.deriveAttachment m author' owner' position cap').Attributed messageId author owner cap := by
  unfold Db.deriveAttachment
  split
  · exact h
  · split_ifs
    · exact h.create
    · exact h

def AllAttributed (owner : PublicKey) (x : Event × ℕ) (db : Db) : Prop :=
  ∀ c ∈ (attachmentCaps x.1.core.payload).zipIdx, db.Attributed x.2 x.1.core.author owner c.1

theorem allAttributed_deriveAttachments (x : Event × ℕ) :
    AllAttributed owner x (db.deriveAttachments x.1 x.2 owner) :=
  foldl_done (D := fun (c : AttachmentCap × ℕ) db => Attributed db x.2 x.1.core.author owner c.1)
    (fun _ _ => attributed_deriveAttachment) fun _ _ _ h => h.deriveAttachment _ _ _ _ _

theorem AllAttributed.deriveAttachments {x : Event × ℕ} (h : AllAttributed owner x db)
    (y : Event × ℕ) : AllAttributed owner x (db.deriveAttachments y.1 y.2 owner) :=
  foldl_invariant h fun _ h _ _ c hc => (h c hc).deriveAttachment _ _ _ _ _

theorem deriveAttachments_eq_self {x : Event × ℕ} (h : AllAttributed owner x db) :
    db.deriveAttachments x.1 x.2 owner = db :=
  foldl_eq_self fun c hc => deriveAttachment_eq_self (h c hc)

def postedRows (K : Crypto) (db : Db) : List (Event × ℕ) :=
  (db.events.filter isPosted).filterMap fun e => (db.rowOfHash (e.hash K)).map fun x => (e, x.1)

theorem reconcileAttachments_eq (h : db.genesis = some g) : db.reconcileAttachments K =
    (db.postedRows K).foldl (fun db x => db.deriveAttachments x.1 x.2 g.owner) db := by
  simp only [reconcileAttachments, h, postedRows]

theorem attaches_reconcileAttachments :
    Attaches (fun m => ∃ row, (m, row) ∈ db.messages ∧ row.eventHash ≠ none) db
      (db.reconcileAttachments K) := by
  cases hgenesis : db.genesis with
  | none =>
    simp only [reconcileAttachments, hgenesis]
    exact .refl
  | some g =>
    rw [reconcileAttachments_eq hgenesis]
    refine .foldl fun db' hview x hx => ?_
    have hmessages : db'.messages = db.messages := congrArg View.messages hview
    obtain ⟨e, -, hrow⟩ := List.mem_filterMap.mp hx
    obtain ⟨y, hy, rfl⟩ := Option.map_eq_some_iff.mp hrow
    obtain ⟨hmem, hhash⟩ := Table.find?_mem hy
    refine attaches_deriveAttachments ⟨y.2, hmessages ▸ hmem⟩ ⟨y.2, hmem, ?_⟩
    rw [of_decide_eq_true hhash]
    simp

theorem reconcileAttachments_idem :
    (db.reconcileAttachments K).reconcileAttachments K = db.reconcileAttachments K := by
  have hview : (db.reconcileAttachments K).view = db.view := attaches_reconcileAttachments.view
  cases hgenesis : db.genesis with
  | none => simp [reconcileAttachments, hgenesis]
  | some g =>
    have hrows : (db.reconcileAttachments K).postedRows K = db.postedRows K := by
      have hevents : (db.reconcileAttachments K).events = db.events := congrArg View.events hview
      have hmessages : (db.reconcileAttachments K).messages = db.messages :=
        congrArg View.messages hview
      simp only [postedRows, rowOfHash, hevents, hmessages]
    rw [reconcileAttachments_eq ((congrArg View.genesis hview).trans hgenesis), hrows]
    refine foldl_eq_self fun x hx => deriveAttachments_eq_self ?_
    rw [reconcileAttachments_eq hgenesis]
    exact foldl_done (D := AllAttributed g.owner)
      (fun _ x => allAttributed_deriveAttachments x) (fun _ _ y h => h.deriveAttachments y) x hx

end Db

theorem linked_linked (row : MessageRow) :
    View.linked K { v with messages := v.messages.map fun _ row => v.linked K row }
      (v.linked K row) = v.linked K row := by
  have hreply := funext <| replyRow_map (v := v) (f := fun _ row => v.linked K row)
    fun _ row => ⟨rfl, rfl⟩
  cases hrow : row.replyTo with
  | some target =>
    have hlinked : (v.linked K row).replyTo = some target := by simp [View.linked, hrow]
    exact linked_of_some hlinked
  | none =>
    cases hcited : v.citedRow K row with
    | some target =>
      have hlinked : (v.linked K row).replyTo = some target := by
        simp [View.linked, hrow, hcited]
      exact linked_of_some hlinked
    | none =>
      refine linked_of_uncited ?_
      rw [linked_of_uncited hcited]
      simp only [View.citedRow, View.originOf, hreply] at hcited ⊢
      exact hcited

theorem reseal_replyTo (row : MessageRow) (e : Event) (replyTo : Option ℕ) :
    reseal { row with replyTo } e = { reseal row e with replyTo } := by
  unfold reseal
  split
  · split_ifs <;> rfl
  · rfl

theorem Consistent.linked (h : Consistent K g v ls) :
    Consistent K g { v with messages := v.messages.map fun _ row => v.linked K row } ls := by
  refine h.map (fun _ _ => rfl) (fun _ _ => rfl) (fun _ _ => rfl) (fun _ _ => .inl rfl) ?_
  intro x hx
  refine (resealed_map (f := fun row => { row with replyTo := x.2.replyTo <|> v.citedRow K x.2 })
    (fun row e => reseal_replyTo row e _) x.2).trans ?_
  rw [h.settled x hx]
  rfl

theorem AllDerived.map {f : ℕ → MessageRow → MessageRow} (h : AllDerived K v)
    (hf : ∀ k row, (f k row).eventHash = row.eventHash) :
    AllDerived K { v with messages := v.messages.map f } := by
  intro e he hposted hlive
  obtain ⟨x, hx, hhash⟩ := h e he hposted hlive
  exact ⟨_, Table.mem_map_of_mem hx, (hf _ _).trans hhash⟩

/-! ## The passes of a restart -/

/-- What the message pass of a restart leaves. -/
def Db.relinked (K : Crypto) (db : Db) : Db :=
  { db with messages := db.messages.map fun _ row => db.view.linked K row }

theorem buildLogState_eq (h : LogKept K g db.view ls) : buildLogState K db = .ok (some ls) := by
  have hgenesis : db.genesis = some g := h.genesis
  have hreplay : LogState.replay K g db.events = .ok ls := h.replay
  simp [buildLogState, hgenesis, hreplay, withContext, Functor.map, Except.map]

theorem restart_eq {st : ServerState} (h : Consistent K g st.db.view ls)
    (hall : AllDerived K st.db.view) : st.restart K =
      .ok ⟨((st.db.relinked K).reconcileAttachments K).sweepRedactedBytes, some ls⟩ := by
  have hgenesis : st.db.genesis = some g := h.genesis
  unfold ServerState.restart
  split
  · simp_all
  · simp only [buildLogState_eq h.toLogKept, reconcileChannelClasses_eq_self h.toClassesKept, bind,
      Except.bind, reconcileMessages_eq h hall, pure, Except.pure]
    rfl

theorem view_passes : ((db.relinked K).reconcileAttachments K).view =
    { db.view with messages := db.view.messages.map fun _ row => db.view.linked K row } :=
  Db.attaches_reconcileAttachments.view

theorem reconcileMessages_idem (h : Consistent K g db.view ls) (hall : AllDerived K db.view) :
    ((db.relinked K).reconcileAttachments K).reconcileMessages K (some ls) =
      .ok ((db.relinked K).reconcileAttachments K, 0) := by
  let db' := (db.relinked K).reconcileAttachments K
  have hview : db'.view =
      { db.view with messages := db.view.messages.map fun _ row => db.view.linked K row } :=
    view_passes
  have hmessages := congrArg View.messages hview
  have hmain := reconcileMessages_eq (hview ▸ h.linked) (hview ▸ hall.map fun _ _ => rfl)
  refine hmain.trans ?_
  have hlinked : db'.messages.map (fun _ row => db'.view.linked K row) = db'.messages := by
    refine Table.map_eq_self fun x hx => ?_
    rw [← Db.view_messages, hmessages] at hx
    obtain ⟨y, -, rfl⟩ := Table.mem_map.mp hx
    rw [hview]
    exact linked_linked y.2
  rw [hlinked]

end Server
