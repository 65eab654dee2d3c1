import Farder.Client.HistoryStore

/-! # The history store as a map

The rows are kept under channel, message and event hash, but read by channel and message. As long as
no two rows of a channel have the same message id, and none has the last one, the store is the map
that it should be. -/
namespace History

variable {Blob : Type} {C : RowCipher Blob} {lower : List Char → List Char} {s : HistoryStore Blob}
  {rec : HistoryRecord} {nonce : List UInt8} {c m : UInt64}

/-! ## Rows and records -/

@[simp] theorem asU64_asI64 (n : UInt64) : asU64 (asI64 n) = n := by
  simp [asU64, asI64]

theorem asI64_inj {n k : UInt64} : asI64 n = asI64 k ↔ n = k :=
  ⟨fun h => by rw [← asU64_asI64 n, h, asU64_asI64], congrArg asI64⟩

theorem asI64_le (n : UInt64) : asI64 n ≤ maxI64 := by
  have hlt := Int64.toInt_lt n.toInt64
  unfold asI64 maxI64
  omega

theorem aad_inj {c c' m m' : UInt64} {h h' : List UInt8} (heq : aad c m h = aad c' m' h') :
    c = c' ∧ m = m' ∧ h = h' := by
  have hnum {n k : UInt64} (hbytes : Bytes.toBigEndian 8 n.toNat = Bytes.toBigEndian 8 k.toNat) :
      n = k := by
    have hlt (n : UInt64) : n.toNat < 256 ^ 8 := n.toNat_lt
    have hback := congrArg Bytes.ofBigEndian hbytes
    rw [Bytes.ofBigEndian_toBigEndian (hlt n), Bytes.ofBigEndian_toBigEndian (hlt k)] at hback
    exact UInt64.toNat_inj.mp hback
  obtain ⟨hnumbers, hhash⟩ := List.append_inj heq (by simp)
  obtain ⟨hchannel, hmessage⟩ := List.append_inj hnumbers (by simp)
  exact ⟨hnum hchannel, hnum hmessage, hhash⟩

theorem openRow_sealRow (hideal : C.Ideal) :
    openRow C rec.channelId rec.messageId (sealRow C rec nonce) = some rec := by
  simp [openRow, sealRow, hideal.opens, HistoryRecord.payload]

def rowsOf (C : RowCipher Blob) (l : List (HistoryRecord × List UInt8)) : List (HistoryRow Blob) :=
  l.map fun x => sealRow C x.1 x.2

namespace HistoryStore

/-- What is stored: every row, opened where it belongs. -/
def records (C : RowCipher Blob) (s : HistoryStore Blob) : List HistoryRecord :=
  s.rows.filterMap fun row => openRow C (asU64 row.channelId) (asU64 row.messageId) row

def recordsIn (C : RowCipher Blob) (s : HistoryStore Blob) (c : UInt64) : List HistoryRecord :=
  (s.records C).filter fun rec => rec.channelId = c

/-- The rows are those of records with different keys. -/
def Sound (C : RowCipher Blob) (s : HistoryStore Blob) : Prop :=
  ∃ l, s.rows = rowsOf C l ∧ (l.map fun x => x.1.key).Nodup

variable {l : List (HistoryRecord × List UInt8)}

theorem records_eq (hideal : C.Ideal) (hrows : s.rows = rowsOf C l) :
    s.records C = l.map Prod.fst := by
  rw [records, hrows, rowsOf, List.filterMap_map, ← List.filterMap_eq_map]
  refine List.filterMap_congr fun x _ => ?_
  show openRow C (asU64 (asI64 x.1.channelId)) (asU64 (asI64 x.1.messageId)) _ = some x.1
  rw [asU64_asI64, asU64_asI64, openRow_sealRow hideal]

theorem filter_rowsOf {p : HistoryRow Blob → Bool} {q : HistoryRecord → Bool}
    (h : ∀ rec nonce, p (sealRow C rec nonce) = q rec) :
    (rowsOf C l).filter p = rowsOf C (l.filter fun x => q x.1) := by
  rw [rowsOf, List.filter_map]
  exact congrArg (List.map _) (List.filter_congr fun x _ => h x.1 x.2)

theorem Sound.filter {p : HistoryRow Blob → Bool} {q : HistoryRecord → Bool} (hs : s.Sound C)
    (h : ∀ rec nonce, p (sealRow C rec nonce) = q rec) : Sound C ⟨s.rows.filter p⟩ := by
  obtain ⟨l, hrows, hkeys⟩ := hs
  refine ⟨l.filter fun x => q x.1, ?_, hkeys.sublist (List.filter_sublist.map _)⟩
  show s.rows.filter p = _
  rw [hrows, filter_rowsOf h]

theorem records_filter (hideal : C.Ideal) {p : HistoryRow Blob → Bool} {q : HistoryRecord → Bool}
    (hs : s.Sound C) (h : ∀ rec nonce, p (sealRow C rec nonce) = q rec) :
    records C ⟨s.rows.filter p⟩ = (s.records C).filter q := by
  obtain ⟨l, hrows, -⟩ := hs
  have hfilter : (⟨s.rows.filter p⟩ : HistoryStore Blob).rows =
      rowsOf C (l.filter fun x => q x.1) := by
    rw [← filter_rowsOf h, ← hrows]
  rw [records_eq hideal hfilter, records_eq hideal hrows, List.filter_map]
  rfl

theorem sealRow_key (other : HistoryRecord) (nonce : List UInt8) :
    decide (¬((sealRow C other nonce).channelId = asI64 rec.channelId ∧
      (sealRow C other nonce).messageId = asI64 rec.messageId ∧
        (sealRow C other nonce).eventHash = rec.eventHash)) = decide (other.key ≠ rec.key) := by
  have hkey : other.key = rec.key ↔ other.channelId = rec.channelId ∧
      other.messageId = rec.messageId ∧ other.eventHash = rec.eventHash := by
    rw [HistoryRecord.key, HistoryRecord.key, Prod.mk.injEq, Prod.mk.injEq]
  simp only [sealRow, asI64_inj, ne_eq, hkey]

theorem put_rows (hrows : s.rows = rowsOf C l) : (s.put C rec nonce).rows =
    rowsOf C (l.filter (fun x => x.1.key ≠ rec.key) ++ [(rec, nonce)]) := by
  show s.rows.filter _ ++ [sealRow C rec nonce] = _
  rw [hrows, filter_rowsOf (q := fun other => other.key ≠ rec.key) sealRow_key, rowsOf, rowsOf,
    List.map_append]
  rfl

theorem Sound.put (hs : s.Sound C) : (s.put C rec nonce).Sound C := by
  obtain ⟨l, hrows, hkeys⟩ := hs
  refine ⟨_, put_rows hrows, ?_⟩
  rw [List.map_append, List.nodup_append]
  refine ⟨hkeys.sublist (List.filter_sublist.map _), List.nodup_singleton _, ?_⟩
  intro a ha b hb hab
  obtain ⟨x, hx, rfl⟩ := List.mem_map.mp ha
  exact of_decide_eq_true (List.mem_filter.mp hx).2 (hab.trans (List.mem_singleton.mp hb))

theorem records_put (hideal : C.Ideal) (hs : s.Sound C) : (s.put C rec nonce).records C =
    (s.records C).filter (fun other => other.key ≠ rec.key) ++ [rec] := by
  obtain ⟨l, hrows, -⟩ := hs
  rw [records_eq hideal (put_rows hrows), records_eq hideal hrows, List.map_append, List.filter_map]
  rfl

theorem Sound.redact {keyHex : List Char} (hs : s.Sound C) :
    (s.redactAttachment C c m keyHex nonce).Sound C := by
  unfold redactAttachment
  split
  · dsimp only
    split
    · exact hs
    · exact hs.put
  · exact hs

theorem Sound.next {op : HistoryOp} (hs : s.Sound C) : (s.next C op).Sound C := by
  cases op with
  | put rec nonce => exact hs.put
  | redactAttachment c m keyHex nonce => exact hs.redact
  | purgeMessage c m =>
    exact hs.filter (q := fun rec => ¬(rec.channelId = c ∧ rec.messageId = m)) fun rec nonce => by
      simp only [sealRow, asI64_inj]
  | purgeBefore c beforeTs =>
    exact hs.filter (q := fun rec => ¬(rec.channelId = c ∧ asI64 rec.timestamp < asI64 beforeTs))
      fun rec nonce => by simp only [sealRow, asI64_inj]
  | purgeAuthor author =>
    exact hs.filter (q := fun rec => C.authorTag rec.author ≠ C.authorTag author) fun _ _ => rfl

theorem sound_after (C : RowCipher Blob) (ops : List HistoryOp) : (storeAfter C ops).Sound C := by
  induction ops using List.reverseRecOn with
  | nil => exact ⟨[], rfl, List.nodup_nil⟩
  | append_singleton ops op ih =>
    rw [storeAfter, List.foldl_append]
    exact ih.next

/-- The order of the message ids, as the database has them. -/
def idKey (rec : HistoryRecord) : ℤ := asI64 rec.messageId

def reading (C : RowCipher Blob) (s : HistoryStore Blob) (c : UInt64) : List HistoryRecord :=
  (s.newestFirst c).filterMap fun row => openRow C (asU64 row.channelId) (asU64 row.messageId) row

/-- The pages one after the other, each from below the last id of the one before, until one is
empty. -/
def pages (C : RowCipher Blob) (s : HistoryStore Blob) (c : UInt64) (size : ℕ) :
    ℕ → Option UInt64 → Option (List HistoryRecord)
  | 0, _ => some []
  | fuel + 1, beforeId => do
    let page ← s.page C c beforeId size
    match page.getLast? with
    | none => return []
    | some last => return page ++ (← pages C s c size fuel (some last.messageId))

def cursor (beforeId : Option UInt64) : ℤ := (beforeId.map asI64).getD maxI64

structure Read (C : RowCipher Blob) (s : HistoryStore Blob) (c : UInt64)
    (l : List (HistoryRecord × List UInt8)) : Prop where
  rows : s.newestFirst c = rowsOf C l
  records : s.reading C c = l.map Prod.fst
  perm : (l.map Prod.fst).Perm (s.recordsIn C c)
  sorted : l.Pairwise fun x y => idKey y.1 ≤ idKey x.1
  inChannel : ∀ x ∈ l, x.1.channelId = c

theorem mapM_eq_map {α β : Type} {f : α → Option β} {g : α → β} {l : List α}
    (h : ∀ x ∈ l, f x = some (g x)) : l.mapM f = some (l.map g) := by
  induction l with
  | nil => rfl
  | cons x l ih =>
    rw [List.mapM_cons, h x List.mem_cons_self, ih fun y hy => h y (List.mem_cons_of_mem _ hy)]
    rfl

theorem mem_inKeyOrder {row : HistoryRow Blob} :
    row ∈ s.inKeyOrder c ↔ row ∈ s.rows ∧ row.channelId = asI64 c := by
  rw [inKeyOrder, List.mem_insertionSort, List.mem_filter, decide_eq_true_eq]

theorem keyLe_total (a b : HistoryRow Blob) : KeyLe a b ∨ KeyLe b a := by
  unfold KeyLe
  rcases lt_trichotomy a.messageId b.messageId with hlt | heq | hgt
  · exact .inl (.inl hlt)
  · rcases List.le_total a.eventHash b.eventHash with hle | hle
    exacts [.inl (.inr ⟨heq, hle⟩), .inr (.inr ⟨heq.symm, hle⟩)]
  · exact .inr (.inl hgt)

theorem keyLe_trans {a b c : HistoryRow Blob} (hab : KeyLe a b) (hbc : KeyLe b c) : KeyLe a c := by
  rcases hab with hab | ⟨hab, hhash⟩ <;> rcases hbc with hbc | ⟨hbc, hhash'⟩
  · exact .inl (hab.trans hbc)
  · exact .inl (hbc ▸ hab)
  · exact .inl (hab ▸ hbc)
  · exact .inr ⟨hab.trans hbc, List.le_trans hhash hhash'⟩

theorem KeyLe.messageId_le {a b : HistoryRow Blob} (h : KeyLe a b) : a.messageId ≤ b.messageId := by
  rcases h with hlt | ⟨heq, -⟩
  exacts [hlt.le, heq.le]

theorem exists_read (hideal : C.Ideal) (hs : s.Sound C) (c : UInt64) : ∃ l, Read C s c l := by
  obtain ⟨l, hrows, -⟩ := hs
  let older (x y : HistoryRecord × List UInt8) : Prop :=
    KeyLe (sealRow C x.1 x.2) (sealRow C y.1 y.2)
  have htotal : Std.Total older := ⟨fun _ _ => keyLe_total _ _⟩
  have htrans : IsTrans _ older := ⟨fun _ _ _ => keyLe_trans⟩
  let held := (l.filter fun x => x.1.channelId = c).insertionSort older
  have hnewest : s.newestFirst c = rowsOf C held.reverse := by
    rw [newestFirst, inKeyOrder, hrows, filter_rowsOf (q := fun rec => rec.channelId = c)
      fun rec nonce => by simp only [sealRow, asI64_inj]]
    rw [rowsOf, rowsOf, List.map_reverse, List.map_insertionSort older KeyLe
      (fun x => sealRow C x.1 x.2) _ fun _ _ _ _ => Iff.rfl]
  have hperm : held.reverse.Perm (l.filter fun x => x.1.channelId = c) :=
    (List.reverse_perm held).trans (List.perm_insertionSort older _)
  refine ⟨held.reverse, hnewest, ?_, ?_, ?_, ?_⟩
  · rw [reading, hnewest]
    exact records_eq (s := ⟨rowsOf C held.reverse⟩) hideal rfl
  · refine (hperm.map Prod.fst).trans ?_
    rw [recordsIn, records_eq hideal hrows, List.filter_map]
    exact .refl _
  · refine List.pairwise_reverse.mpr ?_
    exact (List.pairwise_insertionSort older _).imp fun hle => KeyLe.messageId_le hle
  · exact fun x hx => of_decide_eq_true (List.mem_filter.mp (hperm.mem_iff.mp hx)).2

theorem page_eq (hideal : C.Ideal) (hs : s.Sound C) (beforeId : Option UInt64) (size : ℕ) :
    s.page C c beforeId size = some (Keyset.page idKey (s.reading C c) size (cursor beforeId)) := by
  obtain ⟨l, hl⟩ := exists_read hideal hs c
  rw [page, hl.rows, hl.records, rowsOf, Keyset.page_map, Keyset.page_map, List.mapM_map]
  refine mapM_eq_map fun x hx => ?_
  have hmem : x ∈ l := List.mem_of_mem_filter (List.mem_of_mem_take hx)
  show openRow C c (asU64 (asI64 x.1.messageId)) _ = _
  rw [asU64_asI64, ← hl.inChannel x hmem, openRow_sealRow hideal]

theorem pages_eq (hideal : C.Ideal) (hs : s.Sound C) (size fuel : ℕ) (beforeId : Option UInt64) :
    s.pages C c size fuel beforeId =
      some (Keyset.walk idKey (s.reading C c) size fuel (cursor beforeId)) := by
  induction fuel generalizing beforeId with
  | zero => rfl
  | succ fuel ih =>
    rw [pages, page_eq hideal hs, Keyset.walk, Option.bind_eq_bind, Option.bind_some]
    cases (Keyset.page idKey (s.reading C c) size (cursor beforeId)).getLast? with
    | none => rfl
    | some last =>
      dsimp only
      rw [ih]
      rfl

/-! ## When the pages are the channel -/

def NewestFirst (l : List HistoryRecord) : Prop := l.Pairwise fun a b => b.messageId ≤ a.messageId

/-- Page after page, the whole channel comes exactly once, newest first. -/
def Paged (C : RowCipher Blob) (s : HistoryStore Blob) (c : UInt64) (size : ℕ) : Prop :=
  ∃ found, s.pages C c size (s.rows.length + 1) none = some found ∧
    found.Perm (s.recordsIn C c) ∧ NewestFirst found

/-- Message ids that a cursor can tell apart: they are different, none is the last one of a signed
word, and they compare as signed words as they do as unsigned ones. -/
structure Tellable (l : List HistoryRecord) : Prop where
  distinct : (l.map HistoryRecord.messageId).Nodup
  notLast : ∀ rec ∈ l, rec.messageId ≠ 2 ^ 63 - 1
  signed : ∀ a ∈ l, ∀ b ∈ l, a.messageId < b.messageId → asI64 a.messageId < asI64 b.messageId

theorem Tellable.perm {l l' : List HistoryRecord} (h : Tellable l) (hperm : l.Perm l') :
    Tellable l' where
  distinct := (hperm.map _).nodup_iff.mp h.distinct
  notLast rec hrec := h.notLast rec (hperm.mem_iff.mpr hrec)
  signed a ha b hb := h.signed a (hperm.mem_iff.mpr ha) b (hperm.mem_iff.mpr hb)

theorem idKey_lt_max {n : UInt64} : asI64 n < maxI64 ↔ n ≠ 2 ^ 63 - 1 := by
  have hmax : maxI64 = asI64 (2 ^ 63 - 1) := by decide +kernel
  rw [lt_iff_le_and_ne, and_iff_right (asI64_le n), hmax, ne_eq, asI64_inj]

theorem reading_perm (hideal : C.Ideal) (hs : s.Sound C) :
    (s.reading C c).Perm (s.recordsIn C c) := by
  obtain ⟨l, hl⟩ := exists_read hideal hs c
  exact hl.records ▸ hl.perm

theorem reading_sorted (hideal : C.Ideal) (hs : s.Sound C) :
    (s.reading C c).Pairwise fun a b => idKey b ≤ idKey a := by
  obtain ⟨l, hl⟩ := exists_read hideal hs c
  rw [hl.records]
  exact List.pairwise_map.mpr hl.sorted

theorem reading_descending (hideal : C.Ideal) (hs : s.Sound C)
    (h : Tellable (s.recordsIn C c)) : Keyset.Descending idKey (s.reading C c) := by
  have hids := (h.perm (reading_perm hideal hs).symm).distinct
  refine ((reading_sorted hideal hs).and (List.pairwise_map.mp hids)).imp fun ⟨hle, hne⟩ => ?_
  exact lt_of_le_of_ne hle fun heq => hne (asI64_inj.mp heq).symm

/-- Ids that compare as signed words as they do otherwise descend as they are read. -/
theorem newestFirst_of_descending {l : List HistoryRecord} (h : Tellable l)
    (hdesc : Keyset.Descending idKey l) : NewestFirst l := by
  refine hdesc.imp_of_mem fun {a b} ha hb hlt => ?_
  by_contra hle
  exact lt_asymm hlt (h.signed a ha b hb (UInt64.not_le.mp hle))

theorem walk_reading (hideal : C.Ideal) (hs : s.Sound C) (h : Tellable (s.recordsIn C c))
    {size : ℕ} (hsize : 0 < size) :
    Keyset.walk idKey (s.reading C c) size (s.rows.length + 1) maxI64 = s.reading C c := by
  have hall : (s.reading C c).filter (idKey · < maxI64) = s.reading C c := by
    refine List.filter_eq_self.mpr fun rec hrec => decide_eq_true (idKey_lt_max.mpr ?_)
    exact h.notLast rec ((reading_perm hideal hs).mem_iff.mp hrec)
  have hlength : (s.reading C c).length ≤ s.rows.length := by
    rw [(reading_perm hideal hs).length_eq]
    exact (List.length_filter_le _ _).trans (List.length_filterMap_le _ _)
  have hfuel : ((s.reading C c).filter (idKey · < maxI64)).length ≤ s.rows.length + 1 := by
    rw [hall]
    omega
  rw [Keyset.walk_eq (reading_descending hideal hs h) hsize hfuel, hall]

theorem tellable_of_descending {l : List HistoryRecord} (hdesc : Keyset.Descending idKey l)
    (hlast : ∀ rec ∈ l, idKey rec < maxI64) (hnewest : NewestFirst l) : Tellable l where
  distinct := List.pairwise_map.mpr (hdesc.imp fun hlt heq => hlt.ne (congrArg asI64 heq.symm))
  notLast rec hrec := idKey_lt_max.mp (hlast rec hrec)
  signed a ha b hb := by
    -- Two entries differ in both orders in the same way.
    let agree (a b : HistoryRecord) : Prop :=
      (a.messageId < b.messageId → idKey a < idKey b) ∧
        (b.messageId < a.messageId → idKey b < idKey a)
    have hpairs : l.Pairwise agree := (hdesc.and hnewest).imp fun h =>
      ⟨fun hab => absurd hab (UInt64.not_lt.mpr h.2), fun _ => h.1⟩
    have hself (rec : HistoryRecord) (_ : rec ∈ l) : agree rec rec :=
      ⟨fun h => absurd h (UInt64.lt_irrefl _), fun h => absurd h (UInt64.lt_irrefl _)⟩
    exact (hpairs.forall_of_forall_of_flip hself (hpairs.imp fun h => ⟨h.2, h.1⟩) ha hb).1

/-- A channel is paged by every page size exactly if its message ids can be told apart. -/
theorem paged_iff (hideal : C.Ideal) (hs : s.Sound C) :
    (∀ size, 0 < size → Paged C s c size) ↔ Tellable (s.recordsIn C c) := by
  constructor
  · intro h
    obtain ⟨found, hfound, hperm, hnewest⟩ := h 1 Nat.one_pos
    rw [pages_eq hideal hs] at hfound
    obtain ⟨hdesc, hlast⟩ := @Keyset.walk_one _ _ _ idKey (s.reading C c) maxI64 (s.rows.length + 1)
    obtain rfl := Option.some.inj hfound
    exact (tellable_of_descending hdesc hlast hnewest).perm hperm
  · intro h size hsize
    refine ⟨s.reading C c, ?_, reading_perm hideal hs, ?_⟩
    · rw [pages_eq hideal hs]
      exact congrArg some (walk_reading hideal hs h hsize)
    · exact newestFirst_of_descending (h.perm (reading_perm hideal hs).symm)
        (reading_descending hideal hs h)

def Matches (lower : List Char → List Char) (query : List Char) (rec : HistoryRecord) : Prop :=
  lower query <:+: lower rec.content

instance (query : List Char) : DecidablePred (Matches lower query) :=
  fun _ => inferInstanceAs (Decidable (_ <:+: _))

/-- The newest records of the channel that match, as many as asked for. -/
def Searched (C : RowCipher Blob) (lower : List Char → List Char) (s : HistoryStore Blob)
    (c : UInt64) (query : List Char) (limit : ℕ) : Prop :=
  ∃ l, l.Perm (s.recordsIn C c) ∧ NewestFirst l ∧
    s.search C lower c query limit = some ((l.filter (Matches lower query ·)).take limit)

theorem scan_eq {query : List Char} {limit : ℕ} {out page : List HistoryRecord}
    (hout : out.length < max limit 1) :
    scan lower (lower query) limit out page =
      ((out ++ page.filter (Matches lower query ·)).take (max limit 1),
        decide (max limit 1 ≤ (out ++ page.filter (Matches lower query ·)).length)) := by
  induction page generalizing out with
  | nil =>
    rw [List.filter_nil, List.append_nil, List.take_of_length_le hout.le,
      decide_eq_false (Nat.not_le.mpr hout), scan]
  | cons rec page ih =>
    by_cases hrec : lower query <:+: lower rec.content
    · rw [List.filter_cons_of_pos (p := fun rec => decide (Matches lower query rec))
        (decide_eq_true hrec), List.append_cons, scan, if_pos hrec]
      have hlength : (out ++ [rec]).length = out.length + 1 := by simp
      split_ifs with hfull
      · have heq : (out ++ [rec]).length = max limit 1 := by omega
        rw [List.take_append_of_le_length heq.ge, List.take_of_length_le heq.le, decide_eq_true]
        rw [List.length_append]
        omega
      · exact ih (by omega)
    · rw [List.filter_cons_of_neg (p := fun rec => decide (Matches lower query rec))
        (fun h => hrec (of_decide_eq_true h)), scan, if_neg hrec]
      exact ih hout

theorem searchFrom_eq (hideal : C.Ideal) (hs : s.Sound C) {query : List Char} {limit fuel : ℕ}
    {beforeId : Option UInt64} {out : List HistoryRecord} (hout : out.length < max limit 1) :
    s.searchFrom C lower c (lower query) limit fuel beforeId out =
      some ((out ++ (Keyset.walk idKey (s.reading C c) 500 fuel (cursor beforeId)).filter
        (Matches lower query ·)).take (max limit 1)) := by
  induction fuel generalizing beforeId out with
  | zero => simp [searchFrom, Keyset.walk, List.take_of_length_le hout.le]
  | succ fuel ih =>
    rw [searchFrom, page_eq hideal hs, Keyset.walk, Option.bind_eq_bind, Option.bind_some]
    generalize Keyset.page idKey (s.reading C c) 500 (cursor beforeId) = page
    cases page.getLast? with
    | none => simp [List.take_of_length_le hout.le]
    | some last =>
      dsimp only
      rw [scan_eq hout, List.filter_append, ← List.append_assoc]
      generalize out ++ page.filter (Matches lower query ·) = found
      by_cases hfull : max limit 1 ≤ found.length
      · rw [decide_eq_true hfull, List.take_append_of_le_length hfull]
        rfl
      · rw [decide_eq_false hfull, List.take_of_length_le (Nat.le_of_not_le hfull)]
        exact ih (Nat.lt_of_not_le hfull)

/-- What a search must be for the guard against empty queries, and the limit that is looked at only
once there is a match, not to matter. -/
def Askable (C : RowCipher Blob) (lower : List Char → List Char) (s : HistoryStore Blob)
    (c : UInt64) (query : List Char) (limit : ℕ) : Prop :=
  if lower query = [] then limit = 0 ∨ s.recordsIn C c = []
  else limit ≠ 0 ∨ ∀ rec ∈ s.recordsIn C c, ¬Matches lower query rec

theorem search_eq (hideal : C.Ideal) (hs : s.Sound C) (h : Tellable (s.recordsIn C c))
    (query : List Char) (limit : ℕ) : s.search C lower c query limit =
      if lower query = [] then some []
      else some (((s.reading C c).filter (Matches lower query ·)).take (max limit 1)) := by
  unfold search
  rw [searchFrom_eq hideal hs (by simp)]
  have hwalk := walk_reading hideal hs h (show 0 < 500 by omega)
  rw [show cursor none = maxI64 from rfl, hwalk]
  rfl

theorem searched_iff (hideal : C.Ideal) (hs : s.Sound C) (h : Tellable (s.recordsIn C c))
    {query : List Char} {limit : ℕ} :
    Searched C lower s c query limit ↔ Askable C lower s c query limit := by
  have hperm := reading_perm hideal hs (c := c)
  have hread := h.perm hperm.symm
  have hnewest := newestFirst_of_descending hread (reading_descending hideal hs h)
  -- Different ids leave one order only.
  have honly (l : List HistoryRecord) (hl : l.Perm (s.recordsIn C c)) (hsorted : NewestFirst l) :
      l = s.reading C c := by
    refine (hl.trans hperm.symm).eq_of_pairwise (fun a b ha hb hab hba => ?_) hsorted hnewest
    refine List.inj_on_of_nodup_map hread.distinct ((hl.trans hperm.symm).mem_iff.mp ha) hb ?_
    exact UInt64.le_antisymm hba hab
  have hreading : Searched C lower s c query limit ↔ s.search C lower c query limit =
      some (((s.reading C c).filter (Matches lower query ·)).take limit) := by
    constructor
    · rintro ⟨l, hl, hsorted, hsearch⟩
      exact honly l hl hsorted ▸ hsearch
    · exact fun hsearch => ⟨_, hperm, hnewest, hsearch⟩
  rw [hreading, search_eq hideal hs h, Askable]
  by_cases hempty : lower query = []
  · have hall : (s.reading C c).filter (Matches lower query ·) = s.reading C c :=
      List.filter_eq_self.mpr fun rec _ => decide_eq_true (by simp [Matches, hempty])
    rw [if_pos hempty, if_pos hempty, hall, Option.some_inj, eq_comm, List.take_eq_nil_iff,
      ← List.perm_nil, ← List.perm_nil, hperm.congr_left]
  · rw [if_neg hempty, if_neg hempty, Option.some_inj]
    have hnone : (s.reading C c).filter (Matches lower query ·) = [] ↔
        ∀ rec ∈ s.recordsIn C c, ¬Matches lower query rec := by
      simp [List.filter_eq_nil_iff, hperm.mem_iff]
    rw [← hnone]
    generalize (s.reading C c).filter (Matches lower query ·) = found
    cases limit with
    | zero => simp [List.take_eq_nil_iff]
    | succ limit => simp

/-! ## Reads by key, and purges -/

theorem get_of_tellable (hideal : C.Ideal) (hs : s.Sound C) (h : Tellable (s.recordsIn C c))
    (hrec : rec ∈ s.recordsIn C c) : s.get C c rec.messageId = some (some rec) := by
  obtain ⟨l, hrows, -⟩ := hs
  have hstored := records_eq hideal hrows
  rw [recordsIn, hstored, List.mem_filter] at hrec
  obtain ⟨hmem, hchannel⟩ := hrec
  have hchannel : rec.channelId = c := of_decide_eq_true hchannel
  obtain ⟨⟨rec', nonce⟩, hx, rfl⟩ := List.mem_map.mp hmem
  unfold get
  cases hfind : (s.inKeyOrder c).find? fun row => row.messageId = asI64 rec'.messageId with
  | none =>
    have hin : sealRow C rec' nonce ∈ s.inKeyOrder c :=
      mem_inKeyOrder.mpr ⟨hrows ▸ List.mem_map_of_mem hx, congrArg asI64 hchannel⟩
    exact absurd (decide_eq_true rfl) (List.find?_eq_none.mp hfind _ hin)
  | some row =>
    -- The row that is found has the id, and no other record has it.
    have hm : row.messageId = asI64 rec'.messageId := by simpa using List.find?_some hfind
    obtain ⟨hmem', hc⟩ := mem_inKeyOrder.mp (List.mem_of_find?_eq_some hfind)
    obtain ⟨⟨other, nonce'⟩, hother, rfl⟩ := List.mem_map.mp (hrows ▸ hmem')
    have hsame : other = rec' := by
      refine List.inj_on_of_nodup_map h.distinct ?_ ?_ (asI64_inj.mp hm)
      · rw [recordsIn, hstored, List.mem_filter]
        exact ⟨List.mem_map_of_mem hother, decide_eq_true (asI64_inj.mp hc)⟩
      · rw [recordsIn, hstored, List.mem_filter]
        exact ⟨hmem, decide_eq_true hchannel⟩
    subst hsame hchannel
    dsimp only
    rw [openRow_sealRow hideal]
    rfl

theorem records_purgeMessage (hideal : C.Ideal) (hs : s.Sound C) (m : UInt64) :
    (s.purgeMessage c m).records C =
      (s.records C).filter fun rec => ¬(rec.channelId = c ∧ rec.messageId = m) :=
  records_filter hideal hs fun rec nonce => by simp only [sealRow, asI64_inj]

theorem records_purgeBefore (hideal : C.Ideal) (hs : s.Sound C) (beforeTs : UInt64) :
    (s.purgeBefore c beforeTs).records C = (s.records C).filter fun rec =>
      ¬(rec.channelId = c ∧ asI64 rec.timestamp < asI64 beforeTs) :=
  records_filter hideal hs fun rec nonce => by simp only [sealRow, asI64_inj]

theorem records_purgeAuthor (hideal : C.Ideal) (hs : s.Sound C) (author : List UInt8) :
    (s.purgeAuthor C author).records C = (s.records C).filter (·.author ≠ author) :=
  records_filter hideal hs fun rec nonce => by simp [sealRow, hideal.tags.eq_iff]

theorem purgedBefore_iff (hideal : C.Ideal) (hs : s.Sound C) {beforeTs : UInt64} :
    (s.purgeBefore c beforeTs).records C =
        (s.records C).filter (fun rec => ¬(rec.channelId = c ∧ rec.timestamp < beforeTs)) ↔
      ∀ rec ∈ s.recordsIn C c,
        (asI64 rec.timestamp < asI64 beforeTs ↔ rec.timestamp < beforeTs) := by
  rw [records_purgeBefore hideal hs]
  constructor
  · intro heq rec hrec
    obtain ⟨hmem, hchannel⟩ := List.mem_filter.mp hrec
    have hchannel : rec.channelId = c := of_decide_eq_true hchannel
    have hkept := congrArg (rec ∈ ·) heq
    simp only [List.mem_filter, hmem, hchannel, true_and, decide_eq_true_eq, eq_iff_iff] at hkept
    exact not_iff_not.mp hkept
  · intro h
    refine List.filter_congr fun rec hmem => ?_
    by_cases hchannel : rec.channelId = c
    · have hsame := h rec (List.mem_filter.mpr ⟨hmem, decide_eq_true hchannel⟩)
      simp only [hsame]
    · simp [hchannel]

theorem bound_to_row (hideal : C.Ideal) (hs : s.Sound C) {row : HistoryRow Blob}
    (hrow : row ∈ s.rows) {hash nonce : List UInt8}
    (helse : (asI64 c, asI64 m, hash) ≠ (row.channelId, row.messageId, row.eventHash)) :
    C.unsealPayload nonce (aad c m hash) row.sealed = none := by
  obtain ⟨l, hrows, -⟩ := hs
  obtain ⟨⟨rec, nonce'⟩, -, rfl⟩ := List.mem_map.mp (hrows ▸ hrow)
  refine hideal.bound _ _ _ _ _ fun heq => helse ?_
  obtain ⟨rfl, rfl, rfl⟩ := aad_inj heq
  rfl

def redacted (c m : UInt64) (keyHex : List Char) (rec : HistoryRecord) : HistoryRecord :=
  if rec.channelId = c ∧ rec.messageId = m then
    { rec with attachments := rec.attachments.filter (·.keyHex ≠ keyHex) }
  else rec

theorem get_of_absent (hideal : C.Ideal) (hs : s.Sound C)
    (h : ∀ rec ∈ s.records C, ¬(rec.channelId = c ∧ rec.messageId = m)) :
    s.get C c m = some none := by
  obtain ⟨l, hrows, -⟩ := hs
  have hnone : ((s.inKeyOrder c).find? fun row => row.messageId = asI64 m) = none := by
    refine List.find?_eq_none.mpr fun row hin hid => ?_
    obtain ⟨hrow, hc⟩ := mem_inKeyOrder.mp hin
    obtain ⟨⟨rec, nonce⟩, hx, rfl⟩ := List.mem_map.mp (hrows ▸ hrow)
    have hmem : rec ∈ s.records C := by
      rw [records_eq hideal hrows]
      exact List.mem_map_of_mem hx
    exact h rec hmem ⟨asI64_inj.mp hc, asI64_inj.mp (of_decide_eq_true hid)⟩
  rw [get, hnone]

theorem records_nodup (hideal : C.Ideal) (hs : s.Sound C) :
    ((s.records C).map HistoryRecord.key).Nodup := by
  obtain ⟨l, hrows, hkeys⟩ := hs
  rwa [records_eq hideal hrows, List.map_map]

theorem records_redact (hideal : C.Ideal) (hs : s.Sound C) (h : Tellable (s.recordsIn C c))
    (m : UInt64) (keyHex : List Char) (nonce : List UInt8) :
    ((s.redactAttachment C c m keyHex nonce).records C).Perm
      ((s.records C).map (redacted c m keyHex)) := by
  have hsame {l : List HistoryRecord} (hl : ∀ rec ∈ l, redacted c m keyHex rec = rec) :
      l.map (redacted c m keyHex) = l := (List.map_congr_left hl).trans (List.map_id _)
  by_cases hsome : ∃ rec ∈ s.records C, rec.channelId = c ∧ rec.messageId = m
  · obtain ⟨rec, hrec, hchannel, rfl⟩ := hsome
    have hin : rec ∈ s.recordsIn C c := List.mem_filter.mpr ⟨hrec, decide_eq_true hchannel⟩
    obtain ⟨before, after, hsplit⟩ := List.append_of_mem hrec
    have hkeys := records_nodup hideal hs
    rw [hsplit, List.map_append, List.map_cons, List.nodup_middle, List.nodup_cons,
      ← List.map_append] at hkeys
    have hother (other : HistoryRecord) (hmem : other ∈ before ++ after) :
        other.key ≠ rec.key ∧ redacted c rec.messageId keyHex other = other := by
      have hne : other.key ≠ rec.key := fun heq => hkeys.1 (heq ▸ List.mem_map_of_mem hmem)
      refine ⟨hne, if_neg fun ⟨hc, hm⟩ => hne ?_⟩
      have hmem : other ∈ s.records C := by
        rw [hsplit]
        rcases List.mem_append.mp hmem with hmem | hmem
        exacts [List.mem_append_left _ hmem, List.mem_append_right _ (List.mem_cons_of_mem _ hmem)]
      rw [List.inj_on_of_nodup_map h.distinct
        (List.mem_filter.mpr ⟨hmem, decide_eq_true hc⟩) hin hm]
    rw [redactAttachment, get_of_tellable hideal hs h hin]
    dsimp only
    have hself : redacted c rec.messageId keyHex rec =
        { rec with attachments := rec.attachments.filter (·.keyHex ≠ keyHex) } :=
      if_pos ⟨hchannel, rfl⟩
    have hmap : (s.records C).map (redacted c rec.messageId keyHex) =
        before ++ redacted c rec.messageId keyHex rec :: after := by
      rw [hsplit, List.map_append, List.map_cons,
        hsame fun other hmem => (hother other (List.mem_append_left _ hmem)).2,
        hsame fun other hmem => (hother other (List.mem_append_right _ hmem)).2]
    split_ifs with hlength
    · have hkept := List.filter_eq_self.mpr (List.length_filter_eq_length_iff.mp hlength)
      rw [hmap, hself, hkept, hsplit]
    · have hfilter : (s.records C).filter (fun other => other.key ≠ rec.key) = before ++ after := by
        rw [hsplit, List.filter_append, List.filter_cons_of_neg (by simp), ← List.filter_append]
        exact List.filter_eq_self.mpr fun other hmem => decide_eq_true (hother other hmem).1
      rw [records_put hideal hs, hmap, hself]
      refine (List.perm_append_singleton _ _).trans ?_
      exact (hfilter ▸ List.perm_middle.symm)
  · have hnone (rec) (hrec : rec ∈ s.records C) : ¬(rec.channelId = c ∧ rec.messageId = m) :=
      fun hkey => hsome ⟨rec, hrec, hkey⟩
    rw [redactAttachment, get_of_absent hideal hs hnone,
      hsame fun rec hrec => if_neg (hnone rec hrec)]

/-! ## The store as a map -/

/-- The store reads and writes as the finite map of its records would, under the keys of channel and
message id. -/
structure MapLike (C : RowCipher Blob) (lower : List Char → List Char) (s : HistoryStore Blob)
    (c : UInt64) (query : List Char) (limit : ℕ) (beforeTs : UInt64) : Prop where
  paged : ∀ size, 0 < size → Paged C s c size
  searched : Searched C lower s c query limit
  got : ∀ rec ∈ s.recordsIn C c, s.get C c rec.messageId = some (some rec)
  stored : ∀ rec nonce, (s.put C rec nonce).records C =
    (s.records C).filter (fun other => other.key ≠ rec.key) ++ [rec]
  redacted : ∀ m keyHex nonce, ((s.redactAttachment C c m keyHex nonce).records C).Perm
    ((s.records C).map (redacted c m keyHex))
  purgedMessage : ∀ m, (s.purgeMessage c m).records C =
    (s.records C).filter fun rec => ¬(rec.channelId = c ∧ rec.messageId = m)
  purgedBefore : (s.purgeBefore c beforeTs).records C =
    (s.records C).filter fun rec => ¬(rec.channelId = c ∧ rec.timestamp < beforeTs)
  purgedAuthor : ∀ author, (s.purgeAuthor C author).records C =
    (s.records C).filter (·.author ≠ author)
  bound : ∀ row ∈ s.rows, ∀ c m hash nonce,
    (asI64 c, asI64 m, hash) ≠ (row.channelId, row.messageId, row.eventHash) →
      C.unsealPayload nonce (aad c m hash) row.sealed = none

/-- A time that compares with the channel's timestamps as signed words as it does otherwise. -/
def Comparable (l : List HistoryRecord) (beforeTs : UInt64) : Prop :=
  ∀ rec ∈ l, (asI64 rec.timestamp < asI64 beforeTs ↔ rec.timestamp < beforeTs)

instance (l : List HistoryRecord) (beforeTs : UInt64) : Decidable (Comparable l beforeTs) :=
  inferInstanceAs (Decidable (∀ rec ∈ l, _))

/-- After every sequence of writes, redactions and purges by one identity, the store is the map that
it should be exactly if a cursor can tell the channel's message ids apart, the search has a text
to look for and a limit that is reached after a match only, and the time to purge by compares with
the channel's timestamps as a signed word. -/
theorem history_map_iff (hideal : C.Ideal) (ops : List HistoryOp) (c : UInt64)
    (query : List Char) (limit : ℕ) (beforeTs : UInt64) :
    MapLike C lower (storeAfter C ops) c query limit beforeTs ↔
      Tellable ((storeAfter C ops).recordsIn C c) ∧
        Askable C lower (storeAfter C ops) c query limit ∧
          Comparable ((storeAfter C ops).recordsIn C c) beforeTs := by
  have hs := sound_after C ops
  constructor
  · intro h
    have htell := (paged_iff hideal hs).mp h.paged
    exact ⟨htell, (searched_iff hideal hs htell).mp h.searched,
      (purgedBefore_iff hideal hs).mp h.purgedBefore⟩
  · rintro ⟨htell, hask, hcompare⟩
    exact {
      paged := (paged_iff hideal hs).mpr htell
      searched := (searched_iff hideal hs htell).mpr hask
      got := fun rec hrec => get_of_tellable hideal hs htell hrec
      stored := fun rec nonce => records_put hideal hs
      redacted := records_redact hideal hs htell
      purgedMessage := records_purgeMessage hideal hs
      purgedBefore := (purgedBefore_iff hideal hs).mpr hcompare
      purgedAuthor := records_purgeAuthor hideal hs
      bound := fun row hrow c m hash nonce helse => bound_to_row hideal hs hrow helse }

/-! ## A message id twice -/

/-- A cipher that keeps what it seals next to what it is bound to. -/
def openCipher : RowCipher (List UInt8 × SealedPayload) where
  sealPayload _ aad payload := (aad, payload)
  unsealPayload _ aad blob := if blob.1 = aad then some blob.2 else none
  authorTag author := author

theorem openCipher_ideal : openCipher.Ideal where
  opens _ _ _ := if_pos rfl
  bound _ _ _ _ _ hne := if_neg hne.symm
  tags _ _ h := h

def note (messageId : UInt64) (hash : UInt8) (content : List Char) : HistoryRecord :=
  ⟨1, messageId, [hash], 10, [7], content, none, []⟩

theorem history_map_of_two :
    MapLike openCipher id (storeAfter openCipher
        [.put (note 5 0 ['a']) [], .put (note 6 1 ['b']) []]) 1 ['a'] 1 20 :=
  (history_map_iff openCipher_ideal _ _ _ _ _).mpr
    ⟨⟨by decide +kernel, by decide +kernel, by decide +kernel⟩, .inl (by decide), by decide +kernel⟩

/-- Two servers have a message of one id in one channel id. A page of one record ends with the one
whose hash is greater, and the next page begins below both. -/
theorem history_loses_record :
    ¬MapLike openCipher id (storeAfter openCipher
        [.put (note 5 0 ['a']) [], .put (note 5 1 ['b']) []]) 1 ['a'] 1 20 := by
  intro h
  obtain ⟨found, hfound, hperm, -⟩ := h.paged 1 Nat.one_pos
  have hpages : (storeAfter openCipher [.put (note 5 0 ['a']) [], .put (note 5 1 ['b']) []]).pages
      openCipher 1 1 3 none = some [note 5 1 ['b']] := by decide +kernel
  obtain rfl := Option.some.inj (hpages.symm.trans hfound)
  have hlength := hperm.length_eq
  revert hlength
  decide +kernel

end HistoryStore

end History
