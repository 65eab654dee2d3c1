import Farder.Client.Sealed

/-! # The padding of envelopes

A ciphertext shows only the step of the ladder that its envelope fits, and what was padded is read
back. Bytes that are no padding are refused, whoever chose them. -/
namespace Client

open Bytes

variable {b b' p out padded padded' : List UInt8} {n : ℕ}

theorem paddingBuckets_ascending : paddingBuckets.Pairwise (· < ·) := by decide

theorem padToBucket_eq_ok : padToBucket b = .ok padded ↔ ∃ bucket,
    paddingBuckets.find? (b.length + 4 ≤ ·) = some bucket ∧
    padded = toBigEndian 4 b.length ++ b ++ List.replicate (bucket - (b.length + 4)) 0 := by
  unfold padToBucket
  cases paddingBuckets.find? (b.length + 4 ≤ ·) with
  | none => simp
  | some bucket => simp [eq_comm]

theorem isLeast_of_padToBucket (h : padToBucket b = .ok padded) :
    IsLeast {c | c ∈ paddingBuckets ∧ b.length + 4 ≤ c} padded.length := by
  obtain ⟨bucket, hfind, rfl⟩ := padToBucket_eq_ok.mp h
  have hleast := find?_ladder paddingBuckets_ascending hfind
  have hlength : (toBigEndian 4 b.length ++ b ++ List.replicate (bucket - (b.length + 4)) 0).length =
      bucket := by
    have hroom := hleast.1.2
    simp only [List.length_append, List.length_replicate, length_toBigEndian]
    omega
  rwa [hlength]

theorem exists_padToBucket : (∃ padded, padToBucket b = .ok padded) ↔ b.length ≤ 40956 := by
  have hfits : (∃ bucket, paddingBuckets.find? (b.length + 4 ≤ ·) = some bucket) ↔
      b.length ≤ 40956 := by
    rw [exists_find?_ladder]
    simp only [paddingBuckets, List.mem_cons, List.not_mem_nil, or_false, exists_eq_or_imp,
      exists_eq_left]
    omega
  rw [← hfits]
  constructor
  · rintro ⟨padded, hpad⟩
    obtain ⟨bucket, hfind, -⟩ := padToBucket_eq_ok.mp hpad
    exact ⟨bucket, hfind⟩
  · rintro ⟨bucket, hfind⟩
    exact ⟨_, padToBucket_eq_ok.mpr ⟨bucket, hfind, rfl⟩⟩

theorem four_le_of_bucket (h : n ∈ paddingBuckets) : 4 ≤ n := by
  simp only [paddingBuckets, List.mem_cons, List.not_mem_nil, or_false] at h
  omega

theorem unpad_eq_ok : unpad p = .ok out ↔ p.length ∈ paddingBuckets ∧
    ofBigEndian (p.take 4) ≤ p.length - 4 ∧ out.length = ofBigEndian (p.take 4) ∧
    ∃ tail, p = p.take 4 ++ out ++ tail := by
  unfold unpad
  by_cases hbucket : p.length ∈ paddingBuckets
  · have hfour := four_le_of_bucket hbucket
    rw [if_neg (not_not.mpr hbucket)]
    dsimp only
    by_cases hfits : p.length - 4 < ofBigEndian (p.take 4)
    · rw [if_pos hfits]
      simp only [reduceCtorEq, false_iff]
      rintro ⟨-, hle, -⟩
      exact absurd hfits (Nat.not_lt_of_le hle)
    · have hle := Nat.le_of_not_lt hfits
      rw [if_neg hfits, Except.ok.injEq]
      constructor
      · rintro rfl
        refine ⟨hbucket, hle, ?_, (p.drop 4).drop (ofBigEndian (p.take 4)), ?_⟩
        · rw [List.length_take, List.length_drop]
          omega
        · rw [List.append_assoc, List.take_append_drop, List.take_append_drop]
      · rintro ⟨-, -, hlength, tail, hp⟩
        have hdrop : p.drop 4 = out ++ tail := by
          have hhead : (p.take 4).length = 4 := by
            rw [List.length_take]
            omega
          have hcut : p.drop 4 = (p.take 4 ++ (out ++ tail)).drop 4 := by
            rw [← List.append_assoc, ← hp]
          rw [hcut, List.drop_left' hhead]
        rw [hdrop, ← hlength, List.take_left]
  · rw [if_pos hbucket]
    simp [hbucket]

theorem exists_unpad : (∃ out, unpad p = .ok out) ↔
    p.length ∈ paddingBuckets ∧ ofBigEndian (p.take 4) ≤ p.length - 4 := by
  constructor
  · rintro ⟨out, h⟩
    obtain ⟨hbucket, hle, -⟩ := unpad_eq_ok.mp h
    exact ⟨hbucket, hle⟩
  · rintro ⟨hbucket, hle⟩
    refine ⟨(p.drop 4).take (ofBigEndian (p.take 4)), unpad_eq_ok.mpr ⟨hbucket, hle, ?_,
      (p.drop 4).drop (ofBigEndian (p.take 4)), ?_⟩⟩
    · rw [List.length_take, List.length_drop]
      omega
    · rw [List.append_assoc, List.take_append_drop, List.take_append_drop]

theorem unpad_padToBucket (h : padToBucket b = .ok padded) : unpad padded = .ok b := by
  have hleast := isLeast_of_padToBucket h
  have hsmall := exists_padToBucket.mp ⟨padded, h⟩
  obtain ⟨bucket, -, rfl⟩ := padToBucket_eq_ok.mp h
  have hhead : (toBigEndian 4 b.length ++ b ++ List.replicate (bucket - (b.length + 4)) 0).take 4 =
      toBigEndian 4 b.length := by
    rw [List.append_assoc]
    exact List.take_left' (length_toBigEndian _ _)
  have hcount : ofBigEndian (toBigEndian 4 b.length) = b.length := ofBigEndian_toBigEndian (by omega)
  refine unpad_eq_ok.mpr ⟨hleast.1.1, ?_, ?_, List.replicate (bucket - (b.length + 4)) 0, ?_⟩
  · rw [hhead, hcount]
    exact Nat.le_sub_of_add_le hleast.1.2
  · rw [hhead, hcount]
  · rw [hhead]

theorem length_padToBucket_mono (h : padToBucket b = .ok padded)
    (h' : padToBucket b' = .ok padded') (hle : b.length ≤ b'.length) :
    padded.length ≤ padded'.length := by
  have hroom := (isLeast_of_padToBucket h').1
  exact (isLeast_of_padToBucket h).2 ⟨hroom.1, by have hfits := hroom.2; omega⟩

theorem padToBucket_of_limits {envelope : MessageEnvelope}
    (h : checkPresealLimits envelope b.length = .ok ()) : ∃ padded, padToBucket b = .ok padded := by
  unfold checkPresealLimits at h
  dsimp only at h
  split_ifs at h with hchars hbytes
  have hmax : maxPresealBytes = 32768 := rfl
  exact exists_padToBucket.mpr (by omega)

/-- Padding can be read back, shows nothing but the step of the ladder, and is refused unless it is
well formed. An envelope within the limits can always be padded. -/
theorem envelope_padding (C : EnvelopeCodec) :
    (∀ b, (∃ padded, padToBucket b = .ok padded) ↔ b.length ≤ 40956) ∧
    (∀ b padded, padToBucket b = .ok padded →
      IsLeast {c | c ∈ paddingBuckets ∧ b.length + 4 ≤ c} padded.length ∧ unpad padded = .ok b) ∧
    (∀ b b' padded padded', padToBucket b = .ok padded → padToBucket b' = .ok padded' →
      b.length ≤ b'.length → padded.length ≤ padded'.length) ∧
    (∀ p, (∃ out, unpad p = .ok out) ↔
      p.length ∈ paddingBuckets ∧ ofBigEndian (p.take 4) ≤ p.length - 4) ∧
    (∀ p out, unpad p = .ok out →
      out.length = ofBigEndian (p.take 4) ∧ ∃ tail, p = p.take 4 ++ out ++ tail) ∧
    ∀ envelope encoded, C.encode envelope = some encoded →
      checkPresealLimits envelope encoded.length = .ok () →
      ∃ padded, padToBucket encoded = .ok padded ∧
        MlsChannelGroup.paddedBody C envelope = .ok padded := by
  refine ⟨fun _ => exists_padToBucket,
    fun _ _ h => ⟨isLeast_of_padToBucket h, unpad_padToBucket h⟩,
    fun _ _ _ _ h h' hle => length_padToBucket_mono h h' hle, fun _ => exists_unpad,
    fun _ _ h => (unpad_eq_ok.mp h).2.2,
    fun envelope encoded hencode hlimits => ?_⟩
  obtain ⟨padded, hpad⟩ := padToBucket_of_limits hlimits
  refine ⟨padded, hpad, ?_⟩
  rw [MlsChannelGroup.paddedBody, hencode]
  dsimp only [contextOf, bind, Except.bind]
  rw [hlimits]
  exact hpad

end Client
