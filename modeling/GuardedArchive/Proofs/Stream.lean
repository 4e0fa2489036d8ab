import GuardedArchive.Stream

/-!
# Proofs/Stream — a content in chunks is copied as a whole

Reads carry a content when they deliver it chunk by chunk and then end (`Carries`).  The reads of
octets that are ready carry those (`carries_readsOf`), and what a receiver collects out of reads is
the content that they carry (`copyFrom_collect`), unless that is too much to be counted.
-/

namespace GuardedArchive.Stream

/-- The reads deliver a content in chunks, and nothing else. -/
inductive Carries : List Read → Bytes → Prop
  | nil : Carries [] []
  | cons {chunk content : Bytes} {reads : List Read} (hne : chunk ≠ [])
      (h : Carries reads content) : Carries (.data chunk :: reads) (chunk ++ content)

variable {reads : List Read} {content : Bytes}

theorem carries_chunksUpTo {size : Nat} (hsize : 0 < size) : ∀ {count : Nat} {content : Bytes},
    content.length ≤ count → Carries ((chunksUpTo size count content).map .data) content
  | 0, content, h => by
    obtain rfl := List.eq_nil_of_length_eq_zero (Nat.le_zero.mp h)
    exact .nil
  | count + 1, content, h => by
    rw [chunksUpTo]
    cases content with
    | nil => exact .nil
    | cons b bs =>
      have hlen : ((b :: bs).drop size).length ≤ count := by
        rw [List.length_drop]
        omega
      have hchunk : (b :: bs).take size ≠ [] := by
        rw [ne_eq, List.take_eq_nil_iff]
        exact not_or.mpr ⟨Nat.ne_of_gt hsize, List.cons_ne_nil b bs⟩
      have := Carries.cons hchunk (carries_chunksUpTo hsize hlen)
      rwa [List.take_append_drop] at this

/-- **Octets that are ready are carried by their reads.** -/
theorem carries_readsOf (content : Bytes) : Carries (readsOf content) content :=
  carries_chunksUpTo (by decide) (Nat.le_refl _)

/-- **What is collected out of reads is the content that they carry.** -/
theorem copyFrom_collect (h : Carries reads content) : ∀ {total : Nat} (before : Bytes),
    total + content.length ≤ Bytes.maxCount →
      copyFrom (fun chunk _ read => (.ok (), read ++ chunk)) reads total before
        = ⟨.ok (total + content.length), before ++ content, []⟩ := by
  induction h with
  | nil =>
    intro total before _
    rw [copyFrom, List.append_nil]
    rfl
  | @cons chunk content reads hne h ih =>
    intro total before hfits
    rw [List.length_append, ← Nat.add_assoc] at hfits
    have hmore : ¬Bytes.maxCount < total + chunk.length := by omega
    rw [copyFrom, if_neg (by simpa using hne)]
    simp only [if_neg hmore]
    rw [ih (before ++ chunk) hfits, List.append_assoc, List.length_append, Nat.add_assoc]

/-- **What cannot be counted is not collected.** -/
theorem copyFrom_collect_overflow (h : Carries reads content) : ∀ {total : Nat} (before : Bytes),
    total ≤ Bytes.maxCount → Bytes.maxCount < total + content.length →
      (copyFrom (fun chunk _ read => (.ok (), read ++ chunk)) reads total before).result
        = .error (.io .byteCountOverflow) := by
  induction h with
  | nil =>
    intro total before hle hmore
    exact absurd hmore (Nat.not_lt.mpr hle)
  | @cons chunk content reads hne h ih =>
    intro total before hle hmore
    rw [List.length_append, ← Nat.add_assoc] at hmore
    rw [copyFrom, if_neg (by simpa using hne)]
    by_cases hlt : Bytes.maxCount < total + chunk.length
    · simp only [if_pos hlt]
    · simp only [if_neg hlt]
      exact ih (before ++ chunk) (Nat.not_lt.mp hlt) hmore

end GuardedArchive.Stream
