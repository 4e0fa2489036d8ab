import GuardedArchive.Proofs.Text.Boundary
import Mathlib.Data.Set.Image

/-!
# Proofs/Entry/Cleaning — every text becomes a clean segment, and a clean one stays

    raw  ──▸  replaced  ──▸  trimmed  ──▸  cut at a boundary  ──▸  end-trimmed  ──▸  not dots only

What the later steps expose the last two take away: a cut leaves a start of a text that starts with
no blank, and what is trimmed at its end still starts so (`clean_sanitizeChars`).  Each step leaves
a clean text as it is (`sanitizeChars_eq_self`).  So the clean texts are those that stay, and those
that come about (`sanitize_clean`).
-/

namespace GuardedArchive

/-! ## Blanks at the ends -/

namespace Text

variable {s start : List Char} {c : Char}

/-- Nothing is cut off at the end of a text exactly where its last character is no blank. -/
theorem trimEnd_eq_self_iff :
    trimEnd s = s ↔ ∀ c, s.getLast? = some c → isBlank c = false := by
  refine (List.rdropWhile_eq_self_iff (p := isBlank)).trans ?_
  constructor
  · intro h c hc
    have hne : s ≠ [] := List.ne_nil_of_mem (List.mem_of_getLast? hc)
    rw [List.getLast?_eq_some_getLast hne] at hc
    exact Option.some.inj hc ▸ eq_false_of_ne_true (h hne)
  · intro h hne
    rw [h _ (List.getLast?_eq_some_getLast hne)]
    exact Bool.false_ne_true

theorem trimStart_eq_self_iff :
    trimStart s = s ↔ ∀ c, s.head? = some c → isBlank c = false := by
  cases s with
  | nil => exact iff_of_true rfl fun _ h => by cases h
  | cons d s =>
    rw [trimStart, List.dropWhile_eq_self_iff]
    simp

/-- **A text is trimmed where neither its first character nor its last is a blank.** -/
theorem trim_eq_self_iff :
    trim s = s ↔ ∀ c, s.head? = some c ∨ s.getLast? = some c → isBlank c = false := by
  have hboth : trim s = s ↔ trimStart s = s ∧ trimEnd s = s := by
    constructor
    · intro h
      have hle : s.length ≤ (trimStart s).length := by
        conv_lhs => rw [← h]
        exact (trimEnd_starts _).length_le
      have hstart : trimStart s = s := (List.dropWhile_suffix isBlank).eq_of_length_le hle
      rw [trim, hstart] at h
      exact ⟨hstart, h⟩
    · rintro ⟨hstart, hend⟩
      rw [trim, hstart, hend]
  rw [hboth, trimStart_eq_self_iff, trimEnd_eq_self_iff]
  exact ⟨fun h c hc => hc.elim (h.1 c) (h.2 c),
    fun h => ⟨fun c hc => h c (.inl hc), fun c hc => h c (.inr hc)⟩⟩

theorem head?_of_start (h : start <+: s) (hc : start.head? = some c) : s.head? = some c := by
  obtain ⟨back, rfl⟩ := h
  rw [List.head?_append, hc, Option.some_or]

/-- What is left of a start of a trimmed text is trimmed. -/
theorem trim_trimEnd_of_start (h : start <+: trim s) : trim (trimEnd start) = trimEnd start := by
  refine trim_eq_self_iff.mpr fun c hc => ?_
  rcases hc with hhead | hlast
  · have hwhole : trimEnd start <+: trimStart s :=
      (trimEnd_starts start).trans (h.trans (trimEnd_starts _))
    have hfirst : trimStart (trimStart s) = trimStart s := List.dropWhile_idempotent isBlank _
    exact trimStart_eq_self_iff.mp hfirst c (head?_of_start hwhole hhead)
  · have hidem : trimEnd (trimEnd start) = trimEnd start := List.rdropWhile_idempotent isBlank _
    exact trimEnd_eq_self_iff.mp hidem c hlast

end Text

namespace Segment

variable {s : List Char}

/-! ## What comes about is clean -/

theorem isDots_eq_false_iff : isDots s = false ↔ ∃ c ∈ s, c ≠ '.' := by
  rw [isDots, List.all_eq_false]
  simp

/-- **What is left of a text is trimmed.** -/
theorem trim_remainder (s : List Char) : Text.trim (remainder s) = remainder s :=
  Text.trim_trimEnd_of_start (cut_starts _ _)

/-- **Every text becomes a clean segment.** -/
theorem clean_sanitizeChars (s : List Char) : Clean (sanitizeChars s) := by
  refine ⟨sanitizeChars_ne_nil s, ?_, ?_, fun c => of_mem_sanitizeChars, isDots_sanitizeChars s⟩
  · rw [← Bytes.length_ofChars]
    exact length_ofChars_sanitizeChars_le s
  · rw [sanitizeChars]
    split
    · decide
    · exact trim_remainder s

/-! ## A clean segment stays -/

theorem replaced_eq_self (h : ∀ c ∈ s, isControl c = false ∧ isReserved c = false) :
    replaced s = s := by
  have hkept : s.filter (!isControl ·) = s :=
    List.filter_eq_self.mpr fun c hc => by rw [(h c hc).1, Bool.not_false]
  have hsame : ∀ c ∈ s, (if isReserved c then '_' else c) = id c := fun c hc => by
    rw [(h c hc).2, if_neg Bool.false_ne_true, id]
  rw [replaced, hkept, List.map_congr_left hsame, List.map_id]

/-- **A clean segment stays as it is.** -/
theorem sanitizeChars_eq_self (h : Clean s) : sanitizeChars s = s := by
  obtain ⟨-, hlength, htrim, hchars, hdots⟩ := h
  have hends := Text.trim_eq_self_iff.mp htrim
  have hend : Text.trimEnd s = s := Text.trimEnd_eq_self_iff.mpr fun c hc => hends c (.inr hc)
  have hleft : remainder s = s := by
    rw [remainder, replaced_eq_self hchars, htrim, (isLongestStart_cut _ _).eq hlength, hend]
  rw [sanitizeChars, hleft, hdots]
  exact if_neg Bool.false_ne_true

/-- **The clean segments are those that stay.** -/
theorem sanitizeChars_eq_self_iff : sanitizeChars s = s ↔ Clean s :=
  ⟨fun h => h ▸ clean_sanitizeChars s, sanitizeChars_eq_self⟩

theorem toList_sanitize (raw : String) : (sanitize raw).toList = sanitizeChars raw.toList :=
  String.toList_ofList

theorem sanitize_eq_self_iff {raw : String} : sanitize raw = raw ↔ Clean raw.toList := by
  rw [← sanitizeChars_eq_self_iff, ← toList_sanitize, String.toList_inj]

/-- What clean says, character by character. -/
theorem clean_iff : Clean s ↔ s ≠ [] ∧ Text.utf8Length s ≤ 255
    ∧ (∀ c, s.head? = some c ∨ s.getLast? = some c → isBlank c = false)
    ∧ (∀ c ∈ s, isControl c = false ∧ c ∉ ['/', '\\', '<', '>', ':', '\"', '|', '?', '*'])
    ∧ ∃ c ∈ s, c ≠ '.' := by
  have hreserved : ∀ c, isReserved c = false
      ↔ c ∉ ['/', '\\', '<', '>', ':', '\"', '|', '?', '*'] := fun c => by
    rw [isReserved, ← Bool.not_eq_true, List.contains_iff_mem]
  rw [Clean, Text.trim_eq_self_iff, isDots_eq_false_iff, maxLength]
  simp only [hreserved]

/-- **Segments are made clean**, whatever the text.  A segment is clean exactly where it stays, so
making clean does nothing to what it made, and makes the clean segments and no others.  A text is
cut to the longest start of whole characters that takes 255 octets, which is all of it where that
has room, and only then trimmed at its end.  On octets the cut is found by going back from the room
that there is, which comes to a boundary before it would go below zero. -/
theorem sanitize_clean :
    (∀ s : List Char, Clean s ↔ s ≠ [] ∧ Text.utf8Length s ≤ 255
      ∧ (∀ c, s.head? = some c ∨ s.getLast? = some c → isBlank c = false)
      ∧ (∀ c ∈ s, isControl c = false ∧ c ∉ ['/', '\\', '<', '>', ':', '\"', '|', '?', '*'])
      ∧ ∃ c ∈ s, c ≠ '.')
    ∧ (∀ raw : String, Clean (sanitize raw).toList)
    ∧ (∀ raw : String, sanitize raw = raw ↔ Clean raw.toList)
    ∧ (∀ raw : String, sanitize (sanitize raw) = sanitize raw)
    ∧ Set.range sanitize = {segment | Clean segment.toList}
    ∧ (∀ raw : String, ∃ kept,
      Text.IsLongestStart 255 kept (Text.trim (replaced raw.toList))
        ∧ sanitize raw = String.ofList
          (if isDots (Text.trimEnd kept) then fallback else Text.trimEnd kept))
    ∧ ∀ (room : Nat) (s : List Char), ∃ index kept, Text.IsLongestStart room kept s
      ∧ index = Text.utf8Length kept
      ∧ Utf8.boundaryUpTo (Bytes.ofChars s) room = some index
      ∧ Utf8.isBoundary (Bytes.ofChars s) index
      ∧ (Bytes.ofChars s).take index = Bytes.ofChars kept
      ∧ Utf8.cutOctets room (Bytes.ofChars s) = some (Bytes.ofChars kept) := by
  have hclean : ∀ raw : String, Clean (sanitize raw).toList := fun raw =>
    toList_sanitize raw ▸ clean_sanitizeChars raw.toList
  refine ⟨fun s => clean_iff, hclean, fun raw => sanitize_eq_self_iff,
    fun raw => sanitize_eq_self_iff.mpr (hclean raw), Set.ext fun segment => ?_, fun raw => ?_,
    fun room s => ?_⟩
  · constructor
    · rintro ⟨raw, rfl⟩
      exact hclean raw
    · exact fun h => ⟨segment, sanitize_eq_self_iff.mpr h⟩
  · exact ⟨_, isLongestStart_cut _ _, rfl⟩
  · have hcut := isLongestStart_cut room s
    exact ⟨_, _, hcut, rfl, Utf8.boundaryUpTo_ofChars room s,
      Utf8.isBoundary_ofChars_iff.mpr ⟨_, hcut.isStart, rfl⟩, Utf8.take_ofChars hcut.isStart,
      Utf8.cutOctets_ofChars room s⟩

/-- What a control character hides is trimmed. -/
example : sanitize "\x07 a:\x07 " = "a_" := by decide +kernel

end Segment

end GuardedArchive
