import GuardedArchive.Entry.Name
import GuardedArchive.Proofs.Path.Spelling
import Mathlib.Data.List.DropRight

/-!
# Proofs/Entry/Location — the location that an entry name stands for

The clean segments of a name, as octets, are a location below the destination: each is a proper name
(`isProper_location`), and two names stand for one location exactly where their sanitized paths are
the same text (`sanitizedPath_eq_iff`).  So the repetition check on texts is one on locations.
-/

namespace GuardedArchive

/-- The octets of the characters of a name. -/
def Bytes.ofChars (s : List Char) : Bytes := Bytes.ofString (String.ofList s)

namespace Bytes

theorem ofChars_eq_flatMap (s : List Char) : ofChars s = s.flatMap String.utf8EncodeChar := by
  rw [ofChars, ofString, String.toUTF8_eq_toByteArray, String.toByteArray_ofList,
    List.utf8Encode, List.data_toByteArray]

theorem ofChars_injective : Function.Injective ofChars := fun s t h => by
  have hb : (String.ofList s).toByteArray = (String.ofList t).toByteArray := by
    rw [ofChars, ofChars, ofString, ofString, String.toUTF8_eq_toByteArray,
      String.toUTF8_eq_toByteArray] at h
    exact ByteArray.ext (Array.toList_inj.mp h)
  exact String.ofList_injective (String.toByteArray_inj.mp hb)

theorem length_ofChars (s : List Char) : (ofChars s).length = Text.utf8Length s := by
  rw [ofChars_eq_flatMap]
  induction s with
  | nil => rfl
  | cons c s ih =>
    rw [List.flatMap_cons, List.length_append, ih, String.length_utf8EncodeChar, Text.utf8Length]

/-- An octet below 0x80 is in no character but its own. -/
theorem val_of_mem {c : Char} {b : UInt8} (hb : b.toNat < 0x80)
    (h : b ∈ String.utf8EncodeChar c) : c.val.toNat = b.toNat := by
  have hval : ∀ n : Nat, n < 256 → b = UInt8.ofNat n → n = b.toNat := fun n hn he => by
    rw [he, UInt8.toNat_ofNat', Nat.mod_eq_of_lt (by omega)]
  simp only [String.utf8EncodeChar] at h
  split_ifs at h with h1 h2 h3 <;> simp only [List.mem_cons, List.not_mem_nil, or_false] at h
  · exact hval _ (by omega) h
  · rcases h with h | h <;> have := hval _ (by omega) h <;> omega
  · rcases h with h | h | h <;> have := hval _ (by omega) h <;> omega
  · rcases h with h | h | h | h <;> have := hval _ (by omega) h <;> omega

/-- Only the character `/` has the octet `/` in it. -/
theorem eq_slash_of_mem {c : Char} (h : Path.slash ∈ String.utf8EncodeChar c) : c = '/' :=
  Char.ext (UInt32.toNat_inj.mp (val_of_mem (by decide) h))

/-- **Characters that spell no slash, no dot and no two dots make a proper name.** -/
theorem isProper_ofChars {s : List Char} (hne : s ≠ []) (hslash : '/' ∉ s) (hdot : s ≠ ['.'])
    (hup : s ≠ ['.', '.']) : Name.IsProper (ofChars s) where
  ne_nil h := hne (ofChars_injective (h.trans (by decide : [] = ofChars [])))
  ne_dot h := hdot (ofChars_injective (h.trans (by decide : Path.dot = ofChars ['.'])))
  ne_dotDot h := hup (ofChars_injective (h.trans (by decide : Path.dotDot = ofChars ['.', '.'])))
  slash_not_mem h := by
    rw [ofChars_eq_flatMap] at h
    obtain ⟨c, hc, hm⟩ := List.mem_flatMap.mp h
    exact hslash (eq_slash_of_mem hm ▸ hc)

end Bytes

/-! ## Clean segments -/

theorem Text.trimEnd_starts (s : List Char) : trimEnd s <+: s :=
  List.rdropWhile_prefix isBlank s

theorem Text.mem_trim {c : Char} {s : List Char} (h : c ∈ trim s) : c ∈ s :=
  (List.dropWhile_sublist _).subset ((trimEnd_starts _).subset h)

namespace Segment

theorem cut_starts : ∀ (room : Nat) (s : List Char), cut room s <+: s
  | _, [] => List.prefix_rfl
  | room, c :: s => by
    rw [cut]
    split
    · exact List.cons_prefix_cons.mpr ⟨rfl, cut_starts _ s⟩
    · exact List.nil_prefix

/-- What is left of a text holds no control character and no reserved one. -/
theorem of_mem_remainder {c : Char} {s : List Char} (h : c ∈ remainder s) :
    isControl c = false ∧ isReserved c = false := by
  have hcut : c ∈ Text.trim (replaced s) :=
    (cut_starts _ _).subset ((Text.trimEnd_starts _).subset h)
  obtain ⟨d, hd, rfl⟩ := List.mem_map.mp (Text.mem_trim hcut)
  have hd := (List.mem_filter.mp hd).2
  split
  next => decide
  next hr => exact ⟨by simpa using hd, by simpa using hr⟩

theorem of_mem_sanitizeChars {c : Char} {s : List Char} (h : c ∈ sanitizeChars s) :
    isControl c = false ∧ isReserved c = false := by
  rw [sanitizeChars] at h
  split at h
  · have hall : (fallback.all fun c => !isControl c && !isReserved c) = true := by decide
    simpa using List.all_eq_true.mp hall c h
  · exact of_mem_remainder h

theorem isDots_sanitizeChars (s : List Char) : isDots (sanitizeChars s) = false := by
  rw [sanitizeChars]
  split
  · rfl
  next h => simpa using h

/-- **A clean segment is a proper name.** -/
theorem isProper_sanitizeChars (s : List Char) :
    Name.IsProper (Bytes.ofChars (sanitizeChars s)) := by
  have hdots := isDots_sanitizeChars s
  refine Bytes.isProper_ofChars ?_ (fun h => ?_) ?_ ?_
  · intro h; rw [h] at hdots; simp [isDots] at hdots
  · exact absurd (of_mem_sanitizeChars h).2 (by decide)
  · intro h; rw [h] at hdots; simp [isDots] at hdots
  · intro h; rw [h] at hdots; simp [isDots] at hdots

theorem utf8Length_cut : ∀ (room : Nat) (s : List Char), Text.utf8Length (cut room s) ≤ room
  | _, [] => Nat.zero_le _
  | room, c :: s => by
    rw [cut]
    split
    next h =>
      have := utf8Length_cut (room - c.utf8Size) s
      rw [Text.utf8Length]
      omega
    next => exact Nat.zero_le _

theorem utf8Length_sublist {s t : List Char} (h : s.Sublist t) :
    Text.utf8Length s ≤ Text.utf8Length t := by
  induction h with
  | slnil => exact Nat.le_refl _
  | cons c _ ih =>
    rw [Text.utf8Length]
    omega
  | cons_cons c _ ih =>
    rw [Text.utf8Length, Text.utf8Length]
    omega

/-- **A clean segment is a name that is not too long.** -/
theorem length_ofChars_sanitizeChars_le (s : List Char) :
    (Bytes.ofChars (sanitizeChars s)).length ≤ maxLength := by
  rw [Bytes.length_ofChars, sanitizeChars]
  split
  · decide
  · exact Nat.le_trans (utf8Length_sublist (Text.trimEnd_starts _).sublist) (utf8Length_cut _ _)

/-- **A clean segment holds no zero.** -/
theorem zero_not_mem_ofChars_sanitizeChars (s : List Char) :
    (0 : UInt8) ∉ Bytes.ofChars (sanitizeChars s) := fun h => by
  rw [Bytes.ofChars_eq_flatMap] at h
  obtain ⟨c, hc, hm⟩ := List.mem_flatMap.mp h
  have hzero : c = '\x00' := Char.ext (UInt32.toNat_inj.mp (Bytes.val_of_mem (by decide) hm))
  exact absurd (of_mem_sanitizeChars (hzero ▸ hc)).1 (by decide)

theorem sanitizeChars_ne_nil (s : List Char) : sanitizeChars s ≠ [] := fun h => by
  have hdots := isDots_sanitizeChars s
  simp [h, isDots] at hdots

theorem slash_not_mem_sanitizeChars (s : List Char) : '/' ∉ sanitizeChars s := fun h =>
  absurd (of_mem_sanitizeChars h).2 (by decide)

end Segment

namespace EntryName

/-- The location below the destination that a name stands for. -/
def location (normal : String) : Location := (cleanSegments normal).map Bytes.ofChars

theorem isProper_location (normal : String) : (location normal).IsProper := fun name h => by
  obtain ⟨segment, hs, rfl⟩ := List.mem_map.mp h
  obtain ⟨s, -, rfl⟩ := List.mem_map.mp hs
  exact Segment.isProper_sanitizeChars s

theorem of_mem_cleanSegments {normal : String} {segment : List Char}
    (h : segment ∈ cleanSegments normal) : segment ≠ [] ∧ '/' ∉ segment := by
  obtain ⟨s, -, rfl⟩ := List.mem_map.mp h
  exact ⟨Segment.sanitizeChars_ne_nil s, Segment.slash_not_mem_sanitizeChars s⟩

/-- Segments that are joined are found again between the slashes. -/
theorem filter_splitOn_intercalate {segments : List (List Char)}
    (h : ∀ s ∈ segments, s ≠ [] ∧ '/' ∉ s) :
    ((['/'].intercalate segments).splitOn '/').filter (· ≠ []) = segments := by
  by_cases hne : segments = []
  · rw [hne]
    decide
  · rw [List.splitOn_intercalate '/' (fun s hs => (h s hs).2) hne]
    exact List.filter_eq_self.mpr fun s hs => by simpa using (h s hs).1

/-- The segments of a sanitized path are the clean segments it was joined from. -/
theorem filter_splitOn_sanitizedPath (normal : String) :
    ((sanitizedPath normal).toList.splitOn '/').filter (· ≠ []) = cleanSegments normal := by
  rw [sanitizedPath, String.toList_ofList]
  exact filter_splitOn_intercalate fun _ => of_mem_cleanSegments

/-- **Two names have one sanitized path exactly where they stand for one location.** -/
theorem sanitizedPath_eq_iff {a b : String} :
    sanitizedPath a = sanitizedPath b ↔ location a = location b := by
  constructor
  · intro h
    rw [location, location, ← filter_splitOn_sanitizedPath a, h, filter_splitOn_sanitizedPath b]
  · intro h
    have hs := (List.map_injective_iff.mpr Bytes.ofChars_injective) h
    rw [sanitizedPath, sanitizedPath, hs]

/-- The sanitized path is empty where the name stands for the destination itself. -/
theorem isEmpty_sanitizedPath (normal : String) :
    (sanitizedPath normal).isEmpty ↔ location normal = [] := by
  rw [location, List.map_eq_nil_iff, String.isEmpty_iff]
  constructor
  · intro h
    rw [← filter_splitOn_sanitizedPath normal, h]
    decide
  · intro h
    simp [sanitizedPath, h]

end EntryName

end GuardedArchive
