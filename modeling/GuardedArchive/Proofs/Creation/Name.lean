import GuardedArchive.Creation.Name
import GuardedArchive.Proofs.Entry.Cleaning

/-!
# Proofs/Creation/Name — which request takes the default name, and what fits behind a name

    request  ──sanitize──▸  name  ──▸  name.zip        255 octets for the name, none for `.zip`

A request falls back to the default name where nothing is left of it, and also where what is left
reads `unnamed` although the request, trimmed, does not (`request_falls_back`).  What is made of a
clean name is clean in all but its length: the extension is put behind a name that may have taken
all the room (`sanitizeChars_concat_extension`), so that the result can be too long, and can become
another one when it is asked for again (`normalized_name_fits`).
-/

namespace GuardedArchive

/-! ## Cutting behind a start -/

theorem Text.utf8Length_append : ∀ s t : List Char,
    utf8Length (s ++ t) = utf8Length s + utf8Length t
  | [], t => (Nat.zero_add _).symm
  | c :: s, t => by
    rw [List.cons_append, utf8Length, utf8Length, utf8Length_append s t, Nat.add_assoc]

/-- **A start that has room stays, and what is behind it gets the rest of the room.** -/
theorem Segment.cut_append : ∀ {room : Nat} {start : List Char} (more : List Char),
    Text.utf8Length start ≤ room →
      cut room (start ++ more) = start ++ cut (room - Text.utf8Length start) more
  | _, [], _, _ => rfl
  | room, c :: start, more, h => by
    rw [Text.utf8Length] at h
    rw [List.cons_append, cut, if_pos (by omega), cut_append more (by omega), Text.utf8Length,
      Nat.sub_sub, List.cons_append]

/-! ## Blanks around a text -/

namespace Text

variable {s blanks : List Char}

theorem trim_append_of_blank (h : ∀ c ∈ blanks, isBlank c) : trim (s ++ blanks) = trim s := by
  have hend : ∀ t, trimEnd (t ++ blanks) = trimEnd t := fun t => by
    rw [trimEnd, List.reverse_append,
      List.dropWhile_append_of_pos fun c hc => h c (List.mem_reverse.mp hc), trimEnd]
  rw [trim, trimStart, List.dropWhile_append, trim, trimStart]
  split
  next he =>
    rw [List.dropWhile_eq_nil_iff.mpr h, List.isEmpty_iff.mp he]
  next => exact hend _

theorem append_trim_of_blank (h : ∀ c ∈ blanks, isBlank c) : trim (blanks ++ s) = trim s := by
  rw [trim, trimStart, List.dropWhile_append_of_pos h, trim, trimStart]

/-- A text is its trimmed text between blanks. -/
theorem exists_blanks (s : List Char) : ∃ front back, s = front ++ (trim s ++ back)
    ∧ (∀ c ∈ front, isBlank c) ∧ ∀ c ∈ back, isBlank c := by
  refine ⟨s.takeWhile isBlank, ((trimStart s).reverse.takeWhile isBlank).reverse, ?_,
    fun c => List.mem_takeWhile_imp, fun c hc => List.mem_takeWhile_imp (List.mem_reverse.mp hc)⟩
  have hback : trim s ++ ((trimStart s).reverse.takeWhile isBlank).reverse = trimStart s := by
    rw [trim, trimEnd, ← List.reverse_append, List.takeWhile_append_dropWhile, List.reverse_reverse]
  rw [hback, trimStart, List.takeWhile_append_dropWhile]

end Text

namespace Segment

variable {s : List Char}

theorem isBlank_of_mem_replaced (h : ∀ c ∈ s, isBlank c) : ∀ c ∈ replaced s, isBlank c := by
  intro c hc
  obtain ⟨d, hd, rfl⟩ := List.mem_map.mp hc
  have hblank := h d (List.mem_filter.mp hd).1
  have hkept : isReserved d = false := by
    by_contra hreserved
    rw [Bool.not_eq_false, isReserved, List.contains_iff_mem] at hreserved
    have hall : ['/', '\\', '<', '>', ':', '\"', '|', '?', '*'].all fun c => !isBlank c := by
      decide
    have hnot := List.all_eq_true.mp hall d hreserved
    rw [hblank] at hnot
    cases hnot
  rwa [hkept, if_neg Bool.false_ne_true]

/-- **Blanks around a text leave nothing behind.** -/
theorem remainder_trim (s : List Char) : remainder (Text.trim s) = remainder s := by
  obtain ⟨front, back, hs, hfront, hback⟩ := Text.exists_blanks s
  have hreplaced : replaced s = replaced front ++ (replaced (Text.trim s) ++ replaced back) := by
    conv_lhs => rw [hs]
    simp [replaced]
  rw [remainder, remainder, hreplaced, Text.append_trim_of_blank (isBlank_of_mem_replaced hfront),
    Text.trim_append_of_blank (isBlank_of_mem_replaced hback)]

end Segment

namespace ArchiveName

open Segment

variable {settings : CreationSettings} {requested : String} {name : List Char}

/-! ## The extension -/

/-- A name with the extension, unless it has that already. -/
def withExtension (name : List Char) : List Char :=
  if hasExtension name then name else name ++ extension

/-- **A name has the extension where it ends in it**, whatever the case of its letters. -/
theorem hasExtension_iff : hasExtension name ↔ extension <:+ name.map Char.toLower := by
  rw [hasExtension, List.isPrefixOf_iff_prefix, List.reverse_prefix]

theorem hasExtension_concat_extension (name : List Char) : hasExtension (name ++ extension) := by
  rw [hasExtension_iff, List.map_append]
  exact List.suffix_append _ _

theorem withExtension_of_has (h : hasExtension name) : withExtension name = name := if_pos h

theorem withExtension_of_not (h : hasExtension name = false) :
    withExtension name = name ++ extension := if_neg (by rw [h]; exact Bool.false_ne_true)

theorem hasExtension_withExtension (name : List Char) : hasExtension (withExtension name) := by
  cases h : hasExtension name with
  | true => rwa [withExtension_of_has h]
  | false =>
    rw [withExtension_of_not h]
    exact hasExtension_concat_extension name

/-! ## Requests -/

/-- The clean segment that a request is given: its own, or that of the default name. -/
def chosen (settings : CreationSettings) (requested : String) : List Char :=
  if isBlankRequest requested.toList then sanitizeChars settings.defaultArchiveName.toList
  else sanitizeChars requested.toList

theorem normalize_eq (settings : CreationSettings) (requested : String) :
    normalize settings requested = String.ofList (withExtension (chosen settings requested)) := rfl

theorem clean_chosen (settings : CreationSettings) (requested : String) :
    Clean (chosen settings requested) := by
  rw [chosen]
  split <;> exact clean_sanitizeChars _

/-- **A request counts as blank** where nothing is left of it, or the fallback is left of a request
for something else. -/
theorem isBlankRequest_iff {s : List Char} : isBlankRequest s
    ↔ isDots (remainder s) ∨ remainder s = fallback ∧ Text.trim s ≠ fallback := by
  have hown : Text.trim s = fallback → remainder s = fallback := fun h => by
    rw [← remainder_trim, h]
    decide
  rw [isBlankRequest, sanitizeChars, Bool.and_eq_true, decide_eq_true_iff, decide_eq_true_iff]
  split_ifs with hdots
  · refine iff_of_true ⟨rfl, fun h => ?_⟩ (.inl hdots)
    rw [hown h] at hdots
    cases hdots
  · rw [or_iff_right hdots]

/-- **A request falls back** when the default name decides what it is given. -/
def FallsBack (requested : String) : Prop :=
  ∀ settings : CreationSettings, normalize settings requested
    = String.ofList (withExtension (sanitizeChars settings.defaultArchiveName.toList))

theorem fallsBack_iff : FallsBack requested ↔ isBlankRequest requested.toList := by
  constructor
  · intro h
    by_contra hown
    -- what is given does not depend on the settings then
    have hsame : ∀ settings settings', normalize settings requested
        = normalize settings' requested := fun settings settings' => by
      rw [normalize_eq, normalize_eq, chosen, chosen, if_neg hown, if_neg hown]
    have hdiffer : String.ofList (withExtension (sanitizeChars ['a']))
        ≠ String.ofList (withExtension (sanitizeChars ['b'])) := by decide
    refine hdiffer ?_
    have ha := h { defaultArchiveName := String.ofList ['a'] }
    have hb := h { defaultArchiveName := String.ofList ['b'] }
    rw [String.toList_ofList] at ha hb
    exact ha.symm.trans ((hsame _ _).trans hb)
  · intro h settings
    rw [normalize_eq, chosen, if_pos h]

/-- **Which requests fall back to the default name**: those of which nothing but dots is left when
they are made a segment, and those that leave the word `unnamed` without being that word between
blanks.  Every other request is given what is left of it.  Either way the extension is put behind,
unless the name ends in it in capital or small letters. -/
theorem request_falls_back (requested : String) :
    (FallsBack requested ↔ (∀ c ∈ remainder requested.toList, c = '.')
      ∨ remainder requested.toList = fallback ∧ Text.trim requested.toList ≠ fallback)
    ∧ (¬FallsBack requested → ∀ settings, normalize settings requested
      = String.ofList (withExtension (remainder requested.toList)))
    ∧ ∀ name, withExtension name
      = if extension <:+ name.map Char.toLower then name else name ++ extension := by
  have hdots : isDots (remainder requested.toList) ↔ ∀ c ∈ remainder requested.toList, c = '.' := by
    simp [isDots]
  refine ⟨?_, fun h settings => ?_, fun name => ?_⟩
  · rw [fallsBack_iff, isBlankRequest_iff, hdots]
  · rw [fallsBack_iff] at h
    have hleft : ¬isDots (remainder requested.toList) := fun hdots =>
      h (isBlankRequest_iff.mpr (.inl hdots))
    rw [normalize_eq, chosen, if_neg h, sanitizeChars, if_neg hleft]
  · rw [withExtension]
    exact if_congr hasExtension_iff rfl rfl

theorem unnamed_keeps_name : ¬FallsBack " unnamed "
    ∧ normalize {} " unnamed " = String.ofList (withExtension (remainder " unnamed ".toList)) := by
  have hword : remainder (" unnamed " : String).toList = fallback := by decide +kernel
  have hown : ¬FallsBack " unnamed " := by
    rw [(request_falls_back " unnamed ").1, hword]
    rintro (hdots | ⟨-, hother⟩)
    · exact absurd (hdots 'u' (List.mem_cons_self ..)) (by decide)
    · exact hother (by decide +kernel)
  exact ⟨hown, (request_falls_back " unnamed ").2.1 hown {}⟩

/-- **A control character sends the word `unnamed` to the default name**, although it is what is
left of the request. -/
theorem hidden_fallback :
    remainder ("un\x00named" : String).toList = fallback
      ∧ (¬∀ c ∈ remainder ("un\x00named" : String).toList, c = '.')
      ∧ Segment.sanitize "un\x00named" = "unnamed"
      ∧ normalize {} "un\x00named" = "archive.zip" := by
  have hword : remainder ("un\x00named" : String).toList = fallback := by decide +kernel
  refine ⟨hword, fun hdots => ?_, by decide +kernel, by decide +kernel⟩
  rw [hword] at hdots
  exact absurd (hdots 'u' (List.mem_cons_self ..)) (by decide)

/-! ## Room for the extension -/

/-- A name that is clean, but for its length. -/
structure CleanButLength (name : List Char) : Prop where
  ne_nil : name ≠ []
  trimmed : ∀ c, name.head? = some c ∨ name.getLast? = some c → isBlank c = false
  chars : ∀ c ∈ name, isControl c = false ∧ isReserved c = false
  notDots : isDots name = false

theorem clean_iff_cleanButLength :
    Clean name ↔ CleanButLength name ∧ Text.utf8Length name ≤ maxLength := by
  rw [Clean, Text.trim_eq_self_iff]
  constructor
  · rintro ⟨hne, hlength, htrim, hchars, hdots⟩
    exact ⟨⟨hne, htrim, hchars, hdots⟩, hlength⟩
  · rintro ⟨⟨hne, htrim, hchars, hdots⟩, hlength⟩
    exact ⟨hne, hlength, htrim, hchars, hdots⟩

theorem chars_extension (c : Char) (hc : c ∈ extension) :
    isBlank c = false ∧ isControl c = false ∧ isReserved c = false := by
  have hall : extension.all (fun c => !isBlank c && !isControl c && !isReserved c) := by decide
  simpa [and_assoc] using List.all_eq_true.mp hall c hc

/-- **Behind a clean name any part of the extension is clean**, but for the length. -/
theorem CleanButLength.append_part (h : CleanButLength name) {part : List Char}
    (hpart : part <+: extension) : CleanButLength (name ++ part) where
  ne_nil := List.append_ne_nil_of_left_ne_nil h.ne_nil part
  trimmed c hc := by
    rw [List.head?_append_of_ne_nil _ h.ne_nil, List.getLast?_append] at hc
    rcases hc with hhead | hlast
    · exact h.trimmed c (.inl hhead)
    rcases hl : part.getLast? with _ | last
    · rw [hl, Option.none_or] at hlast
      exact h.trimmed c (.inr hlast)
    · rw [hl, Option.some_or, Option.some_inj] at hlast
      exact (chars_extension c (hlast ▸ hpart.subset (List.mem_of_getLast? hl))).1
  chars c hc := (List.mem_append.mp hc).elim (h.chars c) fun hc =>
    (chars_extension c (hpart.subset hc)).2
  notDots := by
    obtain ⟨c, hc, hdot⟩ := isDots_eq_false_iff.mp h.notDots
    exact isDots_eq_false_iff.mpr ⟨c, List.mem_append_left _ hc, hdot⟩

theorem CleanButLength.withExtension (h : CleanButLength name) :
    CleanButLength (withExtension name) := by
  cases hhas : hasExtension name with
  | true => rwa [withExtension_of_has hhas]
  | false =>
    rw [withExtension_of_not hhas]
    exact h.append_part List.prefix_rfl

/-- **Behind a clean name the extension is cut to the room that the name leaves.** -/
theorem sanitizeChars_concat_extension (h : Clean name) : sanitizeChars (name ++ extension)
    = name ++ cut (maxLength - Text.utf8Length name) extension := by
  obtain ⟨hname, hlength⟩ := clean_iff_cleanButLength.mp h
  have hwhole := hname.append_part List.prefix_rfl
  have hpart := hname.append_part (cut_starts (maxLength - Text.utf8Length name) extension)
  have hleft : remainder (name ++ extension)
      = name ++ cut (maxLength - Text.utf8Length name) extension := by
    rw [remainder, replaced_eq_self hwhole.chars, Text.trim_eq_self_iff.mpr hwhole.trimmed,
      cut_append extension hlength]
    exact Text.trimEnd_eq_self_iff.mpr fun c hc => hpart.trimmed c (.inr hc)
  rw [sanitizeChars, hleft, hpart.notDots]
  exact if_neg Bool.false_ne_true

theorem utf8Length_extension : Text.utf8Length extension = 4 := by decide

theorem cut_extension_eq_self_iff {room : Nat} : cut room extension = extension ↔ 4 ≤ room := by
  constructor
  · intro h
    rw [← utf8Length_extension, ← h]
    exact utf8Length_cut room extension
  · exact fun h => (isLongestStart_cut room extension).eq (utf8Length_extension ▸ h)

theorem cut_extension_eq_nil_iff {room : Nat} : cut room extension = [] ↔ room = 0 := by
  have hdot : Char.utf8Size '.' = 1 := by decide
  rw [extension, cut, hdot]
  split
  · exact iff_of_false (List.cons_ne_nil _ _) (by omega)
  · exact iff_of_true rfl (by omega)

/-- A name has room for the extension if it has it or takes 251 octets at most. -/
theorem utf8Length_withExtension_le_iff (h : Clean name) :
    Text.utf8Length (withExtension name) ≤ 255
      ↔ hasExtension name ∨ Text.utf8Length name ≤ 251 := by
  have hroom : Text.utf8Length name ≤ 255 := h.2.1
  cases hhas : hasExtension name with
  | true => exact iff_of_true ((withExtension_of_has hhas).symm ▸ hroom) (.inl rfl)
  | false =>
    rw [withExtension_of_not hhas, Text.utf8Length_append, utf8Length_extension,
      or_iff_right Bool.false_ne_true]
    omega

/-- **What is asked for again is given the same name** where none of the extension was cut off, or
all of it. -/
theorem withExtension_sanitizeChars_iff (h : Clean name) :
    withExtension (sanitizeChars (withExtension name)) = withExtension name
      ↔ hasExtension name ∨ Text.utf8Length name ≤ 251 ∨ Text.utf8Length name = 255 := by
  cases hhas : hasExtension name with
  | true =>
    rw [withExtension_of_has hhas, sanitizeChars_eq_self h]
    exact iff_of_true (withExtension_of_has hhas) (.inl rfl)
  | false =>
    have hroom : Text.utf8Length name ≤ 255 := h.2.1
    rw [withExtension_of_not hhas, sanitizeChars_concat_extension h,
      or_iff_right Bool.false_ne_true]
    generalize hpart : cut (maxLength - Text.utf8Length name) extension = part
    have hwhole : part = extension ↔ Text.utf8Length name ≤ 251 := by
      rw [← hpart, cut_extension_eq_self_iff, maxLength]
      omega
    have hnothing : part = [] ↔ Text.utf8Length name = 255 := by
      rw [← hpart, cut_extension_eq_nil_iff, maxLength]
      omega
    rw [← hwhole, ← hnothing]
    constructor
    · intro he
      rw [withExtension] at he
      split at he
      next => exact .inl (List.append_cancel_left he)
      next =>
        rw [List.append_assoc, List.append_cancel_left_eq] at he
        exact .inr (List.append_left_eq_self.mp he)
    · rintro (rfl | rfl)
      · exact withExtension_of_has (hasExtension_concat_extension name)
      · rw [List.append_nil, withExtension_of_not hhas]

/-- A name with the extension is no blank request. -/
theorem isBlankRequest_withExtension (h : Clean name) :
    isBlankRequest (withExtension name) = false := by
  have hdiffer : sanitizeChars (withExtension name) ≠ fallback := fun he => by
    cases hhas : hasExtension name with
    | true =>
      rw [withExtension_of_has hhas, sanitizeChars_eq_self h] at he
      exact absurd (he ▸ hhas) (by decide)
    | false =>
      rw [withExtension_of_not hhas, sanitizeChars_concat_extension h] at he
      -- the fallback is short, so that the whole extension would be in it
      have hshort := congrArg Text.utf8Length he
      rw [Text.utf8Length_append, show Text.utf8Length fallback = 7 by decide] at hshort
      rw [cut_extension_eq_self_iff.mpr (by rw [maxLength]; omega)] at he
      exact absurd (he ▸ hasExtension_concat_extension name) (by decide)
  rw [isBlankRequest, decide_eq_false hdiffer, Bool.false_and]

theorem normalize_normalize_eq_iff : normalize settings (normalize settings requested)
      = normalize settings requested
    ↔ withExtension (sanitizeChars (withExtension (chosen settings requested)))
      = withExtension (chosen settings requested) := by
  have hagain : chosen settings (normalize settings requested)
      = sanitizeChars (withExtension (chosen settings requested)) := by
    rw [chosen, normalize_eq, String.toList_ofList,
      isBlankRequest_withExtension (clean_chosen settings requested), if_neg Bool.false_ne_true]
  rw [normalize_eq settings (normalize settings requested), hagain, normalize_eq,
    String.ofList_inj]

/-- **An archive's file name is clean in all but its length**, and ends in the extension.  It is
clean, and stays what it is when it is made a segment, where it takes 255 octets at most: where the
name that was chosen has the extension by itself, or leaves room for it.  Asked for again it is
given as it is in these cases, and where the name leaves no room at all, so that the extension is
cut off as a whole and put there again. -/
theorem normalized_name_fits (settings : CreationSettings) (requested : String) :
    extension <:+ (normalize settings requested).toList.map Char.toLower
      ∧ CleanButLength (normalize settings requested).toList
      ∧ (Segment.sanitize (normalize settings requested) = normalize settings requested
        ↔ Text.utf8Length (normalize settings requested).toList ≤ 255)
      ∧ (Segment.sanitize (normalize settings requested) = normalize settings requested
        ↔ hasExtension (chosen settings requested)
          ∨ Text.utf8Length (chosen settings requested) ≤ 251)
      ∧ (normalize settings (normalize settings requested) = normalize settings requested
        ↔ hasExtension (chosen settings requested)
          ∨ Text.utf8Length (chosen settings requested) ≤ 251
          ∨ Text.utf8Length (chosen settings requested) = 255) := by
  have hclean := clean_chosen settings requested
  have hname := (clean_iff_cleanButLength.mp hclean).1.withExtension
  have hresult : (normalize settings requested).toList
      = withExtension (chosen settings requested) := by
    rw [normalize_eq, String.toList_ofList]
  have hfits : Segment.sanitize (normalize settings requested) = normalize settings requested
      ↔ Text.utf8Length (withExtension (chosen settings requested)) ≤ 255 := by
    rw [sanitize_eq_self_iff, hresult, clean_iff_cleanButLength, and_iff_right hname, maxLength]
  rw [hresult]
  exact ⟨hasExtension_iff.mp (hasExtension_withExtension _), hname, hfits,
    hfits.trans (utf8Length_withExtension_le_iff hclean),
    normalize_normalize_eq_iff.trans (withExtension_sanitizeChars_iff hclean)⟩

/-- A name of 252 letters. -/
def longName : List Char := List.replicate 252 'a'

theorem chosen_longName : chosen {} (String.ofList longName) = longName := by
  have hclean : Clean longName := by
    refine ⟨by decide +kernel, by decide +kernel, by decide +kernel, fun c hc => ?_,
      by decide +kernel⟩
    rw [List.eq_of_mem_replicate hc]
    decide
  have hown : isBlankRequest longName = false := by decide +kernel
  rw [chosen, String.toList_ofList, hown, if_neg Bool.false_ne_true, sanitizeChars_eq_self hclean]

/-- **A long request is given a name of 256 octets**, which is no clean segment, and another name
when it is asked for again. -/
theorem normalized_name_outgrows : CreationSettings.check {} = .ok ()
    ∧ Text.utf8Length (normalize {} (String.ofList longName)).toList = 256
    ∧ Segment.sanitize (normalize {} (String.ofList longName))
      ≠ normalize {} (String.ofList longName)
    ∧ normalize {} (normalize {} (String.ofList longName))
      ≠ normalize {} (String.ofList longName) := by
  have hno : hasExtension longName = false := by decide +kernel
  have hlength : Text.utf8Length longName = 252 := by decide +kernel
  have hlong : Text.utf8Length (normalize {} (String.ofList longName)).toList = 256 := by
    rw [normalize_eq, String.toList_ofList, chosen_longName, withExtension_of_not hno,
      Text.utf8Length_append, hlength, utf8Length_extension]
  refine ⟨rfl, hlong, fun hsame => ?_, fun hsame => ?_⟩
  · have hfits : Text.utf8Length (normalize {} (String.ofList longName)).toList ≤ 255 :=
      (sanitize_eq_self_iff.mp hsame).2.1
    omega
  · rw [normalize_normalize_eq_iff, withExtension_sanitizeChars_iff (clean_chosen {} _),
      chosen_longName, hno, hlength] at hsame
    exact absurd hsame (by decide)

end ArchiveName

end GuardedArchive
