import GuardedArchive.Proofs.Entry.Grammar

/-!
# Proofs/Entry/Naming — names spelled from clean segments are accepted as they are

    a, b   ⟶   a/b   for a file, and   a/b/   for a directory

A name is spelled from segments with slashes between them, and behind them for a directory
(`spelled`).  Where the segments are clean the name passes the check unchanged (`check_spelled`) and
stands for the location with these segments (`location_spelled`).
-/

namespace GuardedArchive

/-! ## Octets of spelled names -/

theorem Bytes.ofChars_append (s t : List Char) : ofChars (s ++ t) = ofChars s ++ ofChars t := by
  rw [ofChars_eq_flatMap, ofChars_eq_flatMap, ofChars_eq_flatMap, List.flatMap_append]

theorem Bytes.ofChars_slash (s : List Char) : ofChars ('/' :: s) = Path.slash :: ofChars s :=
  Bytes.ofChars_append ['/'] s

theorem Path.joined_ofChars (segments : List (List Char)) :
    joined (segments.map Bytes.ofChars) = Bytes.ofChars (['/'].intercalate segments) := by
  induction segments using List.reverseRecOn with
  | nil => decide
  | append_singleton front last ih =>
    by_cases hne : front = []
    · simp [hne, joined]
    · rw [intercalate_concat '/' hne, List.map_append, List.map_singleton,
        joined_concat (by simpa using hne), ih, Bytes.ofChars_append, Bytes.ofChars_slash]

namespace EntryName

/-- The segments of a name, with an empty one behind them for a directory. -/
def partsOf (segments : List (List Char)) (isDirectory : Bool) : List (List Char) :=
  if isDirectory then segments ++ [[]] else segments

/-- **The name that is spelled from segments.** -/
def spelled (segments : List (List Char)) (isDirectory : Bool) : String :=
  String.ofList (['/'].intercalate (partsOf segments isDirectory))

variable {segments : List (List Char)} {isDirectory : Bool} {limits : Limits}

theorem partsOf_ne_nil (hne : segments ≠ []) : partsOf segments isDirectory ≠ [] := by
  rw [partsOf]
  split
  · simp
  · exact hne

theorem mem_partsOf {part : List Char} (h : part ∈ partsOf segments isDirectory) :
    part ∈ segments ∨ part = [] := by
  rw [partsOf] at h
  split at h
  · simpa using h
  · exact .inl h

theorem mem_intercalate {c mark : Char} {parts : List (List Char)}
    (h : c ∈ [mark].intercalate parts) : c = mark ∨ ∃ part ∈ parts, c ∈ part := by
  induction parts using List.reverseRecOn with
  | nil => cases h
  | append_singleton front last ih =>
    by_cases hne : front = []
    · subst hne
      exact .inr ⟨last, by simp, by simpa using h⟩
    · rw [intercalate_concat mark hne, List.mem_append, List.mem_cons] at h
      rcases h with h | h | h
      · exact (ih h).imp_right fun ⟨part, hp, hc⟩ => ⟨part, List.mem_append_left _ hp, hc⟩
      · exact .inl h
      · exact .inr ⟨last, by simp, h⟩

/-- A spelled name begins with its first segment. -/
theorem exists_first (hne : segments ≠ []) (isDirectory : Bool) : ∃ first ∈ segments, ∃ back,
    (spelled segments isDirectory).toList = first ++ back := by
  obtain ⟨first, rest, rfl⟩ := List.exists_cons_of_ne_nil hne
  obtain ⟨more, hparts⟩ : ∃ more, partsOf (first :: rest) isDirectory = first :: more := by
    rw [partsOf]
    split
    · exact ⟨_, rfl⟩
    · exact ⟨_, rfl⟩
  refine ⟨first, List.mem_cons_self, ?_⟩
  rw [spelled, String.toList_ofList, hparts]
  by_cases hmore : more = []
  · exact ⟨[], by simp [hmore]⟩
  · exact ⟨_, (List.intercalate_cons_of_ne_nil hmore).trans (List.append_assoc _ _ _)⟩

theorem mem_of_hasDrive {s : List Char} (h : hasDrive s = true) : ':' ∈ s := by
  obtain ⟨letter, back, rfl, -⟩ := hasDrive_iff_exists.mp h
  exact List.mem_cons_of_mem _ List.mem_cons_self

theorem mem_of_hasArrow {s : List Char} (h : hasArrow s = true) : '>' ∈ s :=
  (hasArrow_iff.mp h).subset (by decide)

theorem getLast?_intercalate (mark : Char) (front : List (List Char)) {last : List Char}
    (hlast : last ≠ []) : ([mark].intercalate (front ++ [last])).getLast? = last.getLast? := by
  by_cases hfront : front = []
  · simp [hfront]
  · rw [intercalate_concat mark hfront, List.getLast?_append_of_ne_nil _ (List.cons_ne_nil _ _),
      List.getLast?_cons_of_ne_nil hlast]

/-- The octets of a spelled name are the names of its segments with slashes between them. -/
theorem ofString_spelled (segments : List (List Char)) (isDirectory : Bool) :
    Bytes.ofString (spelled segments isDirectory)
      = Path.joined ((partsOf segments isDirectory).map Bytes.ofChars) := by
  rw [Path.joined_ofChars, spelled, Bytes.ofChars]

/-! ## Clean segments -/

/-- The segments are what they become when they are sanitized. -/
def AllClean (segments : List (List Char)) : Prop :=
  ∀ segment ∈ segments, Segment.sanitizeChars segment = segment

/-- **A clean segment is not blank.** -/
theorem exists_not_blank (s : List Char) : ∃ c ∈ Segment.sanitizeChars s, isBlank c = false := by
  rw [Segment.sanitizeChars]
  split
  · exact ⟨'u', by decide, by decide⟩
  next hdots =>
    have hne : Segment.remainder s ≠ [] := fun h => by simp [h, Segment.isDots] at hdots
    rw [Segment.remainder, Text.trimEnd, ne_eq, List.reverse_eq_nil_iff] at hne
    refine ⟨_, List.mem_reverse.mpr (List.head_mem hne), ?_⟩
    simpa using List.head_dropWhile_not isBlank hne

variable (hclean : AllClean segments)
include hclean

theorem AllClean.of_mem {segment : List Char} (hs : segment ∈ segments) :
    segment ≠ [] ∧ '/' ∉ segment ∧ Segment.isDots segment = false := by
  have he := hclean segment hs
  rw [← he]
  exact ⟨Segment.sanitizeChars_ne_nil _, Segment.slash_not_mem_sanitizeChars _,
    Segment.isDots_sanitizeChars _⟩

theorem AllClean.of_mem_spelled {c : Char} (hc : c ∈ (spelled segments isDirectory).toList) :
    c = '/' ∨ isControl c = false ∧ Segment.isReserved c = false := by
  rw [spelled, String.toList_ofList] at hc
  refine (mem_intercalate hc).imp_right fun ⟨part, hp, hm⟩ => ?_
  rcases mem_partsOf hp with hp | rfl
  · rw [← hclean part hp] at hm
    exact Segment.of_mem_sanitizeChars hm
  · cases hm

theorem AllClean.not_mem_spelled {c : Char} (hslash : c ≠ '/')
    (hbad : isControl c = true ∨ Segment.isReserved c = true) :
    c ∉ (spelled segments isDirectory).toList := fun hc => by
  rcases hclean.of_mem_spelled hc with h | ⟨hcontrol, hreserved⟩
  · exact hslash h
  · rcases hbad with h | h
    · rw [hcontrol] at h
      cases h
    · rw [hreserved] at h
      cases h

theorem AllClean.segments_spelled (hne : segments ≠ []) :
    EntryName.segments (spelled segments isDirectory) = partsOf segments isDirectory := by
  rw [EntryName.segments, spelled, String.toList_ofList]
  refine List.splitOn_intercalate '/' (fun part hp => ?_) (partsOf_ne_nil hne)
  rcases mem_partsOf hp with hp | rfl
  · exact (hclean.of_mem hp).2.1
  · exact List.not_mem_nil

theorem AllClean.cleanSegments_spelled (hne : segments ≠ []) :
    cleanSegments (spelled segments isDirectory) = segments := by
  have hproper : ∀ segment ∈ segments, isProper segment = true := fun segment hs => by
    obtain ⟨hnil, -, hdots⟩ := hclean.of_mem hs
    have hdot : segment ≠ ['.'] := fun he => by simp [he, Segment.isDots] at hdots
    simp [isProper, hnil, hdot]
  have hempty : isProper [] = false := rfl
  have hparts : (partsOf segments isDirectory).filter isProper = segments := by
    rw [partsOf]
    split
    · rw [List.filter_append, List.filter_eq_self.mpr hproper]
      simp [hempty]
    · exact List.filter_eq_self.mpr hproper
  rw [cleanSegments, hclean.segments_spelled hne, hparts]
  exact (List.map_congr_left (g := id) hclean).trans (List.map_id _)

/-- **The name stands for the location with its segments.** -/
theorem AllClean.location_spelled (hne : segments ≠ []) :
    location (spelled segments isDirectory) = segments.map Bytes.ofChars := by
  rw [location, hclean.cleanSegments_spelled hne]

theorem AllClean.normalizeSeparators_spelled :
    normalizeSeparators (spelled segments isDirectory) = spelled segments isDirectory := by
  have hback : '\\' ∉ (spelled segments isDirectory).toList :=
    hclean.not_mem_spelled (by decide) (.inr rfl)
  have hsame : ∀ c ∈ (spelled segments isDirectory).toList,
      (if c = '\\' then '/' else c) = id c := fun c hc =>
    if_neg fun he : c = '\\' => hback (he ▸ hc)
  rw [normalizeSeparators, List.map_congr_left hsame, List.map_id, String.ofList_toList]

/-- **A name spelled from clean segments is accepted as it is**, unless it is too long. -/
theorem AllClean.check_spelled (hne : segments ≠ [])
    (hlen : (Bytes.ofString (spelled segments isDirectory)).length ≤ limits.maxEntryNameLength) :
    check limits (spelled segments isDirectory) = .ok (spelled segments isDirectory) := by
  obtain ⟨first, hfirst, back, hback⟩ := exists_first hne isDirectory
  have hblank : Text.allBlank (spelled segments isDirectory) = false := by
    obtain ⟨c, hc, hnot⟩ := exists_not_blank first
    rw [hclean first hfirst] at hc
    rw [Text.allBlank, hback, List.all_eq_false]
    exact ⟨c, List.mem_append_left _ hc, by simpa using hnot⟩
  have hhead : (spelled segments isDirectory).toList.head? ≠ some '/' := by
    obtain ⟨hnil, hslash, -⟩ := hclean.of_mem hfirst
    rw [hback, List.head?_append_of_ne_nil _ hnil]
    exact fun h => hslash (List.mem_of_head? h)
  have hcontrol : (spelled segments isDirectory).toList.any (·.toNat < 0x20) = false := by
    refine List.any_eq_false.mpr fun c hc hlow => ?_
    refine hclean.not_mem_spelled (fun he => ?_) (.inl ?_) hc
    · rw [he] at hlow
      exact absurd hlow (by decide)
    · rw [isControl, hlow, Bool.true_or]
  have hup : (EntryName.segments (spelled segments isDirectory)).contains ['.', '.'] = false := by
    rw [hclean.segments_spelled hne, Bool.eq_false_iff, ne_eq, List.contains_iff_mem]
    intro h
    rcases mem_partsOf h with h | h
    · exact absurd (hclean.of_mem h).2.2 (by decide)
    · cases h
  have hdrive : hasDrive (spelled segments isDirectory).toList = false :=
    Bool.eq_false_iff.mpr fun h =>
      hclean.not_mem_spelled (by decide) (.inr rfl) (mem_of_hasDrive h)
  have harrow : hasArrow (spelled segments isDirectory).toList = false :=
    Bool.eq_false_iff.mpr fun h =>
      hclean.not_mem_spelled (by decide) (.inr rfl) (mem_of_hasArrow h)
  have hsize : (spelled segments isDirectory).utf8ByteSize ≤ limits.maxEntryNameLength := hlen
  rw [check]
  simp only [hclean.normalizeSeparators_spelled, hblank, hcontrol, hup, hhead, hdrive, harrow,
    Nat.not_lt.mpr hsize, decide_false, Bool.or_self, Bool.false_eq_true, if_false]

/-- Only the name of a directory ends with a separator. -/
theorem AllClean.endsWithSeparator_iff (hne : segments ≠ []) (isDirectory : Bool) :
    ((spelled segments isDirectory).toList.getLast? = some '/'
      ∨ (spelled segments isDirectory).toList.getLast? = some '\\') ↔ isDirectory = true := by
  rw [spelled, String.toList_ofList, partsOf]
  cases isDirectory with
  | true =>
    rw [if_pos rfl, intercalate_concat '/' hne]
    simp
  | false =>
    have hlast := List.getLast_mem hne
    have hbad : ∀ c, Segment.isReserved c = true → some c ≠ (segments.getLast hne).getLast? :=
      fun c hc he => by
        have hm := List.mem_of_getLast? he.symm
        rw [← hclean _ hlast] at hm
        rw [(Segment.of_mem_sanitizeChars hm).2] at hc
        cases hc
    rw [if_neg (by decide), ← List.dropLast_append_getLast hne,
      getLast?_intercalate '/' _ (hclean.of_mem hlast).1]
    exact ⟨fun h => h.elim (fun h => (hbad '/' rfl h.symm).elim)
      fun h => (hbad '\\' rfl h.symm).elim, fun h => by cases h⟩

end EntryName

/-! ## Names that are text -/

/-- A name is text, and clean as a segment. -/
def Name.IsClean (name : Name) : Prop :=
  ∃ s, Utf8.decode? name = some s ∧ Segment.sanitize s = s

theorem Location.exists_segments {P : List Char → Prop} : ∀ {loc : Location},
    (∀ name ∈ loc, ∃ s, name = Bytes.ofChars s ∧ P s) →
      ∃ segments : List (List Char), loc = segments.map Bytes.ofChars
        ∧ ∀ segment ∈ segments, P segment
  | [], _ => ⟨[], rfl, fun _ h => absurd h List.not_mem_nil⟩
  | name :: loc, h => by
    obtain ⟨⟨s, rfl, hs⟩, hloc⟩ := List.forall_mem_cons.mp h
    obtain ⟨segments, rfl, hall⟩ := exists_segments hloc
    exact ⟨s :: segments, rfl, List.forall_mem_cons.mpr ⟨hs, hall⟩⟩

theorem Name.eq_ofChars {name : Name} {s : String} (h : Utf8.decode? name = some s) :
    name = Bytes.ofChars s.toList := by
  rw [Utf8.decode?_eq_some_iff.mp h, Bytes.ofChars, String.ofList_toList]

/-- **A location of names that are text is one of segments.** -/
theorem Location.exists_text {loc : Location} (h : ∀ name ∈ loc, (Utf8.decode? name).isSome) :
    ∃ segments : List (List Char), loc = segments.map Bytes.ofChars := by
  have hspelled : ∀ name ∈ loc, ∃ s, name = Bytes.ofChars s ∧ True := fun name hn => by
    obtain ⟨s, hs⟩ := Option.isSome_iff_exists.mp (h name hn)
    exact ⟨_, Name.eq_ofChars hs, trivial⟩
  obtain ⟨segments, he, -⟩ := exists_segments hspelled
  exact ⟨segments, he⟩

/-- **A location of clean names is one of clean segments.** -/
theorem Location.exists_clean {loc : Location} (h : ∀ name ∈ loc, name.IsClean) :
    ∃ segments : List (List Char),
      loc = segments.map Bytes.ofChars ∧ EntryName.AllClean segments := by
  refine exists_segments fun name hn => ?_
  obtain ⟨s, hs, hclean⟩ := h name hn
  refine ⟨_, Name.eq_ofChars hs, ?_⟩
  rw [Segment.sanitize] at hclean
  rw [← String.toList_ofList (l := Segment.sanitizeChars s.toList), hclean]

end GuardedArchive
