import GuardedArchive.Proofs.Extraction.Judging

/-!
# Proofs/Extraction/Resolving — below a destination, segment by segment

    resolve (s₁ / … / sₙ)  =  root / s₁ / … / sₙ

Whatever the texts, made clean segments and joined they lead from the root of a destination into one
name after the other (`resolve_cleanPath`), and the containment check answers with the path that it
was given (`leadsInto_cleanPath`).  So no accepted name is refused for where it leads
(`judge_eq_pathTraversal_iff`), and names lead to one path exactly where their relative paths are
spelled alike (`resolve_accepted`).
-/

namespace GuardedArchive

/-- The relative path of texts: each is made a clean segment, and they are joined. -/
def EntryName.cleanPath (raws : List (List Char)) : String :=
  String.ofList (['/'].intercalate (raws.map Segment.sanitizeChars))

/-- The segments of a name that name something. -/
def EntryName.properSegments (normal : String) : List (List Char) :=
  (segments normal).filter isProper

theorem EntryName.sanitizedPath_eq_cleanPath (normal : String) :
    sanitizedPath normal = cleanPath (properSegments normal) := rfl

/-- The name that a text is made. -/
def Segment.cleanName (raw : List Char) : Name := Bytes.ofChars (sanitizeChars raw)

/-- The clean segments are found again between the slashes. -/
theorem EntryName.filter_splitOn_cleanPath (raws : List (List Char)) :
    ((cleanPath raws).toList.splitOn '/').filter (· ≠ []) = raws.map Segment.sanitizeChars := by
  rw [cleanPath, String.toList_ofList]
  refine filter_splitOn_intercalate fun s hs => ?_
  obtain ⟨raw, -, rfl⟩ := List.mem_map.mp hs
  exact ⟨Segment.sanitizeChars_ne_nil raw, Segment.slash_not_mem_sanitizeChars raw⟩

/-- **Relative paths are spelled alike exactly where their names are the same.** -/
theorem EntryName.cleanPath_eq_iff {raws raws' : List (List Char)} :
    cleanPath raws = cleanPath raws'
      ↔ raws.map Segment.cleanName = raws'.map Segment.cleanName := by
  have hnames : ∀ raws : List (List Char),
      raws.map Segment.cleanName = (raws.map Segment.sanitizeChars).map Bytes.ofChars := fun raws =>
    List.map_map.symm
  rw [hnames, hnames, List.map_injective_iff.mpr Bytes.ofChars_injective |>.eq_iff]
  constructor
  · intro h
    rw [← filter_splitOn_cleanPath raws, h, filter_splitOn_cleanPath]
  · intro h
    rw [cleanPath, cleanPath, h]

/-- A segment that names an entry of its own directory. -/
structure Segment.Harmless (s : List Char) : Prop where
  ne_nil : s ≠ []
  ne_dot : s ≠ ['.']
  ne_dotDot : s ≠ ['.', '.']
  slash_not_mem : '/' ∉ s
  backslash_not_mem : '\\' ∉ s

theorem Segment.harmless_sanitizeChars (raw : List Char) : Harmless (sanitizeChars raw) := by
  have hdots := isDots_sanitizeChars raw
  refine ⟨sanitizeChars_ne_nil raw, fun h => ?_, fun h => ?_, slash_not_mem_sanitizeChars raw,
    fun h => absurd (of_mem_sanitizeChars h).2 (by decide)⟩
  · rw [h] at hdots
    exact absurd hdots (by decide)
  · rw [h] at hdots
    exact absurd hdots (by decide)

namespace Destination

variable {dest : Destination} {raws raws' : List (List Char)} {p : Path}

/-- A path leads from the root into the clean segments of texts, and the containment check answers
with it. -/
structure LeadsInto (dest : Destination) (raws : List (List Char)) (p : Path) : Prop where
  contained : checkContained p dest.path = .ok p
  components : p.components
    = dest.path.components ++ raws.map fun raw => .name (Segment.cleanName raw)

theorem foldl_join_path {segments : List (List Char)} :
    ∀ {loc : Location}, loc.IsProper → (∀ s ∈ segments, Name.IsProper (Bytes.ofChars s)) →
      segments.foldl (fun p s => p.join (.ofString (String.ofList s))) loc.path
        = Location.path (loc ++ segments.map Bytes.ofChars) := by
  induction segments with
  | nil => exact fun _ _ => congrArg Location.path (List.append_nil _).symm
  | cons s segments ih =>
    intro loc hloc hs
    have hn : Name.IsProper (Bytes.ofChars s) := hs s List.mem_cons_self
    have hjoin : loc.path.join (.ofString (String.ofList s))
        = Location.path (loc ++ [Bytes.ofChars s]) := Path.join_path hloc hn
    have hproper : Location.IsProper (loc ++ [Bytes.ofChars s]) :=
      hloc.append fun _ h => List.mem_singleton.mp h ▸ hn
    rw [List.foldl_cons, hjoin, ih hproper fun t ht => hs t (List.mem_cons_of_mem _ ht),
      List.map_cons, List.append_assoc, List.singleton_append]

theorem isProper_map_cleanName (raws : List (List Char)) :
    Location.IsProper (raws.map Segment.cleanName) := fun name h => by
  obtain ⟨raw, -, rfl⟩ := List.mem_map.mp h
  exact Segment.isProper_sanitizeChars raw

/-- **Clean segments lead from the root into one name after the other.** -/
theorem resolve_cleanPath (hroot : dest.root.IsProper) (raws : List (List Char)) :
    dest.resolve (EntryName.cleanPath raws)
      = Location.path (dest.root ++ raws.map Segment.cleanName) := by
  have hnames : ∀ s ∈ raws.map Segment.sanitizeChars, Name.IsProper (Bytes.ofChars s) :=
    fun s hs => by
      obtain ⟨raw, -, rfl⟩ := List.mem_map.mp hs
      exact Segment.isProper_sanitizeChars raw
  rw [resolve, EntryName.filter_splitOn_cleanPath, path, foldl_join_path hroot hnames,
    List.map_map]
  rfl

/-- **The containment check answers with the path of any clean segments.** -/
theorem leadsInto_cleanPath (hroot : dest.root.IsProper) (raws : List (List Char)) :
    dest.LeadsInto raws (dest.resolve (EntryName.cleanPath raws)) := by
  have hproper := hroot.append (isProper_map_cleanName raws)
  have hnormal : ∀ {loc : Location}, loc.IsProper → loc.path.normalize = loc.path := fun h => by
    rw [Path.normalize_eq_path (Path.isAbsolute_path _), Path.locationFrom_path h]
  rw [resolve_cleanPath hroot]
  constructor
  · rw [checkContained, path, hnormal hproper, hnormal hroot,
      if_pos ((Path.isWithin_path hproper hroot).mpr (List.prefix_append _ _))]
  · rw [path, Path.components_path hproper, Path.components_path hroot, List.map_append,
      List.map_map, List.cons_append]
    rfl

/-- A path that leads into a segment at least stands below the root, and is not the root. -/
theorem LeadsInto.below (h : dest.LeadsInto raws p) (hne : raws ≠ []) :
    p.isWithin dest.path ∧ ¬dest.path.isWithin p := by
  rw [Path.isWithin, Path.isWithin, List.isPrefixOf_iff_prefix, List.isPrefixOf_iff_prefix,
    h.components]
  refine ⟨List.prefix_append _ _, fun hpre => hne ?_⟩
  have hle := hpre.length_le
  rw [List.length_append, List.length_map] at hle
  exact List.length_eq_zero_iff.mp (by omega)

/-- **Paths are the same exactly where the relative paths are spelled alike.** -/
theorem LeadsInto.components_eq_iff {q : Path} (h : dest.LeadsInto raws p)
    (h' : dest.LeadsInto raws' q) :
    p.components = q.components ↔ EntryName.cleanPath raws = EntryName.cleanPath raws' := by
  have hinj : Function.Injective fun raw : Name => Path.Component.name raw := fun _ _ he =>
    Path.Component.name.inj he
  have hnames : ∀ raws : List (List Char), (raws.map fun raw => Path.Component.name
      (Segment.cleanName raw)) = (raws.map Segment.cleanName).map Path.Component.name := fun raws =>
    List.map_map.symm
  rw [h.components, h'.components, List.append_cancel_left_eq, hnames, hnames,
    (List.map_injective_iff.mpr hinj).eq_iff, EntryName.cleanPath_eq_iff]

end Destination

namespace Extraction

variable {limits : Limits} {dest : Destination} {seen : List String} {entry : EntryDescriptor}

/-- The bounds on what is declared do not speak of paths. -/
theorem declared_ne_pathTraversal (limits : Limits) (entry : EntryDescriptor) (p : Path) :
    entry.checkSize limits ≠ .error (.violation (.pathTraversal p))
      ∧ entry.checkNotLink ≠ .error (.violation (.pathTraversal p)) := by
  rw [EntryDescriptor.checkSize, EntryDescriptor.checkNotLink]
  constructor
  · split
    · nofun
    · split
      · nofun
      · rw [Limits.checkCompressionRatio]
        dsimp only
        split_ifs <;> nofun
  · split <;> nofun

/-- **Only a name that goes up is refused for where it leads**: the containment check behind the
name check never fails. -/
theorem judge_eq_pathTraversal_iff {p : Path} :
    judge limits dest seen entry = .error (.violation (.pathTraversal p))
      ↔ EntryName.check limits entry.name = .error (.violation (.pathTraversal p)) := by
  obtain ⟨hsize, hlink⟩ := declared_ne_pathTraversal limits entry p
  constructor
  · intro h
    rw [judge] at h
    rcases bind_eq_error_iff.mp h with hcheck | ⟨normal, -, h⟩
    · exact hcheck
    rcases bind_eq_error_iff.mp h with hs | ⟨_, -, h⟩
    · exact absurd hs hsize
    rcases bind_eq_error_iff.mp h with hl | ⟨_, -, h⟩
    · exact absurd hl hlink
    dsimp only at h
    rw [dest.checkContained_resolve] at h
    split at h
    · split at h <;> cases h
    · rcases bind_eq_error_iff.mp h with hp | ⟨path, -, h⟩
      · cases hp
      rcases bind_eq_error_iff.mp h with hd | ⟨_, -, h⟩
      · rw [EntryName.checkDuplicate] at hd
        split at hd <;> cases hd
      · cases h
  · intro h
    rw [judge, h]
    rfl

/-- **Where an accepted name leads.**  Below the root of a destination, into clean segments, which
the containment check lets through as they are; it never is what refuses an entry.  Two names lead
to one path exactly where their relative paths are spelled alike, so the repetition check on those
is one on paths.  And whatever the texts, their clean segments are contained. -/
theorem resolve_accepted (hroot : dest.root.IsProper) :
    (∀ (limits : Limits) (name normal : String), EntryName.check limits name = .ok normal →
      EntryName.sanitizedPath normal ≠ "" → EntryName.properSegments normal ≠ []
        ∧ dest.LeadsInto (EntryName.properSegments normal)
          (dest.resolve (EntryName.sanitizedPath normal))
        ∧ (∀ raw ∈ EntryName.properSegments normal,
          Segment.Harmless (Segment.sanitizeChars raw))
        ∧ (dest.resolve (EntryName.sanitizedPath normal)).isWithin dest.path
        ∧ ¬dest.path.isWithin (dest.resolve (EntryName.sanitizedPath normal)))
    ∧ (∀ (limits : Limits) (seen : List String) (entry : EntryDescriptor) (p : Path),
      judge limits dest seen entry = .error (.violation (.pathTraversal p))
        ↔ EntryName.check limits entry.name = .error (.violation (.pathTraversal p)))
    ∧ (∀ a b : String, (dest.resolve (EntryName.sanitizedPath a)).components
        = (dest.resolve (EntryName.sanitizedPath b)).components
      ↔ EntryName.sanitizedPath a = EntryName.sanitizedPath b)
    ∧ (∀ (earlier : List String) (normal : String), EntryName.checkDuplicate
        (earlier.map EntryName.sanitizedPath) (EntryName.sanitizedPath normal) = .ok ()
      ↔ ∀ a ∈ earlier, (dest.resolve (EntryName.sanitizedPath a)).components
        ≠ (dest.resolve (EntryName.sanitizedPath normal)).components)
    ∧ ∀ raws : List (List Char), dest.LeadsInto raws (dest.resolve (EntryName.cleanPath raws)) := by
  have hleads := Destination.leadsInto_cleanPath hroot
  have hsame : ∀ a b, (dest.resolve (EntryName.sanitizedPath a)).components
      = (dest.resolve (EntryName.sanitizedPath b)).components
        ↔ EntryName.sanitizedPath a = EntryName.sanitizedPath b := fun a b =>
    (hleads _).components_eq_iff (hleads _)
  refine ⟨fun limits name normal _ hne => ?_, fun _ _ _ _ => judge_eq_pathTraversal_iff, hsame,
    fun earlier normal => ?_, hleads⟩
  · have hsome : EntryName.properSegments normal ≠ [] := fun h => by
      rw [EntryName.sanitizedPath_eq_cleanPath, h] at hne
      exact hne rfl
    obtain ⟨hwithin, hstrict⟩ := (hleads _).below hsome
    exact ⟨hsome, hleads _, fun raw _ => Segment.harmless_sanitizeChars raw, hwithin, hstrict⟩
  · rw [EntryName.checkDuplicate_eq_ok_iff, List.mem_map]
    simp only [ne_eq, hsame]
    exact ⟨fun h a ha he => h ⟨a, ha, he⟩, fun h ⟨a, ha, he⟩ => h a ha he⟩

/-- A destination two names below the top directory. -/
def serverOut : Destination := ⟨[Bytes.ofString "srv", Bytes.ofString "out"]⟩

/-- A name with both separators, a reserved character and a segment that stays leads into three
segments below the destination. -/
theorem resolve_accepted_serverOut : serverOut.root.IsProper
    ∧ EntryName.check {} "docs\\a:b/./c" = .ok "docs/a:b/./c"
    ∧ checkContained (serverOut.resolve (EntryName.sanitizedPath "docs/a:b/./c")) serverOut.path
      = .ok (.ofString "/srv/out/docs/a_b/c") := by
  have hroot : serverOut.root.IsProper := by decide
  have hcheck : EntryName.check {} "docs\\a:b/./c" = .ok "docs/a:b/./c" := by decide +kernel
  have hne : EntryName.sanitizedPath "docs/a:b/./c" ≠ "" := by decide +kernel
  obtain ⟨-, hleads, -⟩ := (resolve_accepted hroot).1 {} _ _ hcheck hne
  have hpath : serverOut.resolve (EntryName.sanitizedPath "docs/a:b/./c")
      = .ofString "/srv/out/docs/a_b/c" := by decide +kernel
  refine ⟨hroot, hcheck, ?_⟩
  rw [hleads.contained, hpath]

end Extraction

end GuardedArchive
