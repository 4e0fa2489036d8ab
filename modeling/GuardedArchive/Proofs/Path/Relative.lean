import GuardedArchive.Extraction.Destination
import GuardedArchive.Proofs.Path.Parents

/-!
# Proofs/Path/Relative — what containment says of relative paths

    ../a/b   from   /w/x   ──walk──▸   /w · a/b        one directory climbed, two names below

A relative path **climbs** so many directories above the one that it starts from, and goes into
names from there (`locationFrom_relative`).  Its normal form holds these names and not how far it
climbs (`normalComponents_relative`), so that paths that climb differently are compared as if they
started from the same place.  The answer is right whatever the working directory where both climb
equally far, and hardly anywhere else (`contained_from_anywhere`).
-/

namespace GuardedArchive

/-! ## Climbing -/

namespace Location

variable {names more : Location} {name : Name} {count : Nat}

/-- How many directories steps climb above the one that they start from, with so many names behind
them that can be taken back. -/
def climb : Nat → List Step → Nat
  | _, [] => 0
  | depth, .stay :: rest => climb depth rest
  | 0, .up :: rest => climb 0 rest + 1
  | depth + 1, .up :: rest => climb depth rest
  | depth, .into _ :: rest => climb (depth + 1) rest

/-- **Steps take back names of the location behind which they start**, as far as they climb, and no
others. -/
theorem walk_append_start (steps : List Step) (here front : Location) :
    walk (here ++ front) steps
      = here.take (here.length - climb front.length steps) ++ walk front steps := by
  induction steps generalizing here front with
  | nil => simp [climb, walk]
  | cons step steps ih =>
    cases step with
    | stay => exact ih here front
    | up =>
      cases front using List.reverseRecOn with
      | nil =>
        have hup := ih here.dropLast []
        rw [List.append_nil] at hup ⊢
        rw [walk, hup, List.length_nil, climb, walk, List.dropLast_nil, List.length_dropLast,
          List.dropLast_eq_take, List.take_take]
        congr 2
        omega
      | append_singleton front last =>
        rw [← List.append_assoc, walk, List.dropLast_concat, ih, walk, List.dropLast_concat,
          List.length_append, List.length_singleton, climb]
    | into name =>
      rw [walk, List.append_assoc, ih, walk, List.length_append, List.length_singleton, climb]

/-- There is a name that a location does not begin with. -/
theorem exists_isProper_ne_head (names : Location) :
    ∃ name, Name.IsProper name ∧ names.head? ≠ some name := by
  by_cases h : names.head? = some [0x61]
  · exact ⟨[0x62], by decide, by rw [h]; decide⟩
  · exact ⟨[0x61], by decide, h⟩

theorem isProper_replicate (count : Nat) (h : Name.IsProper name) :
    IsProper (List.replicate count name) :=
  fun _ hn => (List.eq_of_mem_replicate hn).symm ▸ h

theorem head?_replicate_append (hcount : 0 < count) :
    (List.replicate count name ++ more).head? = some name := by
  obtain ⟨count, rfl⟩ := Nat.exists_eq_add_one_of_ne_zero (Nat.ne_of_gt hcount)
  rfl

theorem head?_of_replicate_append_prefix (h : List.replicate count name ++ more <+: names)
    (hcount : 0 < count) : names.head? = some name := by
  obtain ⟨rest, rfl⟩ := h
  rw [List.append_assoc, head?_replicate_append hcount]

theorem head?_of_prefix (h : names <+: more) (hne : names ≠ []) : names.head? = more.head? := by
  obtain ⟨rest, rfl⟩ := h
  exact (List.head?_append_of_ne_nil names hne).symm

end Location

namespace Path

variable {p root q : Path} {loc : Location}

/-- How many directories a path climbs above the one that it starts from. -/
def climbs (p : Path) : Nat := Location.climb 0 p.steps

/-- **Where a relative path leads**: so many directories up, and into the names from there. -/
theorem locationFrom_relative (hp : p.isAbsolute = false) (here : Location) :
    p.locationFrom here = here.take (here.length - p.climbs) ++ p.locationFrom [] := by
  have hwalk := Location.walk_append_start p.steps here []
  rw [List.append_nil] at hwalk
  rw [locationFrom, locationFrom, hp, if_neg Bool.false_ne_true, if_neg Bool.false_ne_true, hwalk]
  rfl

theorem locationFrom_replicate (hp : p.isAbsolute = false) (count : Nat) (name : Name) :
    p.locationFrom (List.replicate count name)
      = List.replicate (count - p.climbs) name ++ p.locationFrom [] := by
  rw [locationFrom_relative hp, List.length_replicate, List.take_replicate,
    Nat.min_eq_left (Nat.sub_le _ _)]

/-- An absolute path leads there from everywhere. -/
theorem locationFrom_absolute (hp : p.isAbsolute) (here : Location) :
    p.locationFrom here = p.locationFrom [] := by
  rw [locationFrom, locationFrom, if_pos hp, if_pos hp]

/-! ## Normal forms -/

/-- **The normal components of a relative path are the names that it goes into.** -/
theorem normalComponents_relative (hp : p.isAbsolute = false) :
    p.normalComponents = (p.locationFrom []).map .name := by
  have hpop : ∀ loc : Location, pop (loc.map .name) = loc.dropLast.map .name := fun loc => by
    rw [pop, List.map_dropLast]
    refine if_neg fun h => ?_
    obtain ⟨name, -, hroot⟩ := List.mem_map.mp (List.mem_of_getLast? h)
    cases hroot
  rw [locationFrom, hp, if_neg Bool.false_ne_true, normalComponents, components, hp,
    if_neg Bool.false_ne_true, List.foldl_append]
  -- a `.` at the start is a component that is passed over
  split
  all_goals exact foldl_ofStep? [] hpop (fun _ => rfl) (fun _ _ => rfl) p.steps []

theorem ofComponents_names (loc : Location) : ofComponents (loc.map .name) = ⟨joined loc⟩ := by
  have hoctets : (loc.map Component.name).map Component.octets = loc := by
    rw [List.map_map]
    exact List.map_id loc
  rw [ofComponents, hoctets]
  intro he
  rcases loc with _ | ⟨name, _ | _⟩ <;> cases he

/-- The path that joins proper names is relative, and has them as its components. -/
theorem components_joined (h : loc.IsProper) :
    (⟨joined loc⟩ : Path).components = loc.map .name := by
  have hsteps : (⟨joined loc⟩ : Path).steps = loc.map .into := by
    rw [steps_joined fun name hn => (h name hn).slash_not_mem, filterMap_stepOf h]
  rw [components, hsteps, filterMap_ofStep?_into]
  cases loc with
  | nil => rfl
  | cons first loc =>
    have hfirst := h first List.mem_cons_self
    obtain ⟨b, bs, rfl⟩ := List.exists_cons_of_ne_nil hfirst.ne_nil
    have hb : b ≠ slash := fun he => hfirst.slash_not_mem (he ▸ List.mem_cons_self)
    have hpieces : (⟨joined ((b :: bs) :: loc)⟩ : Path).pieces = (b :: bs) :: loc :=
      List.splitOn_intercalate slash (fun name hn => (h name hn).slash_not_mem)
        (List.cons_ne_nil _ _)
    have hrelative : (⟨joined ((b :: bs) :: loc)⟩ : Path).isAbsolute = false := by
      rcases loc with _ | ⟨second, loc⟩ <;> simp [isAbsolute, joined, hb]
    rw [hrelative, hpieces, if_neg Bool.false_ne_true, if_neg (by simpa using hfirst.ne_dot)]
    rfl

/-- **A normal form has the normal components as its components.** -/
theorem components_normalize (p : Path) : p.normalize.components = p.normalComponents := by
  cases hp : p.isAbsolute with
  | true => rw [normalize_eq_path hp, components_path (isProper_locationFrom p),
      normalComponents_eq hp]
  | false => rw [normalize, normalComponents_relative hp, ofComponents_names,
      components_joined (isProper_locationFrom p)]

/-! ## Containment -/

/-- **When a normal form begins another.**  Relative paths are compared by the names that they go
into, and a root without names begins everything. -/
theorem normalize_isWithin_iff : p.normalize.isWithin root.normalize
    ↔ root.locationFrom [] <+: p.locationFrom []
      ∧ (p.isAbsolute = root.isAbsolute ∨ root.isAbsolute = false ∧ root.locationFrom [] = []) := by
  have hinj : Function.Injective Component.name := fun _ _ => Component.name.inj
  rw [isWithin, components_normalize, components_normalize, List.isPrefixOf_iff_prefix]
  cases hp : p.isAbsolute with
  | true =>
    cases hroot : root.isAbsolute with
    | true =>
      rw [normalComponents_eq hp, normalComponents_eq hroot, List.cons_prefix_cons,
        List.prefix_map_iff_of_injective hinj]
      simp
    | false =>
      rw [normalComponents_eq hp, normalComponents_relative hroot]
      rcases root.locationFrom [] with _ | ⟨name, names⟩ <;> simp
  | false =>
    cases hroot : root.isAbsolute with
    | true =>
      rw [normalComponents_relative hp, normalComponents_eq hroot]
      rcases p.locationFrom [] with _ | ⟨name, names⟩ <;> simp
    | false =>
      rw [normalComponents_relative hp, normalComponents_relative hroot,
        List.prefix_map_iff_of_injective hinj]
      simp

theorem checkContained_eq_ok_iff : checkContained p root = .ok q
    ↔ p.normalize.isWithin root.normalize ∧ q = p.normalize := by
  rw [checkContained]
  split
  next h => simp [h, eq_comm]
  next h => simp [h]

/-- **Paths that climb equally far** are contained from one directory if from the other, and if the
names that they go into are. -/
theorem prefix_locationFrom_iff (hp : p.isAbsolute = false) (hroot : root.isAbsolute = false)
    (hclimbs : p.climbs = root.climbs) (here : Location) :
    root.locationFrom here <+: p.locationFrom here
      ↔ root.locationFrom [] <+: p.locationFrom [] := by
  rw [locationFrom_relative hp here, locationFrom_relative hroot here, hclimbs,
    List.prefix_append_right_inj]

/-- **Relative paths are contained from everywhere** where they climb equally far, and where the
root climbs further and goes into no names, so that it is a directory above. -/
theorem forall_prefix_locationFrom_iff (hp : p.isAbsolute = false)
    (hroot : root.isAbsolute = false) (hin : root.locationFrom [] <+: p.locationFrom []) :
    (∀ here : Location, here.IsProper → root.locationFrom here <+: p.locationFrom here)
      ↔ p.climbs = root.climbs ∨ p.climbs < root.climbs ∧ root.locationFrom [] = [] := by
  constructor
  · intro h
    rcases Nat.lt_trichotomy p.climbs root.climbs with hless | heq | hmore
    · -- a directory as deep as the root climbs, whose names the root does not begin with
      refine .inr ⟨hless, ?_⟩
      by_contra hne
      obtain ⟨name, hname, hhead⟩ := (root.locationFrom []).exists_isProper_ne_head
      have hdeep := h _ (Location.isProper_replicate root.climbs hname)
      rw [locationFrom_replicate hp, locationFrom_replicate hroot, Nat.sub_self,
        List.replicate_zero, List.nil_append] at hdeep
      exact hhead ((Location.head?_of_prefix hdeep hne).trans
        (Location.head?_replicate_append (Nat.sub_pos_of_lt hless)))
    · exact .inl heq
    · obtain ⟨name, hname, hhead⟩ := (p.locationFrom []).exists_isProper_ne_head
      have hdeep := h _ (Location.isProper_replicate p.climbs hname)
      rw [locationFrom_replicate hp p.climbs, locationFrom_replicate hroot, Nat.sub_self,
        List.replicate_zero, List.nil_append] at hdeep
      exact absurd (Location.head?_of_replicate_append_prefix hdeep (Nat.sub_pos_of_lt hmore)) hhead
  · rintro (heq | ⟨hless, hnames⟩) here -
    · exact (prefix_locationFrom_iff hp hroot heq here).mpr hin
    · rw [locationFrom_relative hp, locationFrom_relative hroot, hnames, List.append_nil]
      exact (List.take_prefix_take_left (by omega)).trans (List.prefix_append _ _)

/-- An absolute path is not contained from everywhere in a relative root. -/
theorem exists_not_prefix_locationFrom (hp : p.isAbsolute) (hroot : root.isAbsolute = false) :
    ∃ here : Location, here.IsProper ∧ ¬root.locationFrom here <+: p.locationFrom here := by
  obtain ⟨name, hname, hhead⟩ := (p.locationFrom []).exists_isProper_ne_head
  -- one directory deeper than the root climbs
  refine ⟨_, Location.isProper_replicate (root.climbs + 1) hname, fun h => hhead ?_⟩
  rw [locationFrom_absolute hp, locationFrom_replicate hroot] at h
  exact Location.head?_of_replicate_append_prefix h (by omega)

/-! ## What the check says -/

/-- **What the containment check says of any two paths**, relative ones too.  It passes where the
root is relative with no names to go into, and else where both are absolute or both are relative
and the names of the root begin those of the path.  A path that passes is in the root whatever the
working directory, exactly where both are absolute, or both are relative and either climb equally
far, or the root climbs further and goes into no names.  For two relative paths that climb equally
far, the check passes exactly where the path is in the root, from any one directory. -/
theorem contained_from_anywhere (p root : Path) :
    (∀ q, checkContained p root = .ok q ↔ q = p.normalize
      ∧ root.locationFrom [] <+: p.locationFrom []
      ∧ (p.isAbsolute = root.isAbsolute
        ∨ root.isAbsolute = false ∧ root.locationFrom [] = []))
    ∧ (checkContained p root = .ok p.normalize →
      ((∀ here : Location, here.IsProper → root.locationFrom here <+: p.locationFrom here)
        ↔ p.isAbsolute = root.isAbsolute ∧ (root.isAbsolute ∨ p.climbs = root.climbs
          ∨ p.climbs < root.climbs ∧ root.locationFrom [] = [])))
    ∧ (p.isAbsolute = false → root.isAbsolute = false → p.climbs = root.climbs →
      ∀ here : Location, checkContained p root = .ok p.normalize
        ↔ root.locationFrom here <+: p.locationFrom here) := by
  have hok : ∀ q, checkContained p root = .ok q ↔ q = p.normalize
      ∧ root.locationFrom [] <+: p.locationFrom []
      ∧ (p.isAbsolute = root.isAbsolute
        ∨ root.isAbsolute = false ∧ root.locationFrom [] = []) := fun q => by
    rw [checkContained_eq_ok_iff, normalize_isWithin_iff, and_comm]
  refine ⟨hok, fun h => ?_, fun hp hroot hclimbs here => ?_⟩
  · obtain ⟨-, hin, hkind⟩ := (hok _).mp h
    cases hp : p.isAbsolute <;> cases hroot : root.isAbsolute
    case false.false => simpa using forall_prefix_locationFrom_iff hp hroot hin
    case true.true =>
      refine iff_of_true (fun here _ => ?_) ⟨rfl, .inl rfl⟩
      rwa [locationFrom_absolute hp, locationFrom_absolute hroot]
    case true.false =>
      obtain ⟨here, hhere, hout⟩ := exists_not_prefix_locationFrom hp hroot
      exact iff_of_false (fun hall => hout (hall here hhere)) (fun h => nomatch h.1)
    case false.true =>
      rw [hp, hroot] at hkind
      simp at hkind
  · rw [hok, prefix_locationFrom_iff hp hroot hclimbs here, hp, hroot]
    simp

/-- Both climb one directory, and that of the path is below. -/
theorem contained_climbing_alike :
    checkContained (.ofString "../a/b") (.ofString "c/../../a") = .ok (.ofString "a/b")
      ∧ ∀ here : Location, here.IsProper → locationFrom here (.ofString "c/../../a")
        <+: locationFrom here (.ofString "../a/b") := by
  have hclimbs : climbs (.ofString "../a/b") = climbs (.ofString "c/../../a") := by decide
  have hpass : checkContained (.ofString "../a/b") (.ofString "c/../../a")
      = .ok (normalize (.ofString "../a/b")) :=
    ((contained_from_anywhere _ _).1 _).mpr ⟨rfl, by decide, .inl rfl⟩
  exact ⟨hpass.trans (by decide),
    ((contained_from_anywhere _ _).2.1 hpass).mpr ⟨rfl, .inr (.inl hclimbs)⟩⟩

/-- **What climbs, and what is absolute, passes for contained** in a root without names, although
it is elsewhere. -/
theorem accepted_outside :
    (checkContained (.ofString "../x") (.ofString ".") = .ok (.ofString "x")
      ∧ ¬locationFrom [[0x77]] (.ofString ".") <+: locationFrom [[0x77]] (.ofString "../x"))
    ∧ checkContained (.ofString "/etc") (.ofString "a/..") = .ok (.ofString "/etc")
      ∧ ¬locationFrom [[0x77]] (.ofString "a/..") <+: locationFrom [[0x77]] (.ofString "/etc") := by
  decide

end Path

end GuardedArchive
