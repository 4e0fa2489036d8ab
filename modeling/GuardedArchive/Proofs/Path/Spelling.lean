import GuardedArchive.Path.Lexical
import Mathlib.Data.List.Basic
import Mathlib.Data.List.Induction

/-!
# Proofs/Path/Spelling — the path of a location, and the location of a path

A location of **proper** names and its absolute path say the same: the path names the location's
names step by step (`steps_path`), its parent is the path of the location above
(`parent?_path_concat`), and its components begin those of another exactly where the locations do
(`isWithin_path`).  The normal form of any absolute path is the path of a location of proper names,
the one it names where no name is a link (`normalize_eq_path`).
-/

namespace GuardedArchive

/-- A name that a piece of a path can spell. -/
structure Name.IsProper (name : Name) : Prop where
  ne_nil : name ≠ []
  ne_dot : name ≠ Path.dot
  ne_dotDot : name ≠ Path.dotDot
  slash_not_mem : Path.slash ∉ name

instance (name : Name) : Decidable (Name.IsProper name) :=
  decidable_of_iff (name ≠ [] ∧ name ≠ Path.dot ∧ name ≠ Path.dotDot ∧ Path.slash ∉ name)
    ⟨fun h => ⟨h.1, h.2.1, h.2.2.1, h.2.2.2⟩,
      fun h => ⟨h.ne_nil, h.ne_dot, h.ne_dotDot, h.slash_not_mem⟩⟩

/-- A location of names that paths can spell. -/
def Location.IsProper (loc : Location) : Prop := ∀ name ∈ loc, Name.IsProper name

instance (loc : Location) : Decidable (Location.IsProper loc) :=
  inferInstanceAs (Decidable (∀ name ∈ loc, _))

namespace Location.IsProper

variable {loc more : Location} {name : Name}

theorem append (h : IsProper loc) (h' : IsProper more) : IsProper (loc ++ more) := fun _ hn =>
  (List.mem_append.mp hn).elim (h _) (h' _)

theorem of_append (h : IsProper (loc ++ more)) : IsProper loc ∧ IsProper more :=
  ⟨fun _ hn => h _ (List.mem_append_left _ hn), fun _ hn => h _ (List.mem_append_right _ hn)⟩

theorem dropLast (h : IsProper loc) : IsProper loc.dropLast := fun _ hn =>
  h _ ((List.dropLast_sublist loc).subset hn)

end Location.IsProper

/-- No piece between marks holds the mark. -/
theorem not_mem_of_mem_splitOn {α : Type} [DecidableEq α] (mark : α) :
    ∀ (l piece : List α), piece ∈ l.splitOn mark → mark ∉ piece
  | [], piece, h => by simp_all
  | a :: l, piece, h => by
    have ih := not_mem_of_mem_splitOn mark l
    rw [List.splitOn_cons_eq_if_modifyHead] at h
    split at h
    next => exact (List.mem_cons.mp h).elim (fun he => by simp [he]) (ih piece)
    next hne =>
      have hne : mark ≠ a := fun he => hne (by simp [he])
      cases hs : l.splitOn mark with
      | nil => simp [hs] at h
      | cons first others =>
        rw [hs] at h ih
        rcases List.mem_cons.mp h with he | h
        · rw [he]
          exact List.not_mem_cons_of_ne_of_not_mem hne (ih first List.mem_cons_self)
        · exact ih piece (List.mem_cons_of_mem _ h)

theorem intercalate_concat {α : Type} (mark : α) {ps : List (List α)} (hne : ps ≠ [])
    (last : List α) :
    [mark].intercalate (ps ++ [last]) = [mark].intercalate ps ++ mark :: last := by
  induction ps with
  | nil => exact absurd rfl hne
  | cons first ps ih =>
    by_cases hps : ps = []
    · simp [hps]
    · rw [List.cons_append, List.intercalate_cons_of_ne_nil (by simp),
        List.intercalate_cons_of_ne_nil hps, ih hps]
      simp

namespace Path

variable {p : Path} {name : Name} {loc : Location}

/-! ## Steps -/

theorem stepOf_proper (h : Name.IsProper name) : stepOf name = some (.into name) := by
  simp [stepOf, h.ne_nil, h.ne_dot, h.ne_dotDot]

/-- The steps of a path go into proper names only. -/
theorem isProper_of_mem_steps (h : Step.into name ∈ p.steps) : Name.IsProper name := by
  obtain ⟨piece, hp, hs⟩ := List.mem_filterMap.mp h
  have hslash := not_mem_of_mem_splitOn slash p.raw piece hp
  simp only [stepOf] at hs
  split_ifs at hs with hnil hdot hup
  · simp at hs
  · simp at hs
  · obtain rfl : piece = name := by simpa using hs
    exact ⟨hnil, hdot, hup, hslash⟩

theorem splitOn_slash_cons (raw : Bytes) :
    (slash :: raw).splitOn slash = [] :: raw.splitOn slash := by
  simp [List.splitOn_cons_eq_if_modifyHead]

theorem not_isAbsolute_name (h : Name.IsProper name) : (⟨name⟩ : Path).isAbsolute = false := by
  cases name with
  | nil => rfl
  | cons b _ =>
    have : slash ≠ b := fun he => h.slash_not_mem (he ▸ List.mem_cons_self)
    simp [isAbsolute, Ne.symm this]

/-- **Joining a relative path goes on with its steps.** -/
theorem steps_join_relative (p : Path) {q : Path} (hq : q.isAbsolute = false) :
    (p.join q).steps = p.steps ++ q.steps := by
  rw [join, hq]
  simp only [Bool.false_eq_true, if_false]
  split_ifs with hends
  · simp only [isEmpty, endsWithSlash, Bool.or_eq_true, List.isEmpty_iff, beq_iff_eq] at hends
    rcases hends with he | hs
    · simp [steps, pieces, he, stepOf]
    · obtain ⟨front, hf⟩ := List.getLast?_eq_some_iff.mp hs
      simp [steps, pieces, hf, List.splitOn_append_cons_self, stepOf]
  · simp [steps, pieces, List.splitOn_append_cons_self]

theorem isAbsolute_join_relative (hp : p.isAbsolute) {q : Path} (hq : q.isAbsolute = false) :
    (p.join q).isAbsolute := by
  obtain ⟨rest, hr⟩ := List.head?_eq_some_iff.mp (beq_iff_eq.mp hp)
  rw [join, hq]
  simp only [Bool.false_eq_true, if_false]
  split_ifs <;> simp [isAbsolute, hr]

theorem steps_name (h : Name.IsProper name) : (⟨name⟩ : Path).steps = [.into name] := by
  rw [steps, pieces, List.splitOn_eq_singleton h.slash_not_mem]
  simp [stepOf_proper h]

/-- **Joining a name adds the step into it.** -/
theorem steps_join (p : Path) (h : Name.IsProper name) :
    (p.join ⟨name⟩).steps = p.steps ++ [.into name] := by
  rw [steps_join_relative p (not_isAbsolute_name h), steps_name h]

theorem isAbsolute_join (hp : p.isAbsolute) (h : Name.IsProper name) :
    (p.join ⟨name⟩).isAbsolute :=
  isAbsolute_join_relative hp (not_isAbsolute_name h)

/-! ## The path of a location -/

@[simp] theorem isAbsolute_path (loc : Location) : loc.path.isAbsolute := by
  simp [Location.path, isAbsolute]

@[simp] theorem isEmpty_path (loc : Location) : loc.path.isEmpty = false := rfl

theorem pieces_path (h : loc.IsProper) (hne : loc ≠ []) : loc.path.pieces = [] :: loc := by
  rw [pieces, Location.path, splitOn_slash_cons, joined,
    List.splitOn_intercalate slash (fun name hn => (h name hn).slash_not_mem) hne]

theorem pieces_path_nil : (Location.path []).pieces = [[], []] := by
  rw [pieces, Location.path, splitOn_slash_cons]
  rfl

theorem filterMap_stepOf (h : loc.IsProper) : loc.filterMap stepOf = loc.map .into := by
  rw [← List.filterMap_eq_map']
  exact List.filterMap_congr fun name hn => stepOf_proper (h name hn)

/-- The path of a location is spelled without pieces that stay or go up. -/
theorem ne_dots_of_mem_pieces_path (h : loc.IsProper) {piece : Bytes}
    (hpiece : piece ∈ loc.path.pieces) : piece ≠ dot ∧ piece ≠ dotDot := by
  by_cases hne : loc = []
  · rw [hne, pieces_path_nil] at hpiece
    obtain rfl : piece = [] := by simpa using hpiece
    decide
  · rw [pieces_path h hne] at hpiece
    rcases List.mem_cons.mp hpiece with rfl | hname
    · decide
    · exact ⟨(h piece hname).ne_dot, (h piece hname).ne_dotDot⟩

/-- **The path of a location goes into its names, one by one.** -/
theorem steps_path (h : loc.IsProper) : loc.path.steps = loc.map .into := by
  by_cases hne : loc = []
  · subst hne
    rw [steps, pieces_path_nil]
    rfl
  · rw [steps, pieces_path h hne, List.filterMap_cons_none (by simp [stepOf]), filterMap_stepOf h]

theorem joined_concat (hne : loc ≠ []) (name : Name) :
    joined (loc ++ [name]) = joined loc ++ slash :: name := intercalate_concat slash hne name

/-- Only the path of the top directory ends with a slash. -/
theorem endsWithSlash_path (h : loc.IsProper) : loc.path.endsWithSlash = decide (loc = []) := by
  induction loc using List.reverseRecOn with
  | nil => rfl
  | append_singleton loc name _ =>
    have hn := h name (by simp)
    obtain ⟨front, last, rfl⟩ := List.eq_nil_or_concat' name |>.resolve_left hn.ne_nil
    have hlast : last ≠ slash := fun he => hn.slash_not_mem (by simp [he])
    by_cases hl : loc = []
    · simp [endsWithSlash, Location.path, hl, joined, List.getLast?_cons, hlast]
    · simp [endsWithSlash, Location.path, joined_concat hl, List.getLast?_cons, hlast]

/-- **Joining a name to the path of a location gives that of the location below.** -/
theorem join_path (h : loc.IsProper) (hn : Name.IsProper name) :
    loc.path.join ⟨name⟩ = Location.path (loc ++ [name]) := by
  rw [join, not_isAbsolute_name hn]
  simp only [Bool.false_eq_true, if_false, isEmpty_path, endsWithSlash_path h, Bool.false_or,
    decide_eq_true_eq]
  split_ifs with hl
  · simp [hl, Location.path, joined]
  · simp [Location.path, joined_concat hl]

/-! ## Parents -/

theorem moves_proper (h : Name.IsProper name) : moves name = true := by
  simp [moves, h.ne_nil, h.ne_dot]

theorem dropWhile_moves (h : loc.IsProper) :
    loc.reverse.dropWhile (!moves ·) = loc.reverse := by
  cases hr : loc.reverse with
  | nil => rfl
  | cons name _ =>
    have hn : name ∈ loc := List.mem_reverse.mp (hr ▸ List.mem_cons_self)
    simp [moves_proper (h name hn)]

theorem reversedBody_path (h : loc.IsProper) : loc.path.reversedBody = loc.reverse := by
  by_cases hne : loc = []
  · subst hne
    simp [reversedBody, anchor, pieces_path_nil, moves]
  · rw [reversedBody, anchor, pieces_path h hne]
    simpa using dropWhile_moves h

theorem parent?_path_nil : (Location.path []).parent? = none := by
  have hnil : Location.IsProper [] := fun _ hn => absurd hn (by simp)
  simp [parent?, reversedBody_path hnil, anchor, pieces_path_nil, dot]

/-- **The parent of a path is the path of the location above.** -/
theorem parent?_path_concat (h : Location.IsProper (loc ++ [name])) :
    (Location.path (loc ++ [name])).parent? = some loc.path := by
  rw [parent?, reversedBody_path h]
  simp only [List.reverse_append, List.reverse_singleton, List.singleton_append,
    dropWhile_moves h.of_append.1, List.reverse_reverse, isAbsolute_path, if_true]
  rfl

theorem ancestorsUpTo_path_nil (count : Nat) :
    ancestorsUpTo (count + 1) (Location.path []) = [Location.path []] := by
  rw [ancestorsUpTo, parent?_path_nil]

theorem ancestorsUpTo_path_concat (h : Location.IsProper (loc ++ [name])) (count : Nat) :
    ancestorsUpTo (count + 1) (Location.path (loc ++ [name]))
      = Location.path (loc ++ [name]) :: ancestorsUpTo count loc.path := by
  rw [ancestorsUpTo, parent?_path_concat h]

/-- As many ancestors as there are names, and the top directory, are all of them. -/
theorem ancestorsUpTo_eq (h : loc.IsProper) : ∀ {count count' : Nat}, loc.length < count →
    loc.length < count' → ancestorsUpTo count loc.path = ancestorsUpTo count' loc.path := by
  induction loc using List.reverseRecOn with
  | nil =>
    intro count count' hc hc'
    obtain ⟨c, rfl⟩ := Nat.exists_eq_succ_of_ne_zero (Nat.ne_of_gt hc)
    obtain ⟨c', rfl⟩ := Nat.exists_eq_succ_of_ne_zero (Nat.ne_of_gt hc')
    rw [Nat.succ_eq_add_one, Nat.succ_eq_add_one, ancestorsUpTo_path_nil, ancestorsUpTo_path_nil]
  | append_singleton loc name ih =>
    intro count count' hc hc'
    rw [List.length_append, List.length_singleton] at hc hc'
    obtain ⟨c, rfl⟩ : ∃ c, count = c + 1 := ⟨count - 1, by omega⟩
    obtain ⟨c', rfl⟩ : ∃ c', count' = c' + 1 := ⟨count' - 1, by omega⟩
    rw [ancestorsUpTo_path_concat h, ancestorsUpTo_path_concat h,
      ih h.of_append.1 (by omega) (by omega : loc.length < c')]

theorem length_le_length_joined : ∀ loc : Location, loc.length ≤ (joined loc).length + 1
  | [] => by simp
  | [_] => by simp
  | name :: other :: loc => by
    have ih := length_le_length_joined (other :: loc)
    simp only [joined, List.intercalate_cons_cons, List.length_append, List.length_cons,
      List.length_nil] at ih ⊢
    omega

theorem ancestors_path_nil : (Location.path []).ancestors = [Location.path []] :=
  ancestorsUpTo_path_nil _

/-- **The ancestors of a location's path are itself and those of the location above.** -/
theorem ancestors_path_concat (h : Location.IsProper (loc ++ [name])) :
    (Location.path (loc ++ [name])).ancestors
      = Location.path (loc ++ [name]) :: loc.path.ancestors := by
  have hlen : ∀ l : Location, l.length ≤ l.path.raw.length := length_le_length_joined
  have h1 := hlen (loc ++ [name])
  have h2 := hlen loc
  rw [List.length_append, List.length_singleton] at h1
  rw [ancestors, ancestorsUpTo_path_concat h, ancestors]
  exact congrArg _ (ancestorsUpTo_eq h.of_append.1 (by omega) (by omega))

/-- **The ancestors of a location's path are the paths of the locations above it.** -/
theorem mem_ancestors_path {q : Path} (h : loc.IsProper) :
    q ∈ loc.path.ancestors ↔ ∃ above : Location, above <+: loc ∧ q = above.path := by
  induction loc using List.reverseRecOn with
  | nil =>
    rw [ancestors_path_nil, List.mem_singleton]
    constructor
    · exact fun he => ⟨[], List.prefix_rfl, he⟩
    · rintro ⟨above, ha, rfl⟩
      rw [List.prefix_nil.mp ha]
  | append_singleton loc name ih =>
    rw [ancestors_path_concat h, List.mem_cons, ih h.of_append.1]
    constructor
    · rintro (he | ⟨above, ha, he⟩)
      · exact ⟨_, List.prefix_rfl, he⟩
      · exact ⟨above, ha.trans (List.prefix_append _ _), he⟩
    · rintro ⟨above, ha, rfl⟩
      rcases List.prefix_concat_iff.mp ha with rfl | ha
      · exact .inl rfl
      · exact .inr ⟨above, ha, rfl⟩

theorem raw_path_above {above : Location} (h : above <+: loc) :
    above.path.raw <+: loc.path.raw := by
  induction loc using List.reverseRecOn with
  | nil =>
    obtain rfl := List.prefix_nil.mp h
    exact List.prefix_rfl
  | append_singleton loc name ih =>
    rcases List.prefix_concat_iff.mp h with rfl | h
    · exact List.prefix_rfl
    · refine (ih h).trans ?_
      rw [Location.path, Location.path, List.cons_prefix_cons]
      by_cases hl : loc = []
      · rw [hl]
        exact ⟨rfl, List.nil_prefix⟩
      · rw [joined_concat hl]
        exact ⟨rfl, List.prefix_append _ _⟩

/-! ## Normal forms -/

/-- Going up from a location below the top directory takes back its last name. -/
theorem pop_root (loc : Location) :
    pop (.root :: loc.map .name) = .root :: loc.dropLast.map .name := by
  cases loc using List.reverseRecOn with
  | nil => rfl
  | append_singleton loc name => simp [pop, List.getLast?_cons, List.dropLast_cons_of_ne_nil]

/-- The components of steps are taken in as the steps are walked, behind a front that going up does
not take back. -/
theorem foldl_ofStep? {f : List Component → Component → List Component} (front : List Component)
    (hpop : ∀ loc : Location, pop (front ++ loc.map .name) = front ++ loc.dropLast.map .name)
    (hup : ∀ cs, f cs .up = pop cs) (hname : ∀ cs name, f cs (.name name) = cs ++ [.name name])
    (steps : List Step) (loc : Location) :
    (steps.filterMap Component.ofStep?).foldl f (front ++ loc.map .name)
      = front ++ (Location.walk loc steps).map .name := by
  induction steps generalizing loc with
  | nil => rfl
  | cons step steps ih =>
    cases step with
    | stay => exact ih loc
    | up =>
      refine Eq.trans ?_ (ih loc.dropLast)
      simp [Component.ofStep?, hup, hpop]
    | into name =>
      refine Eq.trans ?_ (ih (loc ++ [name]))
      simp [Component.ofStep?, hname]

/-- **The normal components of an absolute path are those of the location it names.** -/
theorem normalComponents_eq (hp : p.isAbsolute) :
    p.normalComponents = .root :: (p.locationFrom []).map .name := by
  rw [locationFrom, if_pos hp, normalComponents, components, if_pos hp]
  exact foldl_ofStep? [.root] pop_root (fun _ => rfl) (fun _ _ => rfl) p.steps []

theorem ofComponents_root (loc : Location) : ofComponents (.root :: loc.map .name) = loc.path := by
  cases loc with
  | nil => rfl
  | cons name loc =>
    simp [ofComponents, Component.octets, Location.path, joined, Function.comp_def]

/-- **The normal form of an absolute path is the path of the location it names.** -/
theorem normalize_eq_path (hp : p.isAbsolute) : p.normalize = (p.locationFrom []).path := by
  rw [normalize, normalComponents_eq hp, ofComponents_root]

theorem walk_isProper : ∀ (steps : List Step) (loc : Location),
    (∀ name, Step.into name ∈ steps → Name.IsProper name) → loc.IsProper →
      (Location.walk loc steps).IsProper
  | [], _, _, h => h
  | .stay :: steps, loc, hs, h =>
    walk_isProper steps loc (fun n hn => hs n (List.mem_cons_of_mem _ hn)) h
  | .up :: steps, loc, hs, h =>
    walk_isProper steps loc.dropLast (fun n hn => hs n (List.mem_cons_of_mem _ hn)) h.dropLast
  | .into name :: steps, loc, hs, h =>
    walk_isProper steps (loc ++ [name]) (fun n hn => hs n (List.mem_cons_of_mem _ hn)) <|
      h.append fun _ hn => List.mem_singleton.mp hn ▸ hs name List.mem_cons_self

theorem isProper_locationFrom (p : Path) : (p.locationFrom []).IsProper := by
  rw [locationFrom, ite_self]
  exact walk_isProper _ _ (fun _ => isProper_of_mem_steps) fun _ hn => absurd hn (by simp)

theorem walk_append : ∀ (steps more : List Step) (loc : Location),
    Location.walk loc (steps ++ more) = Location.walk (Location.walk loc steps) more
  | [], _, _ => rfl
  | .stay :: steps, more, loc => walk_append steps more loc
  | .up :: steps, more, loc => walk_append steps more loc.dropLast
  | .into name :: steps, more, loc => walk_append steps more (loc ++ [name])

theorem walk_into : ∀ names loc : Location, Location.walk loc (names.map .into) = loc ++ names
  | [], loc => (List.append_nil loc).symm
  | name :: names, loc => by
    rw [List.map_cons, Location.walk, walk_into names, List.append_assoc, List.singleton_append]

theorem locationFrom_path (h : loc.IsProper) : loc.path.locationFrom [] = loc := by
  rw [locationFrom, if_pos (isAbsolute_path loc), steps_path h, walk_into, List.nil_append]

/-- **Joining a relative path walks its steps** from the location that a path names. -/
theorem locationFrom_join_relative (hp : p.isAbsolute) {q : Path} (hq : q.isAbsolute = false) :
    (p.join q).locationFrom [] = q.locationFrom (p.locationFrom []) := by
  rw [locationFrom, if_pos (isAbsolute_join_relative hp hq), steps_join_relative p hq, walk_append,
    locationFrom, hq, if_neg Bool.false_ne_true, locationFrom, if_pos hp]

/-- **Joining a name goes from the location a path names into that name.** -/
theorem locationFrom_join (hp : p.isAbsolute) (h : Name.IsProper name) :
    (p.join ⟨name⟩).locationFrom [] = p.locationFrom [] ++ [name] := by
  rw [locationFrom_join_relative hp (not_isAbsolute_name h), locationFrom, not_isAbsolute_name h,
    if_neg Bool.false_ne_true, steps_name h]
  rfl

/-! ## Containment -/

theorem filterMap_ofStep?_into (loc : Location) :
    (loc.map Step.into).filterMap Component.ofStep? = loc.map .name := by
  rw [List.filterMap_map, ← List.filterMap_eq_map]
  rfl

theorem components_path (h : loc.IsProper) : loc.path.components = .root :: loc.map .name := by
  rw [components, if_pos (isAbsolute_path loc), steps_path h, filterMap_ofStep?_into]
  rfl

/-- **One path is within another where the locations are.** -/
theorem isWithin_path {loc' : Location} (h : loc.IsProper) (h' : loc'.IsProper) :
    loc.path.isWithin loc'.path ↔ loc' <+: loc := by
  have hinj : Function.Injective Component.name := fun _ _ he => by simpa using he
  rw [isWithin, components_path h, components_path h', List.isPrefixOf_iff_prefix,
    List.cons_prefix_cons]
  simp [List.prefix_map_iff_of_injective hinj]

end Path

end GuardedArchive
