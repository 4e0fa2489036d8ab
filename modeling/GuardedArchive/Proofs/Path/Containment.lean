import GuardedArchive.Extraction.Destination
import GuardedArchive.Proofs.FileSystem.OpenWays
import GuardedArchive.Proofs.Path.Parents

/-!
# Proofs/Path/Containment — a path is contained where its location is

    /srv/out/../out-evil   ──walk──▸   [srv, out-evil]   ◂──path──   /srv/out-evil

In a tree without links a path leads, if anywhere, to the location that a walk along its steps comes
to (`Leads.location_eq_walk`), and its normal form leads there too (`nodeAt_normalize`).  So the
normal form of an absolute path stands for its location, whatever pieces led there, and one path is
contained in another where its location is the other's or below it, name by name
(`contained_by_location`).
-/

namespace GuardedArchive

variable {fs : FileSystem} {followLast spelled : Bool} {links : Nat} {here loc : Location}
  {steps : List Step} {place : Place} {node : Node} {p root : Path}

/-! ## Walks in a tree without links -/

namespace FileSystem

/-- **In a tree without links steps lead where a walk along them comes to.** -/
theorem Leads.location_eq_walk (hfree : ∀ loc, Linkless fs loc)
    (h : Leads fs followLast spelled links here steps place) :
    place.location = Location.walk here steps := by
  induction h with
  | done | free | link => rfl
  | stay _ _ ih | up _ _ ih | into _ _ _ _ _ ih => exact ih
  | follow _ _ hl => exact absurd hl (hfree _ _ List.prefix_rfl _)

/-- The names of the place that a walk leads to are not too long, like those that it starts from. -/
theorem Leads.length_le_location (h : Leads fs followLast spelled links here steps place)
    (hhere : ∀ name ∈ here, name.length ≤ maxNameLength) :
    ∀ name ∈ place.location, name.length ≤ maxNameLength := by
  have hnext : ∀ {here : Location} {last : Name} {rest : List Step},
      (∀ name ∈ here, name.length ≤ maxNameLength) → Fits spelled (here ++ [last]) last rest →
      ∀ name ∈ here ++ [last], name.length ≤ maxNameLength := fun {_ last _} hhere hfit name hn =>
    (List.mem_append.mp hn).elim (hhere name) fun hn =>
      (List.mem_singleton.mp hn).symm ▸ Nat.le_of_not_lt (not_or.mp hfit).1
  induction h with
  | done => exact hhere
  | stay _ _ ih => exact ih hhere
  | up _ _ ih => exact ih fun name hn => hhere name ((List.dropLast_sublist _).subset hn)
  | free _ hfit | link _ hfit => exact hnext hhere hfit
  | follow _ _ _ _ _ ih =>
    refine ih ?_
    split
    · exact fun _ hn => absurd hn List.not_mem_nil
    · exact hhere
  | into _ hfit _ _ _ ih => exact ih (hnext hhere hfit)

end FileSystem

/-! ## What a normal form leaves out -/

namespace Path

/-- **A walk comes to names that it started from and pieces of the path**, in their order. -/
theorem walk_sublist (pieces : List Bytes) (here : Location) :
    (Location.walk here (pieces.filterMap stepOf)).Sublist (here ++ pieces) := by
  induction pieces generalizing here with
  | nil =>
    rw [List.append_nil]
    exact List.Sublist.refl here
  | cons piece pieces ih =>
    have hover : pieces.Sublist (piece :: pieces) := List.sublist_cons_self piece pieces
    cases hs : stepOf piece with
    | none =>
      rw [List.filterMap_cons_none hs]
      exact (ih here).trans ((List.Sublist.refl here).append hover)
    | some step =>
      rw [List.filterMap_cons_some hs]
      cases step with
      | stay => exact (ih here).trans ((List.Sublist.refl here).append hover)
      | up => exact (ih here.dropLast).trans ((List.dropLast_sublist here).append hover)
      | into name =>
        obtain rfl : piece = name := eq_of_stepOf hs
        have hnext := ih (here ++ [piece])
        rwa [List.append_assoc, List.singleton_append] at hnext

theorem joined_sublist {ps qs : List Bytes} (h : ps.Sublist qs) :
    (joined ps).Sublist (joined qs) := by
  induction h with
  | slnil => exact List.Sublist.refl _
  | @cons ps qs q _ ih =>
    refine ih.trans ?_
    by_cases hqs : qs = []
    · simp [hqs, joined]
    · rw [joined, joined, List.intercalate_cons_of_ne_nil hqs]
      exact (List.sublist_append_right _ _)
  | @cons_cons ps qs q h ih =>
    by_cases hps : ps = []
    · by_cases hqs : qs = []
      · simp [hps, hqs]
      · rw [hps, joined, joined, List.intercalate_cons_of_ne_nil hqs]
        simp
    · have hqs : qs ≠ [] := fun hqs => hps (List.sublist_nil.mp (hqs ▸ h))
      rw [joined, joined, List.intercalate_cons_of_ne_nil hps, List.intercalate_cons_of_ne_nil hqs]
      exact (List.Sublist.refl _).append ih

/-- **The normal form of an absolute path only leaves octets out.** -/
theorem normalize_sublist (hp : p.isAbsolute) : p.normalize.raw.Sublist p.raw := by
  obtain ⟨rest, hraw⟩ := List.head?_eq_some_iff.mp (beq_iff_eq.mp hp)
  have hsteps : p.steps = (rest.splitOn slash).filterMap stepOf := by
    rw [steps, pieces, hraw, splitOn_slash_cons, List.filterMap_cons_none (by simp [stepOf])]
  have hrest : joined (rest.splitOn slash) = rest := List.intercalate_splitOn slash
  have hnames : (Location.walk [] p.steps).Sublist (rest.splitOn slash) :=
    hsteps ▸ walk_sublist (rest.splitOn slash) []
  have hjoined := joined_sublist hnames
  rw [hrest] at hjoined
  rw [normalize_eq_path hp, locationFrom, if_pos hp, Location.path, hraw]
  exact List.Sublist.cons_cons slash hjoined

end Path

/-! ## Looking a normal form up -/

namespace FileSystem

theorem walk_lookupSteps (p : Path) (here : Location) :
    Location.walk here (lookupSteps p) = Location.walk here p.steps := by
  rw [lookupSteps]
  split
  · exact Path.walk_append p.steps [.stay] here
  · rfl

theorem checkPath_normalize (hp : p.isAbsolute) (hc : checkPath p = .ok ()) :
    checkPath p.normalize = .ok () := by
  obtain ⟨⟨hzero, -⟩, hlength⟩ := checkPath_eq_ok_iff.mp hc
  have hsub := Path.normalize_sublist hp
  have hne : p.normalize.isEmpty = false := by
    rw [Path.normalize_eq_path hp]
    exact Path.isEmpty_path _
  exact checkPath_eq_ok_iff.mpr
    ⟨⟨fun hm => hzero (hsub.subset hm), hne⟩, hsub.length_le.trans hlength⟩

/-- **In a tree without links a path leads to its location**, and its normal form leads there
too. -/
theorem nodeAt_normalize (hfree : ∀ loc, Linkless fs loc) (hp : p.isAbsolute)
    (h : fs.nodeAt followLast p = .ok (loc, node)) :
    loc = p.locationFrom [] ∧ fs.nodeAt followLast p.normalize = .ok (loc, node) := by
  obtain ⟨hc, hl⟩ := nodeAt_eq_ok_iff.mp h
  rw [startOf, if_pos hp] at hl
  have hloc : loc = p.locationFrom [] := by
    rw [Path.locationFrom, if_pos hp, ← walk_lookupSteps]
    exact hl.location_eq_walk hfree
  refine ⟨hloc, ?_⟩
  have hplain : IsPlain fs loc := hl.isPlain .nil
  have hfit := hl.length_le_location fun _ hn => absurd hn List.not_mem_nil
  have hnode := hl.node?_eq
  have hto : Leads fs followLast false maxLinks [] (loc.map .into) (.occupied loc node) :=
    IsPlain.leads hplain hfit hnode fun target ht =>
      hfree loc loc List.prefix_rfl target (ht ▸ hnode)
  have hnormal : p.normalize = loc.path := hloc ▸ Path.normalize_eq_path hp
  have hproper : loc.IsProper := hloc ▸ Path.isProper_locationFrom p
  rw [hnormal]
  exact (nodeAt_path hproper).mpr ⟨hnormal ▸ checkPath_normalize hp hc, hto⟩

end FileSystem

/-! ## Containment -/

namespace Path

theorem isAbsolute_normalize (hp : p.isAbsolute) : p.normalize.isAbsolute := by
  rw [normalize_eq_path hp]
  exact isAbsolute_path _

theorem locationFrom_normalize (hp : p.isAbsolute) :
    p.normalize.locationFrom [] = p.locationFrom [] := by
  rw [normalize_eq_path hp, locationFrom_path (isProper_locationFrom p)]

theorem normalize_normalize (hp : p.isAbsolute) : p.normalize.normalize = p.normalize := by
  rw [normalize_eq_path (isAbsolute_normalize hp), locationFrom_normalize hp, normalize_eq_path hp]

/-- **A relative path can be joined behind a normal form** as well as behind the path. -/
theorem normalize_join (hp : p.isAbsolute) {q : Path} (hq : q.isAbsolute = false) :
    (p.join q).normalize = (p.normalize.join q).normalize := by
  have hn := isAbsolute_normalize hp
  rw [normalize_eq_path (isAbsolute_join_relative hp hq),
    normalize_eq_path (isAbsolute_join_relative hn hq), locationFrom_join_relative hp hq,
    locationFrom_join_relative hn hq, locationFrom_normalize hp]

/-- A normal form is spelled without pieces that stay or go up. -/
theorem ne_dots_of_mem_pieces_normalize (hp : p.isAbsolute) {piece : Bytes}
    (h : piece ∈ p.normalize.pieces) : piece ≠ dot ∧ piece ≠ dotDot := by
  rw [normalize_eq_path hp] at h
  exact ne_dots_of_mem_pieces_path (isProper_locationFrom p) h

/-- **A path is within another where its location is the other's or below it.** -/
theorem isWithin_normalize_iff (hp : p.isAbsolute) (hroot : root.isAbsolute) :
    p.normalize.isWithin root.normalize ↔ root.locationFrom [] <+: p.locationFrom [] := by
  rw [normalize_eq_path hp, normalize_eq_path hroot]
  exact isWithin_path (isProper_locationFrom p) (isProper_locationFrom root)

end Path

/-- **Containment is decided by locations.**  The normal form of an absolute path is absolute, free
of `.` and `..`, normal, and as good as the path in front of any relative one.  It stands for the
location that a walk along the path comes to, which is where both lead in a tree without links.  A
path is contained in another where its location is the other's or below it; then its normal form is
answered, and otherwise the path is refused as it was spelled. -/
theorem contained_by_location (hp : p.isAbsolute) :
    (p.normalize.isAbsolute
      ∧ (∀ piece ∈ p.normalize.pieces, piece ≠ Path.dot ∧ piece ≠ Path.dotDot)
      ∧ p.normalize.normalize = p.normalize
      ∧ ∀ more : Path, more.isAbsolute = false →
        (p.join more).normalize = (p.normalize.join more).normalize)
    ∧ (p.normalize = (p.locationFrom []).path
      ∧ p.normalize.components = .root :: (p.locationFrom []).map .name
      ∧ ∀ (fs : FileSystem) (followLast : Bool) (loc : Location) (node : Node),
        (∀ loc, FileSystem.Linkless fs loc) → fs.nodeAt followLast p = .ok (loc, node) →
          loc = p.locationFrom [] ∧ fs.nodeAt followLast p.normalize = .ok (loc, node))
    ∧ ∀ root : Path, root.isAbsolute →
      (∀ q, checkContained p root = .ok q
        ↔ root.locationFrom [] <+: p.locationFrom [] ∧ q = (p.locationFrom []).path)
      ∧ ∀ e, checkContained p root = .error e
        ↔ ¬root.locationFrom [] <+: p.locationFrom [] ∧ e = .violation (.pathTraversal p) := by
  refine ⟨⟨Path.isAbsolute_normalize hp, fun piece => Path.ne_dots_of_mem_pieces_normalize hp,
    Path.normalize_normalize hp, fun more => Path.normalize_join hp⟩,
    ⟨Path.normalize_eq_path hp, ?_, fun fs followLast loc node hfree =>
      FileSystem.nodeAt_normalize hfree hp⟩, fun root hroot => ?_⟩
  · rw [Path.normalize_eq_path hp, Path.components_path (Path.isProper_locationFrom p)]
  have hwithin := Path.isWithin_normalize_iff hp hroot
  rw [checkContained, ← hwithin, ← Path.normalize_eq_path hp]
  split_ifs with h
  · simp [h, eq_comm]
  · simp [h, eq_comm]

/-- The directories `/a`, `/a/b` and `/a/bc`. -/
def siblings : FileSystem where
  nodes := [([[0x61]], .directory), ([[0x61], [0x62]], .directory),
    ([[0x61], [0x62, 0x63]], .directory)]

theorem linkless_siblings (loc : Location) : FileSystem.Linkless siblings loc := by
  intro above _ target h
  rw [FileSystem.node?] at h
  split at h
  · cases h
  · simpa [siblings] using FileSystem.mem_of_find? h

/-- A path that leaves `/a/b` for a directory whose name begins alike. -/
theorem contained_by_location_siblings :
    (Path.ofString "/a/b/.//../bc/").isAbsolute
      ∧ (Path.ofString "/a/b/.//../bc/").normalize = .ofString "/a/bc"
      ∧ ((Path.ofString "/a/b/.//../bc/").join (.ofString "../../../d")).normalize = .ofString "/d"
      ∧ siblings.nodeAt true (.ofString "/a/bc") = .ok ([[0x61], [0x62, 0x63]], .directory)
      ∧ checkContained (.ofString "/a/b/.//../bc/") (.ofString "/a/x/..") = .ok (.ofString "/a/bc")
      ∧ checkContained (.ofString "/a/b/.//../bc/") (.ofString "/a/b")
        = .error (.violation (.pathTraversal (.ofString "/a/b/.//../bc/"))) := by
  have habsolute : (Path.ofString "/a/b/.//../bc/").isAbsolute := by decide +kernel
  have hlaw := contained_by_location habsolute
  have hloc : (Path.ofString "/a/b/.//../bc/").locationFrom [] = [[0x61], [0x62, 0x63]] := by
    decide +kernel
  have hnormal : (Path.ofString "/a/b/.//../bc/").normalize = .ofString "/a/bc" := by
    rw [hlaw.2.1.1, hloc]
    decide +kernel
  refine ⟨habsolute, hnormal, ?_, ?_, ?_, ?_⟩
  · rw [hlaw.1.2.2.2 (.ofString "../../../d") (by decide +kernel), hnormal]
    decide +kernel
  · have hraw : Path.ofString "/a/b/.//../bc/"
        = ⟨[0x2f, 0x61, 0x2f, 0x62, 0x2f, 0x2e, 0x2f, 0x2f, 0x2e, 0x2e, 0x2f, 0x62, 0x63,
          0x2f]⟩ := by
      decide +kernel
    have hto : siblings.nodeAt true (.ofString "/a/b/.//../bc/")
        = .ok ([[0x61], [0x62, 0x63]], .directory) := by
      rw [hraw]
      cbv
    exact hnormal ▸ (hlaw.2.1.2.2 siblings true _ _ linkless_siblings hto).2
  · refine ((hlaw.2.2 _ (by decide +kernel)).1 _).mpr ⟨by decide +kernel, ?_⟩
    rw [hloc]
    decide +kernel
  · exact ((hlaw.2.2 _ (by decide +kernel)).2 _).mpr ⟨by decide +kernel, rfl⟩

end GuardedArchive
