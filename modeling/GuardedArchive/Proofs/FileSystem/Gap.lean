import GuardedArchive.Proofs.FileSystem.Making
import Mathlib.Data.List.Infix

/-!
# Proofs/FileSystem/Gap — the free place that stops a way, and what is made there

A file system is a **tree** when only directories stand above a node, so that nothing stands below a
free place.  The way along the names of a location has one **gap** at most, the free place that it
comes to; making a directory with what is missing above it makes the gap first and then goes down
from there, so all that it makes is at the gap or below it (`makeTree_path`).
-/

namespace GuardedArchive.FileSystem

variable {fs fs' : FileSystem} {followLast spelled : Bool} {links : Nat}
  {here loc above gap : Location} {name : Name} {steps : List Step} {place : Place} {p : Path}

theorem checkPath_eq_ok_iff : checkPath p = .ok ()
    ↔ (0 ∉ p.raw ∧ p.isEmpty = false) ∧ p.raw.length ≤ maxPathLength := by
  rw [checkPath]
  split_ifs <;> simp_all

/-- Where the path of a location can be asked about, those of the locations above it can. -/
theorem checkPath_of_above (h : above <+: loc) (hc : checkPath loc.path = .ok ()) :
    checkPath above.path = .ok () := by
  obtain ⟨⟨hz, -⟩, hlen⟩ := checkPath_eq_ok_iff.mp hc
  have hraw := Path.raw_path_above h
  exact checkPath_eq_ok_iff.mpr
    ⟨⟨fun hm => hz (hraw.subset hm), Path.isEmpty_path above⟩, Nat.le_trans hraw.length_le hlen⟩

/-! ## Trees -/

/-- Every node stands in a directory. -/
def IsTree (fs : FileSystem) : Prop := ∀ loc node, fs.node? loc = some node → IsPlain fs loc

theorem mem_of_find? {node : Node} : ∀ {ns : List (Location × Node)},
    find? loc ns = some node → (loc, node) ∈ ns
  | [], h => by cases h
  | (l, n) :: rest, h => by
    rw [find?] at h
    split at h
    next he =>
      obtain rfl := Option.some.inj h
      exact he ▸ List.mem_cons_self
    next => exact List.mem_cons_of_mem _ (mem_of_find? h)

/-- **What holds of the top directory and of all that is stored, holds of whatever stands.** -/
theorem of_node?_eq {P : Location → Prop} {node : Node} (htop : P [])
    (hstored : ∀ e ∈ fs.nodes, P e.1) (hn : fs.node? loc = some node) : P loc := by
  by_cases hl : loc = []
  · exact hl ▸ htop
  · rw [node?, if_neg hl] at hn
    exact hstored (loc, node) (mem_of_find? hn)

/-- A file system is a tree where every stored location has directories above it. -/
theorem isTree_of_nodes (h : ∀ e ∈ fs.nodes, ∀ above ∈ e.1.inits, above ≠ e.1 →
    fs.node? above = some .directory) : IsTree fs := fun loc node hn => by
  refine of_node?_eq (P := IsPlain fs) .nil (fun e he above ha hne => ?_) hn
  exact h e he above ((List.mem_inits above e.1).mpr ha) hne

/-- Where everything stands in the top directory, a tree stands. -/
theorem isTree_of_flat (h : ∀ e ∈ fs.nodes, e.1.length ≤ 1) : IsTree fs := by
  refine isTree_of_nodes fun e he above hab hne => ?_
  have hpre := (List.mem_inits above e.1).mp hab
  have hlt : above.length < e.1.length :=
    hpre.length_le.lt_of_ne fun hlen => hne (hpre.eq_of_length hlen)
  obtain rfl : above = [] := List.length_eq_zero_iff.mp (by have := h e he; omega)
  rfl

/-- Whoever takes steps is somewhere. -/
theorem Leads.here_occupied (h : Leads fs followLast spelled links here steps place) :
    ∃ node, fs.node? here = some node := by
  cases h with
  | done h => exact ⟨_, h⟩
  | stay hd | up hd | free hd | link hd | follow hd | into hd => exact ⟨_, hd⟩

namespace IsTree

/-- **Nothing stands below a free place.** -/
theorem free_below (h : IsTree fs) (hn : fs.node? loc = none) {below : Location}
    (hb : loc <+: below) : fs.node? below = none := by
  by_contra hne
  obtain ⟨node, hnode⟩ := Option.ne_none_iff_exists'.mp hne
  by_cases he : loc = below
  · rw [← he, hn] at hnode
    cases hnode
  · have hd := h below node hnode loc hb he
    rw [hn] at hd
    cases hd

theorem isPlain (h : IsTree fs) (hl : Leads fs followLast spelled links here steps place) :
    IsPlain fs place.location := by
  obtain ⟨node, hn⟩ := hl.here_occupied
  exact hl.isPlain (h here node hn)

theorem put (h : IsTree fs) (hp : IsPlain fs loc) (hloc : loc ≠ []) {node : Node}
    (hg : Node.Grown (fs.node? loc) (some node)) : IsTree (fs.put loc node) := fun other n hn => by
  have hgrows := Grows.put hloc hg
  rw [fs.node?_put hloc] at hn
  split at hn
  next he => exact he ▸ hp.grows hgrows
  next => exact (h other n hn).grows hgrows

theorem makeDirectory (h : IsTree fs) (hm : fs.makeDirectory p = .ok fs') : IsTree fs' := by
  obtain ⟨loc, hr, rfl⟩ := makeDirectory_eq_ok_iff.mp hm
  have hl := (placeOf_eq_ok_iff.mp hr).2
  obtain ⟨hn, dir, name, rfl, -⟩ := hl.vacant
  exact h.put (h.isPlain hl) (List.concat_ne_nil name dir) (hn ▸ .directory)

theorem makeTreeOf (ps : List Path) (h : IsTree fs) : IsTree (fs.makeTreeOf ps).2 :=
  makeTreeOf_keeps h ps fun _ _ _ _ htree hm => htree.makeDirectory hm

theorem create (h : IsTree fs) (hc : fs.create p = .ok (loc, fs')) (content : Bytes) :
    IsTree (fs.put loc (.file content)) := by
  obtain ⟨-, hloc, hg, place, rfl, hr⟩ := create_eq_ok hc
  exact h.put (h.isPlain (placeOf_eq_ok_iff.mp hr).2) hloc (hg.file_of_file content)

end IsTree

/-! ## The gap on a way -/

/-- A walk along the names of the location comes to the free place `gap`. -/
def HasGap (fs : FileSystem) (loc gap : Location) : Prop :=
  ∃ above : Location, above <+: loc
    ∧ Leads fs false false maxLinks [] (above.map .into) (.vacant gap)

/-- **A walk stops at a free place that is not its last.** -/
theorem Leads.walk_past (h : Leads fs followLast spelled links here steps (.vacant loc))
    {more : List Step} (hmore : more ≠ []) (followLast' : Bool) :
    fs.walk followLast' false links here (steps ++ more) = .error .noEntry := by
  generalize hp : Place.vacant loc = place at h
  induction h with
  | done | link => cases hp
  | stay hd _ ih =>
    rw [List.cons_append, walk, hd]
    exact ih hp
  | up hd _ ih =>
    rw [List.cons_append, walk, hd]
    exact ih hp
  | free hd hfit hn =>
    rw [List.singleton_append, walk, hd]
    simp only [if_neg (hfit.unspelled more), hn, if_neg hmore]
  | @follow links here name rest target place hd hfit hl _ _ ih =>
    have hne : ¬(rest ++ more = [] ∧ followLast' = false) := by simp [hmore]
    rw [List.cons_append, walk, hd]
    simp only [hl, if_neg (hfit.unspelled (rest ++ more)), if_neg hne, ← List.append_assoc]
    exact ih hp
  | @into links here name rest node place hd hfit hn hlink _ ih =>
    rw [List.cons_append, walk, hd]
    simp only [if_neg (hfit.unspelled (rest ++ more))]
    cases node with
    | link target => exact absurd rfl (hlink target)
    | directory | file | pipe =>
      simp only [hn]
      exact ih hp

theorem hasGap_iff (hloc : loc.IsProper) (hc : checkPath loc.path = .ok ()) : HasGap fs loc gap
    ↔ ∃ q ∈ loc.path.ancestors, fs.resolveSteps false q q.steps = .ok (.vacant gap) := by
  constructor
  · rintro ⟨above, ha, hl⟩
    refine ⟨above.path, (Path.mem_ancestors_path hloc).mpr ⟨above, ha, rfl⟩, ?_⟩
    refine placeOf_eq_ok_iff.mpr ⟨checkPath_of_above ha hc, ?_⟩
    have hproper : above.IsProper := fun n hn => hloc n (ha.subset hn)
    rwa [startOf_path, Path.steps_path hproper]
  · rintro ⟨q, hq, hr⟩
    obtain ⟨above, ha, rfl⟩ := (Path.mem_ancestors_path hloc).mp hq
    have hl := (placeOf_eq_ok_iff.mp hr).2
    have hproper : above.IsProper := fun n hn => hloc n (ha.subset hn)
    rw [startOf_path, Path.steps_path hproper] at hl
    exact ⟨above, ha, hl⟩

/-! ## What is made on a way -/

theorem makeTree_path_nil (fs : FileSystem) : (fs.makeTree (Location.path [])).2 = fs := by
  have hm : fs.makeDirectory (Location.path []) = .error (.system .exists) := by
    have hl : Leads fs false false maxLinks [] [] (.occupied [] .directory) := .done rfl
    have hr : fs.resolveSteps false (Location.path []) (Location.path []).steps
        = .ok (.occupied [] .directory) := placeOf_eq_ok_iff.mpr ⟨rfl, hl⟩
    rw [FileSystem.makeDirectory, hr]
  rw [makeTree, Path.ancestors_path_nil, FileSystem.makeTreeOf, hm]
  simp only [Path.isEmpty_path]
  split_ifs <;> simp_all

theorem makeTree_path_concat (h : Location.IsProper (loc ++ [name])) :
    fs.makeTree (Location.path (loc ++ [name]))
      = match fs.makeDirectory (Location.path (loc ++ [name])) with
        | .ok fs' => (.ok (), fs')
        | .error e =>
          if e = .system .noEntry then
            match fs.makeTree loc.path with
            | (.error e', fs') => (.error e', fs')
            | (.ok (), fs') =>
              match fs'.makeDirectory (Location.path (loc ++ [name])) with
              | .ok fs'' => (.ok (), fs'')
              | .error e' => if fs'.isDirectory (Location.path (loc ++ [name])) then (.ok (), fs')
                else (.error e', fs')
          else if fs.isDirectory (Location.path (loc ++ [name])) then (.ok (), fs)
          else (.error e, fs) := by
  rw [makeTree, Path.ancestors_path_concat h, FileSystem.makeTreeOf, Path.isEmpty_path]
  rfl

/-- The gap of a way is made, and all else that is made is below it; where the whole way is made, it
goes down from the gap. -/
structure Fills (fs : FileSystem) (loc gap : Location) (made : Except IoError Unit × FileSystem) :
    Prop where
  made_gap : made.2.node? gap = some .directory
  below : ∀ l, made.2.node? l ≠ fs.node? l → gap <+: l
  way : ∃ above names, loc = above ++ names
    ∧ Leads fs false false maxLinks [] (above.map .into) (.vacant gap)
    ∧ (made.1 = .ok () →
      Leads made.2 true false maxLinks [] (loc.map .into) (.occupied (gap ++ names) .directory))

theorem Fills.hasGap {made : Except IoError Unit × FileSystem} (h : Fills fs loc gap made) :
    HasGap fs loc gap := by
  obtain ⟨above, names, rfl, hl, -⟩ := h.way
  exact ⟨above, List.prefix_append _ _, hl⟩

/-- A gap that is the last place of a way is where its directory is made. -/
theorem Fills.of_makeDirectory (hloc : loc.IsProper) (hm : fs.makeDirectory loc.path = .ok fs') :
    ∃ gap, Fills fs loc gap (.ok (), fs') := by
  have hg := (makeDirectory_addsDirectories hm).grows
  obtain ⟨gap, hr, rfl⟩ := makeDirectory_eq_ok_iff.mp hm
  have hl := (placeOf_eq_ok_iff.mp hr).2
  rw [startOf_path, Path.steps_path hloc] at hl
  obtain ⟨-, dir, name, rfl, -⟩ := hl.vacant
  have hgap : dir ++ [name] ≠ [] := List.concat_ne_nil name dir
  have hmade : (fs.put (dir ++ [name]) .directory).node? (dir ++ [name]) = some .directory := by
    rw [fs.node?_put hgap, if_pos rfl]
  refine ⟨_, hmade, fun l hne => ?_, loc, [], (List.append_nil loc).symm, hl, fun _ => ?_⟩
  · rw [fs.node?_put hgap] at hne
    split at hne
    next he => exact he ▸ List.prefix_rfl
    next => exact absurd rfl hne
  · rw [List.append_nil]
    exact hl.fill hg hmade Node.directory_ne_link fun _ => rfl

/-- A way that was filled is so far a longer one that stops there. -/
theorem Fills.stopped {fs₁ : FileSystem} {r : Except IoError Unit} (h : Fills fs loc gap (r, fs₁))
    (name : Name) (e : IoError) : Fills fs (loc ++ [name]) gap (.error e, fs₁) := by
  obtain ⟨above, names, rfl, hl, -⟩ := h.way
  exact ⟨h.made_gap, h.below, above, names ++ [name], List.append_assoc _ _ _, hl, fun he => by
    cases he⟩

/-- **Behind a way that was filled the next directory is made below the gap.** -/
theorem Fills.next {fs₁ fs₂ : FileSystem} (h : Fills fs loc gap (.ok (), fs₁))
    (hloc : Location.IsProper (loc ++ [name]))
    (hm : fs₁.makeDirectory (Location.path (loc ++ [name])) = .ok fs₂) :
    Fills fs (loc ++ [name]) gap (.ok (), fs₂) := by
  have hg := (makeDirectory_addsDirectories hm).grows
  obtain ⟨above, names, rfl, hl, hway⟩ := h.way
  have hto := hway rfl
  obtain ⟨place, hr, rfl⟩ := makeDirectory_eq_ok_iff.mp hm
  have hnext := (placeOf_eq_ok_iff.mp hr).2
  rw [startOf_path, Path.steps_path hloc, List.map_append] at hnext
  obtain rfl : place = gap ++ names ++ [name] := (hto.child hnext).1
  have hne : gap ++ names ++ [name] ≠ [] := List.concat_ne_nil name _
  have hmade : (fs₁.put (gap ++ names ++ [name]) .directory).node? (gap ++ names ++ [name])
      = some .directory := by rw [fs₁.node?_put hne, if_pos rfl]
  refine ⟨hg.directory h.made_gap, fun l hl => ?_, above, names ++ [name],
    List.append_assoc _ _ _, hl, fun _ => ?_⟩
  · rw [fs₁.node?_put hne] at hl
    split at hl
    next he => exact ⟨names ++ [name], by rw [← he, List.append_assoc]⟩
    next => exact h.below l hl
  · rw [List.map_append, ← List.append_assoc]
    exact hnext.fill hg hmade Node.directory_ne_link fun _ => rfl

/-- Behind a way that was filled nothing but a directory of the way can stand. -/
theorem Fills.next_of_isDirectory {fs₁ : FileSystem} (htree : IsTree fs)
    (ha : AddsDirectories fs fs₁) (h : Fills fs loc gap (.ok (), fs₁))
    (hloc : Location.IsProper (loc ++ [name]))
    (hd : fs₁.isDirectory (Location.path (loc ++ [name]))) :
    Fills fs (loc ++ [name]) gap (.ok (), fs₁) := by
  obtain ⟨above, names, rfl, hl, hway⟩ := h.way
  have hto := hway rfl
  refine ⟨h.made_gap, h.below, above, names ++ [name], List.append_assoc _ _ _, hl, fun _ => ?_⟩
  obtain ⟨dir, hdir⟩ := leads_of_isDirectory hloc hd
  rw [List.map_append] at hdir ⊢
  obtain ⟨left, hw⟩ := hto.walk_append (List.cons_ne_nil (.into name) [])
  have hlast := Leads.of_walk ((hw true).symm.trans hdir.walk_eq)
  cases hlast with
  | follow _ _ hlink =>
    have hfree : fs.node? (gap ++ names ++ [name]) = none :=
      htree.free_below hl.vacant.1 ⟨names ++ [name], (List.append_assoc _ _ _).symm⟩
    rcases ha.node (gap ++ names ++ [name]) with he | ⟨-, he⟩ <;> simp_all
  | into _ _ _ _ hlast =>
    cases hlast
    rw [← List.append_assoc]
    exact hdir

/-- A way with a gap before its last place stops there. -/
theorem makeDirectory_of_hasGap (hloc : Location.IsProper (loc ++ [name]))
    (hc : checkPath (Location.path (loc ++ [name])) = .ok ()) (h : HasGap fs loc gap) :
    fs.makeDirectory (Location.path (loc ++ [name])) = .error (.system .noEntry) := by
  obtain ⟨above, ⟨more, rfl⟩, hl⟩ := h
  have hw := hl.walk_past (List.concat_ne_nil (.into name) (more.map .into)) false
  have hstart : (if (Location.path (above ++ more ++ [name])).isAbsolute then []
      else fs.workingDirectory) = [] := startOf_path fs _
  rw [FileSystem.makeDirectory, resolveSteps, placeOf, hc, hstart, Path.steps_path hloc,
    List.map_append, List.map_append, List.map_singleton, List.append_assoc]
  dsimp only
  rw [hw]

/-- Where a directory is not made, a gap on its way is one on the way to its parent. -/
theorem HasGap.of_concat {e : IoError} (hloc : Location.IsProper (loc ++ [name]))
    (hc : checkPath (Location.path (loc ++ [name])) = .ok ())
    (hm : fs.makeDirectory (Location.path (loc ++ [name])) = .error e)
    (h : HasGap fs (loc ++ [name]) gap) : HasGap fs loc gap := by
  obtain ⟨above, ha, hl⟩ := h
  rcases List.prefix_concat_iff.mp ha with rfl | ha
  · rw [← Path.steps_path hloc, ← startOf_path fs (loc ++ [name])] at hl
    have hok := makeDirectory_eq_ok_iff.mpr ⟨gap, placeOf_eq_ok_iff.mpr ⟨hc, hl⟩, rfl⟩
    rw [hm] at hok
    cases hok
  · exact ⟨above, ha, hl⟩

/-- **Making a directory with what is missing above it** changes nothing where its way has no gap,
and fills the way from its gap otherwise. -/
theorem makeTree_path (htree : IsTree fs) (hloc : loc.IsProper)
    (hc : checkPath loc.path = .ok ()) :
    ((fs.makeTree loc.path).2 = fs ∧ ∀ gap, ¬HasGap fs loc gap)
      ∨ ∃ gap, Fills fs loc gap (fs.makeTree loc.path) := by
  induction loc using List.reverseRecOn with
  | nil =>
    refine .inl ⟨makeTree_path_nil fs, fun gap ⟨above, ha, hl⟩ => ?_⟩
    rw [List.prefix_nil.mp ha] at hl
    cases hl
  | append_singleton loc name ih =>
    have hfront := hloc.of_append.1
    have hmade := makeTree_addsDirectories fs (Location.path loc)
    rw [makeTree_path_concat hloc]
    cases hm : fs.makeDirectory (Location.path (loc ++ [name])) with
    | ok fs' => exact .inr (Fills.of_makeDirectory hloc hm)
    | error e =>
      have hno : (∀ gap, ¬HasGap fs loc gap) → ∀ gap, ¬HasGap fs (loc ++ [name]) gap :=
        fun hno gap hg => hno gap (hg.of_concat hloc hc hm)
      dsimp only
      by_cases he : e = .system .noEntry
      · rw [if_pos he]
        have ih := ih hfront (checkPath_of_above (List.prefix_append loc [name]) hc)
        rcases hr : fs.makeTree (Location.path loc) with ⟨e₁ | _, fs₁⟩ <;> rw [hr] at ih hmade
        · rcases ih with ⟨hsame, hnone⟩ | ⟨gap, hf⟩
          · exact .inl ⟨hsame, hno hnone⟩
          · exact .inr ⟨gap, hf.stopped name e₁⟩
        · dsimp only
          rcases ih with ⟨hsame, hnone⟩ | ⟨gap, hf⟩
          · obtain rfl : fs₁ = fs := hsame
            rw [hm]
            dsimp only
            split <;> exact .inl ⟨rfl, hno hnone⟩
          · cases hm' : fs₁.makeDirectory (Location.path (loc ++ [name])) with
            | ok fs₂ => exact .inr ⟨gap, hf.next hloc hm'⟩
            | error e₂ =>
              dsimp only
              split
              next hd => exact .inr ⟨gap, hf.next_of_isDirectory htree hmade hloc hd⟩
              next => exact .inr ⟨gap, hf.stopped name e₂⟩
      · rw [if_neg he]
        have hnone : ∀ gap, ¬HasGap fs loc gap := fun gap hg => by
          rw [makeDirectory_of_hasGap hloc hc hg] at hm
          exact he (Except.error.inj hm).symm
        split <;> exact .inl ⟨rfl, hno hnone⟩

/-- A path that cannot be asked about is refused, and nothing is made for it. -/
theorem makeTree_of_checkPath_error {e : IoError} (hc : checkPath loc.path = .error e) :
    fs.makeTree loc.path = (.error e, fs) := by
  have hm : fs.makeDirectory loc.path = .error e := by
    rw [FileSystem.makeDirectory, resolveSteps, placeOf, hc]
  have hne : e ≠ .system .noEntry := by
    rintro rfl
    simp only [checkPath, Path.isEmpty_path, Bool.false_eq_true, if_false] at hc
    split_ifs at hc <;> simp at hc
  have hd : fs.isDirectory loc.path = false := by
    rw [← Bool.not_eq_true, isDirectory_iff]
    rintro ⟨at', hd⟩
    rw [(nodeAt_eq_ok_iff.mp hd).1] at hc
    cases hc
  obtain ⟨parents, hanc⟩ : ∃ parents, loc.path.ancestors = loc.path :: parents := ⟨_, rfl⟩
  rw [makeTree, hanc, FileSystem.makeTreeOf, Path.isEmpty_path, hm]
  dsimp only
  rw [if_neg hne, hd]
  rfl

theorem makeTree_of_not_checkPath (hc : checkPath loc.path ≠ .ok ()) :
    (fs.makeTree loc.path).2 = fs := by
  cases h : checkPath loc.path with
  | ok _ => exact absurd h hc
  | error e => rw [makeTree_of_checkPath_error h]

/-! ## Directories made outside -/

theorem HasGap.unique {gap' : Location} (h : HasGap fs loc gap) (h' : HasGap fs loc gap') :
    gap = gap' := by
  have hle : ∀ {a b g g' : Location}, a <+: b →
      Leads fs false false maxLinks [] (a.map .into) (.vacant g) →
      Leads fs false false maxLinks [] (b.map .into) (.vacant g') → g = g' := by
    rintro a _ g g' ⟨more, rfl⟩ hl hl'
    by_cases hmore : more = []
    · subst hmore
      rw [List.append_nil] at hl'
      simpa using hl.unique hl'
    · have hpast := hl.walk_past (by simpa using hmore : more.map Step.into ≠ []) false
      rw [← List.map_append, hl'.walk_eq] at hpast
      cases hpast
  obtain ⟨above, ha, hl⟩ := h
  obtain ⟨above', ha', hl'⟩ := h'
  rcases List.prefix_or_prefix_of_prefix ha ha' with hp | hp
  · exact hle hp hl hl'
  · exact (hle hp hl' hl).symm

/-- A directory stands in the second file system, not below `root`, where nothing stood in the
first. -/
def MadeOutside (root : Location) (fs fs' : FileSystem) : Prop :=
  ∃ loc, fs.node? loc = none ∧ fs'.node? loc = some .directory ∧ ¬root <+: loc

/-- The way of a path comes to a free place that is not below `root`. -/
def LeadsOut (root : Location) (fs : FileSystem) (p : Path) : Prop :=
  checkPath p = .ok () ∧ ∃ q ∈ p.ancestors, ∃ gap,
    fs.resolveSteps false q q.steps = .ok (.vacant gap) ∧ ¬root <+: gap

/-- **Making a directory with what is missing above it makes one outside exactly where its way comes
to a free place outside.** -/
theorem madeOutside_makeTree_iff {root : Location} (htree : IsTree fs) (hloc : loc.IsProper) :
    MadeOutside root fs (fs.makeTree loc.path).2 ↔ LeadsOut root fs loc.path := by
  by_cases hc : checkPath loc.path = .ok ()
  · have hgap : LeadsOut root fs loc.path ↔ ∃ gap, HasGap fs loc gap ∧ ¬root <+: gap := by
      simp only [LeadsOut, hasGap_iff hloc hc]
      constructor
      · rintro ⟨-, q, hq, gap, hr, hout⟩
        exact ⟨gap, ⟨q, hq, hr⟩, hout⟩
      · rintro ⟨gap, ⟨q, hq, hr⟩, hout⟩
        exact ⟨hc, q, hq, gap, hr, hout⟩
    rw [hgap]
    rcases makeTree_path htree hloc hc with ⟨hsame, hno⟩ | ⟨gap, hf⟩
    · rw [hsame]
      constructor
      · rintro ⟨l, hn, hd, -⟩
        rw [hn] at hd
        cases hd
      · rintro ⟨gap, hg, -⟩
        exact absurd hg (hno gap)
    · constructor
      · rintro ⟨l, hn, hd, hout⟩
        have hbelow := hf.below l (by simp [hn, hd])
        exact ⟨gap, hf.hasGap, fun hr => hout (hr.trans hbelow)⟩
      · rintro ⟨gap', hg, hout⟩
        obtain rfl := hf.hasGap.unique hg
        obtain ⟨above, -, hl⟩ := hg
        exact ⟨gap, hl.vacant.1, hf.made_gap, hout⟩
  · rw [makeTree_of_not_checkPath hc]
    constructor
    · rintro ⟨l, hn, hd, -⟩
      rw [hn] at hd
      cases hd
    · exact fun h => absurd h.1 hc

end GuardedArchive.FileSystem
