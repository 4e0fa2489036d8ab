import GuardedArchive.Proofs.Access
import GuardedArchive.Proofs.Extraction.Staging
import GuardedArchive.Proofs.Path.Parents

/-!
# Proofs/Extraction/Target — a target, and the directory that it is named in

A target that stands somewhere has its parent standing, so that no directory is made for it
(`writableDirectory_of_nodeAt`).  Otherwise those that are made are named by the paths above the
target (`madeAbove_writableDirectory`), and unless the target's path goes up on its way, it still
leads nowhere behind them (`absent_writableDirectory`).
-/

namespace GuardedArchive

namespace FileSystem

variable {fs fs' fs'' : FileSystem} {followLast spelled : Bool} {links : Nat}
  {here loc dir : Location} {step : Step} {steps : List Step} {place : Place} {p q : Path}
  {name : Name} {node : Node}

theorem Leads.here_directory
    (h : Leads fs followLast spelled links here (step :: steps) place) :
    fs.node? here = some .directory := by
  cases h with
  | stay hd | up hd | free hd | link hd | follow hd | into hd => exact hd

theorem Same.grows (h : Same fs fs') : Grows fs fs' where
  node loc := by
    rw [h.node]
    exact .same _
  workingDirectory := h.workingDirectory

theorem Same.symm (h : Same fs fs') : Same fs' fs where
  node loc := (h.node loc).symm
  workingDirectory := h.workingDirectory.symm

/-- A directory that a path leads to stays where it is when the file system grows. -/
theorem nodeAt_grows (h : fs.nodeAt followLast p = .ok (loc, .directory)) (hg : Grows fs fs') :
    fs'.nodeAt followLast p = .ok (loc, .directory) := by
  obtain ⟨hc, hl⟩ := nodeAt_eq_ok_iff.mp h
  obtain ⟨node', hl'⟩ := hl.grows hg
  have hn := hl'.node?_eq
  rw [hg.directory hl.node?_eq, Option.some_inj] at hn
  exact nodeAt_eq_ok_iff.mpr ⟨hc, hg.startOf p ▸ hn ▸ hl'⟩

/-- Where two file systems hold the same, a path leads to something in both or in none. -/
theorem nodeAt_same (h : Same fs fs') {found : Location × Node}
    (hat : fs.nodeAt followLast p = .ok found) :
    ∃ found', fs'.nodeAt followLast p = .ok found' := by
  obtain ⟨hc, hl⟩ := nodeAt_eq_ok_iff.mp hat
  obtain ⟨node', hl'⟩ := hl.grows h.grows
  exact ⟨_, nodeAt_eq_ok_iff.mpr ⟨hc, h.grows.startOf p ▸ hl'⟩⟩

theorem checkPath_of_raw (h : q.raw <+: p.raw) (hq : q.isEmpty = false)
    (hc : checkPath p = .ok ()) : checkPath q = .ok () := by
  obtain ⟨⟨hz, -⟩, hlen⟩ := checkPath_eq_ok_iff.mp hc
  exact checkPath_eq_ok_iff.mpr ⟨⟨fun hm => hz (h.subset hm), hq⟩, h.length_le.trans hlen⟩

/-- A path that the system takes goes into names without the octet zero. -/
theorem zero_not_mem_of_mem_steps (hc : checkPath p = .ok ()) (h : .into name ∈ p.steps) :
    (0 : UInt8) ∉ name := fun hz => (checkPath_eq_ok_iff.mp hc).1.1 (Path.mem_raw_of_mem_steps hz h)

/-- Looking a path up takes its steps, and perhaps one that stays. -/
theorem exists_lookupSteps (p : Path) :
    ∃ still, lookupSteps p = p.steps ++ still ∧ ∀ s ∈ still, s = .stay := by
  rw [lookupSteps]
  split
  · exact ⟨[.stay], rfl, by simp⟩
  · exact ⟨[], (List.append_nil _).symm, by simp⟩

/-- **What stands at a path has something standing at every path above it.** -/
theorem nodeAt_of_above (ha : q.Above p) (hq : q.isEmpty = false)
    (h : fs.nodeAt false p = .ok (loc, node)) : ∃ found, fs.nodeAt false q = .ok found := by
  obtain ⟨hc, hl⟩ := nodeAt_eq_ok_iff.mp h
  obtain ⟨habs, more, hsteps, step, hstep, -⟩ := ha.steps hq
  obtain ⟨still, hlook, -⟩ := exists_lookupSteps p
  have hmore : more ++ still ≠ [] := by
    rintro he
    rw [(List.append_eq_nil_iff.mp he).1] at hstep
    cases hstep
  rw [hlook, hsteps, List.append_assoc] at hl
  have hstart : fs.startOf p = fs.startOf q := by rw [startOf, startOf, habs]
  obtain ⟨_, dir, found, hto, hnext⟩ := hl.split hmore
  obtain ⟨first, others, hfirst⟩ := List.exists_cons_of_ne_nil hmore
  rw [hfirst] at hnext
  obtain rfl : .directory = found := by
    simpa [hnext.here_directory] using hto.node?_eq
  obtain ⟨still', hlook', hstill'⟩ := exists_lookupSteps q
  have hlast : Leads fs true false maxLinks (fs.startOf q) (lookupSteps q)
      (.occupied dir .directory) := by
    rw [hlook', ← hstart]
    by_cases hs : still' = []
    · rw [hs, List.append_nil]
      exact hto
    · exact hto.append_still hstill' hs
  obtain ⟨at', found', hat⟩ := hlast.unfollowed false
  exact ⟨_, nodeAt_eq_ok_iff.mpr ⟨checkPath_of_raw ha.raw hq hc, hat⟩⟩

/-- The path `.` leads to the working directory. -/
theorem IsSound.leads_dot (h : IsSound fs) : Leads fs followLast spelled maxLinks
    (fs.startOf ⟨Path.dot⟩) (lookupSteps ⟨Path.dot⟩)
      (.occupied fs.workingDirectory .directory) :=
  .stay h.here (.done h.here)

/-! ## Directories made for a path -/

/-- **Directories were made at certain paths**, each where such a path leads, and nothing else has
changed. -/
structure MadeAt (named : Path → Prop) (fs fs' : FileSystem) : Prop where
  adds : AddsDirectories fs fs'
  leads : ∀ loc, fs.node? loc = none → fs'.node? loc ≠ none →
    ∃ q, named q ∧ ∀ followLast, fs'.nodeAt followLast q = .ok (loc, .directory)

namespace MadeAt

variable {named : Path → Prop}

theorem refl (named : Path → Prop) (fs : FileSystem) : MadeAt named fs fs :=
  ⟨.refl fs, fun _ hn hne => absurd hn hne⟩

/-- One more directory is made. -/
theorem makeDirectory (h : MadeAt named fs fs') (htree : IsTree fs') (hq : named q)
    (hm : fs'.makeDirectory q = .ok fs'') : MadeAt named fs fs'' := by
  have hadds := makeDirectory_addsDirectories hm
  obtain ⟨root, hfresh, rfl⟩ := Fresh.of_makeDirectory htree hm
  refine ⟨h.adds.trans hadds, fun loc hn hne => ?_⟩
  by_cases he : root = loc
  · subst he
    refine ⟨q, hq, hfresh.nodeAt hfresh.grows ?_⟩
    rw [fs'.node?_put hfresh.ne_nil, if_pos rfl]
  · rw [fs'.node?_put hfresh.ne_nil, if_neg he] at hne
    obtain ⟨q', hq', hat⟩ := h.leads loc hn hne
    exact ⟨q', hq', fun followLast => nodeAt_grows (hat followLast) hadds.grows⟩

/-- **Whatever comes of making directories, they were made at their paths.** -/
theorem makeTreeOf (htree : IsTree fs) (ps : List Path) (hps : ∀ q ∈ ps, named q) :
    MadeAt named fs (fs.makeTreeOf ps).2 := by
  have hkeeps : IsTree (fs.makeTreeOf ps).2 ∧ MadeAt named fs (fs.makeTreeOf ps).2 := by
    refine makeTreeOf_keeps (P := fun fs' => IsTree fs' ∧ MadeAt named fs fs')
      ⟨htree, .refl named fs⟩ ps ?_
    rintro r hr fs₁ fs₂ ⟨htree₁, hmade⟩ hm
    exact ⟨htree₁.makeDirectory hm, hmade.makeDirectory htree₁ (hps r hr) hm⟩
  exact hkeeps.2

end MadeAt

/-- **Directories were made for a path**, each where a path above it leads, and nothing else has
changed. -/
structure MadeAbove (p : Path) (fs fs' : FileSystem) : Prop where
  adds : AddsDirectories fs fs'
  named : ∀ loc, fs.node? loc = none → fs'.node? loc ≠ none →
    ∃ q, Path.Above q p ∧ fs'.nodeAt true q = .ok (loc, .directory)

namespace MadeAbove

theorem refl (p : Path) (fs : FileSystem) : MadeAbove p fs fs :=
  ⟨.refl fs, fun _ hn hne => absurd hn hne⟩

theorem of_same (h : MadeAbove p fs fs') (hs : Same fs' fs'') : MadeAbove p fs fs'' where
  adds := by
    refine ⟨fun loc => ?_, hs.workingDirectory.trans h.adds.workingDirectory⟩
    rw [hs.node]
    exact h.adds.node loc
  named loc hn hne := by
    rw [hs.node] at hne
    obtain ⟨q, hq, hat⟩ := h.named loc hn hne
    exact ⟨q, hq, nodeAt_grows hat hs.grows⟩

end MadeAbove

/-- A directory made for a path, with what is missing above it. -/
theorem madeAbove_makeTree (htree : IsTree fs) (hq : p.parent? = some q) :
    MadeAbove p fs (fs.makeTree q).2 := by
  have hmade : MadeAt (Path.Above · p) fs (fs.makeTree q).2 :=
    .makeTreeOf htree q.ancestors fun r hr => Path.above_of_mem_ancestors hq hr
  refine ⟨hmade.adds, fun loc hn hne => ?_⟩
  obtain ⟨r, hr, hat⟩ := hmade.leads loc hn hne
  exact ⟨r, hr, hat true⟩

/-- Nothing is found in a directory without names by steps that leave it and do not go up. -/
theorem Leads.not_into_empty {more : List Step}
    (h : Leads fs followLast spelled links here (more ++ steps) (.occupied loc node))
    (hempty : ∀ name, fs.node? (here ++ [name]) = none) (hmoves : ∃ s ∈ more, s ≠ .stay)
    (hup : Step.up ∉ more) : False := by
  induction more with
  | nil =>
    obtain ⟨s, hs, -⟩ := hmoves
    cases hs
  | cons first more ih =>
    rw [List.cons_append] at h
    rcases first with _ | _ | name
    · cases h with
      | stay _ h =>
        refine ih h ?_ fun hm => hup (List.mem_cons_of_mem _ hm)
        obtain ⟨s, hs, hne⟩ := hmoves
        exact ⟨s, (List.mem_cons.mp hs).resolve_left hne, hne⟩
    · exact hup List.mem_cons_self
    · have hfree := hempty name
      generalize more ++ steps = rest at h
      cases h with
      | link _ _ hl | follow _ _ hl | into _ _ hl =>
        rw [hfree] at hl
        cases hl

/-- **A path that does not go up leads nowhere behind a directory that was made above it.** -/
theorem absent_of_makeDirectory (htree : IsTree fs) (hup : Step.up ∉ p.steps) (hq : q.Above p)
    (hm : fs.makeDirectory q = .ok fs') (found : Location × Node) :
    fs'.nodeAt false p ≠ .ok found := by
  intro hat
  obtain ⟨root, hfresh, rfl⟩ := Fresh.of_makeDirectory htree hm
  have hd : (fs.put root .directory).node? root = some .directory := by
    rw [fs.node?_put hfresh.ne_nil, if_pos rfl]
  have hqe : q.isEmpty = false := (checkPath_eq_ok_iff.mp hfresh.check).1.2
  obtain ⟨habs, more, hsteps, step, hstep, hmoves⟩ := hq.steps hqe
  obtain ⟨still, hlook, -⟩ := exists_lookupSteps p
  have hl := (nodeAt_eq_ok_iff.mp hat).2
  have hstart : (fs.put root .directory).startOf p = fs.startOf q := by
    rw [hfresh.grows.startOf, startOf, startOf, habs]
  rw [hlook, hsteps, List.append_assoc, hstart] at hl
  obtain ⟨_, dir, _, hto, hnext⟩ := hl.split (by
    intro he
    rw [(List.append_eq_nil_iff.mp he).1] at hstep
    cases hstep)
  obtain rfl : dir = root := (by
    simpa using hto.unique
      (hfresh.leads.fill hfresh.grows hd Node.directory_ne_link fun _ => rfl) : _ ∧ _).1
  refine hnext.not_into_empty (fun name => ?_) ⟨step, hstep, hmoves⟩
    fun hm => hup (hsteps ▸ List.mem_append_right _ hm)
  rw [fs.node?_put hfresh.ne_nil, if_neg (by simp), hfresh.free]

/-! ## A name in a directory -/

/-- The last name of a path is looked up in the directory `dir`. -/
def Names (fs : FileSystem) (p : Path) (dir : Location) (name : Name) : Prop :=
  ∃ front still still', p.steps = front ++ (still ++ .into name :: still')
    ∧ (∀ s ∈ still, s = .stay) ∧ (∀ s ∈ still', s = .stay)
    ∧ Leads fs true false maxLinks (fs.startOf p) front (.occupied dir .directory)

theorem Names.grows (h : Names fs p dir name) (hg : Grows fs fs') : Names fs' p dir name := by
  obtain ⟨front, still, still', hsteps, hstill, hstill', hto⟩ := h
  obtain ⟨node', hto'⟩ := hto.grows hg
  have hn := hto'.node?_eq
  rw [hg.directory hto.node?_eq, Option.some_inj] at hn
  exact ⟨front, still, still', hsteps, hstill, hstill', hg.startOf p ▸ hn ▸ hto'⟩

/-- Looking the path up takes the steps that lead to the directory, and then its last name. -/
theorem Names.lookup (h : Names fs p dir name) : ∃ front still still',
    lookupSteps p = front ++ (still ++ .into name :: still')
      ∧ (∀ s ∈ still, s = .stay) ∧ (∀ s ∈ still', s = .stay)
      ∧ Leads fs true false maxLinks (fs.startOf p) front (.occupied dir .directory) := by
  obtain ⟨front, still, still', hsteps, hstill, hstill', hto⟩ := h
  obtain ⟨last, hlook, hlast⟩ := exists_lookupSteps p
  refine ⟨front, still, still' ++ last, ?_, hstill, fun s hm => ?_, hto⟩
  · rw [hlook, hsteps]
    simp
  · exact (List.mem_append.mp hm).elim (hstill' s) (hlast s)

/-- What stands at the path stands under its last name. -/
theorem Names.occupied (h : Names fs p dir name) (hat : fs.nodeAt false p = .ok (loc, node)) :
    ∃ found, fs.node? (dir ++ [name]) = some found
      ∧ ((∀ target, found ≠ .link target) → loc = dir ++ [name]) := by
  obtain ⟨front, still, still', hlook, hstill, hstill', hto⟩ := h.lookup
  have hl := (nodeAt_eq_ok_iff.mp hat).2
  rw [hlook] at hl
  obtain ⟨_, dir', _, hto', hnext⟩ := hl.split (by simp)
  obtain rfl : dir = dir' := (by simpa using hto.unique hto' : _ ∧ _).1
  exact hnext.among_still hstill hstill'

/-- A directory under its last name is where the path leads. -/
theorem Names.nodeAt (h : Names fs p dir name) (hc : checkPath p = .ok ())
    (hfit : name.length ≤ maxNameLength) (hd : fs.node? (dir ++ [name]) = some .directory) :
    fs.nodeAt followLast p = .ok (dir ++ [name], .directory) := by
  obtain ⟨front, still, still', hlook, hstill, hstill', hto⟩ := h.lookup
  refine nodeAt_eq_ok_iff.mpr ⟨hc, ?_⟩
  rw [hlook]
  exact hto.append (by simp) fun left =>
    Leads.into_still hto.node?_eq hfit hd hstill hstill'

/-- **A path that ends in a free name leads to the free place**, where a directory can be made. -/
theorem Names.fresh (h : Names fs p dir name) (htree : IsTree fs) (hc : checkPath p = .ok ())
    (hlast : p.steps.getLast? = some (.into name)) (hfit : name.length ≤ maxNameLength)
    (hfree : fs.node? (dir ++ [name]) = none) : Fresh fs p (dir ++ [name]) := by
  obtain ⟨front, still, still', hsteps, hstill, hstill', hto⟩ := h
  -- the last step is one into a name, so that none behind it stays
  obtain rfl : still' = [] := by
    rcases List.eq_nil_or_concat' still' with he | ⟨others, last, rfl⟩
    · exact he
    · obtain rfl := hstill' last (by simp)
      rw [hsteps, ← List.cons_append, ← List.append_assoc, ← List.append_assoc,
        List.getLast?_concat] at hlast
      cases hlast
  refine ⟨List.concat_ne_nil name dir, fun rel => htree.free_below hfree (List.prefix_append _ _),
    hc, ?_⟩
  rw [hsteps]
  refine hto.append (by simp) fun left => Leads.stand hto.node?_eq hstill ?_
  exact .free hto.node?_eq (by simpa [Fits] using hfit) hfree

end FileSystem

namespace Extraction

open FileSystem

variable {fs fs' : FileSystem} {target : Path} {parent : Location} {name : Name}

/-- The directory that a target is named in is its parent, or the working directory where that is
empty. -/
theorem parentOf_cases (target : Path) :
    (∃ q, target.parent? = some q ∧ q.isEmpty = false ∧ parentOf target = q)
      ∨ parentOf target = ⟨Path.dot⟩ ∧ ∀ q, target.parent? = some q → q.isEmpty := by
  rw [parentOf]
  rcases hp : target.parent? with _ | q
  · exact .inr ⟨rfl, fun _ hno => by cases hno⟩
  · dsimp only
    by_cases hq : q.isEmpty
    · rw [if_pos hq]
      exact .inr ⟨rfl, fun q' he => Option.some.inj he ▸ hq⟩
    · rw [if_neg hq]
      exact .inl ⟨q, rfl, eq_false_of_ne_true hq, rfl⟩

theorem lstat_dot (hs : IsSound fs) : fs.lstat ⟨Path.dot⟩ = .ok .directory := by
  have hat : fs.nodeAt false ⟨Path.dot⟩ = .ok (fs.workingDirectory, .directory) :=
    nodeAt_eq_ok_iff.mpr ⟨by decide, hs.leads_dot⟩
  rw [FileSystem.lstat, hat]
  rfl

theorem not_missing_dot (hs : IsSound fs) : fs.lstat ⟨Path.dot⟩ ≠ .error (.system .noEntry) := by
  simp [lstat_dot hs]

/-- **For a target that stands somewhere nothing is made.** -/
theorem writableDirectory_of_nodeAt (hs : IsSound fs) {found : Location × Node}
    (h : fs.nodeAt false target = .ok found) :
    (Access.writableDirectory (parentOf target) fs).2 = fs := by
  rw [Access.writableDirectory_files]
  rcases parentOf_cases target with ⟨q, hp, hq, he⟩ | ⟨he, -⟩ <;> rw [he]
  · obtain ⟨found', hat⟩ := nodeAt_of_above (.single hp) hq h
    rw [FileSystem.lstat, hat, if_neg (by simp [Except.map])]
  · rw [if_neg (not_missing_dot hs)]

/-- **The directories made for a target are named by the paths above it.** -/
theorem madeAbove_writableDirectory (hs : IsSound fs) (target : Path) :
    MadeAbove target fs (Access.writableDirectory (parentOf target) fs).2 := by
  rw [Access.writableDirectory_files]
  rcases parentOf_cases target with ⟨q, hp, -, he⟩ | ⟨he, -⟩ <;> rw [he]
  · split
    · exact madeAbove_makeTree hs.tree hp
    · exact .refl target fs
  · rw [if_neg (not_missing_dot hs)]
    exact .refl target fs

/-- **A target that led nowhere leads nowhere**, unless its path goes up. -/
theorem absent_writableDirectory (hs : IsSound fs) (hup : Step.up ∉ target.steps)
    (h : ∀ found, fs.nodeAt false target ≠ .ok found) (found : Location × Node) :
    (Access.writableDirectory (parentOf target) fs).2.nodeAt false target ≠ .ok found := by
  rw [Access.writableDirectory_files]
  split
  next hmissing =>
    rcases parentOf_cases target with ⟨q, hp, -, he⟩ | ⟨he, -⟩
    · rw [he]
      have hkeeps : IsTree (fs.makeTree q).2
          ∧ ∀ found, (fs.makeTree q).2.nodeAt false target ≠ .ok found := by
        refine makeTreeOf_keeps (P := fun fs' => IsTree fs'
          ∧ ∀ found, fs'.nodeAt false target ≠ .ok found) ⟨hs.tree, h⟩ q.ancestors ?_
        rintro r hr fs₁ fs₂ ⟨htree, -⟩ hm
        exact ⟨htree.makeDirectory hm,
          absent_of_makeDirectory htree hup (Path.above_of_mem_ancestors hp hr) hm⟩
      exact hkeeps.2 found
    · rw [he] at hmissing
      exact absurd hmissing (not_missing_dot hs)
  next => exact h found

/-- **The last name of a target is looked up in the directory that it is named in.** -/
theorem names_of_fileName? (hs : IsSound fs) (hname : target.fileName? = some name)
    (hc : fs.canonicalize (parentOf target) = .ok (parent, .directory)) :
    Names fs target parent name := by
  obtain ⟨-, q, hp, habs, -, still, still', hsteps, hstill, hstill'⟩ := Path.fileName?_eq_some hname
  have hway := (canonicalize_eq_ok_iff.mp hc).2.unspelled
  refine ⟨q.steps, still, still', by rw [hsteps, List.append_assoc], hstill, hstill', ?_⟩
  have hstart : fs.startOf target = fs.startOf q := by rw [startOf, startOf, habs]
  rw [hstart]
  rcases parentOf_cases target with ⟨q', hp', -, he⟩ | ⟨he, hempty⟩
  · obtain rfl : q = q' := Option.some.inj (hp.symm.trans hp')
    obtain ⟨more, hlook', hmore⟩ := exists_lookupSteps q
    rw [he, hlook'] at hway
    exact hway.of_append_still hmore
  · obtain rfl : q = ⟨[]⟩ := by
      obtain ⟨raw⟩ := q
      exact congrArg Path.mk (List.isEmpty_iff.mp (hempty _ hp))
    rw [he] at hway
    obtain rfl : parent = fs.workingDirectory := by simpa using hway.unique hs.leads_dot
    exact .done hs.here

end Extraction

end GuardedArchive
