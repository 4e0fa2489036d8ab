import GuardedArchive.Extraction.Atomic
import GuardedArchive.Proofs.Extraction.Escape
import GuardedArchive.Proofs.Extraction.Stopping
import GuardedArchive.Proofs.FileSystem.Ways
import GuardedArchive.Proofs.Temporary

/-!
# Proofs/Extraction/Staging — an extraction into a directory that was made for it

A directory made at a free place is empty, and its path leads to it as long as the file system only
grows (`Fresh.nodeAt`).  An extraction into it stays in it (`extract_fresh`), so that removing it
with all that is in it restores what was there before (`Filled.discardTree`).
-/

namespace GuardedArchive

namespace FileSystem

variable {fs fs' : FileSystem} {p : Path} {root loc : Location}

/-- A file system as it can be: a tree, whose working directory is a directory with a path. -/
structure IsSound (fs : FileSystem) : Prop where
  tree : IsTree fs
  proper : fs.workingDirectory.IsProper
  here : fs.node? fs.workingDirectory = some .directory

theorem IsSound.isPlain (h : IsSound fs) : IsPlain fs fs.workingDirectory := h.tree _ _ h.here

theorem IsSound.grows (h : IsSound fs) (htree : IsTree fs') (hg : Grows fs fs') : IsSound fs' where
  tree := htree
  proper := by
    rw [hg.workingDirectory]
    exact h.proper
  here := by
    rw [hg.workingDirectory]
    exact hg.directory h.here

theorem IsSound.startOf (h : IsSound fs) (p : Path) :
    (fs.startOf p).IsProper ∧ IsPlain fs (fs.startOf p) := by
  rw [FileSystem.startOf]
  split
  · exact ⟨fun _ hn => absurd hn List.not_mem_nil, .nil⟩
  · exact ⟨h.proper, h.isPlain⟩

/-- **What a path leads to has a path of its own, with directories only above it.** -/
theorem IsSound.canonicalize (h : IsSound fs) {node : Node}
    (hc : fs.canonicalize p = .ok (loc, node)) : loc.IsProper ∧ IsPlain fs loc := by
  have hl := (canonicalize_eq_ok_iff.mp hc).2
  exact ⟨hl.isProper (h.startOf p).1 fun name hn => isProper_of_mem_lookupSteps hn,
    hl.isPlain (h.startOf p).2⟩

/-- Two file systems hold the same at every location. -/
structure Same (fs fs' : FileSystem) : Prop where
  node : ∀ loc, fs'.node? loc = fs.node? loc
  workingDirectory : fs'.workingDirectory = fs.workingDirectory

theorem Same.refl (fs : FileSystem) : Same fs fs := ⟨fun _ => rfl, rfl⟩

theorem IsPlain.linkless (h : IsPlain fs loc)
    (hnode : ∀ target, fs.node? loc ≠ some (.link target)) : Linkless fs loc := by
  intro above hab target hl
  by_cases he : above = loc
  · exact hnode target (he ▸ hl)
  · rw [h above hab he] at hl
    cases hl

/-- **The path of a location without links leads to it.** -/
theorem canonicalize_path {at' : Location} {node : Node} (hloc : loc.IsProper)
    (hfree : Linkless fs loc) (hc : fs.canonicalize loc.path = .ok (at', node)) : at' = loc := by
  have hl := (canonicalize_eq_ok_iff.mp hc).2
  rw [startOf_path, leads_lookupSteps_path hloc] at hl
  exact hl.location_eq loc hfree

/-! ## A directory at a free place -/

/-- The way of a path comes to a free place, with nothing below. -/
structure Fresh (fs : FileSystem) (p : Path) (root : Location) : Prop where
  ne_nil : root ≠ []
  free : ∀ rel, fs.node? (root ++ rel) = none
  check : checkPath p = .ok ()
  leads : Leads fs false false maxLinks (fs.startOf p) p.steps (.vacant root)

theorem Fresh.of_resolveSteps (htree : IsTree fs)
    (h : fs.resolveSteps false p p.steps = .ok (.vacant root)) : Fresh fs p root := by
  obtain ⟨hc, hl⟩ := placeOf_eq_ok_iff.mp h
  obtain ⟨hn, dir, name, rfl, -⟩ := hl.vacant
  exact ⟨List.concat_ne_nil name dir,
    fun rel => htree.free_below hn (List.prefix_append _ _), hc, hl⟩

theorem Fresh.of_makeDirectory (htree : IsTree fs) (h : fs.makeDirectory p = .ok fs') :
    ∃ root, Fresh fs p root ∧ fs' = fs.put root .directory := by
  obtain ⟨root, hr, rfl⟩ := makeDirectory_eq_ok_iff.mp h
  exact ⟨root, .of_resolveSteps htree hr, rfl⟩

namespace Fresh

theorem resolveSteps_eq (h : Fresh fs p root) :
    fs.resolveSteps false p p.steps = .ok (.vacant root) := placeOf_eq_ok_iff.mpr ⟨h.check, h.leads⟩

theorem grows (h : Fresh fs p root) : Grows fs (fs.put root .directory) := by
  have hn : fs.node? root = none := by simpa using h.free []
  exact .put h.ne_nil (hn ▸ .directory)

theorem isTree (htree : IsTree fs) (h : Fresh fs p root) : IsTree (fs.put root .directory) := by
  have hn : fs.node? root = none := by simpa using h.free []
  exact htree.put (htree.isPlain h.leads) h.ne_nil (hn ▸ .directory)

/-- **The path leads to the directory that was made.** -/
theorem nodeAt (h : Fresh fs p root) (hg : Grows fs fs') (hd : fs'.node? root = some .directory)
    (followLast : Bool) : fs'.nodeAt followLast p = .ok (root, .directory) := by
  refine nodeAt_eq_ok_iff.mpr ⟨h.check, ?_⟩
  rw [hg.startOf, lookupSteps]
  split
  · exact (h.leads.fill hg hd Node.directory_ne_link fun _ => rfl).append_still (by simp) (by simp)
  · exact h.leads.fill hg hd Node.directory_ne_link fun hfollow => absurd hfollow Bool.false_ne_true

theorem canonicalize_eq (h : Fresh fs p root) (hg : Grows fs fs')
    (hd : fs'.node? root = some .directory) {node : Node}
    (hc : fs'.canonicalize p = .ok (loc, node)) : loc = root ∧ node = .directory := by
  have hl := (canonicalize_eq_ok_iff.mp hc).2.unspelled
  have hr := (nodeAt_eq_ok_iff.mp (h.nodeAt hg hd true)).2
  simpa using hl.unique hr

/-- The directory that was made is empty. -/
theorem isEmptyRoot (h : Fresh fs p root) (hs : IsSound fs) {node : Node}
    (hc : (fs.put root .directory).canonicalize p = .ok (loc, node)) :
    Extraction.IsEmptyRoot (fs.put root .directory) root := by
  have hd : (fs.put root .directory).node? root = some .directory := by
    rw [fs.node?_put h.ne_nil, if_pos rfl]
  obtain ⟨rfl, rfl⟩ := h.canonicalize_eq h.grows hd hc
  refine .of_canonicalize hs.proper (hs.isPlain.grows h.grows) hc fun rel hrel => ?_
  rw [fs.node?_put h.ne_nil, if_neg (by simpa using hrel), h.free rel]

end Fresh

end FileSystem

namespace Extraction

open FileSystem
open Zip (Archive Entry Source)

variable {limits : Limits} {dest : Destination} {archive p : Path} {before fs fs₁ fs₂ : FileSystem}
  {root file : Location} {result : Except ArchiveError ExtractionReport}
  {source : Source} {report : ExtractionReport}

/-! ## Outside the destination -/

theorem Leaves.sameOutside {entry : Exposed} (h : Leaves root entry fs fs₁) :
    SameOutside root fs fs₁ := fun loc hout => by
  rcases h loc with he | ⟨-, rel, _, -, rfl, -⟩
  · exact he
  · exact absurd (List.prefix_append _ _) hout

/-- **An extraction into an empty directory changes nothing outside it**, whether it succeeds or
not. -/
theorem ofSource_sameOutside (limits : Limits) (source : Source)
    (hroot : IsEmptyRoot before dest.root) :
    SameOutside dest.root before (ofSource limits dest source before).2 := by
  rcases ho : ofSource limits dest source before with ⟨e | report, fs⟩
  · rcases (extraction_stops limits dest before fs e).2 source ho with ⟨-, rfl⟩ | ⟨_, -, -, hstop⟩
    · exact fun _ _ => rfl
    · obtain ⟨_, _, _, _, _, -, -, hx, hleft, -⟩ := hstop hroot
      exact hx.outside.trans hleft.sameOutside
  · obtain ⟨_, -, hx, -⟩ := (extraction_denotes limits dest before fs report hroot).2 source ho
    exact hx.outside

/-! ## Trees -/

theorem Places.isTree {ι : Type} {openEntry : ι → FileSystem → Except ArchiveError Entry}
    {items : List ι} {s s' : Extraction} (htree : IsTree s.files)
    (h : Places limits dest openEntry items s s') : IsTree s'.files := by
  induction h with
  | nil => exact htree
  | cons ht _ ih => exact ih ((Turn.of_turn ht).isTree htree)

/-- An extraction leaves a tree. -/
theorem ofSource_isTree (limits : Limits) (dest : Destination) (source : Source)
    (htree : IsTree fs) : IsTree (ofSource limits dest source fs).2 := by
  rw [ofSource_apply]
  rcases Archive.load limits source fs with e | a
  · exact htree
  · dsimp only
    rw [run_apply]
    have hends := extractEach_ends limits dest a.openEntry a.records { files := fs }
    generalize (extractEach limits dest a.openEntry a.records { files := fs }).1 = result at hends
    generalize (extractEach limits dest a.openEntry a.records { files := fs }).2 = s at hends ⊢
    cases hends with
    | placed hp => exact hp.isTree htree
    | stopped _ hp ht => exact (Turn.of_turn ht).isTree (hp.isTree htree)

/-! ## Filling a directory -/

/-- In a directory that was made at a free place something has been placed, and nothing else has
changed. -/
structure Filled (fs : FileSystem) (root : Location) (fs₂ : FileSystem) : Prop where
  tree : IsTree fs₂
  grows : Grows (fs.put root .directory) fs₂
  outside : SameOutside root fs fs₂

theorem Filled.directory (hf : Fresh fs p root) (h : Filled fs root fs₂) :
    fs₂.node? root = some .directory :=
  h.grows.directory (by rw [fs.node?_put hf.ne_nil, if_pos rfl])

/-- **Removing the directory restores what was there before it.** -/
theorem Filled.discardTree (hf : Fresh fs p root) (h : Filled fs root fs₂) :
    Same fs (Temporary.discardTree p fs₂) := by
  have hat := hf.nodeAt (hf.grows.trans h.grows) (h.directory hf) false
  rw [Temporary.discardTree, hat]
  refine ⟨fun loc => ?_, h.grows.workingDirectory⟩
  rw [fs₂.node?_eraseTree hf.ne_nil]
  split
  next hpre =>
    obtain ⟨rel, rfl⟩ := hpre
    exact (hf.free rel).symm
  next hout => exact h.outside loc hout

theorem Filled.self (htree : IsTree fs) (hf : Fresh fs p root) :
    Filled fs root (fs.put root .directory) where
  tree := hf.isTree htree
  grows := .refl _
  outside loc hout := by
    rw [fs.node?_put hf.ne_nil, if_neg fun he : root = loc => hout (he ▸ List.prefix_rfl)]

/-- **The directory that was made is the destination of its path**, unless its path is not
canonical. -/
theorem ofPath_fresh (hf : Fresh fs p root) :
    Destination.ofPath p (fs.put root .directory) = (.ok ⟨root⟩, fs.put root .directory)
      ∨ ∃ e, Destination.ofPath p (fs.put root .directory)
        = (.error e, fs.put root .directory) := by
  have hd : (fs.put root .directory).node? root = some .directory := by
    rw [fs.node?_put hf.ne_nil, if_pos rfl]
  have hstat : (fs.put root .directory).lstat p = .ok .directory := by
    rw [FileSystem.lstat, hf.nodeAt hf.grows hd false]
    rfl
  have hfiles := Access.writableDirectory_files p (fs.put root .directory)
  rw [hstat, if_neg (by simp)] at hfiles
  rw [ofPath_apply, hfiles]
  rcases hw : Access.writableDirectory p (fs.put root .directory) with ⟨e | loc, fs'⟩
  · exact .inr ⟨e, rfl⟩
  · have hc := (Access.existingDirectory_eq_ok (Access.existingDirectory_of_writableDirectory hw)).2
    obtain rfl : fs' = fs.put root .directory := by rw [hw] at hfiles; exact hfiles
    obtain ⟨rfl, -⟩ := hf.canonicalize_eq hf.grows hd hc
    exact .inl rfl

/-- **An extraction into a directory that was made for it fills that directory**, and nothing else,
wherever it stops; if it succeeds, the directory is what the entries denote. -/
theorem extract_fresh (hs : IsSound fs) (hf : Fresh fs p root) (limits : Limits) (archive : Path) :
    Filled fs root (extract limits archive p (fs.put root .directory)).2
      ∧ ∀ report, (extract limits archive p (fs.put root .directory)).1 = .ok report →
        ∃ file a, Access.readableFile (fs.put root .directory) archive = .ok file
          ∧ Archive.load limits (.disk file) (fs.put root .directory) = .ok a
          ∧ Extracted (fs.put root .directory) ⟨root⟩
            (a.records.map (exposedBy a (fs.put root .directory))) report
            (extract limits archive p (fs.put root .directory)).2 := by
  have hself := Filled.self hs.tree hf
  generalize hput : fs.put root .directory = fs₁ at hself ⊢
  rw [Extraction.extract, Effect.bind_apply, Effect.look]
  rcases hr : Access.readableFile fs₁ archive with e | file
  · exact ⟨hself, fun _ hok => by cases hok⟩
  · dsimp only
    rw [Effect.bind_apply]
    rcases hput ▸ ofPath_fresh hf with ho | ⟨e, ho⟩ <;> rw [ho]
    · obtain ⟨loc, hc⟩ : ∃ node, fs₁.canonicalize p = .ok (root, node) := by
        rw [ofPath_apply] at ho
        rcases hw : Access.writableDirectory p fs₁ with ⟨e | loc, fs'⟩ <;> rw [hw] at ho
        · cases ho
        · obtain ⟨hd, rfl⟩ := Prod.mk.inj ho
          obtain rfl : loc = root := congrArg Destination.root (Except.ok.inj hd)
          exact Access.canonicalize_of_writableDirectory hw
      have hroot : IsEmptyRoot fs₁ root := by
        subst hput
        exact hf.isEmptyRoot hs hc
      dsimp only
      refine ⟨⟨ofSource_isTree limits ⟨root⟩ (.disk file) hself.tree, ?_, ?_⟩, fun report hok => ?_⟩
      · exact hself.grows.trans (ofSource_confined limits ⟨root⟩ (.disk file) fs₁).grows
      · exact hself.outside.trans (ofSource_sameOutside limits (.disk file) hroot)
      · rcases hx : ofSource limits ⟨root⟩ (.disk file) fs₁ with ⟨_ | report', fs₂⟩ <;>
          rw [hx] at hok
        · cases hok
        · obtain rfl := Except.ok.inj hok
          obtain ⟨a, hl, hx, -⟩ := (extraction_denotes limits ⟨root⟩ fs₁ fs₂ report' hroot).2 _ hx
          exact ⟨file, a, rfl, hl, hx⟩
    · exact ⟨hself, fun _ hok => by cases hok⟩

/-! ## Fresh names -/

/-- **A directory under a fresh name is made at a free place**, or nothing is. -/
theorem fresh_makeDirectory (htree : IsTree fs) (path : Nat → Path) :
    (∃ e, Temporary.fresh FileSystem.makeDirectory path fs = (.error e, fs))
      ∨ ∃ n root, Fresh fs (path n) root
        ∧ Temporary.fresh FileSystem.makeDirectory path fs
          = (.ok (path n), fs.put root .directory) := by
  rw [Temporary.fresh]
  rcases hf : Temporary.firstFree (FileSystem.makeDirectory fs) path (fs.nodes.length + 1) 0
    with e | ⟨p, fs'⟩
  · exact .inl ⟨_, rfl⟩
  · obtain ⟨n, rfl, hm⟩ := Temporary.firstFree_eq_ok hf
    obtain ⟨root, hfresh, rfl⟩ := Fresh.of_makeDirectory htree hm
    exact .inr ⟨n, root, hfresh, rfl⟩

end Extraction

end GuardedArchive
