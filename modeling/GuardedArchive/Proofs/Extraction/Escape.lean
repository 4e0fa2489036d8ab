import Mathlib
import GuardedArchive.Proofs.Extraction.Confinement
import GuardedArchive.Proofs.FileSystem.Gap
import GuardedArchive.Proofs.Zip.Agreement

/-!
# Proofs/Extraction/Escape — when an extraction makes a directory outside its destination

`makeDirectoryWithin` looks where a directory is only once it is made.  So an entry below a link
that leads out is refused, but not before the directories that were missing behind the link stand
there (`escape_madeOutside`).  An extraction makes no directory outside exactly where none of its
turns leads out (`ofSource_keeps_directories_iff`): where no directory that an entry asks for has
its first missing place outside.
-/

namespace GuardedArchive

open FileSystem (AddsDirectories Grows IsTree LeadsOut MadeOutside)

namespace FileSystem

variable {fs fs' fs'' : FileSystem} {root loc : Location} {p : Path}

/-- **What is made outside by two changes is made outside by one of them.** -/
theorem madeOutside_trans_iff (h : Grows fs fs') (h' : Grows fs' fs'') :
    MadeOutside root fs fs'' ↔ MadeOutside root fs fs' ∨ MadeOutside root fs' fs'' := by
  constructor
  · rintro ⟨loc, hn, hd, hout⟩
    have hfirst := h.node loc
    have hsecond := h'.node loc
    rw [hn] at hfirst
    rw [hd] at hsecond
    cases hm : fs'.node? loc with
    | none => exact .inr ⟨loc, hm, hd, hout⟩
    | some node =>
      rw [hm] at hfirst hsecond
      cases hfirst with
      | directory => exact .inl ⟨loc, hn, hm, hout⟩
      | file => cases hsecond
  · rintro (⟨loc, hn, hd, hout⟩ | ⟨loc, hn, hd, hout⟩)
    · exact ⟨loc, hn, h'.directory hd, hout⟩
    · exact ⟨loc, h.free hn, hd, hout⟩

theorem not_madeOutside_self : ¬MadeOutside root fs fs := by
  rintro ⟨loc, hn, hd, -⟩
  rw [hn] at hd
  cases hd

/-- Opening a file makes no directory. -/
theorem madeOutside_create_iff (hc : fs'.create p = .ok (loc, fs'')) (content : Bytes) :
    MadeOutside root fs (fs'.put loc (.file content)) ↔ MadeOutside root fs fs' := by
  obtain ⟨-, hloc, hg, -⟩ := create_eq_ok hc
  have hnode : ∀ other, (fs'.put loc (.file content)).node? other = some .directory
      ↔ fs'.node? other = some .directory := fun other => by
    rw [fs'.node?_put hloc]
    split
    next he =>
      subst he
      generalize fs'.node? loc = node at hg
      cases hg <;> simp
    next => rfl
  simp only [MadeOutside, hnode]

end FileSystem

namespace Extraction

open FileSystem (madeOutside_makeTree_iff madeOutside_create_iff not_madeOutside_self
  madeOutside_trans_iff)
open Zip (Archive Entry Source)

variable {ι : Type} {limits : Limits} {dest : Destination} {entry : EntryDescriptor}
  {openEntry : ι → FileSystem → Except ArchiveError Entry} {describe : ι → EntryDescriptor}
  {item : ι} {items : List ι} {s s' : Extraction} {result : Except ArchiveError Unit}
  {fs fs' : FileSystem} {loc : Location} {p : Path} {root : Location}

/-- The directory that is made for a placement: it itself, or the one that its file stands in. -/
def directoryFor? : Placement → Option Path
  | .root => none
  | .directory _ p => some p
  | .file _ p => p.parent?

/-- An accepted entry asks for a directory whose way comes to a free place that is not below the
root. -/
def EntryLeadsOut (limits : Limits) (dest : Destination) (entry : EntryDescriptor)
    (s : Extraction) : Prop :=
  ∃ placement p, judge limits dest s.tally.names entry = .ok placement
    ∧ directoryFor? placement = some p ∧ LeadsOut dest.root s.files p

/-- The turn of an item asks for a directory whose way comes to a free place that is not below the
root. -/
def TurnLeadsOut (limits : Limits) (dest : Destination)
    (openEntry : ι → FileSystem → Except ArchiveError Entry) (item : ι) (s : Extraction) : Prop :=
  ∃ entry, limits.checkEntryCount s.counted.tally.entries = .ok ()
    ∧ openEntry item s.files = .ok entry ∧ EntryLeadsOut limits dest entry.descriptor s

/-! ## One entry -/

theorem isProper_below (dest : Destination) (entry : EntryDescriptor) :
    Location.IsProper (dest.base ++ entry.location) :=
  dest.isProper_base.append entry.isProper_location

theorem isProper_above (dest : Destination) (entry : EntryDescriptor) :
    Location.IsProper (dest.base ++ entry.location.dropLast) :=
  dest.isProper_base.append entry.isProper_location.dropLast

theorem entryLeadsOut_iff {placement : Placement}
    (hj : judge limits dest s.tally.names entry = .ok placement)
    (hp : directoryFor? placement = some p) :
    EntryLeadsOut limits dest entry s ↔ LeadsOut dest.root s.files p := by
  constructor
  · rintro ⟨placement', p', hj', hp', hout⟩
    obtain rfl : placement = placement' := Except.ok.inj (hj.symm.trans hj')
    obtain rfl : p = p' := Option.some.inj (hp.symm.trans hp')
    exact hout
  · exact fun hout => ⟨placement, p, hj, hp, hout⟩

/-- The directory of a file's placement is the one that the path of its parent leads to. -/
theorem directoryFor?_file
    (hj : judge limits dest s.tally.names entry
      = .ok (.file entry.placedName (dest.pathOf entry))) :
    directoryFor? (.file entry.placedName (dest.pathOf entry)) = some (above dest entry) :=
  parent?_pathOf (placementOf_eq_file (judge_eq_ok hj).2.2.2.symm).1

/-- A directory was made outside for a path exactly where its way comes to a free place there. -/
theorem madeOutside_makeDirectoryWithin_iff (root : Location) (htree : IsTree fs)
    (hloc : loc.IsProper) (h : dest.makeDirectoryWithin loc.path fs = (result, fs')) :
    MadeOutside root fs fs' ↔ LeadsOut root fs loc.path := by
  obtain rfl : (fs.makeTree loc.path).2 = fs' := by rw [← dest.makeDirectoryWithin_files, h]
  exact madeOutside_makeTree_iff htree hloc

theorem Handles.isTree (htree : IsTree s.files) (h : Handles limits dest entry s result s') :
    IsTree s'.files := by
  have hmade : ∀ {p : Path} {r : Except ArchiveError Unit} {fs : FileSystem},
      dest.makeDirectoryWithin p s.files = (r, fs) → IsTree fs := by
    intro p r fs hm
    obtain rfl : (s.files.makeTree p).2 = fs := by rw [← dest.makeDirectoryWithin_files, hm]
    exact htree.makeTreeOf _
  cases h with
  | refused | root => exact htree
  | noDirectory hj hm | directory hj hm | noParent hj hm | notOpened hj hm => exact hmade hm
  | cutOff hj hm hc | file hj hm hc => exact (hmade hm).create hc _

/-- **Handling an entry makes a directory outside exactly where the entry leads out.** -/
theorem Handles.madeOutside_iff (htree : IsTree s.files)
    (h : Handles limits dest entry s result s') :
    MadeOutside dest.root s.files s'.files ↔ EntryLeadsOut limits dest entry s := by
  have hmakes : ∀ {loc : Location} {r : Except ArchiveError Unit} {fs : FileSystem},
      loc.IsProper → dest.makeDirectoryWithin loc.path s.files = (r, fs) →
        (MadeOutside dest.root s.files fs ↔ LeadsOut dest.root s.files loc.path) :=
    madeOutside_makeDirectoryWithin_iff dest.root htree
  cases h with
  | refused hj =>
    refine iff_of_false not_madeOutside_self ?_
    rintro ⟨placement, p, hp, -⟩
    rw [hj] at hp
    cases hp
  | root hj =>
    refine iff_of_false not_madeOutside_self ?_
    rintro ⟨placement, p, hp, hd, -⟩
    obtain rfl : Placement.root = placement := Except.ok.inj (hj.symm.trans hp)
    cases hd
  | noDirectory hj hm | directory hj hm =>
    rw [entryLeadsOut_iff hj rfl]
    exact hmakes (isProper_below dest entry) hm
  | noParent hj hm | notOpened hj hm =>
    rw [entryLeadsOut_iff hj (directoryFor?_file hj)]
    exact hmakes (isProper_above dest entry) hm
  | cutOff hj hm hc | file hj hm hc =>
    rw [entryLeadsOut_iff hj (directoryFor?_file hj)]
    exact (madeOutside_create_iff hc _).trans (hmakes (isProper_above dest entry) hm)

/-! ## A whole extraction -/

theorem Turn.isTree (htree : IsTree s.files) (h : Turn limits dest openEntry item s result s') :
    IsTree s'.files := by
  cases h with
  | tooMany | unopened => exact htree
  | @handled entry _ _ hn ho hh => exact hh.isTree (s := s.inHand entry) htree

/-- **A turn makes a directory outside exactly where it leads out.** -/
theorem Turn.madeOutside_iff (htree : IsTree s.files)
    (h : Turn limits dest openEntry item s result s') :
    MadeOutside dest.root s.files s'.files ↔ TurnLeadsOut limits dest openEntry item s := by
  cases h with
  | tooMany hn =>
    refine iff_of_false not_madeOutside_self ?_
    rintro ⟨entry, hn', -⟩
    rw [hn] at hn'
    cases hn'
  | unopened hn ho =>
    refine iff_of_false not_madeOutside_self ?_
    rintro ⟨entry, -, ho', -⟩
    rw [ho] at ho'
    cases ho'
  | @handled entry result s' hn ho hh =>
    have hout := hh.madeOutside_iff (s := s.inHand entry) htree
    rw [show MadeOutside dest.root s.files s'.files ↔ _ from hout]
    constructor
    · exact fun hout => ⟨entry, hn, ho, hout⟩
    · rintro ⟨entry', -, ho', hout⟩
      obtain rfl : entry = entry' := Except.ok.inj (ho.symm.trans ho')
      exact hout

/-- **An extraction makes a directory outside exactly where one of its turns leads out.** -/
theorem extractEach_madeOutside_iff (limits : Limits) (dest : Destination)
    (hd : Describes openEntry describe) :
    ∀ (items : List ι) (s : Extraction), IsTree s.files →
      (MadeOutside dest.root s.files (extractEach limits dest openEntry items s).2.files
        ↔ SomeTurn limits dest openEntry (TurnLeadsOut limits dest openEntry) items s)
  | [], s, _ => iff_of_false not_madeOutside_self (not_someTurn_nil s)
  | item :: items, s, htree => by
    have hturn := turn_ends limits dest openEntry item s
    rw [extractEach_cons]
    cases ht : turn limits dest openEntry item s with
    | mk result s' =>
      rw [ht] at hturn
      have hone := hturn.madeOutside_iff htree
      cases result with
      | error e => exact hone.trans (someTurn_cons_of_error ht).symm
      | ok _ =>
        have hrest := extractEach_madeOutside_iff limits dest hd items s' (hturn.isTree htree)
        have hgrows := (hturn.confined hd).grows
        have hgrows' := ((extractEach_ends limits dest openEntry items s').confined hd).grows
        rw [someTurn_cons_of_ok ht, ← hrest, ← hone]
        exact madeOutside_trans_iff hgrows hgrows'

/-- **An extraction keeps to its destination with every directory that it makes exactly where no
turn of it leads out**: where no directory that an entry asks for, when its turn comes, has the
first missing place of its way outside. -/
theorem ofSource_keeps_directories_iff (limits : Limits) (dest : Destination) (source : Source)
    (fs : FileSystem) (htree : IsTree fs) :
    (∀ loc, fs.node? loc = none → (ofSource limits dest source fs).2.node? loc = some .directory →
        dest.root <+: loc)
      ↔ ∀ archive, Archive.load limits source fs = .ok archive →
        ¬SomeTurn limits dest archive.openEntry (TurnLeadsOut limits dest archive.openEntry)
          archive.records { files := fs } := by
  have hout : (∀ loc, fs.node? loc = none →
      (ofSource limits dest source fs).2.node? loc = some .directory → dest.root <+: loc)
        ↔ ¬MadeOutside dest.root fs (ofSource limits dest source fs).2 := by
    simp only [MadeOutside, not_exists, not_and, not_not]
  rw [hout, ofSource_apply]
  cases hl : Archive.load limits source fs with
  | error e => exact iff_of_true not_madeOutside_self fun archive he => by cases he
  | ok archive =>
    have hiff := extractEach_madeOutside_iff limits dest (describes_openEntry archive)
      archive.records { files := fs } htree
    dsimp only
    rw [run_apply, show MadeOutside dest.root fs _ ↔ _ from hiff]
    constructor
    · rintro hno archive' he
      obtain rfl := Except.ok.inj he
      exact hno
    · exact fun hno => hno archive rfl

/-! ## A directory behind a link -/

/-- In the directory `t` the link `e` leads to `/o`. -/
def linkedOut : FileSystem where
  nodes := [([[0x74]], .directory), ([[0x6f]], .directory),
    ([[0x74], [0x65]], .link (.ofString "/o"))]

/-- An archive with the empty file `e/s/f`. -/
def behindLink : Bytes :=
  (({} : Zip.Writer).add ⟨Bytes.ofString "e/s/f", .stored, Zip.fileMode⟩ []).finish

theorem load_behindLink : Archive.load {} (.memory behindLink) linkedOut
    = .ok ⟨.memory behindLink, [Zip.emptyEntry "e/s/f" 0]⟩ := by
  have hread : (Zip.readDirectory behindLink).toOption = some [Zip.emptyEntry "e/s/f" 0] := by
    decide +kernel
  have hscan : (Zip.scan {} .memory behindLink).toOption = some 1 := by decide +kernel
  exact Archive.load_eq_ok_iff.mpr ⟨eq_ok_of_toOption hread, eq_ok_of_toOption hscan, rfl⟩

/-- Extracting into `/t`, the directory `/o/s` is made before `e/s/f` is refused. -/
theorem ofSource_behindLink :
    (ofSource {} ⟨[[0x74]]⟩ (.memory behindLink) linkedOut).2.node? [[0x6f], [0x73]]
      = some .directory := by
  obtain ⟨entry, ho⟩ : ∃ entry, Archive.openEntry
      ⟨.memory behindLink, [Zip.emptyEntry "e/s/f" 0]⟩ (Zip.emptyEntry "e/s/f" 0) linkedOut
        = .ok entry := by
    apply exists_ok_of_isSome
    decide +kernel
  have hd := describes_openEntry _ _ _ _ ho
  have hj : judge {} ⟨[[0x74]]⟩ [] (Zip.emptyEntry "e/s/f" 0).descriptor
      = .ok (.file "e/s/f" (.ofString "/t/e/s/f")) := eq_ok_of_toOption (by decide +kernel)
  rw [ofSource_apply, load_behindLink]
  dsimp only
  rw [run_apply]
  dsimp only
  rw [extractEach_cons, turn_apply]
  simp only [ho, extractEntry_apply, hd, inHand, counted, Tally.recordEntry, hj]
  cbv

/-- The extraction does not keep to `/t`, as a turn of it leads out. -/
theorem leadsOut_behindLink : IsTree linkedOut
    ∧ ¬∀ archive, Archive.load {} (.memory behindLink) linkedOut = .ok archive →
      ¬SomeTurn {} ⟨[[0x74]]⟩ archive.openEntry (TurnLeadsOut {} ⟨[[0x74]]⟩ archive.openEntry)
        archive.records { files := linkedOut } := by
  have htree : IsTree linkedOut := FileSystem.isTree_of_nodes (by decide)
  refine ⟨htree, fun hno => ?_⟩
  have hkeeps := (ofSource_keeps_directories_iff {} ⟨[[0x74]]⟩ (.memory behindLink) linkedOut
    htree).mpr hno
  exact absurd (hkeeps [[0x6f], [0x73]] (by decide) ofSource_behindLink) (by decide)

/-- **A refused entry may leave a directory outside the destination.** -/
theorem escape_madeOutside : MadeOutside [[0x74]] linkedOut
    (ofSource {} ⟨[[0x74]]⟩ (.memory behindLink) linkedOut).2 :=
  ⟨[[0x6f], [0x73]], by decide, ofSource_behindLink, by decide⟩

end Extraction

end GuardedArchive
