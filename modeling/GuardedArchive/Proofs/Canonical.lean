import GuardedArchive.Proofs.Extraction.Ordinary

/-!
# Proofs/Canonical — what the checks answer, and what they make

    /l/x/../y   with   /l ⟶ /d        made: /d/x, /d/y        answered: /d/y

The location that a check answers is **canonical** for the path: no link stands on it, and its own
path leads to what the path leads to (`IsCanonical`).  Checking a path to read from changes nothing.
Checking one to write to makes directories at most, where the path or one above it leads, and none
where something stands at the path (`checks_answer_canonical`).
-/

namespace GuardedArchive

namespace FileSystem

variable {fs fs' : FileSystem} {followLast : Bool} {links : Nat} {here loc next : Location}
  {steps rest : List Step} {place : Place} {p : Path} {name : Name} {node : Node}

/-! ## Names that a directory can hold -/

/-- **A file system as it can be, names included**: whatever stands bears names that a directory
can hold. -/
structure IsNamed (fs : FileSystem) : Prop extends IsSound fs where
  names : ∀ loc node, fs.node? loc = some node →
    ∀ name ∈ loc, name.length ≤ maxNameLength ∧ (0 : UInt8) ∉ name

namespace IsNamed

/-- It is enough that what is stored bears such names. -/
theorem of_nodes (hs : IsSound fs) (h : ∀ e ∈ fs.nodes, ∀ name ∈ e.1,
    name.length ≤ maxNameLength ∧ (0 : UInt8) ∉ name) : IsNamed fs where
  toIsSound := hs
  names _ _ hn := of_node?_eq
    (P := fun loc => ∀ name ∈ loc, name.length ≤ maxNameLength ∧ (0 : UInt8) ∉ name)
    (fun _ hm => absurd hm List.not_mem_nil) h hn

/-- A directory is made under a name that a directory can hold. -/
theorem makeDirectory (h : IsNamed fs) (hm : fs.makeDirectory p = .ok fs') : IsNamed fs' := by
  have hsound := h.toIsSound.grows (h.tree.makeDirectory hm)
    (makeDirectory_addsDirectories hm).grows
  obtain ⟨root, hr, rfl⟩ := makeDirectory_eq_ok_iff.mp hm
  obtain ⟨hc, hl⟩ := placeOf_eq_ok_iff.mp hr
  obtain ⟨dir, last, rfl, hd, hlast, hfit⟩ := hl.vacant_last
  have hzero := zero_not_mem_of_mem_steps hc (List.mem_of_getLast? hlast)
  refine ⟨hsound, fun loc node hn name hname => ?_⟩
  rw [node?_put _ (List.concat_ne_nil last dir)] at hn
  split at hn
  next he =>
    rw [← he, List.mem_append, List.mem_singleton] at hname
    exact hname.elim (h.names dir _ hd name) fun he => he ▸ ⟨hfit, hzero⟩
  next => exact h.names loc node hn name hname

theorem writableDirectory (h : IsNamed fs) (p : Path) :
    IsNamed (Access.writableDirectory p fs).2 := by
  rw [Access.writableDirectory_files]
  split
  · exact makeTreeOf_keeps h p.ancestors fun _ _ _ _ h₁ hm => h₁.makeDirectory hm
  · exact h

theorem hasPath (h : IsNamed fs) (hn : fs.node? loc = some node)
    (hlen : loc.path.raw.length ≤ maxPathLength) : HasPath loc where
  fits name hm := (h.names loc node hn name hm).1
  checkPath := by
    refine checkPath_eq_ok_iff.mpr ⟨⟨fun hz => ?_, Path.isEmpty_path loc⟩, hlen⟩
    obtain ⟨name, hm, hz⟩ := zero_mem_path_iff.mp hz
    exact (h.names loc node hn name hm).2 hz

end IsNamed

/-! ## Canonical locations -/

theorem Fits.length_path_le (h : Fits true next name rest) :
    next.path.raw.length ≤ maxPathLength := by
  have hspell : isSpellable next rest = true := by simpa using (not_or.mp h).2
  rw [isSpellable, decide_eq_true_eq] at hspell
  omega

/-- **A walk that asks for paths on its way comes to a location that has one**, if the one that it
starts from has. -/
theorem Leads.length_path_le (h : Leads fs followLast true links here steps place)
    (hhere : here.path.raw.length ≤ maxPathLength) :
    place.location.path.raw.length ≤ maxPathLength := by
  induction h with
  | done => exact hhere
  | stay _ _ ih => exact ih hhere
  | up _ _ ih => exact ih ((Path.raw_path_above (List.dropLast_prefix _)).length_le.trans hhere)
  | free _ hfit | link _ hfit => exact hfit.length_path_le
  | follow _ _ _ _ _ ih =>
    refine ih ?_
    split
    · decide
    · exact hhere
  | into _ hfit _ _ _ ih => exact ih hfit.length_path_le

/-- **A location is canonical for a path** that leads to a node: its own path is absolute, without
pieces that stay or go up and without a link on it, and goes to that node too.  The system can be
asked for it, unless it is too long; and it can only be that where the path is relative and that of
the working directory is too long. -/
structure IsCanonical (fs : FileSystem) (p : Path) (loc : Location) (node : Node) : Prop where
  isAbsolute : loc.path.isAbsolute
  ne_dots : ∀ piece ∈ loc.path.pieces, piece ≠ Path.dot ∧ piece ≠ Path.dotDot
  linkless : Linkless fs loc
  led : ∀ followLast, fs.nodeAt followLast p = .ok (loc, node)
  goes : ∀ followLast,
    Leads fs followLast false maxLinks [] (lookupSteps loc.path) (.occupied loc node)
  leads : loc.path.raw.length ≤ maxPathLength →
    ∀ followLast, fs.nodeAt followLast loc.path = .ok (loc, node)
  short : p.isAbsolute ∨ fs.workingDirectory.path.raw.length ≤ maxPathLength →
    loc.path.raw.length ≤ maxPathLength

/-- **What stands at a path and is no link has its canonical location.** -/
theorem IsNamed.isCanonical (h : IsNamed fs) (hat : fs.nodeAt false p = .ok (loc, node))
    (hnode : ∀ target, node ≠ .link target) (hc : fs.canonicalize p = .ok (loc, node)) :
    IsCanonical fs p loc node := by
  obtain ⟨hproper, hplain⟩ := h.toIsSound.canonicalize hc
  obtain ⟨hcheck, hto⟩ := nodeAt_eq_ok_iff.mp hat
  have hn := hto.node?_eq
  exact {
    isAbsolute := Path.isAbsolute_path loc
    ne_dots := fun piece => Path.ne_dots_of_mem_pieces_path hproper
    linkless := hplain.linkless fun target hl => by
      rw [hn, Option.some_inj] at hl
      exact hnode target hl
    led := fun followLast => by
      cases followLast with
      | false => exact hat
      | true => exact nodeAt_eq_ok_iff.mpr ⟨hcheck, hto.followed hnode⟩
    goes := fun followLast => by
      have hnames : IsPlain fs ([] ++ loc) := hplain
      exact (leads_lookupSteps_path hproper).mpr
        (hnames.leads (fun name hm => (h.names loc node hn name hm).1) hn hnode)
    leads := fun hlen => hplain.nodeAt hproper (h.hasPath hn hlen) hn hnode
    short := fun hshort => by
      refine (canonicalize_eq_ok_iff.mp hc).2.length_path_le ?_
      rw [startOf]
      split
      next => decide
      next hrelative => exact hshort.resolve_left hrelative }

end FileSystem

namespace Access

open FileSystem

variable {fs fs' : FileSystem} {followLast : Bool} {p : Path} {loc : Location}

theorem isCanonical_of_readableFile (h : IsNamed fs) (hr : readableFile fs p = .ok loc) :
    ∃ content, IsCanonical fs p loc (.file content) := by
  obtain ⟨node, hn, -⟩ := bind_eq_ok_iff.mp hr
  obtain ⟨hl, hnode⟩ := nodeNotLink_eq_ok hn
  obtain ⟨content, hc⟩ := readableFile_eq_ok hr
  obtain ⟨rfl, hat⟩ := canonical_of_lstat hl hnode hc
  exact ⟨content, h.isCanonical hat hnode hc⟩

theorem isCanonical_of_readableDirectory (h : IsNamed fs)
    (hr : readableDirectory fs p = .ok loc) : IsCanonical fs p loc .directory := by
  obtain ⟨node, hn, -⟩ := bind_eq_ok_iff.mp hr
  obtain ⟨hl, hnode⟩ := nodeNotLink_eq_ok hn
  have hc := readableDirectory_eq_ok hr
  obtain ⟨rfl, hat⟩ := canonical_of_lstat hl hnode hc
  exact h.isCanonical hat hnode hc

/-- What is answered is canonical in the file system that is left. -/
theorem isCanonical_of_writableDirectory (h : IsNamed fs)
    (hw : writableDirectory p fs = (.ok loc, fs')) : IsCanonical fs' p loc .directory := by
  have hnamed : IsNamed fs' := by
    have hleft := h.writableDirectory p
    rwa [hw] at hleft
  obtain ⟨hat, hc⟩ := existingDirectory_eq_ok (existingDirectory_of_writableDirectory hw)
  exact hnamed.isCanonical hat Node.directory_ne_link hc

/-- **Where something stands at a path, or where it leads to, nothing is made.** -/
theorem writableDirectory_of_standing {found : Location × Node}
    (h : fs.nodeAt followLast p = .ok found) : (writableDirectory p fs).2 = fs := by
  obtain ⟨found', hat⟩ : ∃ found', fs.nodeAt false p = .ok found' := by
    cases followLast with
    | false => exact ⟨found, h⟩
    | true =>
      obtain ⟨hc, hl⟩ := nodeAt_eq_ok_iff.mp h
      obtain ⟨loc', node', hl'⟩ := hl.unfollowed false
      exact ⟨_, nodeAt_eq_ok_iff.mpr ⟨hc, hl'⟩⟩
  rw [writableDirectory_files, lstat, hat]
  exact if_neg (by simp [Except.map])

/-- **The directories that are made for a path are named by it, or by a path above it.** -/
theorem madeAt_writableDirectory (htree : IsTree fs) (p : Path) :
    MadeAt (fun q => q ∈ p.ancestors ∧ q.raw <+: p.raw) fs (writableDirectory p fs).2 := by
  rw [writableDirectory_files]
  split
  · refine .makeTreeOf htree p.ancestors fun q hq => ⟨hq, ?_⟩
    rcases Path.mem_ancestorsUpTo hq with rfl | ha
    · exact List.prefix_rfl
    · exact ha.raw
  · exact .refl _ fs

/-- **What the checks answer is canonical, and what they leave is what they were given**, but for
directories.  A file to read, a directory to list and one to write to are where the path leads, in
the last case behind the check.  The first two checks change nothing, by their type already: they
only look at the files (`Effect.look`).  The third, whatever comes of it, makes directories in free
places and nothing else, each where the path or one above it leads, and none where something stands
at the path or where the path leads to. -/
theorem checks_answer_canonical (h : IsNamed fs) (p : Path) :
    ((∀ loc, readableFile fs p = .ok loc → ∃ content, IsCanonical fs p loc (.file content))
      ∧ ((Effect.look fun fs => readableFile fs p : Operation Location) fs).2 = fs)
    ∧ ((∀ loc, readableDirectory fs p = .ok loc → IsCanonical fs p loc .directory)
      ∧ ((Effect.look fun fs => readableDirectory fs p : Operation Location) fs).2 = fs)
    ∧ (∀ loc fs', writableDirectory p fs = (.ok loc, fs') → IsCanonical fs' p loc .directory)
    ∧ MadeAt (fun q => q ∈ p.ancestors ∧ q.raw <+: p.raw) fs (writableDirectory p fs).2
    ∧ ∀ followLast found, fs.nodeAt followLast p = .ok found → (writableDirectory p fs).2 = fs := by
  refine ⟨⟨fun loc hr => ?_, rfl⟩, ⟨fun loc hr => ?_, rfl⟩, fun loc fs' hw => ?_, ?_,
    fun followLast found hat => ?_⟩
  · exact isCanonical_of_readableFile h hr
  · exact isCanonical_of_readableDirectory h hr
  · exact isCanonical_of_writableDirectory h hw
  · exact madeAt_writableDirectory h.tree p
  · exact writableDirectory_of_standing hat

/-- The link `l` leads to the directory `d`, which holds the file `f`. -/
def linkedFile : FileSystem where
  nodes := [([[0x64]], .directory), ([[0x64], [0x66]], .file [0x31]), ([[0x6c]], .link ⟨[0x64]⟩)]

theorem isNamed_linkedFile : IsNamed linkedFile := by
  refine .of_nodes ⟨isTree_of_nodes (by decide), fun _ hn => absurd hn List.not_mem_nil, rfl⟩ ?_
  decide

/-- The file is read through the link.  Behind the link `x` is made on the way to `y`, although the
path goes up again. -/
theorem linkedFile_answers_canonical :
    readableFile linkedFile (.ofString "/l/f") = .ok [[0x64], [0x66]]
    ∧ (∃ content, IsCanonical linkedFile (.ofString "/l/f") [[0x64], [0x66]] (.file content))
    ∧ ∃ fs', writableDirectory (.ofString "/l/x/../y") linkedFile = (.ok [[0x64], [0x79]], fs')
      ∧ fs'.nodes = linkedFile.nodes ++ [([[0x64], [0x78]], .directory),
        ([[0x64], [0x79]], .directory)]
      ∧ IsCanonical fs' (.ofString "/l/x/../y") [[0x64], [0x79]] .directory := by
  have hread : readableFile linkedFile (.ofString "/l/f") = .ok [[0x64], [0x66]] := by cbv
  have hmade : writableDirectory (.ofString "/l/x/../y") linkedFile = (.ok [[0x64], [0x79]],
      { linkedFile with nodes := linkedFile.nodes ++ [([[0x64], [0x78]], .directory),
        ([[0x64], [0x79]], .directory)] }) := by cbv
  exact ⟨hread, (checks_answer_canonical isNamed_linkedFile _).1.1 _ hread, _, hmade, rfl,
    (checks_answer_canonical isNamed_linkedFile _).2.2.1 _ _ hmade⟩

end Access

end GuardedArchive
