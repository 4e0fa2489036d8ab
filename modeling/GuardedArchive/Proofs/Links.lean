import GuardedArchive.Creation.Archive
import GuardedArchive.Proofs.Extraction.Atomic
import GuardedArchive.Proofs.Extraction.Ordinary

/-!
# Proofs/Links — links in the last place of a path, however it is spelled

    l    //l    x/../l      the link itself is looked up, and refused
    l/   l/.    l//         a directory is asked for: the link is followed

No check lets a link pass in the last place of a path, unless the spelling of the path **asks for a
directory** (`Path.asksForDirectory`): then the link is followed before anybody looks at it.  So a
file is never read through such a link, and a directory that it leads to passes exactly where the
spelling asks for one (`refusesLink`).  What is named anew under the path's last name, as the target
of an atomic extraction, is never a link in any spelling (`entryPoints_refuse_link`).
-/

namespace GuardedArchive

/-! ## Spellings that ask for a directory -/

/-- A path spelled so that it asks for a directory: a slash or `.` stands at its end. -/
def Path.asksForDirectory (p : Path) : Bool :=
  p.endsWithSlash || p.pieces.getLast? == some Path.dot

theorem Path.isAbsolute_join_eq {name : Name} (p : Path) (h : Name.IsProper name) :
    (p.join ⟨name⟩).isAbsolute = p.isAbsolute := by
  obtain ⟨raw⟩ := p
  rw [join, not_isAbsolute_name h]
  simp only [Bool.false_eq_true, if_false]
  cases raw with
  | nil => exact not_isAbsolute_name h
  | cons b bs => split <;> rfl

/-- A path of more than one piece of which the last is empty ends with a slash. -/
theorem Path.endsWithSlash_of_pieces {p : Path} {front : List Bytes} (hne : front ≠ [])
    (h : p.pieces = front ++ [[]]) : p.endsWithSlash := by
  have hraw : joined p.pieces = p.raw := List.intercalate_splitOn _
  rw [endsWithSlash, ← hraw, h, joined, intercalate_concat slash hne, List.getLast?_concat]
  rfl

namespace FileSystem

variable {fs fs' : FileSystem} {followLast spelled : Bool} {links : Nat} {here loc dir : Location}
  {steps still still' : List Step} {name : Name} {node : Node} {p q : Path} {target : Path}

/-- **A path asks for a directory where looking it up ends with staying.** -/
theorem getLast?_lookupSteps (p : Path) :
    (lookupSteps p).getLast? = some .stay ↔ p.asksForDirectory := by
  rw [lookupSteps, Path.asksForDirectory]
  by_cases hslash : p.endsWithSlash
  · rw [if_pos hslash, hslash, List.getLast?_concat]
    exact iff_of_true rfl rfl
  rw [if_neg hslash, eq_false_of_ne_true hslash, Bool.false_or, beq_iff_eq, Path.steps]
  rcases List.eq_nil_or_concat' p.pieces with hp | ⟨front, last, hp⟩
  · simp [hp]
  rw [hp, List.filterMap_append, List.getLast?_concat, Option.some_inj]
  by_cases hempty : last = []
  · -- a last piece that is empty is the whole of the empty path
    subst hempty
    obtain rfl : front = [] := by
      by_contra hne
      exact hslash (Path.endsWithSlash_of_pieces hne hp)
    exact iff_of_false (by simp [Path.stepOf]) (by simp [Path.dot])
  by_cases hdot : last = Path.dot
  · subst hdot
    refine iff_of_true ?_ rfl
    exact List.getLast?_concat
  refine iff_of_false (fun h => ?_) hdot
  obtain ⟨step, hstep, hne⟩ : ∃ step, Path.stepOf last = some step ∧ step ≠ .stay := by
    rw [Path.stepOf, if_neg hempty, if_neg hdot]
    split <;> exact ⟨_, rfl, by simp⟩
  rw [List.filterMap_cons_some hstep, List.filterMap_nil, List.getLast?_concat] at h
  exact hne (Option.some.inj h)

/-- Who stays behind a walk stays in a directory. -/
theorem Leads.directory_of_still
    (h : Leads fs followLast spelled links here (steps ++ still) (.occupied loc node))
    (hstill : ∀ s ∈ still, s = .stay) (hne : still ≠ []) : node = .directory := by
  obtain ⟨left, dir, found, -, hnext⟩ := h.split hne
  obtain ⟨first, others, rfl⟩ := List.exists_cons_of_ne_nil hne
  have hd := hnext.here_directory
  rw [← List.append_nil (first :: others)] at hnext
  cases hnext.of_still hstill with
  | done hn => exact Option.some.inj (hn.symm.trans hd)

/-- **What asks for a directory finds a directory**, if it finds anything. -/
theorem directory_of_asksForDirectory (hask : p.asksForDirectory)
    (h : fs.nodeAt followLast p = .ok (loc, node)) : node = .directory := by
  have hl := (nodeAt_eq_ok_iff.mp h).2
  obtain ⟨front, hlook⟩ := List.getLast?_eq_some_iff.mp ((getLast?_lookupSteps p).mpr hask)
  rw [hlook] at hl
  exact hl.directory_of_still (by simp) (List.cons_ne_nil _ _)

/-- Asking for a directory follows a link in the last place. -/
theorem nodeAt_of_asksForDirectory (hask : p.asksForDirectory)
    (h : fs.canonicalize p = .ok (loc, .directory)) :
    fs.nodeAt false p = .ok (loc, .directory) := by
  obtain ⟨hc, hl⟩ := canonicalize_eq_ok_iff.mp h
  obtain ⟨loc', node', hl'⟩ := hl.unspelled.unfollowed false
  obtain rfl := directory_of_asksForDirectory hask (nodeAt_eq_ok_iff.mpr ⟨hc, hl'⟩)
  obtain ⟨rfl, -⟩ :=
    Place.occupied.inj ((hl'.followed Node.directory_ne_link).unique hl.unspelled)
  exact nodeAt_eq_ok_iff.mpr ⟨hc, hl'⟩

/-! ## Links in the last place -/

/-- **A link stands in the last place of the path**: under its last component, in its parent. -/
def LastIsLink (fs : FileSystem) (p : Path) : Prop :=
  ∃ parent name target, p.parent? = some parent ∧ p.fileName? = some name
    ∧ fs.lstat (parent.join ⟨name⟩) = .ok (.link target)

/-- The steps before the last one into a name are known. -/
theorem eq_of_last_into {front front' : List Step} {name' : Name}
    (h : front ++ .into name :: still = front' ++ .into name' :: still')
    (hstill : ∀ s ∈ still, s = .stay) (hstill' : ∀ s ∈ still', s = .stay) :
    front = front' ∧ name = name' := by
  rcases List.append_eq_append_iff.mp h with ⟨more, rfl, hmore⟩ | ⟨more, rfl, hmore⟩ <;>
    rcases more with _ | ⟨step, more⟩
  · exact ⟨(List.append_nil _).symm, Step.into.inj (List.cons.inj hmore).1⟩
  · have := hstill (.into name') ((List.cons.inj hmore).2 ▸ by simp)
    cases this
  · exact ⟨List.append_nil _, (Step.into.inj (List.cons.inj hmore).1).symm⟩
  · have := hstill' (.into name) ((List.cons.inj hmore).2 ▸ by simp)
    cases this

/-- Steps are on the way to the last name if one behind them does not stay. -/
theorem prefix_of_last_into {front more : List Step} {step : Step}
    (h : front ++ .into name :: still = steps ++ more) (hstill : ∀ s ∈ still, s = .stay)
    (hstep : step ∈ more) (hmoves : step ≠ .stay) : ∃ rest, front = steps ++ rest := by
  rcases List.append_eq_append_iff.mp h with ⟨between, rfl, hlast⟩ | ⟨rest, hfront, -⟩
  · rcases between with _ | ⟨first, between⟩
    · exact ⟨[], by rw [List.append_nil, List.append_nil]⟩
    · have hstay : step ∈ still := by
        rw [(List.cons.inj hlast).2]
        exact List.mem_append_right _ hstep
      exact absurd (hstill step hstay) hmoves
  · exact ⟨rest, hfront⟩

/-- The steps to the directory that a name is looked up in, those that stay among them. -/
theorem Names.leads (h : Names fs p dir name) : ∃ front still',
    p.steps = front ++ .into name :: still' ∧ (∀ s ∈ still', s = .stay)
      ∧ Leads fs true false maxLinks (fs.startOf p) front (.occupied dir .directory) := by
  obtain ⟨front, still, still', hsteps, hstill, hstill', hto⟩ := h
  refine ⟨front ++ still, still', by rw [hsteps, List.append_assoc], hstill', ?_⟩
  by_cases hne : still = []
  · rwa [hne, List.append_nil]
  · exact hto.append_still hstill hne

/-- **The last name of a path is looked up in one directory.** -/
theorem Names.unique {dir' : Location} {name' : Name} (h : Names fs p dir name)
    (h' : Names fs p dir' name') : dir = dir' ∧ name = name' := by
  obtain ⟨front, still, hsteps, hstill, hto⟩ := h.leads
  obtain ⟨front', still', hsteps', hstill', hto'⟩ := h'.leads
  obtain ⟨rfl, rfl⟩ := eq_of_last_into (hsteps.symm.trans hsteps') hstill hstill'
  exact ⟨(Place.occupied.inj (hto.unique hto')).1, rfl⟩

/-- The link stands under the last name of the path. -/
theorem LastIsLink.names (h : LastIsLink fs p) : ∃ dir name target, p.fileName? = some name
    ∧ Names fs p dir name ∧ fs.node? (dir ++ [name]) = some (.link target) := by
  obtain ⟨parent, name, target, hparent, hname, hlink⟩ := h
  obtain ⟨hproper, q, hq, habs, -, still, still', hsteps, hstill, hstill'⟩ :=
    Path.fileName?_eq_some hname
  obtain rfl : parent = q := Option.some.inj (hparent.symm.trans hq)
  obtain ⟨loc, hat⟩ := lstat_eq_ok_iff.mp hlink
  have hl := (nodeAt_eq_ok_iff.mp hat).2
  obtain ⟨last, hlook, hlast⟩ := exists_lookupSteps (parent.join ⟨name⟩)
  have hstart : fs.startOf (parent.join ⟨name⟩) = fs.startOf p := by
    rw [startOf, startOf, Path.isAbsolute_join_eq parent hproper, habs]
  rw [hlook, Path.steps_join parent hproper, List.append_assoc, hstart] at hl
  obtain ⟨left, dir, found, hto, hnext⟩ := hl.split (by simp)
  obtain rfl : found = .directory :=
    Option.some.inj (hto.node?_eq.symm.trans hnext.here_directory)
  refine ⟨dir, name, ?_⟩
  obtain ⟨at', hn, hat'⟩ : ∃ at', fs.node? (dir ++ [name]) = some at'
      ∧ ((∀ target, at' ≠ .link target) → loc = dir ++ [name]) :=
    Leads.among_still (List.nil_append _ ▸ hnext) (List.forall_mem_nil _) hlast
  cases at' with
  | link target' =>
    exact ⟨target', hname, ⟨parent.steps, still, still', by rw [hsteps, List.append_assoc],
      hstill, hstill', hto⟩, hn⟩
  | directory | file | pipe =>
    obtain rfl := hat' (by simp)
    rw [hl.node?_eq] at hn
    cases hn

/-- **Looked up without asking for a directory, the path leads to the link itself.** -/
theorem asksForDirectory_of_nodeAt (hnames : Names fs p dir name)
    (hlink : fs.node? (dir ++ [name]) = some (.link target))
    (h : fs.nodeAt false p = .ok (loc, node)) (hnode : ∀ target, node ≠ .link target) :
    p.asksForDirectory := by
  obtain ⟨front, still, still', hlook, hstill, hstill', hto⟩ := hnames.lookup
  have hl := (nodeAt_eq_ok_iff.mp h).2
  rw [hlook] at hl
  obtain ⟨left, dir', found, hto', hnext⟩ := hl.split (by simp)
  obtain ⟨rfl, -⟩ := Place.occupied.inj (hto.unique hto')
  rw [← getLast?_lookupSteps, hlook]
  cases hnext.of_still hstill with
  | link => exact absurd rfl (hnode _)
  | into _ _ hn hno =>
    rw [hlink, Option.some_inj] at hn
    exact absurd hn.symm (hno _)
  | follow _ _ _ hmore _ =>
    -- the link is not in the last place of the steps, so that some stay behind it
    obtain ⟨others, last, rfl⟩ := (List.eq_nil_or_concat' still').resolve_left fun he =>
      hmore ⟨he, rfl⟩
    obtain rfl := hstill' last (by simp)
    rw [← List.cons_append, ← List.append_assoc, ← List.append_assoc, List.getLast?_concat]

/-! ## Directories are not made on the way -/

/-- Nothing is made where the path leads to something. -/
theorem makeDirectory_ne_ok_of_leads
    (h : Leads fs true false maxLinks (fs.startOf p) p.steps (.occupied loc node)) :
    fs.makeDirectory p ≠ .ok fs' := by
  intro hm
  obtain ⟨loc', hr, -⟩ := makeDirectory_eq_ok_iff.mp hm
  obtain ⟨at', node', hl⟩ := h.unfollowed false
  have := (placeOf_eq_ok_iff.mp hr).2.unique hl
  cases this

/-- A directory is not made in the place of a link. -/
theorem makeDirectory_ne_ok_of_link (hnames : Names fs p dir name)
    (hlink : fs.node? (dir ++ [name]) = some (.link target)) : fs.makeDirectory p ≠ .ok fs' := by
  intro hm
  obtain ⟨loc, hr, -⟩ := makeDirectory_eq_ok_iff.mp hm
  have hl := (placeOf_eq_ok_iff.mp hr).2
  obtain ⟨-, name', -, -, hlast, -⟩ := hl.vacant_last
  obtain ⟨front, still, hsteps, hstill, hto⟩ := hnames.leads
  rw [hsteps] at hl hlast
  -- a free place bears the name of the last step, so that none stays behind the link's
  obtain rfl : still = [] := by
    rcases List.eq_nil_or_concat' still with he | ⟨others, last, rfl⟩
    · exact he
    · obtain rfl := hstill last (by simp)
      rw [← List.cons_append, ← List.append_assoc, List.getLast?_concat] at hlast
      cases hlast
  obtain ⟨left, dir', found, hto', hnext⟩ := hl.split (by simp)
  obtain ⟨rfl, -⟩ := Place.occupied.inj (hto.unique hto')
  cases hnext with
  | free _ _ hn => rw [hlink] at hn; cases hn
  | follow _ _ _ hmore => exact hmore ⟨rfl, rfl⟩
  | into _ _ hn hno h => cases h

/-- **Where a link stands in the last place no directory is made**, neither there nor above. -/
theorem makeTree_of_link (hnames : Names fs p dir name)
    (hlink : fs.node? (dir ++ [name]) = some (.link target)) : (fs.makeTree p).2 = fs := by
  refine makeTreeOf_keeps (P := (· = fs)) rfl p.ancestors ?_
  intro q hq fs₁ fs₂ hsame hm
  obtain rfl := hsame.symm
  exfalso
  rcases Path.mem_ancestorsUpTo hq with rfl | habove
  · exact makeDirectory_ne_ok_of_link hnames hlink hm
  have hqe : q.isEmpty = false := by
    obtain ⟨_, hr, -⟩ := makeDirectory_eq_ok_iff.mp hm
    exact (checkPath_eq_ok_iff.mp (placeOf_eq_ok_iff.mp hr).1).1.2
  obtain ⟨habs, more, hmore, step, hstep, hmoves⟩ := habove.steps hqe
  obtain ⟨front, still, hsteps, hstill, hto⟩ := hnames.leads
  have hstart : fs.startOf q = fs.startOf p := by rw [startOf, startOf, habs]
  obtain ⟨rest, rfl⟩ := prefix_of_last_into (hsteps.symm.trans hmore) hstill hstep hmoves
  rw [← hstart] at hto
  by_cases hrest : rest = []
  · rw [hrest, List.append_nil] at hto
    exact makeDirectory_ne_ok_of_leads hto hm
  · obtain ⟨_, _, _, hto', -⟩ := hto.split hrest
    exact makeDirectory_ne_ok_of_leads hto' hm

end FileSystem

/-! ## The checks -/

namespace Access

open FileSystem

variable {fs fs' : FileSystem} {p : Path} {loc : Location}

/-- A directory that is asked for passes for itself. -/
theorem nodeNotLink_of_asksForDirectory (hask : p.asksForDirectory)
    (h : fs.canonicalize p = .ok (loc, .directory)) : nodeNotLink fs p = .ok .directory := by
  rw [nodeNotLink, lstat_eq_ok_iff.mpr ⟨loc, nodeAt_of_asksForDirectory hask h⟩]

/-- What a check lets pass where a link stands in the last place is a directory that is asked
for. -/
theorem asksForDirectory_of_nodeNotLink {node : Node} (h : LastIsLink fs p)
    (hn : nodeNotLink fs p = .ok node) : p.asksForDirectory := by
  obtain ⟨hl, hnode⟩ := nodeNotLink_eq_ok hn
  obtain ⟨dir, name, target, -, hnames, hlink⟩ := h.names
  obtain ⟨loc, hat⟩ := lstat_eq_ok_iff.mp hl
  exact asksForDirectory_of_nodeAt hnames hlink hat hnode

/-- **What the checks say of a path with a link in the last place**: it is no file to read, and a
directory only where its spelling asks for one and the link leads to one. -/
structure RefusesLink (fs : FileSystem) (p : Path) : Prop where
  readableFile : ∀ loc, readableFile fs p ≠ .ok loc
  readableDirectory : ∀ loc, readableDirectory fs p = .ok loc
    ↔ p.asksForDirectory ∧ fs.canonicalize p = .ok (loc, .directory)
  writableDirectory : ∀ loc fs', writableDirectory p fs = (.ok loc, fs')
    ↔ p.asksForDirectory ∧ fs.canonicalize p = .ok (loc, .directory) ∧ fs' = fs

theorem refusesLink (h : LastIsLink fs p) : RefusesLink fs p where
  readableFile loc hr := by
    obtain ⟨content, hc⟩ := readableFile_eq_ok hr
    obtain ⟨node, hn, -⟩ := bind_eq_ok_iff.mp hr
    obtain ⟨hcheck, hl⟩ := canonicalize_eq_ok_iff.mp hc
    have hd := directory_of_asksForDirectory (asksForDirectory_of_nodeNotLink h hn)
      (nodeAt_eq_ok_iff.mpr ⟨hcheck, hl.unspelled⟩)
    cases hd
  readableDirectory loc := by
    constructor
    · intro hr
      obtain ⟨node, hn, -⟩ := bind_eq_ok_iff.mp hr
      exact ⟨asksForDirectory_of_nodeNotLink h hn, readableDirectory_eq_ok hr⟩
    · rintro ⟨hask, hc⟩
      exact bind_eq_ok_iff.mpr ⟨.directory, nodeNotLink_of_asksForDirectory hask hc,
        bind_eq_ok_iff.mpr ⟨(loc, .directory), canonical_eq_ok_iff.mpr hc, rfl⟩⟩
  writableDirectory loc fs' := by
    constructor
    · intro hw
      have hsame : (Access.writableDirectory p fs).2 = fs := by
        obtain ⟨dir, name, target, -, hnames, hlink⟩ := h.names
        rw [writableDirectory_files, makeTree_of_link hnames hlink, ite_self]
      rw [hw] at hsame
      subst hsame
      have he := existingDirectory_of_writableDirectory hw
      obtain ⟨node, hn, -⟩ := bind_eq_ok_iff.mp he
      exact ⟨asksForDirectory_of_nodeNotLink h hn, (existingDirectory_eq_ok he).2, rfl⟩
    · rintro ⟨hask, hc, rfl⟩
      exact writableDirectory_of_existingDirectory (bind_eq_ok_iff.mpr
        ⟨.directory, nodeNotLink_of_asksForDirectory hask hc,
          bind_eq_ok_iff.mpr ⟨(loc, .directory), canonical_eq_ok_iff.mpr hc, rfl⟩⟩)

end Access

/-! ## The entry points -/

/-- The operation does not succeed. -/
def Operation.Fails {α : Type} (op : Operation α) (fs : FileSystem) : Prop :=
  ∀ a fs', op fs ≠ (.ok a, fs')

theorem Operation.fails_bind {α β : Type} {op : Operation α} {f : α → Operation β}
    {fs : FileSystem} (h : op.Fails fs) : Operation.Fails (op >>= f) fs := fun b fs' hb => by
  obtain ⟨a, fs₁, ha, -⟩ := Effect.bind_eq_ok_iff.mp hb
  exact h a fs₁ ha

theorem Operation.fails_look {α : Type} {question : FileSystem → Except ArchiveError α}
    {fs : FileSystem} (h : ∀ a, question fs ≠ .ok a) : Operation.Fails (Effect.look question) fs :=
  fun a _ ha => h a (Prod.mk.inj ha).1

namespace Extraction

open FileSystem

variable {fs : FileSystem} {p : Path}

/-- **The target of an atomic extraction is no link**, however it is spelled. -/
theorem extractAtomic_fails_of_link (hs : IsSound fs) (h : LastIsLink fs p) (limits : Limits)
    (archive : Path) : Operation.Fails (extractAtomic limits archive p) fs := by
  intro report fs' hx
  rcases extractAtomic_cases hs limits archive p with
    ⟨e, fs₁, he, -⟩ | ⟨_, _, _, _, dir, b, -, -, -, hin, hcomplete⟩
  · rw [hx] at he
    cases (Prod.mk.inj he).1
  obtain ⟨dir', name, target, hname, hnames, hlink⟩ := h.names
  have hgrows := (Access.writableDirectory_addsDirectories (parentOf p) fs).grows
  obtain ⟨rfl, rfl⟩ := hin.names.unique (hnames.grows hgrows)
  rcases hcomplete.free with hn | hn <;> rw [hgrows.link hlink] at hn <;> cases hn

/-- **What the entry points make of a path with a link in the last place.**  It is never an archive
or a file to compress, nor the target of an atomic extraction; it is the target of an extraction or
a tree to compress only where its spelling asks for a directory. -/
structure RefusesLink (fs : FileSystem) (p : Path) : Prop where
  archive : ∀ limits, (∀ entries, list limits p fs ≠ .ok entries)
    ∧ (∀ target, Operation.Fails (extract limits p target) fs)
    ∧ (∀ target, Operation.Fails (extractAtomic limits p target) fs)
    ∧ ∀ pre, Operation.Fails (extractTemporary limits pre p) fs
  source : ∀ disk deflate settings requested,
    Operation.Fails (Creation.compressFile disk deflate settings p requested) fs
  atomicTarget : ∀ limits archive, Operation.Fails (extractAtomic limits archive p) fs
  directory : p.asksForDirectory = false → Operation.Fails (Destination.ofPath p) fs
    ∧ (∀ limits archive, Operation.Fails (extract limits archive p) fs)
    ∧ ∀ disk deflate limits settings requested,
      Operation.Fails (Creation.compressDirectory disk deflate limits settings p requested) fs

/-- **A link in the last place of a path is refused by all checks and entry points**, but for the
directory that the spelling of the path asks for. -/
theorem entryPoints_refuse_link (hs : IsSound fs) (h : LastIsLink fs p) :
    Access.RefusesLink fs p ∧ RefusesLink fs p := by
  have hchecks := Access.refusesLink h
  have hfile : Operation.Fails (Effect.look fun fs => Access.readableFile fs p) fs :=
    Operation.fails_look hchecks.readableFile
  refine ⟨hchecks, fun limits => ⟨fun entries hlist => ?_, fun _ => Operation.fails_bind hfile,
    fun _ => Operation.fails_bind hfile, fun _ => Operation.fails_bind hfile⟩,
    fun _ _ _ _ => Operation.fails_bind hfile, extractAtomic_fails_of_link hs h,
    fun hask => ?_⟩
  · obtain ⟨file, hread, -⟩ := bind_eq_ok_iff.mp hlist
    exact hchecks.readableFile file hread
  · have hno : ¬p.asksForDirectory := by rw [hask]; exact Bool.false_ne_true
    have hwritable : Operation.Fails (Access.writableDirectory p) fs := fun loc fs' hw =>
      hno ((hchecks.writableDirectory loc fs').mp hw).1
    have hreadable : Operation.Fails (Effect.look fun fs => Access.readableDirectory fs p) fs :=
      Operation.fails_look fun loc hr => hno ((hchecks.readableDirectory loc).mp hr).1
    refine ⟨Operation.fails_bind hwritable, fun limits archive report fs' hx => ?_,
      fun _ _ _ _ _ => Operation.fails_bind hreadable⟩
    obtain ⟨file, fs₁, hlook, hx⟩ := Effect.bind_eq_ok_iff.mp hx
    obtain ⟨-, rfl⟩ := Prod.mk.inj hlook
    exact Operation.fails_bind (Operation.fails_bind hwritable) report fs' hx

/-- The link `l` leads to the directory `d`. -/
def linkedDirectory : FileSystem where
  nodes := [([[0x64]], .directory), ([[0x6c]], .link ⟨[0x64]⟩)]

theorem isSound_linkedDirectory : IsSound linkedDirectory where
  tree := isTree_of_flat (by decide)
  proper := fun _ hn => absurd hn List.not_mem_nil
  here := rfl

theorem lastIsLink_linkedDirectory : LastIsLink linkedDirectory (.ofString "/l")
    ∧ LastIsLink linkedDirectory (.ofString "/l/") := by
  have hlink : linkedDirectory.lstat (Path.join ⟨[0x2f]⟩ ⟨[0x6c]⟩) = .ok (.link ⟨[0x64]⟩) := by cbv
  exact ⟨⟨⟨[0x2f]⟩, [0x6c], ⟨[0x64]⟩, by decide, by decide, hlink⟩,
    ⟨⟨[0x2f]⟩, [0x6c], ⟨[0x64]⟩, by decide, by decide, hlink⟩⟩

/-- Spelled without a slash, the link is refused everywhere. -/
theorem entryPoints_refuse_link_plain : LastIsLink linkedDirectory (.ofString "/l")
    ∧ Path.asksForDirectory (.ofString "/l") = false
    ∧ Access.RefusesLink linkedDirectory (.ofString "/l")
    ∧ RefusesLink linkedDirectory (.ofString "/l") :=
  ⟨lastIsLink_linkedDirectory.1, by decide,
    entryPoints_refuse_link isSound_linkedDirectory lastIsLink_linkedDirectory.1⟩

/-- **With a slash at its end the link passes** for a directory to read and one to write to. -/
theorem link_passes_with_slash : LastIsLink linkedDirectory (.ofString "/l/")
    ∧ Access.readableDirectory linkedDirectory (.ofString "/l/") = .ok [[0x64]]
    ∧ Access.writableDirectory (.ofString "/l/") linkedDirectory
      = (.ok [[0x64]], linkedDirectory) :=
  ⟨lastIsLink_linkedDirectory.2, by cbv, by cbv⟩

end Extraction

end GuardedArchive
