import GuardedArchive.Proofs.Extraction.Written

/-!
# Proofs/Extraction/Atomic — all or nothing

    fs    --  parents of the target  -->  fs₁  --  staging, extract, move  -->  fs'

The entries are placed in a fresh directory beside the target.  Where that fails the directory is
removed, and `fs'` is `fs₁`; where it succeeds the directory takes the target's place
(`Staged.moveIntoPlace`), which changes nothing else (`Extracted.moved`).  What stays behind a
failure are the directories between `fs` and `fs₁` (`extraction_atomic`), and a path that goes up
can lead through them to where it led nowhere before (`extractAtomic_appears`).
-/

namespace GuardedArchive.Extraction

open FileSystem
open Zip (Archive Source)

variable {limits : Limits} {archive target p : Path} {fs fs₁ fs₂ fs₃ : FileSystem}
  {dir root place : Location} {a b : Name} {existed : Bool} {entries : List Exposed}
  {report : ExtractionReport}

/-! ## Fresh names beside the target -/

theorem slash_not_mem_letters : ∀ length n : Nat, Path.slash ∉ Temporary.letters length n
  | 0, _ => List.not_mem_nil
  | length + 1, n => by
    rw [Temporary.letters]
    refine List.not_mem_cons_of_ne_of_not_mem ?_ (slash_not_mem_letters length _)
    have hlt : n % 26 < 26 := Nat.mod_lt _ (by omega)
    intro he
    have he := congrArg UInt8.toNat he
    have hslash : Path.slash.toNat = 0x2f := rfl
    rw [hslash, UInt8.toNat_ofNat'] at he
    omega

/-- The name of a staging directory. -/
def stagingName (n : Nat) : Name :=
  Bytes.ofString stagingPrefix ++ Temporary.tag n ++ Bytes.ofString ""

theorem isProper_stagingName (n : Nat) : Name.IsProper (stagingName n) := by
  have hpre : Bytes.ofString stagingPrefix
      = 0x2e :: 0x7a :: Bytes.ofString "ipshield-staging-" := by decide
  have hcons : stagingName n = 0x2e :: 0x7a :: (Bytes.ofString "ipshield-staging-"
      ++ Temporary.tag n ++ Bytes.ofString "") := by
    rw [stagingName, hpre]
    rfl
  refine ⟨?_, ?_, ?_, ?_⟩
  · rw [hcons]
    exact List.cons_ne_nil _ _
  · rw [hcons]
    nofun
  · rw [hcons]
    nofun
  · rw [stagingName]
    simp only [List.mem_append, not_or]
    exact ⟨⟨by decide, slash_not_mem_letters _ _⟩, by decide⟩

/-- **A staging directory is made beside the target**, or nothing is. -/
theorem stagingIn_cases (htree : IsTree fs) (hdir : dir.IsProper) (hplain : IsPlain fs dir)
    (hd : fs.node? dir = some .directory) :
    (∃ e, Temporary.stagingIn dir.path stagingPrefix fs = (.error e, fs))
      ∨ ∃ n, Fresh fs (Location.path (dir ++ [stagingName n])) (dir ++ [stagingName n])
        ∧ Temporary.stagingIn dir.path stagingPrefix fs
          = (.ok (Location.path (dir ++ [stagingName n])),
            fs.put (dir ++ [stagingName n]) .directory) := by
  have hpath : ∀ n, Temporary.pathWith dir.path stagingPrefix "" n
      = Location.path (dir ++ [stagingName n]) := fun n =>
    Path.join_path hdir (isProper_stagingName n)
  have hjoin : (Location.path fs.workingDirectory).join dir.path = dir.path := by
    rw [Path.join, if_pos (Path.isAbsolute_path dir)]
  have hstaging : Temporary.stagingIn dir.path stagingPrefix fs = Temporary.fresh
      FileSystem.makeDirectory (Temporary.pathWith dir.path stagingPrefix "") fs := by
    conv_rhs => rw [← hjoin]
    rfl
  rw [hstaging]
  rcases fresh_makeDirectory htree (Temporary.pathWith dir.path stagingPrefix "")
    with ⟨e, he⟩ | ⟨n, root, hfresh, he⟩
  · exact .inl ⟨e, he⟩
  · rw [hpath] at hfresh he
    have hproper : Location.IsProper (dir ++ [stagingName n]) :=
      hdir.append fun _ hn => List.mem_singleton.mp hn ▸ isProper_stagingName n
    have hl := hfresh.leads
    rw [startOf_path, Path.steps_path hproper] at hl
    obtain rfl : root = dir ++ [stagingName n] :=
      hl.location_concat (hplain.linkless fun target hlink => by simp [hd] at hlink)
    exact .inr ⟨n, hfresh, he⟩

/-! ## Into place -/

/-- A directory `a` was made in `dir` and filled, to take the name `b` there. -/
structure Staged (fs : FileSystem) (dir : Location) (a b : Name) (fs₂ : FileSystem) : Prop where
  properA : Location.IsProper (dir ++ [a])
  properB : Location.IsProper (dir ++ [b])
  plain : IsPlain fs dir
  directory : fs.node? dir = some .directory
  fresh : Fresh fs (Location.path (dir ++ [a])) (dir ++ [a])
  filled : Filled fs (dir ++ [a]) fs₂

/-- Beside the directory that is filled nothing changes. -/
theorem Filled.beside (h : Filled fs (dir ++ [a]) fs₂) (hne : a ≠ b) (rel : Location) :
    fs₂.node? (dir ++ [b] ++ rel) = fs.node? (dir ++ [b] ++ rel) := by
  refine h.outside _ fun hpre => ?_
  exact not_prefix_concat hne
    (List.prefix_of_prefix_length_le hpre (List.prefix_append _ _) (by simp))

/-- What a directory is removed for is there. -/
theorem ne_none_of_place (h : fs.node? root = none ∧ existed = false
    ∨ fs.node? root = some .directory ∧ existed = true) (hx : existed = true) :
    fs.node? root ≠ none := by
  subst hx
  rcases h with ⟨-, hno⟩ | ⟨hd, -⟩
  · cases hno
  · simp [hd]

namespace Staged

theorem grows (h : Staged fs dir a b fs₂) : Grows fs fs₂ := h.fresh.grows.trans h.filled.grows

theorem node?_source (h : Staged fs dir a b fs₂) : fs₂.node? (dir ++ [a]) = some .directory :=
  h.filled.directory h.fresh

/-- Only directories stand above both names. -/
theorem isPlain (h : Staged fs dir a b fs₂) (name : Name) : IsPlain fs₂ (dir ++ [name]) :=
  (h.plain.grows h.grows).snoc (h.grows.directory h.directory) name

theorem linkless (h : Staged fs dir a b fs₂) : Linkless fs₂ dir :=
  (h.plain.grows h.grows).linkless fun target hl => by
    rw [h.grows.directory h.directory] at hl
    cases hl

/-- **The filled directory takes its place, or nothing changes**: where a directory was removed for
it, it does take it. -/
theorem moveIntoPlace (h : Staged fs dir a b fs₂)
    (hexisted : existed = true → fs.node? (dir ++ [b]) ≠ none) :
    (∃ e, Extraction.moveIntoPlace (Location.path (dir ++ [a])) (Location.path (dir ++ [b])) existed
        fs₂ = (.error e, fs₂))
      ∨ ∃ fs₃, Extraction.moveIntoPlace (Location.path (dir ++ [a])) (Location.path (dir ++ [b]))
          existed fs₂ = (.ok (), fs₃)
        ∧ checkPath (Location.path (dir ++ [b])) = .ok ()
        ∧ (∀ name ∈ dir ++ [b], name.length ≤ maxNameLength)
        ∧ (a = b ∧ fs₃ = fs₂ ∨ a ≠ b ∧ Moved fs₂ (dir ++ [a]) (dir ++ [b]) fs₃) := by
  have hat := h.fresh.nodeAt h.grows h.node?_source false
  rw [Extraction.moveIntoPlace]
  cases existed with
  | true =>
    rw [if_pos rfl, Effect.bind_apply, Operation.change]
    rcases hr : fs₂.removeDirectory (Location.path (dir ++ [b])) with e | fs'
    · exact .inl ⟨_, rfl⟩
    · -- the name of the fresh directory was free, and that of the target was not
      have hne : a ≠ b := by
        rintro rfl
        refine hexisted rfl ?_
        simpa using h.fresh.free []
      obtain ⟨hat', fs₃, hrename, hmoved⟩ := rename_removed h.filled.tree hne h.properA h.properB
        (h.isPlain a) h.node?_source hat hr
      obtain ⟨_, hb, -⟩ := removeDirectory_eq_ok hr
      obtain ⟨hc, hl⟩ := (nodeAt_path h.properB).mp hb
      refine .inr ⟨fs₃, ?_, hc, hl.fits, .inr ⟨hne, hmoved⟩⟩
      dsimp only
      rw [Operation.change, hat']
      dsimp only [bind, Except.bind]
      rw [hrename]
  | false =>
    rw [if_neg Bool.false_ne_true]
    show (∃ e, Operation.change _ fs₂ = _) ∨ ∃ fs₃, Operation.change _ fs₂ = _ ∧ _
    rw [Operation.change, hat]
    dsimp only [bind, Except.bind]
    rcases hr : fs₂.rename (dir ++ [a]) (Location.path (dir ++ [b])) with e | fs₃
    · exact .inl ⟨_, rfl⟩
    · obtain ⟨place, hplace, hcases⟩ := rename_eq_ok h.filled.tree (List.concat_ne_nil a dir)
        h.node?_source hr
      obtain ⟨hc, hl⟩ := (resolveSteps_path h.properB).mp hplace
      rw [hl.location_concat h.linkless] at hcases
      refine .inr ⟨fs₃, rfl, hc, hl.fits, hcases.imp ?_ ?_⟩
      · rintro ⟨heq, hsame⟩
        exact ⟨by simpa using heq, hsame⟩
      · rintro ⟨hne, hmoved⟩
        have hne : a ≠ b := fun he => hne (he ▸ rfl)
        exact ⟨hne, hmoved (not_prefix_concat hne)⟩

/-- The filled directory is renamed to a free place, or to its own. -/
theorem rename_eq_ok (h : Staged fs dir a b fs₂) (hb : IsSpelled (dir ++ [b]))
    (hn : fs.node? (dir ++ [b]) = none) :
    ∃ fs₃, fs₂.rename (dir ++ [a]) (Location.path (dir ++ [b])) = .ok fs₃ := by
  have hplain : IsPlain fs₂ ([] ++ (dir ++ [b])) := h.isPlain b
  by_cases hne : a = b
  · subst hne
    have hto : fs₂.resolveSteps false (Location.path (dir ++ [a]))
        (Location.path (dir ++ [a])).steps = .ok (.occupied (dir ++ [a]) .directory) :=
      (resolveSteps_path h.properA).mpr
        ⟨hb.checkPath, hplain.leads hb.fits h.node?_source Node.directory_ne_link⟩
    rw [rename, hto]
    dsimp only
    rw [if_pos rfl]
    exact ⟨fs₂, rfl⟩
  · have hfree := h.filled.beside hne []
    rw [List.append_nil, hn] at hfree
    have hto : fs₂.resolveSteps false (Location.path (dir ++ [b]))
        (Location.path (dir ++ [b])).steps = .ok (.vacant (dir ++ [b])) :=
      (resolveSteps_path h.properB).mpr
        ⟨hb.checkPath, hplain.leads_vacant (List.concat_ne_nil b dir) hb.fits hfree⟩
    rw [rename, hto]
    dsimp only
    rw [if_neg fun hp => not_prefix_concat hne (List.isPrefixOf_iff_prefix.mp hp)]
    exact ⟨_, rfl⟩

/-- An empty directory can be removed for the filled one. -/
theorem removeDirectory_eq_ok (h : Staged fs dir a b fs₂) (hb : IsSpelled (dir ++ [b]))
    (hne : a ≠ b) (hd : fs.node? (dir ++ [b]) = some .directory)
    (hempty : ∀ rel, rel ≠ [] → fs.node? (dir ++ [b] ++ rel) = none) :
    fs₂.removeDirectory (Location.path (dir ++ [b])) = .ok (fs₂.erase (dir ++ [b])) := by
  have hsame := h.filled.beside hne
  have hstands := hsame []
  rw [List.append_nil, hd] at hstands
  have hplain : IsPlain fs₂ ([] ++ (dir ++ [b])) := h.isPlain b
  have hat : fs₂.nodeAt false (Location.path (dir ++ [b])) = .ok (dir ++ [b], .directory) :=
    (nodeAt_path h.properB).mpr
      ⟨hb.checkPath, hplain.leads hb.fits hstands Node.directory_ne_link⟩
  have hc : fs₂.children (dir ++ [b]) = [] := by
    refine children_eq_nil_iff.mpr fun name => ?_
    rw [hsame, hempty [name] (List.cons_ne_nil _ _)]
  rw [removeDirectory, hat]
  dsimp only
  rw [if_pos ⟨hc, List.concat_ne_nil b dir⟩]

/-- **The filled directory takes the place of the target**, with all that is in it. -/
theorem moveIntoPlace_eq_ok (h : Staged fs dir a b fs₂) (hb : IsSpelled (dir ++ [b]))
    (hplace : fs.node? (dir ++ [b]) = none ∧ existed = false
      ∨ fs.node? (dir ++ [b]) = some .directory ∧ existed = true)
    (hempty : ∀ rel, rel ≠ [] → fs.node? (dir ++ [b] ++ rel) = none) :
    ∃ fs₃, Extraction.moveIntoPlace (Location.path (dir ++ [a])) (Location.path (dir ++ [b]))
        existed fs₂ = (.ok (), fs₃)
      ∧ ∀ rel, fs₃.node? (dir ++ [b] ++ rel) = fs₂.node? (dir ++ [a] ++ rel) := by
  have hok : (Extraction.moveIntoPlace (Location.path (dir ++ [a])) (Location.path (dir ++ [b]))
      existed fs₂).1 = .ok () := by
    have hat := h.fresh.nodeAt h.grows h.node?_source false
    rw [Extraction.moveIntoPlace]
    rcases hplace with ⟨hn, rfl⟩ | ⟨hd, rfl⟩
    · obtain ⟨fs₃, hrename⟩ := h.rename_eq_ok hb hn
      rw [if_neg Bool.false_ne_true]
      show (Operation.change _ fs₂).1 = _
      rw [Operation.change, hat]
      dsimp only [bind, Except.bind]
      rw [hrename]
    · have hne : a ≠ b := by
        rintro rfl
        have hfree := h.fresh.free []
        rw [List.append_nil, hd] at hfree
        cases hfree
      have hr := h.removeDirectory_eq_ok hb hne hd hempty
      obtain ⟨hat', fs₃, hrename, -⟩ := rename_removed h.filled.tree hne h.properA h.properB
        (h.isPlain a) h.node?_source hat hr
      rw [if_pos rfl, Effect.bind_apply, Operation.change, hr]
      dsimp only
      rw [Operation.change, hat']
      dsimp only [bind, Except.bind]
      rw [hrename]
  rcases h.moveIntoPlace (ne_none_of_place hplace) with ⟨e, he⟩ | ⟨fs₃, hm, -, -, hcases⟩
  · rw [he] at hok
    cases hok
  · refine ⟨fs₃, hm, fun rel => ?_⟩
    rcases hcases with ⟨rfl, rfl⟩ | ⟨-, hmoved⟩
    · rfl
    · rw [hmoved.node, if_pos (List.prefix_append _ _), List.drop_left]

end Staged

/-! ## What was moved -/

/-- The directory that was made belongs to what was extracted. -/
theorem Extracted.of_put (hf : Fresh fs p root)
    (hx : Extracted (fs.put root .directory) ⟨root⟩ entries report fs₂) :
    Extracted fs ⟨root⟩ entries report fs₂ where
  __ := hx
  outside loc hout := by
    rw [hx.outside loc hout, fs.node?_put hf.ne_nil, if_neg]
    rintro rfl
    exact hout List.prefix_rfl

/-- **What was extracted stays the same in another place**, and its old place is free again. -/
theorem Extracted.moved (hne : a ≠ b) (hf : Fresh fs p (dir ++ [a]))
    (hx : Extracted fs ⟨dir ++ [a]⟩ entries report fs₂)
    (hm : Moved fs₂ (dir ++ [a]) (dir ++ [b]) fs₃) :
    Extracted fs ⟨dir ++ [b]⟩ entries { report with target := Location.path (dir ++ [b]) } fs₃ where
  __ := hx
  root above hab := by
    rw [hm.node]
    split
    next hpre =>
      obtain rfl : dir ++ [b] = above := hpre.eq_of_length_le hab.length_le
      rw [List.drop_length, List.append_nil]
      exact hx.root _ List.prefix_rfl
    next hpre =>
      have hup : above <+: dir := (List.prefix_concat_iff.mp hab).resolve_left fun he =>
        hpre (he ▸ List.prefix_rfl)
      rw [if_neg, hx.root above (hup.trans (List.prefix_append _ _))]
      exact fun hpre' => not_prefix_concat hne (hpre'.trans hab)
  tree loc node hloc := by
    rw [hm.node, if_pos (List.prefix_append _ _), List.drop_left]
    exact hx.tree loc node hloc
  outside loc hout := by
    rw [hm.node, if_neg hout]
    split
    next hpre =>
      obtain ⟨rel, rfl⟩ := hpre
      exact (hf.free rel).symm
    next hpre => exact hx.outside loc hpre
  target := rfl

/-- What was extracted into a place that was free, or an empty directory, has grown there. -/
theorem Extracted.grows (hx : Extracted fs ⟨root⟩ entries report fs₂)
    (hroot : fs.node? root = none ∨ fs.node? root = some .directory)
    (hbelow : ∀ rel, rel ≠ [] → fs.node? (root ++ rel) = none)
    (hwd : fs₂.workingDirectory = fs.workingDirectory) : Grows fs fs₂ where
  workingDirectory := hwd
  node loc := by
    by_cases hpre : root <+: loc
    · obtain ⟨rel, rfl⟩ := hpre
      by_cases hrel : rel = []
      · rw [hrel, List.append_nil, hx.root root List.prefix_rfl]
        rcases hroot with hn | hd
        · exact hn ▸ .directory
        · exact hd ▸ .same _
      · rw [hbelow rel hrel]
        rcases hn : fs₂.node? (root ++ rel) with _ | node
        · exact .same none
        · obtain ⟨entry, -, hd⟩ := (hx.tree rel node hrel).mp hn
          rcases denotes_iff.mp hd with ⟨-, rfl⟩ | ⟨-, rfl⟩
          · split
            · exact .directory
            · exact .file _
          · exact .directory
    · rw [hx.outside loc hpre]
      exact .same _

/-! ## The whole extraction -/

/-- **The target is what the entries of the archive denote**, at a place that was free or an empty
directory, and nothing else has changed. -/
structure Complete (a : Archive) (target : Path) (root : Location) (fs fs₁ : FileSystem)
    (report : ExtractionReport) (fs' : FileSystem) : Prop where
  free : fs₁.node? root = none ∨ fs₁.node? root = some .directory
  empty : ∀ rel, rel ≠ [] → fs₁.node? (root ++ rel) = none
  leads : fs'.nodeAt false target = .ok (root, .directory)
  extracted : Extracted fs₁ ⟨root⟩ (a.records.map (exposedBy a fs)) report fs'

/-- Where directories were made a file holds what it held. -/
theorem octets_adds (ha : AddsDirectories fs fs₁) {file : Location} {content : Bytes}
    (hn : fs.node? file = some (.file content)) :
    (Source.disk file).octets fs₁ = (Source.disk file).octets fs := by
  rw [Source.octets, Source.octets, FileSystem.contentAt, FileSystem.contentAt, ha.kept hn, hn]

/-- A file that can be read is read the same when directories were made. -/
theorem readableFile_adds (hs : IsSound fs) (ha : AddsDirectories fs fs₁) {file file' : Location}
    (h : Access.readableFile fs archive = .ok file)
    (h' : Access.readableFile fs₁ (Location.path file) = .ok file') :
    file' = file ∧ (Source.disk file).octets fs₁ = (Source.disk file).octets fs := by
  obtain ⟨content, hc⟩ := Access.readableFile_eq_ok h
  obtain ⟨content', hc'⟩ := Access.readableFile_eq_ok h'
  obtain ⟨hproper, hplain⟩ := hs.canonicalize hc
  have hn := (canonicalize_eq_ok_iff.mp hc).2.node?_eq
  have hfree : Linkless fs file := hplain.linkless fun target hl => by
    rw [hn] at hl
    cases hl
  exact ⟨canonicalize_path hproper (hfree.adds ha) hc', octets_adds ha hn⟩

/-- Extracts into the staging directory and moves that into place, or removes it. -/
def fillAndMove (limits : Limits) (file : Location) (dir : Location) (a b : Name) (existed : Bool) :
    Operation ExtractionReport :=
  Effect.onFailure
    (do
      let report ← extract limits (Location.path file) (Location.path (dir ++ [a]))
      moveIntoPlace (Location.path (dir ++ [a])) (Location.path (dir ++ [b])) existed
      return report)
    (Temporary.discardTree (Location.path (dir ++ [a])))

/-- What was extracted stands at `root`, a place that walks can come to. -/
structure Settled (fs : FileSystem) (root : Location) (entries : List Exposed)
    (report : ExtractionReport) (fs' : FileSystem) : Prop where
  check : checkPath root.path = .ok ()
  fits : ∀ name ∈ root, name.length ≤ maxNameLength
  free : fs.node? root = none ∨ fs.node? root = some .directory
  empty : ∀ rel, rel ≠ [] → fs.node? (root ++ rel) = none
  workingDirectory : fs'.workingDirectory = fs.workingDirectory
  extracted : Extracted fs ⟨root⟩ entries report fs'

theorem Settled.grows (h : Settled fs root entries report fs₂) : Grows fs fs₂ :=
  h.extracted.grows h.free h.empty h.workingDirectory

theorem Settled.canonicalize (hroot : root.IsProper) (h : Settled fs root entries report fs₂) :
    fs₂.canonicalize root.path = .ok (root, .directory) :=
  IsPlain.canonicalize (fun above hab _ => h.extracted.root above hab) hroot
    (h.extracted.root root List.prefix_rfl) h.fits h.check

/-- What was extracted into the staging directory has settled where that directory was moved. -/
theorem Staged.settled (h : Staged fs dir a b fs₂)
    (hx : Extracted fs ⟨dir ++ [a]⟩ entries report fs₂)
    (hcheck : checkPath (Location.path (dir ++ [b])) = .ok ())
    (hfits : ∀ name ∈ dir ++ [b], name.length ≤ maxNameLength)
    (hmove : a = b ∧ fs₃ = fs₂ ∨ a ≠ b ∧ Moved fs₂ (dir ++ [a]) (dir ++ [b]) fs₃) :
    Settled fs (dir ++ [b]) entries { report with target := Location.path (dir ++ [b]) } fs₃ := by
  rcases hmove with ⟨rfl, rfl⟩ | ⟨hne, hmoved⟩
  · -- the target has the name of the staging directory itself, which stays where it is
    exact {
      check := hcheck
      fits := hfits
      free := .inl (by simpa using h.fresh.free [])
      empty := fun rel _ => h.fresh.free rel
      workingDirectory := h.grows.workingDirectory
      extracted := { hx with target := rfl } }
  · have hbeside := h.filled.beside hne
    have hself := hbeside []
    rw [List.append_nil] at hself
    exact {
      check := hcheck
      fits := hfits
      free := hself ▸ hmoved.free
      empty := fun rel hrel => (hbeside rel).symm.trans (hmoved.below rel hrel)
      workingDirectory := hmoved.workingDirectory.trans h.grows.workingDirectory
      extracted := hx.moved hne h.fresh hmoved }

/-- **All is placed, or all is as it was.** -/
theorem fillAndMove_cases (hs : IsSound fs) (limits : Limits) (file : Location)
    (hstaged : ∀ fs₂, Filled fs (dir ++ [a]) fs₂ → Staged fs dir a b fs₂)
    (hf : Fresh fs (Location.path (dir ++ [a])) (dir ++ [a]))
    (hexisted : existed = true → fs.node? (dir ++ [b]) ≠ none) :
    (∃ e fs', fillAndMove limits file dir a b existed (fs.put (dir ++ [a]) .directory)
        = (.error e, fs') ∧ Same fs fs')
      ∨ ∃ report fs₃ file' ar, fillAndMove limits file dir a b existed
          (fs.put (dir ++ [a]) .directory) = (.ok report, fs₃)
        ∧ Access.readableFile (fs.put (dir ++ [a]) .directory) (Location.path file) = .ok file'
        ∧ Archive.load limits (.disk file') (fs.put (dir ++ [a]) .directory) = .ok ar
        ∧ Settled fs (dir ++ [b])
          (ar.records.map (exposedBy ar (fs.put (dir ++ [a]) .directory)))
          { report with target := Location.path (dir ++ [b]) } fs₃ := by
  obtain ⟨hfilled, hok⟩ := extract_fresh hs hf limits (Location.path file)
  rw [fillAndMove, Effect.onFailure]
  simp only [Effect.bind_apply]
  rcases hx : extract limits (Location.path file) (Location.path (dir ++ [a]))
    (fs.put (dir ++ [a]) .directory) with ⟨e | report, fs₂⟩ <;> rw [hx] at hfilled hok
  · exact .inl ⟨e, _, rfl, hfilled.discardTree hf⟩
  · dsimp only at hfilled hok ⊢
    obtain ⟨file', ar, hread, hload, hextracted⟩ := hok report rfl
    have hst := hstaged fs₂ hfilled
    rcases hst.moveIntoPlace hexisted with ⟨e, hm⟩ | ⟨fs₃, hm, hc, hfit, hcases⟩ <;> rw [hm]
    · exact .inl ⟨e, _, rfl, hfilled.discardTree hf⟩
    · exact .inr ⟨report, fs₃, file', ar, rfl, hread, hload,
        hst.settled (hextracted.of_put hf) hc hfit hcases⟩

/-- **What was extracted into the staging directory is moved into place.** -/
theorem fillAndMove_eq_ok {file : Location} (hs : IsSound fs)
    (hstaged : ∀ fs₂, Filled fs (dir ++ [a]) fs₂ → Staged fs dir a b fs₂)
    (hf : Fresh fs (Location.path (dir ++ [a])) (dir ++ [a])) (hb : IsSpelled (dir ++ [b]))
    (hplace : fs.node? (dir ++ [b]) = none ∧ existed = false
      ∨ fs.node? (dir ++ [b]) = some .directory ∧ existed = true)
    (hempty : ∀ rel, rel ≠ [] → fs.node? (dir ++ [b] ++ rel) = none)
    (hextract : extract limits file.path (Location.path (dir ++ [a]))
      (fs.put (dir ++ [a]) .directory) = (.ok report, fs₂)) :
    ∃ fs₃, fillAndMove limits file dir a b existed (fs.put (dir ++ [a]) .directory)
        = (.ok report, fs₃)
      ∧ fs₃.canonicalize (Location.path (dir ++ [b])) = .ok (dir ++ [b], .directory)
      ∧ ∀ rel, fs₃.node? (dir ++ [b] ++ rel) = fs₂.node? (dir ++ [a] ++ rel) := by
  have hfilled := (extract_fresh hs hf limits file.path).1
  rw [hextract] at hfilled
  have hst := hstaged fs₂ hfilled
  obtain ⟨fs₃, hm, htree⟩ := hst.moveIntoPlace_eq_ok hb hplace hempty
  have hrun : fillAndMove limits file dir a b existed (fs.put (dir ++ [a]) .directory)
      = (.ok report, fs₃) := by
    rw [fillAndMove, Effect.onFailure, Effect.bind_apply, hextract]
    dsimp only
    rw [Effect.bind_apply, hm]
    rfl
  refine ⟨fs₃, hrun, ?_, htree⟩
  rcases fillAndMove_cases hs limits file hstaged hf (ne_none_of_place hplace) with
    ⟨e, fs', he, -⟩ | ⟨report', fs', _, _, hok, -, -, hsettled⟩
  · rw [hrun] at he
    cases (Prod.mk.inj he).1
  · rw [hrun] at hok
    obtain rfl := (Prod.mk.inj hok).2
    exact hsettled.canonicalize hst.properB

/-- Whether the target stands is known, unless it is something else than an empty directory. -/
theorem targetExists_eq_ok (h : targetExists target fs = .ok existed) :
    existed = true ∧ (∃ loc, fs.nodeAt false target = .ok (loc, .directory))
      ∨ existed = false ∧ fs.nodeAt false target = .error (.system .noEntry) := by
  rw [targetExists] at h
  split at h
  next hn =>
    obtain rfl := Except.ok.inj h
    exact .inr ⟨rfl, hn⟩
  next => cases h
  next loc hn =>
    split at h
    · obtain rfl := Except.ok.inj h
      exact .inl ⟨rfl, loc, hn⟩
    · cases h
  next => cases h

theorem checkPath_of_targetExists (hne : target.isEmpty = false)
    (h : targetExists target fs = .ok existed) : checkPath target = .ok () := by
  rcases hc : checkPath target with e | _
  · have hnode : fs.nodeAt false target = .error e := by
      rw [FileSystem.nodeAt, FileSystem.resolve, FileSystem.resolveSteps, FileSystem.placeOf, hc]
      rfl
    rcases targetExists_eq_ok h with ⟨-, loc, hn⟩ | ⟨-, hn⟩ <;> rw [hnode] at hn
    · cases hn
    · obtain rfl := Except.error.inj hn
      simp only [checkPath, hne, Bool.false_eq_true, if_false] at hc
      split_ifs at hc <;> cases hc
  · rfl

theorem isEmpty_of_fileName? (h : target.fileName? = some b) : target.isEmpty = false := by
  rw [← Bool.not_eq_true]
  intro he
  obtain ⟨-, q, hq, -⟩ := Path.fileName?_eq_some h
  rw [Path.parent?_of_isEmpty he] at hq
  cases hq

/-- The target has the name `b` in the directory `dir`. -/
structure NamedIn (fs : FileSystem) (target : Path) (dir : Location) (b : Name) : Prop where
  fileName : target.fileName? = some b
  proper : dir.IsProper
  plain : IsPlain fs dir
  directory : fs.node? dir = some .directory
  names : Names fs target dir b

namespace NamedIn

theorem of_existingDirectory (hs : IsSound fs) (hname : target.fileName? = some b)
    (h : Access.existingDirectory fs (parentOf target) = .ok dir) : NamedIn fs target dir b := by
  have hc := (Access.existingDirectory_eq_ok h).2
  obtain ⟨hproper, hplain⟩ := hs.canonicalize hc
  exact ⟨hname, hproper, hplain, (canonicalize_eq_ok_iff.mp hc).2.node?_eq,
    names_of_fileName? hs hname hc⟩

theorem isProper_concat (h : NamedIn fs target dir b) {name : Name} (hname : Name.IsProper name) :
    Location.IsProper (dir ++ [name]) :=
  h.proper.append fun _ hm => List.mem_singleton.mp hm ▸ hname

theorem isProper (h : NamedIn fs target dir b) : Location.IsProper (dir ++ [b]) :=
  h.isProper_concat (Path.fileName?_eq_some h.fileName).1

theorem staged {n : Nat} (h : NamedIn fs target dir b)
    (hf : Fresh fs (Location.path (dir ++ [stagingName n])) (dir ++ [stagingName n]))
    (hfilled : Filled fs (dir ++ [stagingName n]) fs₂) : Staged fs dir (stagingName n) b fs₂ :=
  ⟨h.isProper_concat (isProper_stagingName n), h.isProper, h.plain, h.directory, hf, hfilled⟩

/-- A target that stands has something of its name in the directory. -/
theorem node?_of_targetExists (h : NamedIn fs₁ target dir b) (hg : Grows fs fs₁)
    (hexists : targetExists target fs = .ok existed) (hx : existed = true) :
    fs₁.node? (dir ++ [b]) ≠ none := by
  subst hx
  rcases targetExists_eq_ok hexists with ⟨-, loc, hat⟩ | ⟨hno, -⟩
  · obtain ⟨found, hn, -⟩ := h.names.occupied (nodeAt_grows hat hg)
    simp [hn]
  · cases hno

/-- What has settled in the place of the target is what the target leads to. -/
theorem complete {ar : Archive} (h : NamedIn fs₁ target dir b) (hc : checkPath target = .ok ())
    (hsettled : Settled fs₁ (dir ++ [b]) (ar.records.map (exposedBy ar fs)) report fs₂) :
    Complete ar target (dir ++ [b]) fs fs₁ report fs₂ where
  free := hsettled.free
  empty := hsettled.empty
  leads := (h.names.grows hsettled.grows).nodeAt hc (hsettled.fits b (by simp))
    (hsettled.extracted.root _ List.prefix_rfl)
  extracted := hsettled.extracted

end NamedIn

/-- **An atomic extraction fails before it stages anything**, or it knows what to read, whether the
target stands, and where the target has which name. -/
theorem extractAtomic_start (limits : Limits) (archive target : Path) (fs : FileSystem) :
    (∃ e fs', extractAtomic limits archive target fs = (.error e, fs')
        ∧ (fs' = fs ∨ fs' = (Access.writableDirectory (parentOf target) fs).2))
      ∨ ∃ file existed dir fs₁ b, Access.readableFile fs archive = .ok file
        ∧ targetExists target fs = .ok existed
        ∧ Access.writableDirectory (parentOf target) fs = (.ok dir, fs₁)
        ∧ target.fileName? = some b := by
  rw [extractAtomic, Effect.bind_apply, Effect.look]
  rcases hread : Access.readableFile fs archive with e | file
  · exact .inl ⟨e, fs, rfl, .inl rfl⟩
  dsimp only
  rw [Effect.bind_apply, Effect.look]
  rcases hexists : targetExists target fs with e | existed
  · exact .inl ⟨e, fs, rfl, .inl rfl⟩
  dsimp only
  rw [Effect.bind_apply]
  rcases hw : Access.writableDirectory (parentOf target) fs with ⟨e | dir, fs₁⟩
  · exact .inl ⟨e, fs₁, rfl, .inr rfl⟩
  dsimp only
  rw [Effect.bind_apply, Effect.ofExcept, finalPath]
  rcases hname : target.fileName? with _ | b
  · exact .inl ⟨_, fs₁, rfl, .inr rfl⟩
  · exact .inr ⟨file, existed, dir, fs₁, b, rfl, rfl, rfl, rfl⟩

/-- What an atomic extraction does from its staging directory on. -/
theorem extractAtomic_eq {file : Location} (hread : Access.readableFile fs archive = .ok file)
    (hexists : targetExists target fs = .ok existed)
    (hparent : Access.writableDirectory (parentOf target) fs = (.ok dir, fs₁))
    (hin : NamedIn fs₁ target dir b) :
    extractAtomic limits archive target fs = (do
      let staging ← Temporary.stagingIn dir.path stagingPrefix
      let report ← Effect.onFailure
        (do
          let report ← extract limits (Location.path file) staging
          moveIntoPlace staging (Location.path (dir ++ [b])) existed
          return report)
        (Temporary.discardTree staging)
      let (loc, _) ← Operation.ask (·.canonicalize (Location.path (dir ++ [b])))
      return { report with target := Location.path loc } : Operation ExtractionReport) fs₁ := by
  rw [extractAtomic, Effect.bind_apply, Effect.look, hread]
  dsimp only
  rw [Effect.bind_apply, Effect.look, hexists]
  dsimp only
  rw [Effect.bind_apply, hparent]
  dsimp only
  rw [Effect.bind_apply, Effect.ofExcept, finalPath, hin.fileName]
  dsimp only
  rw [Path.join_path hin.proper (Path.fileName?_eq_some hin.fileName).1]

/-- Once a staging directory is there, it is filled, moved and looked up in its place. -/
theorem extractAtomic_staged {n : Nat} {file : Location}
    (hread : Access.readableFile fs archive = .ok file)
    (hexists : targetExists target fs = .ok existed)
    (hparent : Access.writableDirectory (parentOf target) fs = (.ok dir, fs₁))
    (hin : NamedIn fs₁ target dir b) (hstaging : Temporary.stagingIn dir.path stagingPrefix fs₁
      = (.ok (Location.path (dir ++ [stagingName n])), fs₂)) :
    extractAtomic limits archive target fs = (do
      let report ← fillAndMove limits file dir (stagingName n) b existed
      let (loc, _) ← Operation.ask (·.canonicalize (Location.path (dir ++ [b])))
      return { report with target := Location.path loc } : Operation ExtractionReport) fs₂ := by
  rw [extractAtomic_eq hread hexists hparent hin, Effect.bind_apply, hstaging]
  rfl

/-- **An atomic extraction succeeds** where that into its staging directory does and the place of
the target is free, or an empty directory; what was extracted is found there. -/
theorem extractAtomic_eq_ok {n : Nat} {file : Location} (hs : IsSound fs₁)
    (hread : Access.readableFile fs archive = .ok file)
    (hexists : targetExists target fs = .ok existed)
    (hparent : Access.writableDirectory (parentOf target) fs = (.ok dir, fs₁))
    (hin : NamedIn fs₁ target dir b)
    (hf : Fresh fs₁ (Location.path (dir ++ [stagingName n])) (dir ++ [stagingName n]))
    (hstaging : Temporary.stagingIn dir.path stagingPrefix fs₁
      = (.ok (Location.path (dir ++ [stagingName n])), fs₁.put (dir ++ [stagingName n]) .directory))
    (hb : IsSpelled (dir ++ [b]))
    (hplace : fs₁.node? (dir ++ [b]) = none ∧ existed = false
      ∨ fs₁.node? (dir ++ [b]) = some .directory ∧ existed = true)
    (hempty : ∀ rel, rel ≠ [] → fs₁.node? (dir ++ [b] ++ rel) = none)
    (hextract : extract limits file.path (Location.path (dir ++ [stagingName n]))
      (fs₁.put (dir ++ [stagingName n]) .directory) = (.ok report, fs₂)) :
    ∃ fs₃, extractAtomic limits archive target fs
        = (.ok { report with target := Location.path (dir ++ [b]) }, fs₃)
      ∧ ∀ rel, fs₃.node? (dir ++ [b] ++ rel) = fs₂.node? (dir ++ [stagingName n] ++ rel) := by
  obtain ⟨fs₃, hmoved, hfinal, htree⟩ :=
    fillAndMove_eq_ok hs (fun _ => hin.staged hf) hf hb hplace hempty hextract
  refine ⟨fs₃, ?_, htree⟩
  rw [extractAtomic_staged hread hexists hparent hin hstaging, Effect.bind_apply, hmoved]
  dsimp only
  rw [Effect.bind_apply, Operation.ask, Effect.look, hfinal]
  rfl

/-- The archive file is found again by its own path, and holds what it held. -/
theorem load_again (hs : IsSound fs) (ha : AddsDirectories fs fs₁) {file file' : Location}
    {ar : Archive} (hread : Access.readableFile fs archive = .ok file)
    (hread' : Access.readableFile fs₁ (Location.path file) = .ok file')
    (hload : Archive.load limits (.disk file') fs₁ = .ok ar) : file' = file
      ∧ Archive.load limits (.disk file) fs = .ok ar ∧ exposedBy ar fs₁ = exposedBy ar fs := by
  obtain ⟨rfl, hoctets⟩ := readableFile_adds hs ha hread hread'
  rw [load_congr hoctets] at hload
  have hsource := (Archive.load_eq_ok_iff.mp hload).2.2
  exact ⟨rfl, hload, exposedBy_congr (hsource ▸ hoctets)⟩

/-- **An atomic extraction makes the parents of the target, and then the target or nothing.** -/
theorem extractAtomic_cases (hs : IsSound fs) (limits : Limits) (archive target : Path) :
    (∃ e fs', extractAtomic limits archive target fs = (.error e, fs')
        ∧ (fs' = fs ∨ Same (Access.writableDirectory (parentOf target) fs).2 fs'))
      ∨ ∃ report fs' file ar dir b, extractAtomic limits archive target fs = (.ok report, fs')
        ∧ Access.readableFile fs archive = .ok file
        ∧ Archive.load limits (.disk file) fs = .ok ar
        ∧ NamedIn (Access.writableDirectory (parentOf target) fs).2 target dir b
        ∧ Complete ar target (dir ++ [b]) fs (Access.writableDirectory (parentOf target) fs).2
          report fs' := by
  have hadds := Access.writableDirectory_addsDirectories (parentOf target) fs
  have htree : IsTree (Access.writableDirectory (parentOf target) fs).2 := by
    rw [Access.writableDirectory_files]
    split
    · exact hs.tree.makeTreeOf _
    · exact hs.tree
  rcases extractAtomic_start limits archive target fs with
    ⟨e, fs', hx, hfs⟩ | ⟨file, existed, dir, fs₁, b, hread, hexists, hw, hname⟩
  · refine .inl ⟨e, fs', hx, hfs.imp id ?_⟩
    rintro rfl
    exact .refl _
  rw [hw] at hadds htree ⊢
  have hs₁ := hs.grows htree hadds.grows
  have hin : NamedIn fs₁ target dir b :=
    .of_existingDirectory hs₁ hname (Access.existingDirectory_of_writableDirectory hw)
  rcases stagingIn_cases htree hin.proper hin.plain hin.directory with ⟨e, hst⟩ | ⟨n, hf, hst⟩
  · refine .inl ⟨e, fs₁, ?_, .inr (.refl fs₁)⟩
    rw [extractAtomic_eq hread hexists hw hin, Effect.bind_apply, hst]
  rw [extractAtomic_staged hread hexists hw hin hst, Effect.bind_apply]
  rcases fillAndMove_cases hs₁ limits file (fun _ => hin.staged hf) hf
    (hin.node?_of_targetExists hadds.grows hexists) with
    ⟨e, fs', hx, hsame⟩ | ⟨report, fs₃, file', ar, hx, hread', hload, hsettled⟩ <;> rw [hx]
  · exact .inl ⟨e, fs', rfl, .inr hsame⟩
  · have hput := makeDirectory_addsDirectories
      (makeDirectory_eq_ok_iff.mpr ⟨_, hf.resolveSteps_eq, rfl⟩)
    obtain ⟨rfl, hload, hexposed⟩ := load_again hs (hadds.trans hput) hread hread' hload
    rw [hexposed] at hsettled
    dsimp only
    rw [Effect.bind_apply, Operation.ask, Effect.look, hsettled.canonicalize hin.isProper]
    exact .inr ⟨_, fs₃, file', ar, dir, b, rfl, hread, hload, hin,
      hin.complete (checkPath_of_targetExists (isEmpty_of_fileName? hname) hexists) hsettled⟩

/-- A directory for temporary files is made at a free place, or nothing is. -/
theorem directory_cases (htree : IsTree fs) (pre : String) :
    (∃ e, Temporary.directory pre fs = (.error e, fs))
      ∨ ∃ p root, Fresh fs p root
        ∧ Temporary.directory pre fs = (.ok p, fs.put root .directory) := by
  rcases fresh_makeDirectory htree
    (Temporary.pathWith (Location.path fs.temporaryDirectory) pre "") with h | ⟨n, root, hf, h⟩
  · exact .inl h
  · exact .inr ⟨_, root, hf, h⟩

/-- **Where an extraction into a temporary directory fails, nothing of it stays.** -/
theorem extractTemporary_error (hs : IsSound fs) {pre : String} {e : ArchiveError}
    (h : extractTemporary limits pre archive fs = (.error e, fs₁)) : Same fs fs₁ := by
  rw [extractTemporary, Effect.bind_apply, Effect.look] at h
  rcases hr : Access.readableFile fs archive with e₁ | file <;> rw [hr] at h
  · obtain ⟨-, rfl⟩ := Prod.mk.inj h
    exact .refl fs
  dsimp only at h
  rw [Effect.bind_apply] at h
  rcases directory_cases hs.tree pre with ⟨e₂, hd⟩ | ⟨p, root, hf, hd⟩ <;> rw [hd] at h
  · obtain ⟨-, rfl⟩ := Prod.mk.inj h
    exact .refl fs
  · have hfilled := (extract_fresh hs hf limits (Location.path file)).1
    dsimp only at h
    rw [Effect.onFailure] at h
    split at h
    next => cases h
    next e₃ fs₂ hx =>
      rw [hx] at hfilled
      obtain ⟨-, rfl⟩ := Prod.mk.inj h
      exact hfilled.discardTree hf

/-- **An atomic extraction leaves all or nothing**, but for the directories above the target.  Where
it fails, directories were made for the target at most: none if the target led to anything, and if
it led nowhere, it leads nowhere, unless its path goes up.  Where it succeeds, the target is what
the entries of the archive denote.  An extraction into a temporary directory leaves nothing where it
fails. -/
theorem extraction_atomic (limits : Limits) (archive target : Path) (fs : FileSystem)
    (hs : IsSound fs) :
    (∀ e fs', extractAtomic limits archive target fs = (.error e, fs') →
      MadeAbove target fs fs'
        ∧ (∀ found, fs.nodeAt false target = .ok found → Same fs fs')
        ∧ (Step.up ∉ target.steps → (∀ found, fs.nodeAt false target ≠ .ok found) →
          ∀ found, fs'.nodeAt false target ≠ .ok found))
      ∧ (∀ report fs', extractAtomic limits archive target fs = (.ok report, fs') →
        ∃ file ar fs₁ root, Access.readableFile fs archive = .ok file
          ∧ Archive.load limits (.disk file) fs = .ok ar
          ∧ MadeAbove target fs fs₁ ∧ Complete ar target root fs fs₁ report fs')
      ∧ ∀ pre e fs', extractTemporary limits pre archive fs = (.error e, fs') → Same fs fs' := by
  have hmade := madeAbove_writableDirectory hs target
  refine ⟨fun e fs' h => ?_, fun report fs' h => ?_, fun pre e fs' h => ?_⟩
  · rcases extractAtomic_cases hs limits archive target with
      ⟨e', fs₁, hx, hcases⟩ | ⟨_, _, _, _, _, _, hx, -⟩ <;> rw [h] at hx
    · obtain ⟨-, rfl⟩ := Prod.mk.inj hx
      rcases hcases with rfl | hsame
      · exact ⟨.refl target fs', fun _ _ => .refl fs', fun _ habsent => habsent⟩
      · refine ⟨hmade.of_same hsame, fun found hat => ?_, fun hup habsent found hat => ?_⟩
        · rwa [writableDirectory_of_nodeAt hs hat] at hsame
        · obtain ⟨found', hat'⟩ := nodeAt_same hsame.symm hat
          exact absent_writableDirectory hs hup habsent found' hat'
    · cases (Prod.mk.inj hx).1
  · rcases extractAtomic_cases hs limits archive target with
      ⟨_, _, hx, -⟩ | ⟨report', fs'', file, ar, dir, b, hx, hread, hload, -, hcomplete⟩ <;>
      rw [h] at hx
    · cases (Prod.mk.inj hx).1
    · obtain ⟨hreport, rfl⟩ := Prod.mk.inj hx
      obtain rfl := Except.ok.inj hreport
      exact ⟨file, ar, _, dir ++ [b], hread, hload, hmade, hcomplete⟩
  · exact extractTemporary_error hs h

/-! ## A directory with a file in it, and no archive -/

/-- The archive is extracted to `/a/t`, for which `/a` is made. -/
theorem extractAtomic_smallArchive :
    ∃ fs', extractAtomic {} (.ofString "/z") (.ofString "/a/t") (holding smallArchive)
        = (.ok ⟨.ofString "/a/t", 2, 1, 1, 2⟩, fs')
      ∧ fs'.node? [[0x61], [0x74], [0x64], [0x66]] = some (.file [0x31, 0x32]) := by
  -- nothing but the extraction itself depends on what is in the archive
  obtain ⟨content, hcontent⟩ : ∃ content, content = smallArchive := ⟨_, rfl⟩
  rw [← hcontent]
  have hread : Access.readableFile (holding content) (.ofString "/z") = .ok [[0x7a]] := by cbv
  have hexists : targetExists (.ofString "/a/t") (holding content) = .ok false := by cbv
  have hparent : Access.writableDirectory (parentOf (.ofString "/a/t")) (holding content)
      = (.ok [[0x61]], (holding content).put [[0x61]] .directory) := by cbv
  have hs : IsSound ((holding content).put [[0x61]] .directory) := by
    have hs := isOrdinary_holding content
    have hf : Fresh (holding content) (.ofString "/a") [[0x61]] := .of_resolveSteps hs.tree (by cbv)
    exact (hs.put hf (by decide)).toIsSound
  have hin : NamedIn _ (.ofString "/a/t") [[0x61]] [0x74] :=
    .of_existingDirectory hs rfl (Access.existingDirectory_of_writableDirectory hparent)
  have hf : Fresh ((holding content).put [[0x61]] .directory)
      (Location.path [[0x61], stagingName 0]) [[0x61], stagingName 0] :=
    .of_resolveSteps hs.tree (by cbv)
  have hstaged : (((holding content).put [[0x61]] .directory).put [[0x61], stagingName 0]
      .directory).canonicalize (Location.path [[0x61], stagingName 0])
        = .ok ([[0x61], stagingName 0], .directory) := by cbv
  have hoctets : (Source.disk [[0x7a]]).octets (((holding content).put [[0x61]] .directory).put
      [[0x61], stagingName 0] .directory) = smallArchive := hcontent ▸ by cbv
  obtain ⟨fs₂, hrun, hnode⟩ := ofSource_smallArchive hoctets (hf.isEmptyRoot hs hstaged)
    (by decide +kernel) (by decide +kernel)
  obtain ⟨fs₃, hatomic, htree⟩ := extractAtomic_eq_ok hs hread hexists hparent hin hf (by cbv)
    (by decide) (.inl ⟨by cbv, rfl⟩) (fun rel _ => by cbv)
    ((extract_eq (by cbv) (by cbv)).trans hrun)
  exact ⟨fs₃, hatomic, (htree [[0x64], [0x66]]).trans hnode⟩

/-- The file `z` is an archive without entries, and the file `g` is none. -/
def twoFiles : FileSystem where
  nodes := [([[0x7a]], .file ([0x50, 0x4b, 0x05, 0x06] ++ List.replicate 18 0)),
    ([[0x67]], .file [0x67])]

theorem isSound_twoFiles : IsSound twoFiles where
  tree := isTree_of_flat (by decide)
  proper := fun _ hn => absurd hn List.not_mem_nil
  here := rfl

/-- `z` is extracted to `/a/t`, for which `/a` is made.  `g` cannot be extracted, and nothing of the
attempts stays. -/
theorem extracted_smallArchive :
    (∃ fs' ar fs₁ root, extractAtomic {} (.ofString "/z") (.ofString "/a/t") (holding smallArchive)
        = (.ok ⟨.ofString "/a/t", 2, 1, 1, 2⟩, fs')
      ∧ fs'.node? [[0x61], [0x74], [0x64], [0x66]] = some (.file [0x31, 0x32])
      ∧ MadeAbove (.ofString "/a/t") (holding smallArchive) fs₁
      ∧ Complete ar (.ofString "/a/t") root (holding smallArchive) fs₁
        ⟨.ofString "/a/t", 2, 1, 1, 2⟩ fs')
    ∧ (∃ e fs', extractAtomic {} (.ofString "/g") (.ofString "/t") twoFiles = (.error e, fs')
      ∧ MadeAbove (.ofString "/t") twoFiles fs'
      ∧ ∀ found, fs'.nodeAt false (.ofString "/t") ≠ .ok found)
    ∧ ∃ e fs', extractTemporary {} "zipshield-" (.ofString "/g") twoFiles = (.error e, fs')
      ∧ Same twoFiles fs' := by
  have hend : ∀ {α : Type} {x : Except ArchiveError α × FileSystem} {r}, x.1 = r →
      ∃ fs', x = (r, fs') := fun {_ x _} h => ⟨x.2, Prod.ext h rfl⟩
  refine ⟨?_, ?_, ?_⟩
  · obtain ⟨fs', hrun, hnode⟩ := extractAtomic_smallArchive
    obtain ⟨-, ar, fs₁, root, -, -, hmade, hcomplete⟩ :=
      (extraction_atomic {} (.ofString "/z") (.ofString "/a/t") _
        (isOrdinary_holding smallArchive).toIsSound).2.1 _ _ hrun
    exact ⟨fs', ar, fs₁, root, hrun, hnode, hmade, hcomplete⟩
  · have herror : (extractAtomic {} (.ofString "/g") (.ofString "/t") twoFiles).1
        = .error (.invalidArchive .tooShort) := by cbv
    have habsent : twoFiles.nodeAt false (.ofString "/t") = .error (.system .noEntry) := by cbv
    obtain ⟨fs', hrun⟩ := hend herror
    obtain ⟨hmade, -, hno⟩ :=
      (extraction_atomic {} (.ofString "/g") (.ofString "/t") _ isSound_twoFiles).1 _ _ hrun
    refine ⟨_, fs', hrun, hmade, hno (by decide +kernel) fun found => ?_⟩
    simp [habsent]
  · have herror : (extractTemporary {} "zipshield-" (.ofString "/g") twoFiles).1
        = .error (.invalidArchive .tooShort) := by cbv
    obtain ⟨fs', hrun⟩ := hend herror
    exact ⟨_, fs', hrun, (extraction_atomic {} (.ofString "/g") (.ofString "/t") _
      isSound_twoFiles).2.2 _ _ _ hrun⟩

/-- **A path that goes up leads through the directory made for it**: `/a/b/..` leads nowhere before
the extraction to it fails, and to `/a` behind it. -/
theorem extractAtomic_appears :
    (∀ found, twoFiles.nodeAt false (.ofString "/a/b/..") ≠ .ok found)
      ∧ ∃ fs', extractAtomic {} (.ofString "/z") (.ofString "/a/b/..") twoFiles
          = (.error (.invalidInput (.targetUnnamed (.ofString "/a/b/.."))), fs')
        ∧ fs'.nodeAt false (.ofString "/a/b/..") = .ok ([[0x61]], .directory) := by
  have habsent : twoFiles.nodeAt false (.ofString "/a/b/..") = .error (.system .noEntry) := by cbv
  refine ⟨fun found => by simp [habsent], _, Prod.ext ?_ rfl, ?_⟩ <;> cbv

end GuardedArchive.Extraction
