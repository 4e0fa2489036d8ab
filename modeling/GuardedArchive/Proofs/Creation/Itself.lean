import GuardedArchive.Proofs.Creation.Directory

/-!
# Proofs/Creation/Itself — an archive that is made in the tree that it archives

    root/  f  g/h  archive      the walk finds the archive too, as it is by then

The archive is made before the walk begins, and the walk goes through what then stands.  So what is
archived is not the tree but the tree with the archive in it, wherever that was made
(`compressDirectory_finds_itself`): outside of the tree that makes no difference, and inside it is
one entry too many.  What is read of the archive then grows while it is read, and the copy ends only
where it has caught up with its own stream (`eq_append_of_readGrowing`); to store the archive in
itself never comes to that end (`readOwn_eq_readGrowing`).
-/

namespace GuardedArchive.Creation

open FileSystem (Fresh IsListed IsReadable IsSound IsTree refill)
open Zip (Encoder Method)

variable {limits : Limits} {settings : CreationSettings} {deflate : Encoder} {method : Method}
  {fs fs' : FileSystem} {planned : List Planned} {skipped : List Path} {root archive loc : Location}
  {walk : List (Location × Node)} {content : Bytes} {source path : Path} {requested : String}

/-! ## A copy that feeds itself -/

section

variable {early : Bytes → Bytes} {limit : Nat} {octets read own : Bytes}

theorem nextChunk_eq_nil_iff {bs : Bytes} {n : Nat} :
    (bs.drop n).take Stream.bufferSize = [] ↔ bs.length ≤ n := by
  rw [List.take_eq_nil_iff, List.drop_eq_nil_iff]
  exact or_iff_right (by decide)

theorem isPrefix_append_nextChunk {bs : Bytes} (h : read <+: bs) :
    read ++ (bs.drop read.length).take Stream.bufferSize <+: bs := by
  obtain ⟨rest, rfl⟩ := h
  rw [List.drop_left]
  exact (List.prefix_append_right_inj _).mpr (List.take_prefix _ _)

/-- **A copy that feeds itself ends where it has caught up**: with all that stood there when its
entry was begun, and behind that all that is written out for what was read. -/
theorem eq_append_of_readGrowing (hmono : ∀ {bs cs}, bs <+: cs → early bs <+: early cs)
    (hread : read <+: octets ++ early read)
    (h : readGrowing early limit octets read = some own) : own = octets ++ early own := by
  induction read using readGrowing.induct early limit octets with
  | case1 read chunk hchunk =>
    rw [readGrowing] at h
    simp only [chunk] at hchunk
    simp only [if_pos hchunk, Option.some.injEq] at h
    exact h ▸ hread.eq_of_length_le (nextChunk_eq_nil_iff.mp hchunk)
  | case2 read chunk hchunk hmore =>
    rw [readGrowing] at h
    simp only [chunk] at hchunk hmore
    simp only [if_neg hchunk, if_pos hmore] at h
    cases h
  | case3 read chunk hchunk hmore ih =>
    rw [readGrowing] at h
    simp only [chunk] at hchunk hmore
    simp only [if_neg hchunk, if_neg hmore] at h
    -- What is read next is there already, and what was written out stays.
    exact ih ((isPrefix_append_nextChunk hread).trans
      ((List.prefix_append_right_inj _).mpr (hmono (List.prefix_append _ _)))) h

/-- An encoder that keeps all back until the end has the archive read as it was begun. -/
theorem readGrowing_of_silent (hearly : ∀ bs, early bs = []) (hlimit : octets.length ≤ limit)
    (hread : read <+: octets) : readGrowing early limit octets read = some octets := by
  induction read using readGrowing.induct early limit octets with
  | case1 read chunk hchunk =>
    rw [readGrowing]
    simp only [chunk] at hchunk
    rw [hearly, List.append_nil] at hchunk ⊢
    rw [if_pos hchunk, hread.eq_of_length_le (nextChunk_eq_nil_iff.mp hchunk)]
  | case2 read chunk hchunk hmore =>
    have hnext := (isPrefix_append_nextChunk hread).length_le
    simp only [chunk, hearly, List.append_nil] at hmore
    rw [List.length_append] at hnext
    omega
  | case3 read chunk hchunk hmore ih =>
    rw [readGrowing]
    simp only [chunk, hearly, List.append_nil] at hchunk hmore ih ⊢
    rw [if_neg hchunk, if_neg hmore]
    exact ih (isPrefix_append_nextChunk hread)

/-- What is written out of a content when so much of it was taken in. -/
def earlyOf : Method → Bytes → Bytes
  | .stored, read => read
  | .deflated _ early, read => early read

/-- **To store an archive in itself has no end**, and any other method ends as its encoder lets
it. -/
theorem readOwn_eq_readGrowing (method : Method) (h : octets ≠ []) :
    readOwn method limit octets = readGrowing (earlyOf method) limit octets [] := by
  cases method with
  | stored =>
    rcases hown : readGrowing (earlyOf .stored) limit octets [] with _ | own
    · rfl
    have hmono : ∀ {bs cs}, bs <+: cs → earlyOf .stored bs <+: earlyOf .stored cs := id
    have happend : own = octets ++ own := eq_append_of_readGrowing hmono List.nil_prefix hown
    exact absurd (List.append_left_eq_self.mp happend.symm) h
  | deflated encode early => rfl

end

/-- The archive is not taken if it is to be stored in itself. -/
theorem not_stored_of_taken {a : Draft} {own : Bytes}
    (h : a.taken planned loc content = some own) : ¬(a.method = .stored ∧ loc = a.archive) := by
  rintro ⟨hstored, rfl⟩
  rw [Draft.taken, if_pos rfl, hstored] at h
  cases h

/-! ## What a walk reads -/

theorem refill_file (root archive loc : Location) (own content : Bytes) :
    refill root archive own (loc, .file content)
      = (loc, .file (if root ++ loc = archive then own else content)) := by
  rw [refill]
  split <;> rfl

/-- What is taken of a found file is what it is refilled with. -/
theorem refill_of_taken {a : Draft} {octets own : Bytes} (h : a.taken planned (root ++ loc)
      (if root ++ loc = a.archive then octets else content) = some own) :
    refill root a.archive own (loc, .file content) = (loc, .file own) := by
  rw [refill_file]
  by_cases hown : root ++ loc = a.archive
  · rw [if_pos hown]
  · rw [if_neg hown] at h ⊢
    rw [Draft.taken, if_neg hown] at h
    rw [Option.some.inj h]

theorem map_refill (h : ∀ e ∈ walk, root ++ e.1 ≠ archive) :
    walk.map (refill root archive content) = walk :=
  (List.map_congr_left fun e he => if_neg (h e he)).trans (List.map_id _)

theorem checkPath_of_read {p : Path} (h : fs.read false p = .ok content) :
    FileSystem.checkPath p = .ok () := by
  rw [FileSystem.read] at h
  rcases hat : fs.nodeAt false p with e | ⟨found, node⟩
  · rw [hat] at h
    cases h
  · exact (FileSystem.nodeAt_eq_ok_iff.mp hat).1

theorem read_of_addFile {heading : Zip.Heading} {s s' : Creation}
    (h : addFile heading source s = (.ok (), s')) :
    ∃ content, (s.save (s.writer.begun heading)).files.read false source = .ok content := by
  simp only [addFile] at h
  split at h
  · cases h
  next content hread => exact ⟨content, hread⟩

/-- An ending that succeeds is that with what was planned. -/
theorem Draft.Ends.of_ok {a : Draft} {x : Except ArchiveError Unit × Creation} {s' : Creation}
    (h : a.Ends limits planned skipped x) (hx : x = (.ok (), s')) :
    planned.length ≤ limits.maxEntryCount ∧ s' = a.holding planned skipped := by
  by_cases hle : planned.length ≤ limits.maxEntryCount
  · exact ⟨hle, (Prod.mk.inj (hx.symm.trans (h.of_le hle))).2⟩
  · rw [Draft.Ends, if_neg hle, hx] at h
    cases h

/-- **What was gone past** could be asked for, if it is a directory or a file; and a file has names
that are text, and is not stored in itself. -/
structure Passed (a : Draft) (root : Location) (e : Location × Node) : Prop where
  asked : e.2 = .directory ∨ foundFile? e ≠ none →
    FileSystem.checkPath (Location.path (root ++ e.1)) = .ok ()
  text : foundFile? e ≠ none → ∀ name ∈ e.1, (Utf8.decode? name).isSome
  apart : foundFile? e ≠ none → ¬(a.method = .stored ∧ root ++ e.1 = a.archive)

theorem Passed.other {a : Draft} {e : Location × Node} (he : foundOther? e = some e.1) :
    Passed a root e := by
  obtain ⟨l, _ | c | _ | _⟩ := e
  · cases he
  · cases he
  · exact ⟨by simp [foundFile?], fun hf => absurd rfl hf, fun hf => absurd rfl hf⟩
  · exact ⟨by simp [foundFile?], fun hf => absurd rfl hf, fun hf => absurd rfl hf⟩

/-- **A walk was gone through**: all of it was passed, and the archive holds what it called for, the
archive itself as its copy came out. -/
structure GoneThrough (a : Draft) (limits : Limits) (root : Location)
    (walk : List (Location × Node)) (planned : List Planned) (skipped : List Path)
    (s' : Creation) : Prop where
  passed : ∀ e ∈ walk, Passed a root e
  holding : ∃ own,
    ((walk.map (refill root a.archive own)).foldl planNext planned).length ≤ limits.maxEntryCount
      ∧ s' = a.holding ((walk.map (refill root a.archive own)).foldl planNext planned)
        (skipped ++ leftOut root walk)

namespace GoneThrough

variable {a : Draft} {e : Location × Node} {s' : Creation} {skipped' : List Path}

theorem nil (hle : planned.length ≤ limits.maxEntryCount) :
    GoneThrough a limits root [] planned skipped (a.holding planned skipped) := by
  have hnone : leftOut root [] = [] := rfl
  refine ⟨fun _ he => absurd he List.not_mem_nil, [], hle, ?_⟩
  rw [hnone, List.append_nil]
  rfl

/-- What is not the archive was there to be found as it is. -/
theorem cons (he : Passed a root e) (hown : root ++ e.1 ≠ a.archive)
    (hskipped : skipped ++ leftOut root (e :: walk) = skipped' ++ leftOut root walk)
    (h : GoneThrough a limits root walk (planNext planned e) skipped' s') :
    GoneThrough a limits root (e :: walk) planned skipped s' := by
  obtain ⟨own, hends⟩ := h.holding
  refine ⟨List.forall_mem_cons.mpr ⟨he, h.passed⟩, own, ?_⟩
  rw [List.map_cons, refill, if_neg hown, hskipped]
  exact hends

/-- The archive is found once, with the content that it then has. -/
theorem cons_own {own : Bytes} (he : Passed a root (loc, .file content))
    (hown : root ++ loc = a.archive) (hnew : loc ∉ walk.map (·.1))
    (h : GoneThrough a limits root walk (planNext planned (loc, .file own)) skipped s') :
    GoneThrough a limits root ((loc, .file content) :: walk) planned skipped s' := by
  have hapart : ∀ e ∈ walk, root ++ e.1 ≠ a.archive := fun e hm he =>
    hnew (List.mem_map.mpr ⟨e, hm, List.append_cancel_left (he.trans hown.symm)⟩)
  obtain ⟨own', hends⟩ := h.holding
  refine ⟨List.forall_mem_cons.mpr ⟨he, h.passed⟩, own, ?_⟩
  rw [map_refill hapart] at hends
  rw [List.map_cons, refill_file, if_pos hown, map_refill hapart]
  exact hends

end GoneThrough

section

variable {a : Draft} (htree : IsTree a.files) (hl : IsListed a.files)
  (hfresh : Fresh a.files a.path a.archive)
include hfresh

theorem node?_archive : a.files.node? a.archive = none := by simpa using hfresh.free []

include hl

/-- What is found where the archive is, is the archive. -/
theorem ne_archive_of_found {node : Node}
    (he : (loc, node) ∈ (a.files.put a.archive (.file [])).depthFirst root)
    (hnode : ∀ c, node ≠ .file c) : root ++ loc ≠ a.archive := fun hown => by
  obtain ⟨-, hn⟩ := (FileSystem.mem_depthFirst_iff (hfresh.isListed_put hl _)).mp he
  rw [hown, a.files.node?_put hfresh.ne_nil, if_pos rfl] at hn
  exact hnode [] (Option.some.inj hn).symm

theorem isProper_of_found {node : Node}
    (he : (loc, node) ∈ (a.files.put a.archive (.file [])).depthFirst root) : loc.IsProper := by
  have hl' := hfresh.isListed_put hl (.file [])
  exact (hl'.isProper ((FileSystem.mem_depthFirst_iff hl').mp he).2).of_append.2

/-- What stands below is found, the archive included. -/
theorem refill_mem_depthFirst {own : Bytes} {node : Node} (hne : loc ≠ [])
    (hn : (a.files.put a.archive (.file own)).node? (root ++ loc) = some node) :
    refill root a.archive [] (loc, node)
      ∈ (a.files.put a.archive (.file [])).depthFirst root := by
  rw [FileSystem.depthFirst_refill hfresh.ne_nil (node?_archive hfresh) root own []]
  exact List.mem_map_of_mem
    ((FileSystem.mem_depthFirst_iff (hfresh.isListed_put hl _)).mpr ⟨hne, hn⟩)

/-- **What was gone past to the end is a tree that can be read**, with the archive in it. -/
theorem isReadable_of_passed
    (hpassed : ∀ e ∈ (a.files.put a.archive (.file [])).depthFirst root, Passed a root e)
    (own : Bytes) : IsReadable (a.files.put a.archive (.file own)) root where
  asked loc node hne hn hlink hpipe := by
    have hp := hpassed _ (refill_mem_depthFirst hl hfresh hne hn)
    have hkind : (refill root a.archive [] (loc, node)).2 = .directory
        ∨ foundFile? (refill root a.archive [] (loc, node)) ≠ none := by
      rw [refill]
      split
      · exact .inr (by simp [foundFile?])
      · cases node with
        | directory => exact .inl rfl
        | file content => exact .inr (by simp [foundFile?])
        | link target => exact absurd rfl (hlink target)
        | pipe => exact absurd rfl hpipe
    have hasked := hp.asked hkind
    rwa [FileSystem.fst_refill] at hasked
  text loc content hn := by
    by_cases hne : loc = []
    · rw [hne]
      exact fun _ hname => absurd hname List.not_mem_nil
    · have hp := hpassed _ (refill_mem_depthFirst hl hfresh hne hn)
      rw [refill_file] at hp
      exact hp.text (by simp [foundFile?])

include htree

/-- **A file that was found is read where it stands**, and the archive as it is by then. -/
theorem nodeAt_found {own read : Bytes}
    (he : (loc, .file content) ∈ (a.files.put a.archive (.file [])).depthFirst root)
    (hread : (a.files.put a.archive (.file own)).read false (Location.path (root ++ loc))
      = .ok read) :
    (a.files.put a.archive (.file own)).nodeAt false (Location.path (root ++ loc))
      = .ok (root ++ loc, .file (if root ++ loc = a.archive then own else content)) := by
  have hm := List.mem_map_of_mem (f := refill root a.archive own) he
  rw [← FileSystem.depthFirst_refill hfresh.ne_nil (node?_archive hfresh), refill_file] at hm
  have hl' := hfresh.isListed_put hl (.file own)
  obtain ⟨-, hn⟩ := (FileSystem.mem_depthFirst_iff hl').mp hm
  exact (hfresh.isTree_file htree own).nodeAt_path hl' hn (Node.file_ne_link _)
    (checkPath_of_read hread)

/-- **One file more is in the archive**, with what was taken of it. -/
theorem addEach_file_eq_ok {s' : Creation} (hle : planned.length ≤ limits.maxEntryCount)
    (hproper : ∀ p ∈ planned, p.location.IsProper)
    (he : (loc, .file content) ∈ (a.files.put a.archive (.file [])).depthFirst root)
    (h : addEach limits a.method root ((loc, .file content) :: walk) (a.holding planned skipped)
      = (.ok (), s')) :
    Passed a root (loc, .file content)
      ∧ ∃ own, (planNext planned (refill root a.archive own (loc, .file content))).length
          ≤ limits.maxEntryCount
        ∧ addEach limits a.method root walk
          (a.holding (planNext planned (refill root a.archive own (loc, .file content))) skipped)
            = (.ok (), s') := by
  have htext : ∀ name ∈ loc, (Utf8.decode? name).isSome := by
    by_contra hnot
    have hall : (loc.all fun name => (Utf8.decode? name).isSome) = false :=
      Bool.eq_false_iff.mpr fun hall => hnot (List.all_eq_true.mp hall)
    rw [addEach] at h
    simp only [hall] at h
    cases h
  have hloc := isProper_of_found hl hfresh he
  rw [addEach_file htext] at h
  obtain ⟨_, s₁, hadd, hrest⟩ := Effect.bind_eq_ok_iff.mp h
  obtain ⟨_, s₂, habove, hadd⟩ := Effect.bind_eq_ok_iff.mp hadd
  obtain ⟨_, s₃, hcount, hfile⟩ := Effect.bind_eq_ok_iff.mp hadd
  obtain ⟨hle', rfl⟩ := (addAncestors_missing_ends a skipped hle hproper hloc).of_ok habove
  rw [checkCount_holding a skipped hle'] at hcount
  obtain ⟨hless, rfl⟩ := Prod.mk.inj hcount
  have hlt : (planned ++ (missing planned loc).map Planned.directory).length
      < limits.maxEntryCount := by
    by_contra hnot
    rw [if_neg hnot] at hless
    cases hless
  obtain ⟨read, hread⟩ := read_of_addFile hfile
  rw [save, Draft.holding, FileSystem.put_put] at hread
  have hat := nodeAt_found htree hl hfresh he hread
  obtain ⟨own, htaken, -, rfl⟩ := addFile_eq_ok hat hfile
  refine ⟨⟨fun _ => checkPath_of_read hread, fun _ => htext, fun _ => not_stored_of_taken htaken⟩,
    own, ?_⟩
  rw [refill_of_taken htaken, planNext, List.length_append]
  exact ⟨hlt, hrest⟩

/-- **A walk that comes to its end was gone through.** -/
theorem addEach_eq_ok : ∀ {walk : List (Location × Node)} {planned : List Planned}
    {skipped : List Path} {s' : Creation}, planned.length ≤ limits.maxEntryCount →
    (∀ p ∈ planned, p.location.IsProper) →
    (∀ e ∈ walk, e ∈ (a.files.put a.archive (.file [])).depthFirst root) →
    (walk.map (·.1)).Nodup →
    addEach limits a.method root walk (a.holding planned skipped) = (.ok (), s') →
      GoneThrough a limits root walk planned skipped s'
  | [], planned, skipped, s', hle, _, _, _, h => by
    obtain rfl : a.holding planned skipped = s' := (Prod.mk.inj h).2
    exact .nil hle
  | (loc, node) :: walk, planned, skipped, s', hle, hproper, hfound, hnodup, h => by
    obtain ⟨he, hlater⟩ := List.forall_mem_cons.mp hfound
    obtain ⟨hnew, hrest⟩ := List.nodup_cons.mp (List.map_cons ▸ hnodup)
    cases node with
    | directory =>
      rw [addEach] at h
      obtain ⟨_, s₁, hopen, h⟩ := Effect.bind_eq_ok_iff.mp h
      obtain ⟨hc, rfl⟩ := Prod.mk.inj hopen
      have hpassed : Passed a root (loc, .directory) := ⟨fun _ => mapError_eq_ok_iff.mp hc,
        fun hf => absurd rfl hf, fun hf => absurd rfl hf⟩
      exact .cons hpassed (ne_archive_of_found hl hfresh he (by simp)) rfl
        (addEach_eq_ok hle hproper hlater hrest h)
    | file content =>
      obtain ⟨hpassed, own, hle', h⟩ := addEach_file_eq_ok htree hl hfresh hle hproper he h
      have hproper' := isProper_planNext (e := refill root a.archive own (loc, .file content))
        ((FileSystem.fst_refill ..).symm ▸ isProper_of_found hl hfresh he) hproper
      have hgone := addEach_eq_ok hle' hproper' hlater hrest h
      by_cases hown : root ++ loc = a.archive
      · rw [refill_file, if_pos hown] at hgone
        exact .cons_own hpassed hown hnew hgone
      · rw [refill, if_neg hown] at hgone
        exact .cons hpassed hown rfl hgone
    | link | pipe =>
      rw [addEach_other rfl] at h
      obtain ⟨_, s₁, hskip, h⟩ := Effect.bind_eq_ok_iff.mp h
      rw [skip_holding] at hskip
      obtain ⟨-, rfl⟩ := Prod.mk.inj hskip
      refine .cons (.other rfl) (ne_archive_of_found hl hfresh he (by simp)) ?_
        (addEach_eq_ok hle hproper hlater hrest h)
      rw [leftOut_cons rfl, List.append_cons]

end

/-! ## What a tree's archive holds -/

theorem perm_filesBelow (fs : FileSystem) (root : Location) : (filesBelow fs root).Perm
    ((fs.nodes.filterMap (FileSystem.foundFrom root)).filterMap foundFile?) := by
  rw [filesBelow, FileSystem.depthFirst_eq]
  exact (List.mergeSort_perm _ _).filterMap _

/-- **A file that is put into a free place is one more of the files there.** -/
theorem perm_filesBelow_put {own : Bytes} (hne : loc ≠ [])
    (hfree : fs.node? (root ++ loc) = none) :
    (filesBelow (fs.put (root ++ loc) (.file own)) root).Perm
      ((loc, own) :: filesBelow fs root) := by
  have hown : [(root ++ loc, Node.file own)].filterMap (FileSystem.foundFrom root)
      = [(loc, .file own)] := by
    have hfound : FileSystem.foundFrom root (root ++ loc, .file own) = some (loc, .file own) :=
      FileSystem.foundFrom_eq_some_iff.mpr ⟨hne, rfl⟩
    rw [List.filterMap_cons_some hfound, List.filterMap_nil]
  refine (perm_filesBelow _ root).trans ?_
  rw [fs.nodes_put (by simp [hne]) hfree, List.filterMap_append, List.filterMap_append, hown]
  exact (List.perm_append_singleton _ _).trans ((perm_filesBelow fs root).symm.cons _)

/-- **Where the writing of a tree succeeds**, its walk was gone through to the end, and what is
written is the plan for the tree with the archive in it. -/
theorem compressDirectory_eq_ok_cases {report : CreationReport} (hs : IsSound fs)
    (hl : IsListed fs)
    (h : compressDirectory .faultless deflate limits settings source requested fs
      = (.ok report, fs')) :
    ∃ root archive path own planned, Access.readableDirectory fs source = .ok root
      ∧ Temporary.IsFree fs path archive
      ∧ Temporary.file settings.temporaryPrefix ("-" ++ ArchiveName.normalize settings requested) fs
        = (.ok path, fs.put archive (.file []))
      ∧ (∀ e ∈ (fs.put archive (.file [])).depthFirst root,
          Passed ⟨fs, archive, path, methodOf deflate settings⟩ root e)
      ∧ planned = plan ((fs.put archive (.file own)).depthFirst root)
      ∧ planned.length ≤ limits.maxEntryCount
      ∧ report = reportOf path planned
          (leftOut root ((fs.put archive (.file [])).depthFirst root))
      ∧ fs' = fs.put archive (.file (writerOf (methodOf deflate settings) planned).finish) := by
  rcases hroot : Access.readableDirectory fs source with e | root
  · rw [compressDirectory, Effect.bind_apply, Effect.look, hroot] at h
    cases (Prod.mk.inj h).1
  rw [compressDirectory_eq hroot] at h
  rcases Temporary.file_cases settings.temporaryPrefix
    ("-" ++ ArchiveName.normalize settings requested) fs
    with ⟨e, hmade⟩ | ⟨path, archive, hfree, hmade⟩
  · rw [withArchive, Effect.bind_apply, hmade] at h
    cases (Prod.mk.inj h).1
  have hfresh := Fresh.of_isFree hs.tree hfree
  have hl' := hfresh.isListed_put hl (.file [])
  rcases hwalk : walkBelow limits (methodOf deflate settings) root
    (Draft.holding ⟨fs, archive, path, methodOf deflate settings⟩ [] []) with ⟨e | _, s⟩
  · have herror := withArchive_error _ hfresh hfree.noSlash hmade (congrArg Prod.fst hwalk)
    rw [h] at herror
    cases herror
  have hdone : addEach limits (methodOf deflate settings) root
      ((fs.put archive (.file [])).depthFirst root)
      (Draft.holding ⟨fs, archive, path, methodOf deflate settings⟩ [] []) = (.ok (), s) := hwalk
  obtain ⟨hpassed, own, hcount, rfl⟩ := addEach_eq_ok
    (a := ⟨fs, archive, path, methodOf deflate settings⟩) hs.tree hl hfresh (Nat.zero_le _)
    (fun _ hp => absurd hp List.not_mem_nil) (fun _ => id)
    (FileSystem.nodup_depthFirst hl' root) hdone
  rw [withArchive_ok _ hfresh hfree.noSlash hmade hwalk] at h
  rw [← FileSystem.depthFirst_refill hfresh.ne_nil hfree.node?_eq root [] own] at hcount h
  obtain ⟨hreport, rfl⟩ := Prod.mk.inj h
  exact ⟨root, archive, path, own, _, rfl, hfree, hmade, hpassed, rfl, hcount,
    (Except.ok.inj hreport).symm, rfl⟩

/-! ## The directory for temporary files -/

/-- The directory for temporary files, with the file `f` in it. -/
def temporaryOnly : FileSystem where
  nodes := [([[0x6d]], .directory), ([[0x6d], [0x66]], .file [0x31])]
  temporaryDirectory := [[0x6d]]

/-- The name of the archive that is made there. -/
def ownName : Name := Bytes.ofString "zipshield-aaaaaa-z.zip"

theorem isSound_temporaryOnly : IsSound temporaryOnly where
  tree := FileSystem.isTree_of_nodes (by decide)
  proper := fun _ hn => absurd hn List.not_mem_nil
  here := rfl

theorem isListed_temporaryOnly : IsListed temporaryOnly := ⟨by decide, by decide, by decide⟩

theorem readableDirectory_temporaryOnly :
    Access.readableDirectory temporaryOnly (.ofString "/m") = .ok [[0x6d]] := by cbv

theorem filesBelow_temporaryOnly :
    filesBelow temporaryOnly [[0x6d]] = [([[0x66]], [0x31])] := by cbv

theorem file_temporaryOnly : Temporary.file ({} : CreationSettings).temporaryPrefix
    ("-" ++ ArchiveName.normalize {} "z") temporaryOnly
      = (.ok (.ofString "/m/zipshield-aaaaaa-z.zip"), temporaryOnly.put oneArchive (.file [])) := by
  have hname : ArchiveName.normalize {} "z" = "z.zip" := by decide +kernel
  rw [hname]
  cbv

theorem nodeAt_file_temporaryOnly (octets : Bytes) :
    (temporaryOnly.put oneArchive (.file octets)).nodeAt false (Location.path [[0x6d], [0x66]])
      = .ok ([[0x6d], [0x66]], .file [0x31]) := by cbv

theorem nodeAt_own_temporaryOnly (octets : Bytes) :
    (temporaryOnly.put oneArchive (.file octets)).nodeAt false oneArchive.path
      = .ok (oneArchive, .file octets) := by cbv

theorem depthFirst_temporaryOnly (octets : Bytes) :
    (temporaryOnly.put oneArchive (.file octets)).depthFirst [[0x6d]]
      = [([[0x66]], .file [0x31]), ([ownName], .file octets)] := by cbv

/-- The archive of it, while it is written. -/
def ownDraft : Draft where
  files := temporaryOnly
  archive := oneArchive
  path := .ofString "/m/zipshield-aaaaaa-z.zip"
  method := methodOf .plain {}

/-- What the archive holds when its own entry is begun. -/
def ownContent : Bytes :=
  (writerOf ownDraft.method [.file [[0x66]] [0x31]]).begun ⟨ownName, ownDraft.method, Zip.fileMode⟩

/-- The entries of the archive: the file, and the archive. -/
def ownPlan : List Planned := [.file [[0x66]] [0x31], .file [ownName] ownContent]

theorem fresh_temporaryOnly :
    Fresh temporaryOnly (.ofString "/m/zipshield-aaaaaa-z.zip") oneArchive :=
  (FileSystem.fresh_of_file isSound_temporaryOnly.tree file_temporaryOnly
    (by cbv : _ = Except.ok (oneArchive, Node.file []))).1

theorem nodeAt_begun_ownDraft :
    (ownDraft.begun ([.file [[0x66]] [0x31]] ++ (missing [.file [[0x66]] [0x31]] [ownName]).map
      .directory) ⟨Path.joined [ownName], ownDraft.method, Zip.fileMode⟩).nodeAt false
        (Location.path ([[0x6d]] ++ [ownName])) = .ok (oneArchive, .file ownContent) := by
  have hmissing : missing [.file [[0x66]] [0x31]] [ownName] = [] := rfl
  have hname : Path.joined [ownName] = ownName := by decide +kernel
  rw [hmissing, hname, List.map_nil, List.append_nil]
  exact nodeAt_own_temporaryOnly ownContent

/-- The encoder keeps its stream back, so that the archive is taken as it was begun. -/
theorem taken_ownDraft :
    ownDraft.taken ([.file [[0x66]] [0x31]] ++ (missing [.file [[0x66]] [0x31]] [ownName]).map
      .directory) oneArchive ownContent = some ownContent := by
  have hown : oneArchive = ownDraft.archive := rfl
  rw [Draft.taken, if_pos hown]
  exact readGrowing_of_silent (fun _ => rfl) (by decide +kernel) List.nil_prefix

/-- The walk adds the file and then the archive, where two entries are allowed. -/
theorem walkBelow_ownDraft (limits : Limits) : ownDraft.Ends limits ownPlan []
    (walkBelow limits ownDraft.method [[0x6d]] (ownDraft.holding [] [])) := by
  have hwalk : walkBelow limits ownDraft.method [[0x6d]] (ownDraft.holding [] [])
      = addEach limits ownDraft.method [[0x6d]] [([[0x66]], .file [0x31]), ([ownName], .file [])]
        (ownDraft.holding [] []) :=
    congrArg (fun walk => addEach limits ownDraft.method [[0x6d]] walk (ownDraft.holding [] []))
      (depthFirst_temporaryOnly [])
  have hfirst : planNext [] ([[0x66]], .file [0x31]) = [.file [[0x66]] [0x31]] := rfl
  have hsecond : planNext [.file [[0x66]] [0x31]] ([ownName], .file ownContent) = ownPlan := rfl
  rw [hwalk, addEach_file (by decide +kernel)]
  refine (addFile_ends ownDraft [] (Nat.zero_le _) (by simp) (by decide +kernel)
    (nodeAt_file_temporaryOnly _) (if_neg (by decide)) (by decide +kernel)).bind
    (by decide) fun hle => ?_
  rw [addEach_file (by decide +kernel)]
  rw [hfirst] at hle ⊢
  have hends := addFile_ends ownDraft [] hle (by decide +kernel) (by decide +kernel)
    nodeAt_begun_ownDraft taken_ownDraft (by decide +kernel)
  rw [hsecond] at hends
  refine hends.bind (Nat.le_refl _) fun hle' => ?_
  rw [Draft.Ends, if_pos hle']
  rfl

theorem compressDirectory_temporaryOnly (hcount : 2 ≤ limits.maxEntryCount) :
    compressDirectory .faultless .plain limits {} (.ofString "/m") "z" temporaryOnly
      = (.ok (reportOf ownDraft.path ownPlan []),
        temporaryOnly.put oneArchive (.file (writerOf ownDraft.method ownPlan).finish)) := by
  rw [compressDirectory_eq readableDirectory_temporaryOnly]
  exact withArchive_ok _ fresh_temporaryOnly rfl file_temporaryOnly
    ((walkBelow_ownDraft limits).of_le hcount)

theorem plans_temporaryOnly :
    Plans ((temporaryOnly.put oneArchive (.file ownContent)).depthFirst [[0x6d]]) ownPlan := by
  have hplan : plan ((temporaryOnly.put oneArchive (.file ownContent)).depthFirst [[0x6d]])
      = ownPlan := congrArg plan (depthFirst_temporaryOnly ownContent)
  exact hplan ▸ plans_plan (FileSystem.nodup_depthFirst
    (fresh_temporaryOnly.isListed_put isListed_temporaryOnly _) [[0x6d]])

theorem isReadable_temporaryOnly :
    IsReadable (temporaryOnly.put oneArchive (.file ownContent)) [[0x6d]] :=
  .of_nodes _ (by decide +kernel) (by decide +kernel)

theorem isNarrow_ownPlan : (writerOf ownDraft.method ownPlan).IsNarrow :=
  ⟨by decide +kernel, by decide +kernel⟩

/-! ## An archive in the tree -/

/-- **What is archived is the tree with the archive in it**, as the copy of that came out.  The
files of the archive are those of the tree if it was made outside; otherwise it is one file more,
and was not to be stored. -/
theorem compressDirectory_finds_itself {report : CreationReport} (hdeflate : deflate.IsExact)
    (hs : IsSound fs) (hl : IsListed fs)
    (h : compressDirectory .faultless deflate limits settings source requested fs
      = (.ok report, fs')) :
    ∃ root archive own planned, Access.readableDirectory fs source = .ok root
      ∧ fs.node? archive = none
      ∧ (∃ octets, ∀ followLast,
          fs'.nodeAt followLast report.archivePath = .ok (archive, .file octets))
      ∧ Archived limits (methodOf deflate settings) (fs.put archive (.file own)) root archive
          planned report fs'
      ∧ (¬root <+: archive → planned.filterMap Planned.file? = filesBelow fs root)
      ∧ ∀ rel, archive = root ++ rel →
          (planned.filterMap Planned.file?).Perm ((rel, own) :: filesBelow fs root)
            ∧ settings.compressionLevel ≠ some 0 := by
  obtain ⟨root, archive, path, own, planned, hroot, hfree, -, hpassed, rfl, hcount, rfl, rfl⟩ :=
    compressDirectory_eq_ok_cases hs hl h
  have hfresh := Fresh.of_isFree hs.tree hfree
  have hl' := hfresh.isListed_put hl (.file own)
  have hplans := plans_plan (FileSystem.nodup_depthFirst hl' root)
  have hreadable : IsReadable (fs.put archive (.file own)) root :=
    isReadable_of_passed (a := ⟨fs, archive, path, _⟩) hl hfresh hpassed own
  have harchived : Archived limits _ _ root archive _ (reportOf path _ _) _ := .of_plan hl'
    hreadable (isExact_methodOf hdeflate settings) hfresh.ne_nil hplans hcount
    (leftOut root ((fs.put archive (.file [])).depthFirst root))
  rw [FileSystem.put_put] at harchived
  refine ⟨root, archive, own, _, hroot, hfree.node?_eq, ⟨_, hfree.nodeAt _⟩, harchived,
    fun hout => ?_, fun rel hrel => ?_⟩
  · rw [hplans.files, FileSystem.depthFirst_put hout, filesBelow]
  · subst hrel
    have hne : rel ≠ [] := by
      rintro rfl
      have hdirectory := (FileSystem.canonicalize_eq_ok_iff.mp
        (Access.readableDirectory_eq_ok hroot)).2.node?_eq
      rw [List.append_nil] at hfree
      rw [hfree.node?_eq] at hdirectory
      cases hdirectory
    refine ⟨hplans.files ▸ perm_filesBelow_put hne hfree.node?_eq, fun hlevel => ?_⟩
    have hfound : (rel, .file []) ∈ (fs.put (root ++ rel) (.file [])).depthFirst root := by
      refine (FileSystem.mem_depthFirst_iff (hfresh.isListed_put hl _)).mpr ⟨hne, ?_⟩
      rw [fs.node?_put hfresh.ne_nil, if_pos rfl]
    exact (hpassed _ hfound).apart (by simp [foundFile?]) ⟨if_pos hlevel, rfl⟩

/-- The archive in the directory for temporary files is archived in itself. -/
theorem temporaryOnly_finds_itself : ∃ report fs',
    compressDirectory .faultless .plain {} {} (.ofString "/m") "z" temporaryOnly = (.ok report, fs')
      ∧ ∃ root archive own planned,
        Access.readableDirectory temporaryOnly (.ofString "/m") = .ok root
        ∧ temporaryOnly.node? archive = none
        ∧ (∃ octets, ∀ followLast,
            fs'.nodeAt followLast report.archivePath = .ok (archive, .file octets))
        ∧ Archived {} (methodOf .plain {}) (temporaryOnly.put archive (.file own)) root archive
            planned report fs'
        ∧ (¬root <+: archive → planned.filterMap Planned.file? = filesBelow temporaryOnly root)
        ∧ ∀ rel, archive = root ++ rel →
            (planned.filterMap Planned.file?).Perm ((rel, own) :: filesBelow temporaryOnly root)
              ∧ ({} : CreationSettings).compressionLevel ≠ some 0 :=
  ⟨_, _, compressDirectory_temporaryOnly (by decide),
    compressDirectory_finds_itself Encoder.isExact_plain isSound_temporaryOnly
      isListed_temporaryOnly (compressDirectory_temporaryOnly (by decide))⟩

/-- **An archive can be its own entry**: of the directory for temporary files with the one file `f`
in it, the archive holds two files, and one entry is not enough for it. -/
theorem archive_holds_itself : filesBelow temporaryOnly [[0x6d]] = [([[0x66]], [0x31])]
    ∧ (∃ report fs' a,
        compressDirectory .faultless .plain {} {} (.ofString "/m") "z" temporaryOnly
            = (.ok report, fs')
          ∧ report.archivePath = Location.path [[0x6d], ownName] ∧ report.filesAdded = 2
          ∧ Zip.Archive.load {} (.disk [[0x6d], ownName]) fs' = .ok a
          ∧ HoldsPlan a fs' [.file [[0x66]] [0x31], .file [ownName] ownContent])
    ∧ (compressDirectory .faultless .plain { maxEntryCount := 1 } {} (.ofString "/m") "z"
        temporaryOnly).1 = .error (.violation (.entryCount 2 1)) := by
  have hwritable := isWritable_of_readable
    (fresh_temporaryOnly.isListed_put isListed_temporaryOnly _) isReadable_temporaryOnly
    plans_temporaryOnly
  have hoctets : (Zip.Source.disk oneArchive).octets
      (temporaryOnly.put oneArchive (.file (writerOf ownDraft.method ownPlan).finish))
        = (writerOf ownDraft.method ownPlan).finish :=
    temporaryOnly.contentAt_put fresh_temporaryOnly.ne_nil _
  have hopens : ∃ a, Zip.Archive.load {} (.disk oneArchive) _ = .ok a ∧ HoldsPlan a _ ownPlan :=
    exists_holdsPlan hwritable (isExact_methodOf Encoder.isExact_plain {}) (by decide)
      isNarrow_ownPlan hoctets
  obtain ⟨a, hload, hholds⟩ := hopens
  refine ⟨filesBelow_temporaryOnly, ⟨_, _, a, compressDirectory_temporaryOnly (by decide), ?_, rfl,
    hload, hholds⟩, ?_⟩
  · decide +kernel
  · have hends := walkBelow_ownDraft { maxEntryCount := 1 }
    rw [Draft.Ends, if_neg (by decide)] at hends
    rw [compressDirectory_eq readableDirectory_temporaryOnly]
    exact withArchive_error _ fresh_temporaryOnly rfl file_temporaryOnly hends

end GuardedArchive.Creation
