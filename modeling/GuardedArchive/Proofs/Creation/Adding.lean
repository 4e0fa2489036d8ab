import GuardedArchive.Proofs.Creation.Plan
import GuardedArchive.Proofs.FileSystem.Making

/-!
# Proofs/Creation/Adding — an archive under way holds what was planned so far

An archive that is being written is told by what was planned for it (`Draft.holding`).  Each step of
a walk adds what it calls for, as long as the count of entries allows, so that a whole walk ends
with its plan, or is stopped by the count where the plan is too long (`addEach_ends`).
-/

namespace GuardedArchive.Creation

open Zip (Heading Method Writer)

variable {limits : Limits} {method : Method} {planned : List Planned}
  {walk : List (Location × Node)} {loc : Location} {content : Bytes} {skipped : List Path}

/-- The writer with what was planned. -/
def writerOf (method : Method) (planned : List Planned) : Writer :=
  Writer.addAll {} (planned.map (Planned.written method))

/-- How many octets the planned files have together. -/
def octetsOf (planned : List Planned) : Nat := (planned.map (·.content.length)).sum

/-- The report on what was planned and what was left out. -/
def reportOf (path : Path) (planned : List Planned) (skipped : List Path) : CreationReport where
  archivePath := path
  filesAdded := (planned.filterMap Planned.file?).length
  directoriesAdded := (planned.filterMap Planned.directory?).length
  bytesWritten := octetsOf planned
  filesSkipped := skipped.length
  warnings := skipped.map fun p => "skipped non-regular file: " ++ p.display

/-- An archive to be written: the files around it, where it is, and how its entries are written. -/
structure Draft where
  files : FileSystem
  archive : Location
  path : Path
  method : Method

namespace Draft

/-- **The archive under way** with what was planned. -/
def holding (a : Draft) (planned : List Planned) (skipped : List Path) : Creation where
  files := a.files.put a.archive (.file (writerOf a.method planned).octets)
  archive := a.archive
  writer := writerOf a.method planned
  directories := ((planned.filterMap Planned.directory?).map Path.joined).reverse
  report := reportOf a.path planned skipped

/-- The files when an entry is begun behind what was planned. -/
def begun (a : Draft) (planned : List Planned) (heading : Heading) : FileSystem :=
  a.files.put a.archive (.file ((writerOf a.method planned).begun heading))

/-- What is taken of a file that is found where its entry is begun behind what was planned: its
content, or what is read of the archive when that is found. -/
def taken (a : Draft) (planned : List Planned) (found : Location) (content : Bytes) :
    Option Bytes :=
  if found = a.archive then readOwn a.method (a.holding planned []).sizeLimit content
  else some content

/-- A file that is not the archive is read with this content, whatever is in the archive. -/
def Reads (a : Draft) (source : Path) (content : Bytes) : Prop :=
  ∀ octets, ∃ loc, loc ≠ a.archive
    ∧ (a.files.put a.archive (.file octets)).nodeAt false source = .ok (loc, .file content)

end Draft

theorem writerOf_concat (method : Method) (planned : List Planned) (p : Planned) :
    writerOf method (planned ++ [p])
      = (writerOf method planned).add (p.written method).1 (p.written method).2 := by
  rw [writerOf, writerOf, List.map_append, Writer.addAll, List.foldl_append]
  rfl

theorem octetsOf_append (ps qs : List Planned) :
    octetsOf (ps ++ qs) = octetsOf ps + octetsOf qs := by
  rw [octetsOf, List.map_append, List.sum_append]
  rfl

/-! ## Single steps -/

variable {a : Draft}

/-- The disk delivers the sources of a draft whole. -/
theorem reads_holding (a : Draft) (planned : List Planned) (skipped : List Path) (source : Path)
    (content : Bytes) :
    (a.holding planned skipped).disk.reads source content = Stream.readsOf content := rfl

theorem addDirectory_holding (a : Draft) (planned : List Planned) (skipped : List Path)
    (d : Location) : addDirectory (Path.joined d) (a.holding planned skipped)
      = (.ok (), a.holding (planned ++ [.directory d]) skipped) := by
  have hadd : (writerOf a.method planned).add
      ⟨Path.joined d ++ [Path.slash], .stored, Zip.directoryMode⟩ []
        = writerOf a.method (planned ++ [.directory d]) := by
    rw [writerOf_concat]
    simp only [Planned.written, Planned.name]
  simp only [addDirectory, Effect.modify, save, Draft.holding, hadd, FileSystem.put_put, reportOf,
    List.filterMap_append, List.map_append, List.reverse_append, List.length_append,
    octetsOf_append]
  rfl

/-! ### A source file -/

theorem copyChunks_readsOf (h : content.length ≤ Bytes.maxCount) :
    Stream.copyChunks (fun chunk _ read => (.ok (), read ++ chunk)) (Stream.readsOf content)
      ([] : Bytes) = ⟨.ok content.length, content, []⟩ := by
  rw [Stream.copyChunks, Stream.copyFrom_collect (Stream.carries_readsOf content) [] (by omega),
    Nat.zero_add, List.nil_append]

section

variable {source : Path} {found : Location} {read : Bytes} {s' : Creation}
  (hat : (a.begun planned ⟨Path.joined loc, a.method, Zip.fileMode⟩).nodeAt false source
    = .ok (found, .file content))
include hat

theorem nodeAt_save_begun (skipped : List Path) : ((a.holding planned skipped).save
    ((a.holding planned skipped).writer.begun
      ⟨Path.joined loc, a.method, Zip.fileMode⟩)).files.nodeAt false source
        = .ok (found, .file content) := by
  rw [save, Draft.holding, FileSystem.put_put]
  exact hat

theorem readSource_save_begun (skipped : List Path) : ((a.holding planned skipped).save
    ((a.holding planned skipped).writer.begun
      ⟨Path.joined loc, a.method, Zip.fileMode⟩)).readSource a.method source content
        = a.taken planned found content := by
  rw [readSource, nodeAt_save_begun hat skipped]
  rfl

/-- **A file is added with what is taken of it**, if that is not too much to be counted. -/
theorem addFile_of_nodeAt (htaken : a.taken planned found content = some read)
    (hoctets : octetsOf planned + read.length ≤ Bytes.maxCount) :
    addFile ⟨Path.joined loc, a.method, Zip.fileMode⟩ source (a.holding planned skipped)
      = (.ok (), a.holding (planned ++ [.file loc read]) skipped) := by
  have hadd : (writerOf a.method planned).add
      ⟨Path.joined loc, a.method, Zip.fileMode⟩ read
        = writerOf a.method (planned ++ [.file loc read]) := by
    rw [writerOf_concat]
    simp only [Planned.written, Planned.name]
  have hbytes : ¬Bytes.maxCount < (reportOf a.path planned skipped).bytesWritten + read.length :=
    Nat.not_lt.mpr hoctets
  simp only [addFile, FileSystem.read, nodeAt_save_begun hat skipped,
    readSource_save_begun hat skipped, htaken, reads_holding]
  rw [copyChunks_readsOf (by omega)]
  simp only [save, Draft.holding, FileSystem.put_put]
  have hfile : [Planned.file loc read].filterMap Planned.file? = [(loc, read)] := rfl
  have hdirectory : [Planned.file loc read].filterMap Planned.directory? = [] := rfl
  have hsize : octetsOf [Planned.file loc read] = read.length := rfl
  rw [if_neg hbytes]
  simp only [hadd, reportOf, List.filterMap_append, List.length_append, octetsOf_append, hfile,
    hdirectory, hsize, List.append_nil, List.length_singleton]

/-- A copy of the archive into itself that goes past the limit is broken off. -/
theorem addFile_of_overrun (htaken : a.taken planned found content = none) :
    (addFile ⟨Path.joined loc, a.method, Zip.fileMode⟩ source (a.holding planned skipped)).1
      = .error (.io (a.holding planned skipped).overrun) := by
  simp only [addFile, FileSystem.read, nodeAt_save_begun hat skipped,
    readSource_save_begun hat skipped, htaken]

/-- A file is not added if what is taken of it is too much to be counted. -/
theorem addFile_eq_error (skipped : List Path) (htaken : a.taken planned found content = some read)
    (h : Bytes.maxCount < octetsOf planned + read.length) :
    ∃ e, (addFile ⟨Path.joined loc, a.method, Zip.fileMode⟩ source (a.holding planned skipped)).1
      = .error e := by
  simp only [addFile, FileSystem.read, nodeAt_save_begun hat skipped,
    readSource_save_begun hat skipped, htaken, reads_holding]
  by_cases hcopied : read.length ≤ Bytes.maxCount
  · have hbytes : Bytes.maxCount
        < (a.holding planned skipped).report.bytesWritten + read.length := h
    rw [copyChunks_readsOf hcopied]
    simp only [if_pos hbytes]
    exact ⟨_, rfl⟩
  · have hcopy : (Stream.copyChunks (fun chunk _ read => (.ok (), read ++ chunk))
        (Stream.readsOf read) ([] : Bytes)).result = .error (.io .byteCountOverflow) :=
      Stream.copyFrom_collect_overflow (Stream.carries_readsOf read) [] (Nat.zero_le _)
        (by omega)
    simp only [hcopy]
    exact ⟨_, rfl⟩

/-- What was added is what was taken. -/
theorem addFile_eq_ok (h : addFile ⟨Path.joined loc, a.method, Zip.fileMode⟩ source
      (a.holding planned skipped) = (.ok (), s')) :
    ∃ read, a.taken planned found content = some read
      ∧ octetsOf planned + read.length ≤ Bytes.maxCount
      ∧ s' = a.holding (planned ++ [.file loc read]) skipped := by
  have hresult : (addFile ⟨Path.joined loc, a.method, Zip.fileMode⟩ source
      (a.holding planned skipped)).1 = .ok () := congrArg Prod.fst h
  rcases htaken : a.taken planned found content with _ | read
  · rw [addFile_of_overrun hat htaken] at hresult
    cases hresult
  by_cases hoctets : octetsOf planned + read.length ≤ Bytes.maxCount
  · rw [addFile_of_nodeAt hat htaken hoctets] at h
    exact ⟨read, rfl, hoctets, (Prod.mk.inj h).2.symm⟩
  · obtain ⟨e, he⟩ := addFile_eq_error hat skipped htaken (Nat.lt_of_not_le hoctets)
    rw [he] at hresult
    cases hresult

end

theorem skip_holding (a : Draft) (planned : List Planned) (skipped : List Path) (path : Path) :
    skip path (a.holding planned skipped) = (.ok (), a.holding planned (skipped ++ [path])) := by
  simp only [skip, Effect.modify, Draft.holding, reportOf, List.length_append, List.map_append]
  rfl

/-- The error of one entry too many. -/
def tooMany (limits : Limits) : ArchiveError :=
  .violation (.entryCount (limits.maxEntryCount + 1) limits.maxEntryCount)

theorem checkCount_holding (a : Draft) (skipped : List Path)
    (hle : planned.length ≤ limits.maxEntryCount) :
    checkCount limits (a.holding planned skipped)
      = (if planned.length < limits.maxEntryCount then .ok () else .error (tooMany limits),
        a.holding planned skipped) := by
  have htotal : (a.holding planned skipped).report.totalEntries = planned.length :=
    (length_eq_add planned).symm
  rw [checkCount, Effect.look, htotal, Limits.checkEntryCount]
  by_cases hlt : planned.length < limits.maxEntryCount
  · rw [if_pos hlt, if_neg (by omega)]
  · rw [if_neg hlt, if_pos (by omega), tooMany, show planned.length = limits.maxEntryCount by omega]

/-! ## Ancestors -/

/-- **Adding ends with what was planned**, or is stopped where that is too much. -/
def Draft.Ends (a : Draft) (limits : Limits) (planned : List Planned) (skipped : List Path)
    (x : Except ArchiveError Unit × Creation) : Prop :=
  if planned.length ≤ limits.maxEntryCount then x = (.ok (), a.holding planned skipped)
  else x.1 = .error (tooMany limits)

theorem Draft.Ends.of_le {x : Except ArchiveError Unit × Creation}
    (h : a.Ends limits planned skipped x) (hle : planned.length ≤ limits.maxEntryCount) :
    x = (.ok (), a.holding planned skipped) := by
  rwa [Draft.Ends, if_pos hle] at h

/-- What ends in an error goes on nowhere. -/
theorem Draft.Ends.bind {x : Effect Creation Unit} {f : Effect Creation Unit} {s : Creation}
    {more : List Planned} {skipped' : List Path} (h : a.Ends limits planned skipped (x s))
    (hle : planned.length ≤ more.length)
    (hf : planned.length ≤ limits.maxEntryCount →
      a.Ends limits more skipped' (f (a.holding planned skipped))) :
    a.Ends limits more skipped' ((x >>= fun _ => f) s) := by
  rw [Effect.bind_apply]
  by_cases hcount : planned.length ≤ limits.maxEntryCount
  · rw [h.of_le hcount]
    exact hf hcount
  · rw [Draft.Ends, if_neg hcount] at h
    rw [Draft.Ends, if_neg fun hmore => hcount (Nat.le_trans hle hmore)]
    rcases hx : x s with ⟨e | _, s'⟩
    · rwa [hx] at h
    · rw [hx] at h
      cases h

theorem known_iff {d : Location} (hd : d.IsProper)
    (hproper : ∀ p ∈ planned, p.location.IsProper) :
    (a.holding planned skipped).directories.contains (Path.joined d) = true
      ↔ .directory d ∈ planned := by
  rw [List.contains_iff_mem, Draft.holding, List.mem_reverse, List.mem_map]
  constructor
  · rintro ⟨d', hm, he⟩
    have hm := mem_filterMap_directory?_iff.mp hm
    exact joined_injective (hproper _ hm) hd he ▸ hm
  · exact fun hm => ⟨d, mem_filterMap_directory?_iff.mpr hm, rfl⟩

/-- One entry more is added where the count allows. -/
theorem ends_checkCount {p : Planned} {add : Effect Creation Unit}
    (hle : planned.length ≤ limits.maxEntryCount)
    (hadd : add (a.holding planned skipped) = (.ok (), a.holding (planned ++ [p]) skipped)) :
    a.Ends limits (planned ++ [p]) skipped
      ((checkCount limits >>= fun _ => add) (a.holding planned skipped)) := by
  rw [Effect.bind_apply, checkCount_holding a skipped hle, Draft.Ends, List.length_append,
    List.length_singleton]
  by_cases hlt : planned.length < limits.maxEntryCount
  · rw [if_pos hlt, if_pos (Nat.succ_le_of_lt hlt)]
    exact hadd
  · rw [if_neg hlt, if_neg (by omega)]

/-- **Entries are added for the directories that have none.** -/
theorem addAncestors_ends (a : Draft) (skipped : List Path) : ∀ {ds : List Location}
    {planned : List Planned}, planned.length ≤ limits.maxEntryCount →
    (∀ p ∈ planned, p.location.IsProper) → (∀ d ∈ ds, Location.IsProper d) → ds.Nodup →
      a.Ends limits (planned ++ (ds.filter fun d => .directory d ∉ planned).map .directory) skipped
        (addAncestors limits (ds.map Path.joined) (a.holding planned skipped))
  | [], planned, hle, _, _, _ => by
    rw [Draft.Ends, List.filter_nil, List.map_nil, List.append_nil, if_pos hle]
    rfl
  | d :: ds, planned, hle, hproper, hds, hnodup => by
    obtain ⟨hd, hds⟩ := List.forall_mem_cons.mp hds
    obtain ⟨hnew, hnodup⟩ := List.nodup_cons.mp hnodup
    by_cases hin : .directory d ∈ planned
    · have hknown : (a.holding planned skipped).directories.contains (Path.joined d) = true :=
        (known_iff hd hproper).mpr hin
      rw [List.map_cons, addAncestors, List.filter_cons_of_neg (by simpa using hin)]
      simp only [Effect.bind_apply, Effect.look, hknown]
      rw [if_neg (by simp)]
      exact addAncestors_ends a skipped hle hproper hds hnodup
    · have hknown : (a.holding planned skipped).directories.contains (Path.joined d) = false :=
        Bool.eq_false_iff.mpr (mt (known_iff hd hproper).mp hin)
      rw [List.map_cons, addAncestors, List.filter_cons_of_pos (by simpa using hin),
        List.map_cons, List.append_cons]
      simp only [Effect.bind_apply, Effect.look, hknown]
      rw [if_pos (by simp), ← Effect.bind_bind]
      have hmissing : (ds.filter fun d => .directory d ∉ planned)
          = ds.filter fun e => .directory e ∉ planned ++ [.directory d] := by
        refine List.filter_congr fun e he => ?_
        have hne : e ≠ d := fun hed => hnew (hed ▸ he)
        simp [hne]
      refine (ends_checkCount hle (addDirectory_holding a planned skipped d)).bind
        (by simp) fun hle' => ?_
      rw [hmissing]
      refine addAncestors_ends a skipped hle' (fun p hp => ?_) hds hnodup
      rcases List.mem_append.mp hp with hp | hp
      · exact hproper p hp
      · exact List.mem_singleton.mp hp ▸ hd

/-- The directories that a location needs entries for get them. -/
theorem addAncestors_missing_ends (a : Draft) (skipped : List Path)
    (hle : planned.length ≤ limits.maxEntryCount)
    (hproper : ∀ p ∈ planned, p.location.IsProper) (hloc : loc.IsProper) :
    a.Ends limits (planned ++ (missing planned loc).map .directory) skipped
      (addAncestors limits (ancestorNames loc) (a.holding planned skipped)) := by
  rw [ancestorNames_eq]
  exact addAncestors_ends a skipped hle hproper
    (fun d hd name hn => hloc name ((mem_ancestors_iff.mp hd).2.1.subset hn)) (nodup_ancestors loc)

/-! ## A whole walk -/

/-- What is left out: links and pipes. -/
def foundOther? : Location × Node → Option Location
  | (loc, .link _) => some loc
  | (loc, .pipe) => some loc
  | _ => none

/-- The paths of what a walk leaves out. -/
def leftOut (root : Location) (walk : List (Location × Node)) : List Path :=
  (walk.filterMap foundOther?).map fun loc => Location.path (root ++ loc)

theorem leftOut_cons {root : Location} {e : Location × Node} (he : foundOther? e = some e.1) :
    leftOut root (e :: walk) = Location.path (root ++ e.1) :: leftOut root walk := by
  rw [leftOut, List.filterMap_cons_some he, List.map_cons, leftOut]

/-- **The walk can be gone**: the paths of directories are short, and the files have names that are
text and can be read. -/
structure Passable (a : Draft) (root : Location) (e : Location × Node) : Prop where
  proper : Location.IsProper e.1
  opened : e.2 = .directory → FileSystem.checkPath (Location.path (root ++ e.1)) = .ok ()
  text : foundFile? e ≠ none → ∀ name ∈ e.1, (Utf8.decode? name).isSome
  reads : ∀ file, foundFile? e = some file → a.Reads (Location.path (root ++ e.1)) file.2

theorem prefix_planNext (planned : List Planned) (e : Location × Node) :
    planned <+: planNext planned e := by
  obtain ⟨l, _ | c | _ | _⟩ := e
  · exact List.prefix_refl _
  · rw [planNext, List.append_assoc]
    exact List.prefix_append _ _
  · exact List.prefix_refl _
  · exact List.prefix_refl _

theorem prefix_foldl : ∀ (walk : List (Location × Node)) (planned : List Planned),
    planned <+: walk.foldl planNext planned
  | [], _ => List.prefix_refl _
  | e :: walk, planned => (prefix_planNext planned e).trans (prefix_foldl walk (planNext planned e))

theorem octetsOf_mono {ps qs : List Planned} (h : ps <+: qs) :
    octetsOf ps ≤ octetsOf qs := by
  obtain ⟨more, rfl⟩ := h
  rw [octetsOf_append]
  exact Nat.le_add_right _ _

theorem isProper_planNext {e : Location × Node} (he : e.1.IsProper)
    (h : ∀ p ∈ planned, p.location.IsProper) :
    ∀ p ∈ planNext planned e, p.location.IsProper := by
  obtain ⟨l, _ | c | _ | _⟩ := e
  · exact h
  · intro p hp
    rcases mem_planNext_iff.mp hp with hp | ⟨d, hd, rfl⟩ | rfl
    · exact h p hp
    · have hpre : d <+: l := (mem_ancestors_iff.mp (mem_missing_iff.mp hd).1).2.1
      exact fun name hn => he name (hpre.subset hn)
    · exact he
  · exact h
  · exact h

theorem addEach_file {root : Location} (htext : ∀ name ∈ loc, (Utf8.decode? name).isSome) :
    addEach limits method root ((loc, .file content) :: walk)
      = (addAncestors limits (ancestorNames loc) >>= fun _ => checkCount limits >>= fun _ =>
          addFile ⟨Path.joined loc, method, Zip.fileMode⟩ (Location.path (root ++ loc)))
        >>= fun _ => addEach limits method root walk := by
  rw [addEach]
  simp only [List.all_eq_true.mpr htext, if_true, Effect.bind_bind]

theorem addEach_other {root : Location} {e : Location × Node} (he : foundOther? e = some e.1) :
    addEach limits method root (e :: walk)
      = skip (Location.path (root ++ e.1)) >>= fun _ => addEach limits method root walk := by
  obtain ⟨l, _ | c | target | _⟩ := e
  · cases he
  · cases he
  · exact addEach.eq_def ..
  · exact addEach.eq_def ..

/-- **A file that was found is added**, behind entries for those of its ancestors that have
none. -/
theorem addFile_ends (a : Draft) {source : Path} {found : Location} {read : Bytes}
    (skipped : List Path) (hle : planned.length ≤ limits.maxEntryCount)
    (hproper : ∀ p ∈ planned, p.location.IsProper) (hloc : loc.IsProper)
    (hat : (a.begun (planned ++ (missing planned loc).map .directory)
      ⟨Path.joined loc, a.method, Zip.fileMode⟩).nodeAt false source = .ok (found, .file content))
    (htaken : a.taken (planned ++ (missing planned loc).map .directory) found content = some read)
    (hoctets : octetsOf (planNext planned (loc, .file read)) ≤ Bytes.maxCount) :
    a.Ends limits (planNext planned (loc, .file read)) skipped
      ((addAncestors limits (ancestorNames loc) >>= fun _ => checkCount limits >>= fun _ =>
        addFile ⟨Path.joined loc, a.method, Zip.fileMode⟩ source) (a.holding planned skipped)) := by
  have habove : a.Ends limits _ _ _ := addAncestors_missing_ends a skipped hle hproper hloc
  refine habove.bind (by rw [planNext]; simp) fun hle' => ?_
  refine ends_checkCount hle' (addFile_of_nodeAt hat htaken ?_)
  rw [planNext, octetsOf_append] at hoctets
  exact hoctets

/-- **A whole walk ends with its plan**, or is stopped where that has more entries than allowed. -/
theorem addEach_ends (a : Draft) {root : Location} : ∀ {walk : List (Location × Node)}
    {planned : List Planned} {skipped : List Path}, planned.length ≤ limits.maxEntryCount →
    (∀ p ∈ planned, p.location.IsProper) → (∀ e ∈ walk, Passable a root e) →
    octetsOf (walk.foldl planNext planned) ≤ Bytes.maxCount →
      a.Ends limits (walk.foldl planNext planned) (skipped ++ leftOut root walk)
        (addEach limits a.method root walk (a.holding planned skipped))
  | [], planned, skipped, hle, _, _, _ => by
    rw [Draft.Ends, List.foldl_nil, if_pos hle]
    rw [leftOut, List.filterMap_nil, List.map_nil, List.append_nil]
    rfl
  | e :: walk, planned, skipped, hle, hproper, hpass, hoctets => by
    obtain ⟨he, hpass⟩ := List.forall_mem_cons.mp hpass
    have hnext := isProper_planNext he.proper hproper
    have ih : ∀ {skipped' : List Path}, (planNext planned e).length ≤ limits.maxEntryCount →
        a.Ends limits ((e :: walk).foldl planNext planned) (skipped' ++ leftOut root walk)
          (addEach limits a.method root walk (a.holding (planNext planned e) skipped')) :=
      fun hle' => addEach_ends a hle' hnext hpass hoctets
    obtain ⟨l, _ | c | target | _⟩ := e
    · have hopen : checkOpened (Location.path (root ++ l)) (a.holding planned skipped)
          = (.ok (), a.holding planned skipped) := by
        rw [checkOpened, Effect.ofExcept, he.opened rfl]
        rfl
      rw [addEach]
      simp only [Effect.bind_apply, hopen]
      exact ih hle
    · rw [addEach_file (he.text (by simp [foundFile?]))]
      have hmore := prefix_foldl walk (planNext planned (l, .file c))
      obtain ⟨found, hapart, hat⟩ := he.reads _ rfl _
      refine (addFile_ends a skipped hle hproper he.proper hat (if_neg hapart)
        (Nat.le_trans (octetsOf_mono hmore) hoctets)).bind hmore.length_le ih
    · rw [addEach_other rfl, Effect.bind_apply, skip_holding, leftOut_cons rfl, List.append_cons]
      exact ih hle
    · rw [addEach_other rfl, Effect.bind_apply, skip_holding, leftOut_cons rfl, List.append_cons]
      exact ih hle

end GuardedArchive.Creation
