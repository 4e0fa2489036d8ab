import GuardedArchive.Proofs.Extraction.Acceptance
import GuardedArchive.Proofs.Zip.Writing

/-!
# Proofs/Extraction/Written — what was written is extracted

    entries  --  finish  -->  octets  --  load  -->  records  --  run  -->  tree

The records of an archive that was written are opened with what was written (`Written.openEntry`),
whatever is extracted meanwhile (`supplies_openEntry`).  So the archive is extracted into an empty
directory exactly where its entries are acceptable (`ofSource_ok_iff`), and what is extracted is
what was written (`ofSource_extracted`).
-/

namespace GuardedArchive

open GuardedArchive.Stream (Carries)
open Zip (Archive IsLegible Record Records Source StandsIn Writer Written)

variable {limits : Limits} {fs fs' : FileSystem} {source : Source} {a : Archive} {e : Written}
  {r : Record} {root : Location}

namespace Zip.Written

/-- **What an archive exposes of an entry** that was written. -/
def exposed (e : Written) : Extraction.Exposed := ((e.record 0).descriptor, e.2)

/-- **A record that stands for an entry is opened with what was written.** -/
theorem openEntry (hfits : e.Fits) (h : StandsIn (a.source.octets fs) e r) :
    r.descriptor = e.exposed.1
      ∧ ∃ entry, a.openEntry r fs = .ok entry ∧ entry.descriptor = r.descriptor
        ∧ ∀ fs', a.source.octets fs' = a.source.octets fs → Carries (entry.reads fs') e.2 := by
  obtain ⟨front, back, ho, hsmall, rfl⟩ := h
  exact ⟨rfl, openEntry_record hfits hsmall ho⟩

end Zip.Written

namespace Extraction

open FileSystem (IsOrdinary IsSpelled isTree_of_flat)

variable {entries : List Written} {report : ExtractionReport}

theorem exposedBy_of_standsIn (hfits : e.Fits) (h : StandsIn (a.source.octets fs) e r) :
    exposedBy a fs r = e.exposed := by
  obtain ⟨hdescriptor, entry, hopen, -, hreads⟩ := Written.openEntry hfits h
  have hcontent := (hreads fs rfl).delivered_eq
  rw [exposedBy, hopen]
  exact Prod.ext hdescriptor hcontent

/-- **The archive exposes what was written.** -/
theorem map_exposedBy {rs : List Record} (h : Records (a.source.octets fs) entries rs) :
    rs.map (exposedBy a fs) = entries.map Written.exposed := by
  induction h with
  | nil => rfl
  | cons hhead _ ih => rw [List.map_cons, List.map_cons, ih, exposedBy_of_standsIn hhead.1 hhead.2]

theorem exists_written {octets : Bytes} {rs : List Record} (h : Records octets entries rs) :
    ∀ r ∈ rs, ∃ e : Written, e.Fits ∧ StandsIn octets e r := by
  induction h with
  | nil => exact fun _ hr => absurd hr List.not_mem_nil
  | cons hhead _ ih => exact List.forall_mem_cons.mpr ⟨⟨_, hhead⟩, ih⟩

/-- Whatever is extracted below an empty root, the records are opened with what was written. -/
theorem supplies_openEntry (hroot : IsEmptyRoot fs root)
    (hload : Archive.load limits source fs = .ok a)
    (h : Records (a.source.octets fs) entries a.records) :
    ∀ r ∈ a.records, Supplies root fs a.openEntry (exposedBy a fs) (fun _ => true) r := by
  intro r hr fs₁ hfs₁
  obtain ⟨e, hfits, hstands⟩ := exists_written h r hr
  have hsource := (Archive.load_eq_ok_iff.mp hload).2.2
  have hoctets : ∀ {fs₂}, SameOutside root fs fs₂ → a.source.octets fs₂ = a.source.octets fs :=
    fun hfs₂ => hsource ▸ octets_sameOutside hroot hload hfs₂
  rw [exposedBy_of_standsIn hfits hstands]
  rw [← hoctets hfs₁] at hstands
  obtain ⟨hdescriptor, entry, hopen, hsame, hreads⟩ := Written.openEntry hfits hstands
  refine ⟨entry, hopen, hsame.trans hdescriptor, fun fs₂ hfs₂ => ?_⟩
  have hcarries := hreads fs₂ ((hoctets hfs₂).trans (hoctets hfs₁).symm)
  exact ⟨hcarries.endsWell, hcarries.delivered_eq⟩

section

variable (hlegible : IsLegible limits entries)
  (ho : source.octets fs = (Writer.addAll {} entries).finish) (hroot : IsEmptyRoot fs root)
include hlegible ho

/-- The extraction goes over the records for what was written. -/
theorem exists_run (root : Location) : ∃ a, Archive.load limits source fs = .ok a
    ∧ Records (a.source.octets fs) entries a.records
    ∧ ofSource limits ⟨root⟩ source fs = run limits ⟨root⟩ a.openEntry a.records fs := by
  obtain ⟨rs, hload, hrs⟩ := Writer.load_finish hlegible ho
  exact ⟨⟨source, rs⟩, hload, hrs, by rw [ofSource_apply, hload]⟩

/-- What is declared is that of what was written. -/
theorem declared_written : declared limits source fs = entries.map (·.exposed.1) := by
  obtain ⟨rs, hload, hrs⟩ := Writer.load_finish hlegible ho
  have hexposed := congrArg (List.map Prod.fst) (map_exposedBy (a := ⟨source, rs⟩) hrs)
  rw [List.map_map, List.map_map] at hexposed
  rw [declared, hload]
  exact hexposed

include hroot

/-- **What was written is extracted exactly where it is acceptable.** -/
theorem ofSource_ok_iff (hshort : ∀ e ∈ entries,
      (Location.path (root ++ e.exposed.1.location)).raw.length < FileSystem.maxPathLength)
    (hspelled : IsSpelled root) :
    (∃ report, (ofSource limits ⟨root⟩ source fs).1 = .ok report)
      ↔ Acceptable limits (entries.map Written.exposed) := by
  obtain ⟨a, hload, hrs, hrun⟩ := exists_run hlegible ho root
  have hexposed := map_exposedBy hrs
  have hpaths : ∀ r ∈ a.records, IsSpelled (root ++ (exposedBy a fs r).1.location) := by
    intro r hr
    have hmem : exposedBy a fs r ∈ entries.map Written.exposed :=
      hexposed ▸ List.mem_map_of_mem hr
    obtain ⟨e, he, heq⟩ := List.mem_map.mp hmem
    rw [← heq]
    exact isSpelled_location hspelled (hshort e he)
  rw [hrun, run_ok_iff hroot (exposes_openEntry hroot hload) (supplies_openEntry hroot hload hrs),
    hexposed]
  exact and_iff_left fun r hr => ⟨fun _ => (hpaths r hr).hasPath, fun _ => rfl⟩

/-- **What was extracted is what was written.** -/
theorem ofSource_extracted (h : ofSource limits ⟨root⟩ source fs = (.ok report, fs')) :
    Extracted fs ⟨root⟩ (entries.map Written.exposed) report fs' := by
  obtain ⟨a, hload, hrs, hrun⟩ := exists_run hlegible ho root
  rw [← map_exposedBy hrs]
  exact run_extracted hroot (exposes_openEntry hroot hload) (hrun ▸ h)

end

/-! ## A directory with a file in it -/

/-- The directory `d`, and in it the file `f`. -/
def smallTree : List Written :=
  [(⟨Bytes.ofString "d/", .stored, Zip.directoryMode⟩, []),
    (⟨Bytes.ofString "d/f", .stored, Zip.fileMode⟩, [0x31, 0x32])]

/-- The archive of these two entries. -/
def smallArchive : Bytes := (Writer.addAll {} smallTree).finish

theorem isLegible_smallTree : IsLegible {} smallTree where
  fits := by
    simp only [smallTree, List.forall_mem_cons]
    exact ⟨⟨by decide, by decide, trivial⟩, ⟨by decide, by decide, trivial⟩,
      fun _ he => absurd he List.not_mem_nil⟩
  names := by decide +kernel
  count := by decide
  narrow := ⟨by decide +kernel, by decide +kernel⟩

theorem acceptable_smallTree : Acceptable {} (smallTree.map Written.exposed) where
  admissible := by
    simp only [smallTree, List.map_cons, List.map_nil, List.forall_mem_cons]
    refine ⟨⟨?_, ?_, ?_, ?_⟩, ⟨?_, ?_, ?_, ?_⟩, fun _ he => absurd he List.not_mem_nil⟩
    all_goals first | exact eq_ok_of_toOption (by decide +kernel) | decide +kernel
  size := by decide +kernel
  apart := by
    simp only [smallTree, List.map_cons, List.map_nil, List.pairwise_pair]
    exact ⟨by decide +kernel, by decide +kernel, by decide +kernel⟩
  count := by decide
  total := by decide +kernel
  fits := by decide +kernel

/-- **The archive is extracted into every empty directory** with room for the path of the file. -/
theorem ofSource_smallArchive (ho : source.octets fs = smallArchive) (hroot : IsEmptyRoot fs root)
    (hspelled : IsSpelled root) (hshort : (Location.path (root ++ [[0x64], [0x66]])).raw.length
      < FileSystem.maxPathLength) :
    ∃ fs', ofSource {} ⟨root⟩ source fs = (.ok ⟨root.path, 2, 1, 1, 2⟩, fs')
      ∧ fs'.node? (root ++ [[0x64], [0x66]]) = some (.file [0x31, 0x32]) := by
  have habove : ∀ e ∈ smallTree, e.exposed.1.location <+: [[0x64], [0x66]] := by decide +kernel
  have hroom : ∀ e ∈ smallTree,
      (Location.path (root ++ e.exposed.1.location)).raw.length < FileSystem.maxPathLength :=
    fun e he => Nat.lt_of_le_of_lt (Path.raw_path_above
      ((List.prefix_append_right_inj root).mpr (habove e he))).length_le hshort
  obtain ⟨report, hok⟩ :=
    (ofSource_ok_iff isLegible_smallTree ho hroot hroom hspelled).mpr acceptable_smallTree
  have hrun : ofSource {} ⟨root⟩ source fs = (.ok report, _) := Prod.ext hok rfl
  have hx := ofSource_extracted isLegible_smallTree ho hroot hrun
  obtain ⟨target, entries, files, directories, octets⟩ := report
  obtain rfl : target = root.path := hx.target
  obtain rfl : entries = 2 := hx.entriesProcessed
  obtain rfl : files = 1 := hx.filesExtracted.trans (by decide +kernel)
  obtain rfl : directories = 1 := hx.directoriesCreated.trans (by decide +kernel)
  obtain rfl : octets = 2 := hx.bytesWritten.trans (by decide +kernel)
  exact ⟨_, hrun, (hx.tree _ _ (by decide)).mpr ⟨_, List.mem_of_getLast? rfl,
    denotes_iff.mpr (.inl ⟨by decide +kernel, by decide +kernel⟩)⟩⟩

/-- The file `z` holds `content`, and temporary files are made in `m`. -/
def holding (content : Bytes) : FileSystem where
  nodes := [([[0x7a]], .file content), ([[0x6d]], .directory)]
  temporaryDirectory := [[0x6d]]

theorem isOrdinary_holding (content : Bytes) : IsOrdinary (holding content) := by
  refine .of_nodes ⟨isTree_of_flat ?_, fun _ hn => absurd hn List.not_mem_nil, rfl⟩ ?_
  · simp [holding]
  · simp only [holding, List.forall_mem_cons]
    exact ⟨by decide, by decide, fun _ hm => absurd hm List.not_mem_nil⟩

end Extraction

end GuardedArchive
