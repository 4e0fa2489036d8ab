import GuardedArchive.Proofs.Creation.Accepting
import GuardedArchive.Proofs.Extraction.Written

/-!
# Proofs/Creation/Opening — the archive of a plan is extracted where the plan is acceptable

What the archive of a plan exposes is what was planned (`map_exposed_written`).  So the archive is
extracted into an empty directory exactly where the entries of the plan are acceptable
(`extract_ok_iff`), and what is extracted is what was planned (`extract_extracted`).
-/

namespace GuardedArchive

namespace FileSystem

variable {fs : FileSystem} {p path : Path} {root archive : Location} {octets : Bytes}

/-- The path names a directory with nothing in it. -/
structure NamesEmpty (fs : FileSystem) (p : Path) (root : Location) : Prop where
  leads : fs.nodeAt false p = .ok (root, .directory)
  empty : ∀ loc, loc ≠ [] → fs.node? (root ++ loc) = none

theorem NamesEmpty.isEmptyRoot (hs : IsOrdinary fs) (h : NamesEmpty fs p root) :
    Extraction.IsEmptyRoot fs root :=
  .of_canonicalize hs.proper hs.isPlain
    (Access.existingDirectory_eq_ok (hs.existingDirectory h.leads)).2 h.empty

/-- A file in a free place leaves every empty directory as it is that it does not stand in. -/
theorem NamesEmpty.put (h : NamesEmpty fs p root) (hfresh : Fresh fs path archive)
    (hout : ¬root <+: archive) (octets : Bytes) :
    NamesEmpty (fs.put archive (.file octets)) p root where
  leads := by
    have hn : fs.node? archive = none := by simpa using hfresh.free []
    exact nodeAt_grows h.leads (.put hfresh.ne_nil (hn ▸ .file octets))
  empty loc hne := by
    rw [fs.node?_put hfresh.ne_nil, if_neg, h.empty loc hne]
    rintro rfl
    exact hout (List.prefix_append root loc)

/-- **The archive that was made is extracted** into an empty directory. -/
theorem Fresh.extract_eq (hs : IsOrdinary (fs.put archive (.file octets)))
    (hfresh : Fresh fs path archive) (hend : path.endsWithSlash = false)
    (hempty : NamesEmpty (fs.put archive (.file octets)) p root) (limits : Limits) :
    Extraction.extract limits path p (fs.put archive (.file octets))
      = Extraction.ofSource limits ⟨root⟩ (.disk archive) (fs.put archive (.file octets)) :=
  Extraction.extract_eq (hs.readableFile ((hfresh.isFree hend).nodeAt octets false))
    (writableDirectory_of_existingDirectory (hs.existingDirectory hempty.leads))

end FileSystem

namespace Creation

open Extraction (Acceptable Extracted IsEmptyRoot ofSource)
open FileSystem (Fresh IsOrdinary IsSpelled NamesEmpty)
open Zip (Method Source)

variable {limits : Limits} {method : Method} {fs fs' : FileSystem}
  {planned : List Planned} {root archive : Location} {report : ExtractionReport}

/-! ## What is exposed by the archive of a plan -/

theorem Planned.exposed_written (method : Method) (p : Planned) :
    (p.written method).exposed = p.exposed method :=
  Prod.ext rfl (p.content_written method)

theorem map_exposed_written (method : Method) (planned : List Planned) :
    (planned.map (Planned.written method)).map Zip.Written.exposed
      = planned.map (Planned.exposed method) := by
  rw [List.map_map]
  exact List.map_congr_left fun p _ => p.exposed_written method

section

variable {source : Source} (hplan : IsWritable planned) (hmethod : method.IsExact)
  (hcount : planned.length ≤ limits.maxEntryCount) (hnarrow : (writerOf method planned).IsNarrow)
  (ho : source.octets fs = (writerOf method planned).finish) (hroot : IsEmptyRoot fs root)
include hplan hmethod hcount hnarrow ho hroot

/-- **The archive of a plan is extracted exactly where the plan is acceptable.** -/
theorem ofSource_ok_iff (hshort : ∀ p ∈ planned,
      (Location.path (root ++ (p.exposed method).1.location)).raw.length
        < FileSystem.maxPathLength) (hspelled : IsSpelled root) :
    (∃ report, (ofSource limits ⟨root⟩ source fs).1 = .ok report)
      ↔ Acceptable limits (planned.map (Planned.exposed method)) := by
  rw [← map_exposed_written]
  refine Extraction.ofSource_ok_iff (hplan.isLegible hmethod hcount hnarrow) ho hroot
    (List.forall_mem_map.mpr fun p hp => ?_) hspelled
  rw [p.exposed_written]
  exact hshort p hp

/-- **What was extracted is what was planned.** -/
theorem ofSource_extracted (h : ofSource limits ⟨root⟩ source fs = (.ok report, fs')) :
    Extracted fs ⟨root⟩ (planned.map (Planned.exposed method)) report fs' := by
  rw [← map_exposed_written]
  exact Extraction.ofSource_extracted (hplan.isLegible hmethod hcount hnarrow) ho hroot h

end

/-! ## Extraction of the archive of a plan -/

section

variable {path target : Path} {place : Location} (hs : IsOrdinary fs)
  (hfresh : Fresh fs path archive) (hend : path.endsWithSlash = false)
  (hshort : archive.path.raw.length < FileSystem.maxPathLength) (hplan : IsWritable planned)
  (hmethod : method.IsExact) (hcount : planned.length ≤ limits.maxEntryCount)
  (hnarrow : (writerOf method planned).IsNarrow)
  (hempty : NamesEmpty (fs.put archive (.file (writerOf method planned).finish)) target place)
include hs hfresh hend hshort hplan hmethod hcount hnarrow hempty

theorem extract_ok_iff (hroom : ∀ p ∈ planned,
      (Location.path (place ++ (p.exposed method).1.location)).raw.length
        < FileSystem.maxPathLength) :
    (∃ report, (Extraction.extract limits path target
        (fs.put archive (.file (writerOf method planned).finish))).1 = .ok report)
      ↔ Acceptable limits (planned.map (Planned.exposed method)) := by
  have hs' := hs.fill hfresh (hfresh.isSpelled hs hshort) (.file (writerOf method planned).finish)
  rw [hfresh.extract_eq hs' hend hempty]
  exact ofSource_ok_iff hplan hmethod hcount hnarrow (fs.contentAt_put hfresh.ne_nil _)
    (hempty.isEmptyRoot hs') hroom
    (hs'.spelled _ _ ((hempty.isEmptyRoot hs').directory _ List.prefix_rfl))

theorem extract_extracted (h : Extraction.extract limits path target
      (fs.put archive (.file (writerOf method planned).finish)) = (.ok report, fs')) :
    Extracted (fs.put archive (.file (writerOf method planned).finish)) ⟨place⟩
      (planned.map (Planned.exposed method)) report fs' := by
  have hs' := hs.fill hfresh (hfresh.isSpelled hs hshort) (.file (writerOf method planned).finish)
  have ho : (Source.disk archive).octets (fs.put archive (.file (writerOf method planned).finish))
    = (writerOf method planned).finish := fs.contentAt_put hfresh.ne_nil _
  rw [hfresh.extract_eq hs' hend hempty] at h
  exact ofSource_extracted hplan hmethod hcount hnarrow ho (hempty.isEmptyRoot hs') h

end

end Creation

end GuardedArchive
