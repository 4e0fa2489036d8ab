import GuardedArchive.Proofs.Creation.Adding
import GuardedArchive.Proofs.Entry.Naming
import GuardedArchive.Proofs.Path.Parents

/-!
# Proofs/Creation/Contents — a finished archive holds what was planned

Where the names on the way to the files are text, a name that is planned is read back as it is
spelled (`Planned.decodeLossy_name`).  So an archive of a plan can be read back, unless it is so
large that it needs wide records (`IsWritable.isLegible`).
-/

namespace GuardedArchive

open Zip (Encoder Method)

theorem Path.length_joined_le (root loc : Location) :
    (joined loc).length ≤ (Location.path (root ++ loc)).raw.length := by
  rw [Location.path, List.length_cons]
  refine Nat.le_succ_of_le ?_
  induction root with
  | nil => exact Nat.le_refl _
  | cons name root ih =>
    by_cases hne : root ++ loc = []
    · rw [(List.append_eq_nil_iff.mp hne).2]
      exact Nat.zero_le _
    · have hcons : joined (name :: (root ++ loc)) = name ++ [slash] ++ joined (root ++ loc) :=
        List.intercalate_cons_of_ne_nil hne
      rw [List.cons_append, hcons, List.length_append]
      exact Nat.le_trans ih (Nat.le_add_left _ _)

namespace Creation

variable {method : Method} {planned : List Planned} {p : Planned}
  {segments : List (List Char)} {walk : List (Location × Node)}

/-! ## Names -/

/-- **The name of an entry is spelled from its location.** -/
theorem Planned.name_eq (hloc : p.location = segments.map Bytes.ofChars) (hne : segments ≠ []) :
    p.name = Bytes.ofString (EntryName.spelled segments p.isDirectory) := by
  have hne' : segments.map Bytes.ofChars ≠ [] := by simpa using hne
  rw [EntryName.ofString_spelled]
  cases p with
  | directory loc =>
    obtain rfl : loc = _ := hloc
    rw [Planned.name, Planned.isDirectory, EntryName.partsOf, if_pos rfl, List.map_append,
      List.map_singleton, Path.joined_concat hne']
    rfl
  | file loc content =>
    obtain rfl : loc = _ := hloc
    rfl

theorem Planned.name_written (method : Method) (p : Planned) :
    (p.written method).1.name = p.name := by
  cases p <;> rfl

theorem Planned.content_written (method : Method) (p : Planned) :
    (p.written method).2 = p.content := by
  cases p <;> rfl

/-- The names on the way to an entry are text. -/
def Planned.IsText (p : Planned) : Prop := ∀ name ∈ p.location, (Utf8.decode? name).isSome

theorem Planned.IsText.exists_segments (h : p.IsText) (hne : p.location ≠ []) :
    ∃ segments : List (List Char), segments ≠ [] ∧ p.location = segments.map Bytes.ofChars := by
  obtain ⟨segments, hs⟩ := Location.exists_text h
  exact ⟨segments, fun he => hne (by rw [hs, he, List.map_nil]), hs⟩

/-- **The name is read back as it is spelled.** -/
theorem Planned.decodeLossy_name (hloc : p.location = segments.map Bytes.ofChars)
    (hne : segments ≠ []) :
    Utf8.decodeLossy p.name = EntryName.spelled segments p.isDirectory := by
  rw [Planned.name_eq hloc hne]
  exact Utf8.decodeLossy_of_decode? (Utf8.decode?_eq_some_iff.mpr rfl)

theorem Planned.ofString_decodeLossy (h : p.IsText) (hne : p.location ≠ []) :
    Bytes.ofString (Utf8.decodeLossy p.name) = p.name := by
  obtain ⟨segments, hs, hloc⟩ := h.exists_segments hne
  rw [Planned.decodeLossy_name hloc hs, ← Planned.name_eq hloc hs]

/-- A plan whose entries can be told apart when they are read. -/
structure IsWritable (planned : List Planned) : Prop where
  named : ∀ p ∈ planned, p.location ≠ []
  text : ∀ p ∈ planned, p.IsText
  short : ∀ p ∈ planned, p.name.length < 0x10000
  nodup : (planned.map Planned.name).Nodup

theorem IsWritable.nodup_decoded (h : IsWritable planned) :
    (planned.map fun p => Utf8.decodeLossy p.name).Nodup := by
  refine List.Nodup.of_map Bytes.ofString ?_
  rw [List.map_map]
  refine (List.map_congr_left fun p hp => ?_).symm ▸ h.nodup
  exact Planned.ofString_decodeLossy (h.text p hp) (h.named p hp)

theorem Planned.length_name_le (p : Planned) :
    p.name.length ≤ (Path.joined p.location).length + 1 := by
  cases p with
  | directory loc =>
    rw [Planned.name, List.length_append, List.length_singleton]
    exact Nat.le_refl _
  | file loc content => exact Nat.le_succ _

/-- **A plan can be written** where the names of the files are text and their paths are short. -/
theorem Plans.isWritable (h : Plans walk planned) (hwalk : IsWalk walk)
    (htext : ∀ file ∈ walk.filterMap foundFile?, ∀ name ∈ file.1, (Utf8.decode? name).isSome)
    (hshort : ∀ file ∈ walk.filterMap foundFile?, (Path.joined file.1).length + 1 < 0x10000) :
    IsWritable planned where
  named p hp := (h.isProper hwalk hp).1
  text p hp := by
    obtain ⟨file, hf, hpre⟩ := h.exists_file_below hp
    exact fun name hn => htext file hf name (hpre.subset hn)
  short p hp := by
    obtain ⟨file, hf, more, hpre⟩ := h.exists_file_below hp
    have hle := (Path.joined_prefix p.location more).length_le
    rw [hpre] at hle
    have hname := p.length_name_le
    have hfile := hshort file hf
    omega
  nodup := h.nodup_names hwalk

theorem Planned.isExact_written (hmethod : method.IsExact) (p : Planned) :
    (p.written method).1.method.IsExact := by
  cases p with
  | directory loc => trivial
  | file loc content => exact hmethod

theorem Planned.mode_written (method : Method) (p : Planned) :
    0 < (p.written method).1.mode ∧ (p.written method).1.mode < 0x10000 := by
  cases p with
  | directory loc => exact (by decide : 0 < Zip.directoryMode ∧ Zip.directoryMode < 0x10000)
  | file loc content => exact (by decide : 0 < Zip.fileMode ∧ Zip.fileMode < 0x10000)

theorem IsWritable.fits (h : IsWritable planned) (hmethod : method.IsExact) (hp : p ∈ planned) :
    (p.written method).Fits where
  name := by
    rw [p.name_written]
    exact h.short p hp
  mode := p.mode_written method
  exact := p.isExact_written hmethod

/-- Whatever the level, contents are written so that they can be read back. -/
theorem isExact_methodOf {deflate : Encoder} (h : deflate.IsExact) (settings : CreationSettings) :
    (methodOf deflate settings).IsExact := by
  rw [Creation.methodOf]
  split
  · trivial
  · exact h _

/-- **The archive of a plan can be read back**, unless it is so large that it needs wide records. -/
theorem IsWritable.isLegible {limits : Limits} (h : IsWritable planned) (hmethod : method.IsExact)
    (hcount : planned.length ≤ limits.maxEntryCount)
    (hnarrow : (writerOf method planned).IsNarrow) :
    Zip.IsLegible limits (planned.map (Planned.written method)) where
  fits := List.forall_mem_map.mpr fun _ hp => h.fits hmethod hp
  names := by
    rw [List.map_map]
    refine (List.map_congr_left fun p _ => ?_).symm ▸ h.nodup_decoded
    exact congrArg Utf8.decodeLossy (Planned.name_written method p)
  count := by rwa [List.length_map]
  narrow := hnarrow

end Creation

end GuardedArchive
