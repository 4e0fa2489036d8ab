import GuardedArchive.Proofs.Creation.Directory
import GuardedArchive.Proofs.Decimal.Quotient
import GuardedArchive.Proofs.Extraction.Acceptance

/-!
# Proofs/Creation/Accepting — which archives of trees are acceptable

What an archive exposes of an entry is told by the plan (`Planned.exposed`).  Where the names are
clean, an entry stands for the location that it was made for, and the entries of a plan denote what
the tree holds on the way to regular files (`Plans.denotes_iff`).  As they never get in each other's
way, they are acceptable where each keeps the bounds, and all of them together (`Plans.acceptable`).
-/

namespace GuardedArchive.Creation

open FileSystem (IsListed IsTree)
open Extraction (Acceptable Admissible Apart Denotes Exposed)
open Zip (Method)

variable {limits : Limits} {method : Method} {fs : FileSystem} {root loc : Location}
  {planned : List Planned} {p q : Planned}

/-! ## What is exposed of an entry -/

/-- **What an archive exposes of an entry** that was planned. -/
def Planned.exposed (method : Method) (p : Planned) : Exposed :=
  (((p.written method).record 0).descriptor, p.content)

/-- The names on the way to an entry are clean. -/
def Planned.IsClean (p : Planned) : Prop := ∀ name ∈ p.location, name.IsClean

theorem Planned.IsClean.exists_segments (h : p.IsClean) (hne : p.location ≠ []) :
    ∃ segments : List (List Char), segments ≠ [] ∧ p.location = segments.map Bytes.ofChars
      ∧ EntryName.AllClean segments := by
  obtain ⟨segments, hs, hclean⟩ := Location.exists_clean h
  exact ⟨segments, fun he => hne (by rw [hs, he, List.map_nil]), hs, hclean⟩

theorem Planned.name_exposed (method : Method) (p : Planned) :
    (p.exposed method).1.name = Utf8.decodeLossy p.name :=
  congrArg Utf8.decodeLossy (p.name_written method)

/-- A clean name tells what was planned. -/
theorem Planned.IsClean.isDirectory_exposed (h : p.IsClean) (hne : p.location ≠ [])
    (method : Method) : (p.exposed method).1.isDirectory = p.isDirectory := by
  obtain ⟨segments, hs, hloc, hclean⟩ := h.exists_segments hne
  have hname := p.name_exposed method
  rw [Planned.decodeLossy_name hloc hs] at hname
  rw [Bool.eq_iff_iff, ← hclean.endsWithSeparator_iff hs p.isDirectory, ← hname]
  exact Bool.or_eq_true_iff.trans (or_congr decide_eq_true_iff decide_eq_true_iff)

/-- **A clean name stands for the location of the entry.** -/
theorem Planned.IsClean.location_exposed (h : p.IsClean) (hne : p.location ≠ [])
    (method : Method) : (p.exposed method).1.location = p.location := by
  obtain ⟨segments, hs, hloc, hclean⟩ := h.exists_segments hne
  rw [EntryDescriptor.location, p.name_exposed, Planned.decodeLossy_name hloc hs,
    hclean.normalizeSeparators_spelled, hclean.location_spelled hs, hloc]

theorem Planned.checkNotLink_exposed (p : Planned) :
    (p.exposed method).1.checkNotLink = .ok () := by
  have hlink : (p.exposed method).1.isLink = false := by
    cases p with
    | directory loc => exact (by decide : ((Zip.directoryMode / 0o10000 % 16 == 0o12) = false))
    | file loc content => exact (by decide : ((Zip.fileMode / 0o10000 % 16 == 0o12) = false))
  rw [EntryDescriptor.checkNotLink, hlink]
  rfl

/-- An entry by itself keeps the bounds. -/
structure Planned.IsInBounds (limits : Limits) (method : Method) (p : Planned) :
    Prop where
  name : p.name.length ≤ limits.maxEntryNameLength
  size : p.content.length ≤ limits.maxEntrySize
  known : p.content.length ≤ Bytes.maxOffset
  ratio : ∀ name, limits.checkCompressionRatio name (p.written method).packed.length
    p.content.length = .ok ()

theorem Planned.declaredSize_exposed (h : p.content.length ≤ Bytes.maxOffset) :
    (p.exposed method).1.declaredSize = some p.content.length := by
  have hsize : ((p.written method).record 0).uncompressedSize = p.content.length :=
    congrArg List.length (p.content_written method)
  rw [← hsize] at h ⊢
  exact if_pos h

/-- **An entry with a clean name is admissible** where it keeps the bounds. -/
theorem Planned.IsClean.admissible (h : p.IsClean) (hne : p.location ≠ [])
    (hb : p.IsInBounds limits method) : Admissible limits (p.exposed method).1 where
  name := by
    obtain ⟨segments, hs, hloc, hclean⟩ := h.exists_segments hne
    have hlen := hb.name
    rw [Planned.name_eq hloc hs] at hlen
    rw [p.name_exposed, Planned.decodeLossy_name hloc hs, hclean.normalizeSeparators_spelled]
    exact hclean.check_spelled hs hlen
  size := by
    rw [EntryDescriptor.checkSize, Planned.declaredSize_exposed hb.known]
    dsimp only
    rw [if_neg (Nat.not_lt.mpr hb.size)]
    exact hb.ratio _
  notLink := p.checkNotLink_exposed
  named he := absurd he (h.location_exposed hne method ▸ hne)

/-! ## Plans of trees -/

/-- The node that an entry was planned for. -/
def Planned.node : Planned → Node
  | directory _ => .directory
  | file _ content => .file content

/-- **What is kept of a tree**: its regular files and the directories that they stand in. -/
def IsKept (fs : FileSystem) (root loc : Location) (node : Node) : Prop :=
  fs.node? (root ++ loc) = some node
    ∧ ∃ below content, loc <+: below ∧ fs.node? (root ++ below) = some (.file content)

section

variable (htree : IsTree fs) (hl : IsListed fs) (h : Plans (fs.depthFirst root) planned)
include htree

/-- Above a file of a tree there are directories. -/
theorem node?_above {node : Node} {above : Location} (hn : fs.node? (root ++ loc) = some node)
    (hab : above <+: loc) (hne : above ≠ loc) : fs.node? (root ++ above) = some .directory :=
  htree _ _ hn _ ((List.prefix_append_right_inj root).mpr hab) fun he =>
    hne (List.append_cancel_left he)

include hl h

/-- **What is planned is kept of the tree**, at its location. -/
theorem Plans.isKept (hp : p ∈ planned) : IsKept fs root p.location p.node := by
  cases p with
  | directory d =>
    obtain ⟨⟨below, content⟩, hf, hd⟩ := (h.directories d).mp hp
    obtain ⟨-, hpre, hne⟩ := mem_ancestors_iff.mp hd
    have hn := ((mem_filesBelow_iff hl).mp hf).2
    exact ⟨node?_above htree hn hpre hne, below, content, hpre, hn⟩
  | file l content =>
    have hn := ((mem_filesBelow_iff hl).mp (h.mem_file_iff.mp hp)).2
    exact ⟨hn, l, content, List.prefix_rfl, hn⟩

/-- **What is kept of the tree is planned.** -/
theorem Plans.exists_of_isKept {node : Node} (hne : loc ≠ []) (hk : IsKept fs root loc node) :
    ∃ p ∈ planned, p.location = loc ∧ p.node = node := by
  obtain ⟨hn, below, content, hpre, hf⟩ := hk
  by_cases he : loc = below
  · subst he
    obtain rfl : node = .file content := Option.some.inj (hn.symm.trans hf)
    exact ⟨.file loc content, h.mem_file_iff.mpr ((mem_filesBelow_iff hl).mpr ⟨hne, hf⟩), rfl, rfl⟩
  · obtain rfl : node = .directory :=
      Option.some.inj (hn.symm.trans (node?_above htree hf hpre he))
    have hbelow : below ≠ [] := fun hnil => hne (List.prefix_nil.mp (hnil ▸ hpre))
    exact ⟨.directory loc, (h.directories loc).mpr ⟨(below, content),
      (mem_filesBelow_iff hl).mpr ⟨hbelow, hf⟩, mem_ancestors_iff.mpr ⟨hne, hpre, he⟩⟩, rfl, rfl⟩

/-- Entries at one location are the same. -/
theorem Plans.eq_of_location (hp : p ∈ planned) (hq : q ∈ planned) (he : p.location = q.location) :
    p = q := by
  have hnode := (h.isKept htree hl hp).1
  rw [he, (h.isKept htree hl hq).1] at hnode
  cases p with
  | directory d =>
    cases q with
    | directory d' => exact congrArg _ he
    | file l' content' => cases hnode
  | file l content =>
    cases q with
    | directory d' => cases hnode
    | file l' content' =>
      obtain rfl : content' = content := Node.file.inj (Option.some.inj hnode)
      exact congrArg (Planned.file · _) he

/-- **Nothing is planned below a file.** -/
theorem Plans.not_prefix (hp : p ∈ planned) (hq : q ∈ planned) (hf : ¬p.isDirectory)
    (hne : p ≠ q) : ¬p.location <+: q.location := fun hpre => by
  have hloc : p.location ≠ q.location := fun he => hne (h.eq_of_location htree hl hp hq he)
  have hd := node?_above htree (h.isKept htree hl hq).1 hpre hloc
  rw [(h.isKept htree hl hp).1] at hd
  cases p with
  | directory d => exact hf rfl
  | file l content => cases hd

end

/-! ## Clean plans -/

/-- All names on the way to the entries of a plan are clean. -/
structure IsClean (planned : List Planned) : Prop where
  named : ∀ p ∈ planned, p.location ≠ []
  clean : ∀ p ∈ planned, p.IsClean

theorem sum_files : ∀ planned : List Planned,
    ((planned.filter fun p => !p.isDirectory).map (·.content.length)).sum = octetsOf planned
  | [] => rfl
  | .directory _ :: planned => (sum_files planned).trans (Nat.zero_add _).symm
  | .file _ content :: planned => congrArg (content.length + ·) (sum_files planned)

namespace IsClean

variable (hc : IsClean planned)
include hc

theorem isDirectory (method : Method) (hp : p ∈ planned) :
    (p.exposed method).1.isDirectory = p.isDirectory :=
  (hc.clean p hp).isDirectory_exposed (hc.named p hp) method

theorem location (method : Method) (hp : p ∈ planned) :
    (p.exposed method).1.location = p.location :=
  (hc.clean p hp).location_exposed (hc.named p hp) method

theorem denotes_exposed_iff (method : Method) (hp : p ∈ planned) {node : Node} :
    Denotes (p.exposed method) loc node ↔ loc = p.location ∧ node = p.node
      ∨ (loc <+: p.location ∧ loc ≠ p.location) ∧ node = .directory := by
  rw [Extraction.denotes_iff, hc.location method hp, hc.isDirectory method hp]
  cases p with
  | directory d => exact Iff.rfl
  | file l content => exact Iff.rfl

/-- **The entries denote what is kept of the tree.** -/
theorem denotes_iff (htree : IsTree fs) (hl : IsListed fs)
    (h : Plans (fs.depthFirst root) planned) (method : Method) (hne : loc ≠ [])
    {node : Node} : (∃ e ∈ planned.map (Planned.exposed method), Denotes e loc node)
      ↔ IsKept fs root loc node := by
  constructor
  · rintro ⟨e, he, hd⟩
    obtain ⟨p, hp, rfl⟩ := List.mem_map.mp he
    have hk := h.isKept htree hl hp
    rcases (hc.denotes_exposed_iff method hp).mp hd with ⟨rfl, rfl⟩ | ⟨⟨hpre, hne'⟩, rfl⟩
    · exact hk
    · obtain ⟨hn, below, content, hbelow, hf⟩ := hk
      exact ⟨node?_above htree hn hpre hne', below, content, hpre.trans hbelow, hf⟩
  · intro hk
    obtain ⟨p, hp, rfl, rfl⟩ := h.exists_of_isKept htree hl hne hk
    exact ⟨_, List.mem_map_of_mem hp, (hc.denotes_exposed_iff method hp).mpr (.inl ⟨rfl, rfl⟩)⟩

/-! ## Counts -/

theorem octetsOf_exposed (method : Method) :
    Extraction.octetsOf (planned.map (Planned.exposed method)) = octetsOf planned := by
  have hfilter : planned.filter ((fun e : Exposed => !e.1.isDirectory) ∘ Planned.exposed method)
      = planned.filter fun p => !p.isDirectory :=
    List.filter_congr fun p hp => by rw [Function.comp_apply, hc.isDirectory method hp]
  rw [Extraction.octetsOf, List.filter_map, hfilter, List.flatMap_map, List.length_flatMap]
  exact sum_files planned

theorem countP_files (method : Method) :
    (planned.map (Planned.exposed method)).countP (fun e => !e.1.isDirectory)
      = (planned.filterMap Planned.file?).length := by
  rw [List.countP_map, List.length_filterMap_eq_countP]
  refine List.countP_congr fun p hp => ?_
  rw [Function.comp_apply, hc.isDirectory method hp]
  cases p <;> simp [Planned.isDirectory, Planned.file?]

theorem countP_directories (method : Method) :
    (planned.map (Planned.exposed method)).countP
        (fun e => e.1.isDirectory && e.1.location ≠ [])
      = (planned.filterMap Planned.directory?).length := by
  rw [List.countP_map, List.length_filterMap_eq_countP]
  refine List.countP_congr fun p hp => ?_
  rw [Function.comp_apply, hc.isDirectory method hp, hc.location method hp,
    decide_eq_true (hc.named p hp), Bool.and_true]
  cases p <;> simp [Planned.isDirectory, Planned.directory?]

end IsClean

/-- No two entries of a plan get in each other's way. -/
theorem Plans.apart (htree : IsTree fs) (hl : IsListed fs)
    (h : Plans (fs.depthFirst root) planned) (hc : IsClean planned) (method : Method) :
    (planned.map (Planned.exposed method)).Pairwise Apart := by
  rw [List.pairwise_map]
  refine List.Pairwise.imp_of_mem (fun {p q} hp hq hne => ?_) h.nodup
  refine ⟨fun _ he => ?_, fun hf => ?_, fun hf => ?_⟩
  all_goals rw [hc.location method hp, hc.location method hq] at *
  · exact hne (h.eq_of_location htree hl hp hq he)
  · rw [hc.isDirectory method hp] at hf
    exact h.not_prefix htree hl hp hq hf hne
  · rw [hc.isDirectory method hq] at hf
    exact h.not_prefix htree hl hq hp hf hne.symm

/-- **The entries of a plan with clean names are acceptable** where they keep the bounds. -/
theorem Plans.acceptable (htree : IsTree fs) (hl : IsListed fs)
    (h : Plans (fs.depthFirst root) planned) (hc : IsClean planned)
    (hbounds : ∀ p ∈ planned, p.IsInBounds limits method)
    (hcount : planned.length ≤ limits.maxEntryCount)
    (htotal : octetsOf planned ≤ limits.maxTotalSize) (hfits : octetsOf planned ≤ Bytes.maxCount) :
    Acceptable limits (planned.map (Planned.exposed method)) where
  admissible := List.forall_mem_map.mpr fun p hp =>
    (hc.clean p hp).admissible (hc.named p hp) (hbounds p hp)
  size := List.forall_mem_map.mpr fun p hp _ => (hbounds p hp).size
  apart := h.apart htree hl hc method
  count := by
    rw [List.length_map]
    exact Nat.le_trans (Nat.min_le_left _ _) hcount
  total := by rwa [hc.octetsOf_exposed]
  fits := by rwa [hc.octetsOf_exposed]

end GuardedArchive.Creation
