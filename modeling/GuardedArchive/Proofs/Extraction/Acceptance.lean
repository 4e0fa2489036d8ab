import GuardedArchive.Proofs.Extraction.Admission
import GuardedArchive.Proofs.Extraction.Ordinary
import GuardedArchive.Proofs.Extraction.Relocation

/-!
# Proofs/Extraction/Acceptance — exactly which entries are extracted

Into an empty directory entries are extracted exactly where they are **acceptable**: each is in
order by itself, no two of them get in each other's way, and all of them together keep the bounds;
and each is **within reach**: the system takes the path of its place (`run_ok_iff`).  Nothing of
this depends on the order of the entries.

The invariant is that of a finished extraction (`Built`): what stands below the root is what the
entries so far denote, so that a directory can be made exactly where no file of theirs stands on the
way (`Extracted.makeDirectoryWithin_ok_iff`), and a file exactly where nothing of theirs stands
(`Extracted.create_ok_iff`).
-/

namespace GuardedArchive.Extraction

open FileSystem (AddsDirectories HasPath IsPlain IsOpen IsSpelled)
open GuardedArchive.Stream (delivered endsWell)
open Zip (Entry)

variable {limits : Limits} {dest : Destination} {before fs fs' : FileSystem}
  {entries : List Exposed} {entry : Exposed} {report : ExtractionReport} {loc : Location}

/-! ## Paths of entries -/

theorem fits_location (entry : EntryDescriptor) :
    ∀ name ∈ entry.location, name.length ≤ FileSystem.maxNameLength := fun name hn => by
  obtain ⟨segment, hs, rfl⟩ := List.mem_map.mp hn
  obtain ⟨s, -, rfl⟩ := List.mem_map.mp hs
  exact Segment.length_ofChars_sanitizeChars_le s

theorem zeroFree_location (entry : EntryDescriptor) :
    ∀ name ∈ entry.location, (0 : UInt8) ∉ name := fun name hn => by
  obtain ⟨segment, hs, rfl⟩ := List.mem_map.mp hn
  obtain ⟨s, -, rfl⟩ := List.mem_map.mp hs
  exact Segment.zero_not_mem_ofChars_sanitizeChars s

/-- **An entry's location is spelled** where its path is not too long. -/
theorem isSpelled_location {root : Location} {entry : EntryDescriptor} (hroot : IsSpelled root)
    (hshort : (Location.path (root ++ entry.location)).raw.length < FileSystem.maxPathLength) :
    IsSpelled (root ++ entry.location) where
  fits name hn := (List.mem_append.mp hn).elim (hroot.fits name) (fits_location entry name)
  zeroFree name hn := (List.mem_append.mp hn).elim (hroot.zeroFree name)
    (zeroFree_location entry name)
  short := hshort

/-- The system takes the path of the place for the entry below the root. -/
def WithinReach (root : Location) (entry : EntryDescriptor) : Prop :=
  entry.location ≠ [] → HasPath (root ++ entry.location)

/-! ## Entries that get along -/

/-- Two entries do not get in each other's way: they have different locations, or that of the root,
and neither is a file above the other. -/
structure Apart (a b : Exposed) : Prop where
  location : a.1.location ≠ [] → a.1.location ≠ b.1.location
  above : ¬a.1.isDirectory → ¬a.1.location <+: b.1.location
  below : ¬b.1.isDirectory → ¬b.1.location <+: a.1.location

theorem Apart.symm {a b : Exposed} (h : Apart a b) : Apart b a where
  location hne he := h.location (he ▸ hne) he.symm
  above := h.below
  below := h.above

/-- **Entries that can all be extracted**, in any order. -/
structure Acceptable (limits : Limits) (entries : List Exposed) : Prop where
  admissible : ∀ entry ∈ entries, Admissible limits entry.1
  size : ∀ entry ∈ entries, ¬entry.1.isDirectory → entry.2.length ≤ limits.maxEntrySize
  apart : entries.Pairwise Apart
  count : min entries.length Bytes.maxCount ≤ limits.maxEntryCount
  total : octetsOf entries ≤ limits.maxTotalSize
  fits : octetsOf entries ≤ Bytes.maxCount

theorem acceptable_nil (limits : Limits) : Acceptable limits [] where
  admissible _ he := absurd he List.not_mem_nil
  size _ he := absurd he List.not_mem_nil
  apart := .nil
  count := Nat.le_trans (Nat.min_le_left _ _) (Nat.zero_le _)
  total := Nat.zero_le _
  fits := Nat.zero_le _

theorem acceptable_concat : Acceptable limits (entries ++ [entry])
    ↔ Acceptable limits entries ∧ Admissible limits entry.1 ∧ (∀ e ∈ entries, Apart e entry)
      ∧ min (entries.length + 1) Bytes.maxCount ≤ limits.maxEntryCount
      ∧ (¬entry.1.isDirectory → Admits limits 0 (octetsOf entries) entry.2.length) := by
  constructor
  · rintro ⟨hadm, hsize, hapart, hcount, htotal, hfits⟩
    rw [List.forall_mem_append] at hadm hsize
    rw [octetsOf_append] at htotal hfits
    rw [List.length_append, List.length_singleton] at hcount
    obtain ⟨hfront, -, hlast⟩ := List.pairwise_append.mp hapart
    refine ⟨⟨hadm.1, hsize.1, hfront, by omega, by omega, by omega⟩,
      hadm.2 entry List.mem_cons_self, fun e he => hlast e he entry List.mem_cons_self, hcount,
      fun hf => ?_⟩
    rw [if_neg hf] at htotal hfits
    exact ⟨by rw [Nat.zero_add]; exact hsize.2 entry List.mem_cons_self hf, htotal, hfits⟩
  · rintro ⟨h, hadm, hapart, hcount, hfile⟩
    have hoctets : octetsOf (entries ++ [entry]) ≤ limits.maxTotalSize
        ∧ octetsOf (entries ++ [entry]) ≤ Bytes.maxCount := by
      rw [octetsOf_append]
      by_cases hd : entry.1.isDirectory
      · rw [if_pos hd]
        exact ⟨h.total, h.fits⟩
      · rw [if_neg hd]
        exact ⟨(hfile hd).all, (hfile hd).count⟩
    refine ⟨?_, ?_, ?_, by simpa using hcount, hoctets.1, hoctets.2⟩
    · exact List.forall_mem_append.mpr ⟨h.admissible, by simpa using hadm⟩
    · refine List.forall_mem_append.mpr ⟨h.size, ?_⟩
      simpa using fun hf => by simpa using (hfile (by simpa using hf)).entry
    · refine List.pairwise_append.mpr ⟨h.apart, List.pairwise_singleton _ _, fun e he b hb => ?_⟩
      rw [List.mem_singleton.mp hb]
      exact hapart e he

theorem Acceptable.admits_zero (h : Acceptable limits entries) :
    Admits limits 0 (octetsOf entries) 0 := by
  constructor
  · exact Nat.zero_le _
  · rw [Nat.add_zero]
    exact h.total
  · rw [Nat.add_zero]
    exact h.fits

theorem Acceptable.of_append {more : List Exposed} (h : Acceptable limits (entries ++ more)) :
    Acceptable limits entries := by
  induction more using List.reverseRecOn with
  | nil => rwa [List.append_nil] at h
  | append_singleton front entry ih =>
    rw [← List.append_assoc] at h
    exact ih (acceptable_concat.mp h).1

/-! ## What can be made below the root -/

theorem Denotes.above_of_prefix {node : Node} {above : Location} (h : Denotes entry loc node)
    (hab : above <+: loc) (hne : above ≠ loc) : Denotes entry above .directory := by
  rcases denotes_iff.mp h with ⟨hl, -⟩ | ⟨⟨hpre, hne'⟩, -⟩
  · rw [hl] at hab hne
    exact .above hab hne
  · refine .above (hab.trans hpre) fun he => hne ?_
    exact hab.eq_of_length_le (he ▸ hpre.length_le)

/-- Where nothing stands on a way, nothing stands further down. -/
theorem Extracted.free_below (h : Extracted before dest entries report fs)
    {upper lower : Location} (hup : upper <+: lower) (hlow : lower <+: dest.root ++ loc)
    (hn : fs.node? upper = none) : fs.node? lower = none := by
  rcases prefix_root_append (hup.trans hlow) with hr | ⟨rel, rfl, -⟩
  · rw [h.root upper hr] at hn
    cases hn
  obtain ⟨more, rfl⟩ := hup
  by_cases hmore : more = []
  · rwa [hmore, List.append_nil]
  by_contra hsome
  obtain ⟨node, hnode⟩ := Option.ne_none_iff_exists'.mp hsome
  rw [List.append_assoc] at hnode
  obtain ⟨e, he, hd⟩ :=
    (h.tree (rel ++ more) node (List.append_ne_nil_of_right_ne_nil _ hmore)).mp hnode
  by_cases hrel : rel = []
  · rw [hrel, List.append_nil, h.root _ List.prefix_rfl] at hn
    cases hn
  · have habove := (h.tree rel .directory hrel).mpr
      ⟨e, he, hd.above_of_prefix (List.prefix_append rel more) (by simpa using hmore)⟩
    rw [habove] at hn
    cases hn

/-- **A way below the root is open** exactly where no file of the entries stands on it. -/
theorem Extracted.isOpen_iff (h : Extracted before dest entries report fs)
    (hfiles : ∀ e ∈ entries, ¬e.1.isDirectory → e.1.location ≠ []) :
    IsOpen fs (dest.root ++ loc)
      ↔ ∀ e ∈ entries, ¬e.1.isDirectory → ¬e.1.location <+: loc := by
  constructor
  · intro hopen e he hf hpre
    have hfile := (h.tree _ _ (hfiles e he hf)).mpr ⟨e, he, .file hf⟩
    rcases hopen.way (dest.root ++ e.1.location)
      ((List.prefix_append_right_inj dest.root).mpr hpre) with hn | hd
    · rw [hfile] at hn
      cases hn
    · rw [hfile] at hd
      cases hd
  · intro hfree
    constructor
    · intro above hab
      rcases prefix_root_append hab with hr | ⟨rel, rfl, hrel⟩
      · exact .inr (h.root above hr)
      by_cases hnil : rel = []
      · exact .inr (by rw [hnil, List.append_nil]; exact h.root _ List.prefix_rfl)
      rcases hn : fs.node? (dest.root ++ rel) with _ | node
      · exact .inl rfl
      · obtain ⟨e, he, hd⟩ := (h.tree rel node hnil).mp hn
        cases hd with
        | file hf => exact absurd hrel (hfree e he hf)
        | directory => exact .inr rfl
        | above => exact .inr rfl
    · exact fun above below hab hbelow hn => h.free_below hab hbelow hn

/-- **A directory is made exactly where the system takes its path and no file of the entries stands
on the way.** -/
theorem Extracted.makeDirectoryWithin_ok_iff (hroot : IsEmptyRoot before dest.root)
    (h : Extracted before dest entries report fs)
    (hfiles : ∀ e ∈ entries, ¬e.1.isDirectory → e.1.location ≠ []) (hloc : loc.IsProper) :
    (dest.makeDirectoryWithin (Location.path (dest.root ++ loc)) fs).1 = .ok ()
      ↔ HasPath (dest.root ++ loc)
        ∧ ∀ e ∈ entries, ¬e.1.isDirectory → ¬e.1.location <+: loc := by
  have hproper := hroot.proper.append hloc
  constructor
  · intro hm
    refine ⟨.of_makeTree hproper (Destination.makeDirectoryWithin_eq_ok_iff.mp
      (Prod.ext hm rfl)).1, fun e he hf hpre => ?_⟩
    have hmade := h.makeDirectoryWithin hroot hloc (Prod.ext hm rfl) (dest.root ++ e.1.location)
    have hfile := (h.tree _ _ (hfiles e he hf)).mpr ⟨e, he, .file hf⟩
    have hkept := (Destination.makeDirectoryWithin_addsDirectories (Prod.ext hm rfl)).kept hfile
    rw [hmade, if_pos ((List.prefix_append_right_inj dest.root).mpr hpre)] at hkept
    cases hkept
  · rintro ⟨hpath, hfree⟩
    obtain ⟨fs', hm⟩ :=
      ((h.isOpen_iff hfiles).mpr hfree).makeTree hproper hpath.fits hpath.checkPath
    have hwithin := makeDirectoryWithin_apply (a := ⟨dest.root, before⟩) hproper (h.linkless loc)
    rw [hm] at hwithin
    rw [show dest = ⟨dest.root⟩ from rfl, hwithin]
    rfl

/-- **A file is opened exactly where the system takes its path and nothing of the entries stands**,
once the directory for it is made. -/
theorem Extracted.create_ok_iff {d : EntryDescriptor} (hroot : IsEmptyRoot before dest.root)
    (h : Extracted before dest entries report fs) (hne : d.location ≠ [])
    (hnew : ∀ e ∈ entries, e.1.location ≠ d.location)
    (hm : dest.makeDirectoryWithin (above dest d) fs = (.ok (), fs')) :
    (∃ loc fs'', fs'.create (dest.pathOf d) = .ok (loc, fs''))
      ↔ HasPath (dest.root ++ d.location) ∧ ∀ e ∈ entries, ¬d.location <+: e.1.location := by
  have ha := Destination.makeDirectoryWithin_addsDirectories hm
  have hproper := hroot.proper.append d.isProper_location
  have hpathOf : dest.pathOf d = Location.path (dest.root ++ d.location) := by
    rw [Destination.pathOf, dest.base_eq hroot.proper]
  constructor
  · rintro ⟨loc, fs'', hc⟩
    refine ⟨.of_create hproper (hpathOf ▸ hc), fun e he hpre => ?_⟩
    obtain ⟨rfl, hnode⟩ := h.create hroot hm hc
    have hd := (h.tree d.location .directory hne).mpr
      ⟨e, he, .above hpre fun hl => hnew e he hl.symm⟩
    have hgrown := (FileSystem.create_eq_ok hc).2.2.1
    rw [ha.kept hd] at hgrown
    cases hgrown
  · rintro ⟨hpath, hfree⟩
    rw [above, dest.base_eq hroot.proper] at hm
    have hnode := h.makeDirectoryWithin hroot d.isProper_location.dropLast hm
    have hway : ∀ l, l <+: dest.root ++ d.location.dropLast
        ↔ l <+: dest.root ++ d.location ∧ l ≠ dest.root ++ d.location := fun l => by
      rw [← List.dropLast_append_of_ne_nil hne]
      exact prefix_dropLast_iff (List.append_ne_nil_of_right_ne_nil _ hne)
    have hplain : IsPlain fs' (dest.root ++ d.location) := fun l hl hlast => by
      rw [hnode, if_pos ((hway l).mpr ⟨hl, hlast⟩)]
    have hvacant : fs'.node? (dest.root ++ d.location) = none := by
      rw [hnode, if_neg fun hl => ((hway _).mp hl).2 rfl]
      by_contra hsome
      obtain ⟨node, hn⟩ := Option.ne_none_iff_exists'.mp hsome
      obtain ⟨e, he, hd⟩ := (h.tree _ _ hne).mp hn
      rcases denotes_iff.mp hd with ⟨hl, -⟩ | ⟨⟨hpre, -⟩, -⟩
      · exact hnew e he hl.symm
      · exact hfree e he hpre
    rw [hpathOf]
    exact ⟨_, _, hplain.create hproper (List.append_ne_nil_of_right_ne_nil _ hne) hvacant
      hpath.fits hpath.checkPath⟩

/-! ## One turn -/

variable {ι : Type} {openEntry : ι → FileSystem → Except ArchiveError Entry} {item : ι}
  {items : List ι} {exposed : ι → Exposed} {whole : ι → Bool} {s s' : Extraction}

/-- Whatever happens below the root, the item opens with what it exposes; its reader comes to the
end of its content where the item is whole. -/
def Supplies (root : Location) (before : FileSystem)
    (openEntry : ι → FileSystem → Except ArchiveError Entry) (exposed : ι → Exposed)
    (whole : ι → Bool) (item : ι) : Prop :=
  ∀ fs, SameOutside root before fs → ∃ entry, openEntry item fs = .ok entry
    ∧ entry.descriptor = (exposed item).1 ∧ ∀ fs', SameOutside root before fs' →
      endsWell (entry.reads fs') = whole item ∧ delivered (entry.reads fs') = (exposed item).2

theorem Built.new_iff (h : Built before dest entries s) : (entry.1.location ≠ [] →
    entry.1.placedName ∉ s.tally.names)
      ↔ ∀ e ∈ entries, e.1.location ≠ [] → e.1.location ≠ entry.1.location := by
  rw [h.names]
  constructor
  · intro hn e he hne hl
    exact hn (fun hnil => hne (hl.trans hnil))
      ⟨e, he, hne, EntryDescriptor.placedName_eq_iff.mpr hl⟩
  · rintro hnew - ⟨e, he, hne, hl⟩
    exact hnew e he hne (EntryDescriptor.placedName_eq_iff.mp hl)

theorem Acceptable.files (h : Acceptable limits entries) :
    ∀ e ∈ entries, ¬e.1.isDirectory → e.1.location ≠ [] := fun e he hf hl =>
  hf ((h.admissible e he).named hl)

theorem forall_apart_iff : (∀ e ∈ entries, Apart e entry)
    ↔ (∀ e ∈ entries, e.1.location ≠ [] → e.1.location ≠ entry.1.location)
      ∧ (∀ e ∈ entries, ¬e.1.isDirectory → ¬e.1.location <+: entry.1.location)
      ∧ (¬entry.1.isDirectory → ∀ e ∈ entries, ¬entry.1.location <+: e.1.location) :=
  ⟨fun h => ⟨fun e he => (h e he).location, fun e he => (h e he).above,
    fun hf e he => (h e he).below hf⟩,
   fun ⟨hl, ha, hb⟩ e he => ⟨hl e he, ha e he, fun hf => hb hf e he⟩⟩

/-- **A file is filed exactly where the system takes its path and no entry is in its way**, it is
whole and the bounds admit it. -/
theorem Built.filed_iff (hroot : IsEmptyRoot before dest.root) (h : Built before dest entries s)
    (hfiles : ∀ e ∈ entries, ¬e.1.isDirectory → e.1.location ≠ [])
    (hne : entry.1.location ≠ []) (hnew : ∀ e ∈ entries, e.1.location ≠ entry.1.location)
    {opened : Entry} {whole : Bool} (hreads : ∀ fs', SameOutside dest.root before fs' →
      endsWell (opened.reads fs') = whole ∧ delivered (opened.reads fs') = entry.2) :
    Filed limits dest entry.1 (s.inHand opened)
      ↔ HasPath (dest.root ++ entry.1.location)
        ∧ (∀ e ∈ entries, ¬e.1.isDirectory → ¬e.1.location <+: entry.1.location)
        ∧ (∀ e ∈ entries, ¬entry.1.location <+: e.1.location) ∧ whole
        ∧ Admits limits 0 (octetsOf entries) entry.2.length := by
  have hoctets : (s.inHand opened).tally.octets = octetsOf entries := h.extracted.bytesWritten
  have hmake : (dest.makeDirectoryWithin (above dest entry.1) s.files).1 = .ok ()
      ↔ HasPath (dest.root ++ entry.1.location.dropLast)
        ∧ ∀ e ∈ entries, ¬e.1.isDirectory → ¬e.1.location <+: entry.1.location := by
    rw [above, dest.base_eq hroot.proper, h.extracted.makeDirectoryWithin_ok_iff hroot hfiles
      entry.1.isProper_location.dropLast]
    refine and_congr_right fun _ =>
      forall₂_congr fun e he => imp_congr_right fun _ => not_congr ?_
    rw [prefix_dropLast_iff hne]
    exact and_iff_left (hnew e he)
  have hcontent {loc : Location} {fs fs' : FileSystem}
      (hm : dest.makeDirectoryWithin (above dest entry.1) s.files = (.ok (), fs))
      (hc : fs.create (dest.pathOf entry.1) = .ok (loc, fs')) :=
    hreads fs' (h.extracted.sameOutside_create hroot hm hc)
  constructor
  · rintro ⟨fs, loc, fs', hm, hc, hends, hadmits⟩
    obtain ⟨hwhole, hdelivered⟩ := hcontent hm hc
    obtain ⟨hpath, hbelow⟩ :=
      (h.extracted.create_ok_iff hroot hne hnew hm).mp ⟨loc, fs', hc⟩
    have habove := (hmake.mp (by rw [show s.files = (s.inHand opened).files from rfl, hm])).2
    refine ⟨hpath, habove, hbelow, hwhole ▸ hends, ?_⟩
    rwa [hoctets, show (s.inHand opened).reader = opened.reads from rfl, hdelivered] at hadmits
  · rintro ⟨hpath, habove, hbelow, hwhole, hadmits⟩
    have hpath' := hpath.of_above
      ((List.prefix_append_right_inj dest.root).mpr (List.dropLast_prefix entry.1.location))
    have hm : dest.makeDirectoryWithin (above dest entry.1) s.files = (.ok (), _) :=
      Prod.ext (hmake.mpr ⟨hpath', habove⟩) rfl
    obtain ⟨loc, fs', hc⟩ := (h.extracted.create_ok_iff hroot hne hnew hm).mpr ⟨hpath, hbelow⟩
    obtain ⟨hends, hdelivered⟩ := hcontent hm hc
    refine ⟨_, loc, fs', hm, hc, hends.trans hwhole, ?_⟩
    rwa [hoctets, show (s.inHand opened).reader = opened.reads from rfl, hdelivered]

/-- **An entry is fit to be placed exactly where it is admissible, within reach and apart from those
before it**, and a file is whole and within the bounds. -/
theorem Built.fit_iff (hroot : IsEmptyRoot before dest.root) (h : Built before dest entries s)
    (hacc : Acceptable limits entries) {opened : Entry} {whole : Bool}
    (hreads : ∀ fs', SameOutside dest.root before fs' →
      endsWell (opened.reads fs') = whole ∧ delivered (opened.reads fs') = entry.2) :
    Fit limits dest entry.1 (s.inHand opened)
      ↔ Admissible limits entry.1 ∧ WithinReach dest.root entry.1 ∧ (∀ e ∈ entries, Apart e entry)
        ∧ (¬entry.1.isDirectory → whole ∧ Admits limits 0 (octetsOf entries) entry.2.length) := by
  have hfiles := hacc.files
  have hdirectory : (dest.makeDirectoryWithin (dest.pathOf entry.1) s.files).1 = .ok ()
      ↔ HasPath (dest.root ++ entry.1.location)
        ∧ ∀ e ∈ entries, ¬e.1.isDirectory → ¬e.1.location <+: entry.1.location := by
    rw [Destination.pathOf, dest.base_eq hroot.proper]
    exact h.extracted.makeDirectoryWithin_ok_iff hroot hfiles entry.1.isProper_location
  have hnames : (s.inHand opened).tally.names = s.tally.names := rfl
  have hne_all (hne : entry.1.location ≠ [])
      (hnew : ∀ e ∈ entries, e.1.location ≠ [] → e.1.location ≠ entry.1.location) :
      ∀ e ∈ entries, e.1.location ≠ entry.1.location := fun e he hl =>
    hnew e he (fun hnil => hne (hl.symm.trans hnil)) hl
  rw [forall_apart_iff]
  constructor
  · rintro ⟨hadm, hnew, hdir, hfile⟩
    rw [hnames, h.new_iff] at hnew
    by_cases hloc : entry.1.location = []
    · have hd := hadm.named hloc
      refine ⟨hadm, fun hne => absurd hloc hne, ⟨hnew, fun e he hf hpre => ?_,
        fun hf => absurd hd hf⟩, fun hf => absurd hd hf⟩
      exact hfiles e he hf (List.prefix_nil.mp (hloc ▸ hpre))
    by_cases hd : entry.1.isDirectory
    · obtain ⟨hpath, habove⟩ := hdirectory.mp (hdir hloc hd)
      exact ⟨hadm, fun _ => hpath, ⟨hnew, habove, fun hf => absurd hd hf⟩, fun hf => absurd hd hf⟩
    · obtain ⟨hpath, habove, hbelow, hwhole, hadmits⟩ :=
        (h.filed_iff hroot hfiles hloc (hne_all hloc hnew) hreads).mp (hfile hd)
      exact ⟨hadm, fun _ => hpath, ⟨hnew, habove, fun _ => hbelow⟩, fun _ => ⟨hwhole, hadmits⟩⟩
  · rintro ⟨hadm, hreach, ⟨hnew, habove, hbelow⟩, hfile⟩
    have hname : entry.1.location ≠ [] → entry.1.placedName ∉ (s.inHand opened).tally.names := by
      rw [hnames]
      exact h.new_iff.mpr hnew
    refine ⟨hadm, hname, fun hloc _ => hdirectory.mpr ⟨hreach hloc, habove⟩, fun hf => ?_⟩
    have hloc : entry.1.location ≠ [] := fun hl => hf (hadm.named hl)
    exact (h.filed_iff hroot hfiles hloc (hne_all hloc hnew) hreads).mpr
      ⟨hreach hloc, habove, hbelow hf, hfile hf⟩

/-- An item that is within reach and, where it is a file, whole. -/
def Obtainable (root : Location) (exposed : ι → Exposed) (whole : ι → Bool) (item : ι) : Prop :=
  WithinReach root (exposed item).1 ∧ (¬(exposed item).1.isDirectory → whole item)

/-- **A turn places its item exactly where it is acceptable with those before it**, and
obtainable. -/
theorem Built.turn_ok_iff (hroot : IsEmptyRoot before dest.root)
    (hs : Supplies dest.root before openEntry exposed whole item)
    (h : Built before dest entries s) (hacc : Acceptable limits entries) :
    (Extraction.turn limits dest openEntry item s).1 = .ok ()
      ↔ Acceptable limits (entries ++ [exposed item])
        ∧ Obtainable dest.root exposed whole item := by
  obtain ⟨opened, ho, hd, hreads⟩ := hs s.files h.extracted.outside
  have hcount : s.counted.tally.entries = min (entries.length + 1) Bytes.maxCount := by
    have := h.extracted.entriesProcessed
    simp only [report] at this
    simp only [counted, Tally.recordEntry, this]
    omega
  have hoctets : (s.inHand opened).tally.octets = octetsOf entries := h.extracted.bytesWritten
  have hadmits : Admits limits 0 (s.inHand opened).tally.octets 0 := by
    rw [hoctets]
    exact hacc.admits_zero
  have hturn : (Extraction.turn limits dest openEntry item s).1 = .ok ()
      ↔ min (entries.length + 1) Bytes.maxCount ≤ limits.maxEntryCount
        ∧ Fit limits dest (exposed item).1 (s.inHand opened) := by
    rw [turn_apply, ← hcount, ← Limits.checkEntryCount_eq_ok_iff, ← hd,
      ← extractEntry_ok_iff hadmits]
    rcases limits.checkEntryCount s.counted.tally.entries with e | _
    · simp
    · simp [ho]
  have hfit : Fit limits dest (exposed item).1 (s.inHand opened)
      ↔ Admissible limits (exposed item).1 ∧ WithinReach dest.root (exposed item).1
        ∧ (∀ e ∈ entries, Apart e (exposed item))
        ∧ (¬(exposed item).1.isDirectory → whole item
          ∧ Admits limits 0 (octetsOf entries) (exposed item).2.length) :=
    h.fit_iff hroot hacc hreads
  rw [hturn, acceptable_concat, hfit]
  constructor
  · rintro ⟨hn, hadm, hreach, hapart, hfile⟩
    exact ⟨⟨hacc, hadm, hapart, hn, fun hf => (hfile hf).2⟩, hreach, fun hf => (hfile hf).1⟩
  · rintro ⟨⟨-, hadm, hapart, hn, hsize⟩, hreach, hwhole⟩
    exact ⟨hn, hadm, hreach, hapart, fun hf => ⟨hwhole hf, hsize hf⟩⟩

/-! ## A whole extraction -/

/-- **The items behind those that were placed are extracted exactly where all are acceptable
together**, and obtainable. -/
theorem Built.extractEach_ok_iff (hroot : IsEmptyRoot before dest.root)
    (hx : Exposes dest.root before openEntry exposed) : ∀ {items : List ι} {entries : List Exposed}
    {s : Extraction},
    (∀ item ∈ items, Supplies dest.root before openEntry exposed whole item) →
    Built before dest entries s → Acceptable limits entries →
      ((extractEach limits dest openEntry items s).1 = .ok ()
        ↔ Acceptable limits (entries ++ items.map exposed)
          ∧ ∀ item ∈ items, Obtainable dest.root exposed whole item)
  | [], entries, s, _, h, hacc => by
    have hoctets : s.tally.octets = octetsOf entries := h.extracted.bytesWritten
    have htotal : limits.checkTotalSize s.tally.octets = .ok () := by
      rw [hoctets]
      exact Limits.checkTotalSize_eq_ok_iff.mpr hacc.total
    simpa [extractEach, checkTotal, Effect.look, htotal] using hacc
  | item :: items, entries, s, hs, h, hacc => by
    obtain ⟨hs₀, hs⟩ := List.forall_mem_cons.mp hs
    have hturn := h.turn_ok_iff hroot hs₀ hacc
    rw [extractEach_cons, List.map_cons, List.append_cons, List.forall_mem_cons]
    rcases ht : Extraction.turn limits dest openEntry item s with ⟨e | _, s'⟩
    · rw [ht] at hturn
      refine iff_of_false (fun h' => by cases h') fun hok => ?_
      cases hturn.mpr ⟨hok.1.of_append, hok.2.1⟩
    · rw [ht] at hturn
      obtain ⟨hnext, hobtainable⟩ := hturn.mp rfl
      dsimp only
      rw [Built.extractEach_ok_iff hroot hx hs (h.turn hroot hx ht) hnext]
      exact and_congr_right fun _ => (and_iff_right hobtainable).symm

/-- **Into an empty directory items are extracted exactly where they are acceptable**, and
obtainable. -/
theorem run_ok_iff (hroot : IsEmptyRoot before dest.root)
    (hx : Exposes dest.root before openEntry exposed)
    (hs : ∀ item ∈ items, Supplies dest.root before openEntry exposed whole item) :
    (∃ report, (run limits dest openEntry items before).1 = .ok report)
      ↔ Acceptable limits (items.map exposed)
        ∧ ∀ item ∈ items, Obtainable dest.root exposed whole item := by
  have heach := Built.extractEach_ok_iff hroot hx hs (.start hroot) (acceptable_nil limits)
  rw [List.nil_append] at heach
  rw [← heach, run_apply]
  rcases extractEach limits dest openEntry items { files := before } with ⟨e | _, s⟩
  · simp [Except.map]
  · simp [Except.map]

end GuardedArchive.Extraction
