import GuardedArchive.Proofs.Extraction.Course
import GuardedArchive.Proofs.Extraction.Outcome

/-!
# Proofs/Extraction/Bounds — an extraction keeps within its limits at every moment

    octets written  ≤  octets counted  ≤  the bound          between two entries they are equal

An extraction counts the octets of a chunk before it writes them, so that the count is ahead of the
files only where the chunk is refused, and that ends the extraction.  `Within` bounds what a moment
has opened and written; `Standing` says what the counts are worth at each stage.  Each step keeps
both (`Step.within`), whatever sizes are declared and whatever the readers deliver, so every moment
of every extraction has them (`extraction_within_limits`).
-/

namespace GuardedArchive.Extraction

open FileSystem (AddsDirectories)
open Zip (Archive Entry Source)

variable {ι : Type} {limits : Limits} {dest : Destination}
  {openEntry : ι → FileSystem → Except ArchiveError Entry} {item : ι} {count : Nat}
  {entry : EntryDescriptor} {s s' : Extraction} {name : String} {loc : Location} {chunk : Bytes}
  {total : Nat} {before : FileSystem} {m m' : Moment ι} {e : ArchiveError}

/-! ## One chunk -/

theorem acceptChunk_apply (limits : Limits) (name : String) (loc : Location) (chunk : Bytes)
    (total : Nat) (s : Extraction) : acceptChunk limits name loc chunk total s
      = if limits.maxEntrySize < total then
          (.error (.violation (.entrySize name total limits.maxEntrySize)), s)
        else if Bytes.maxCount < s.tally.octets + chunk.length then
          (.error (.io .byteCountOverflow), s)
        else if limits.maxTotalSize < s.tally.octets + chunk.length then
          (.error (.violation (.totalSize (s.tally.octets + chunk.length) limits.maxTotalSize)),
            { s with tally := { s.tally with octets := s.tally.octets + chunk.length } })
        else (.ok (), { s with
          tally := { s.tally with octets := s.tally.octets + chunk.length }
          files := s.files.append loc chunk }) := by
  rw [acceptChunk, Limits.checkEntrySize, Tally.addOctets]
  by_cases hsize : limits.maxEntrySize < total
  · simp only [if_pos hsize]
  by_cases hfits : Bytes.maxCount < s.tally.octets + chunk.length
  · simp only [if_neg hsize, if_pos hfits]
  simp only [if_neg hsize, if_neg hfits, Limits.checkTotalSize]
  split_ifs <;> rfl

/-- **A chunk is written where all bounds allow it**, and counted. -/
theorem acceptChunk_eq_ok (h : acceptChunk limits name loc chunk total s = (.ok (), s')) :
    total ≤ limits.maxEntrySize ∧ s.tally.octets + chunk.length ≤ limits.maxTotalSize
      ∧ s.tally.octets + chunk.length ≤ Bytes.maxCount
      ∧ s' = { s with
        tally := { s.tally with octets := s.tally.octets + chunk.length }
        files := s.files.append loc chunk } := by
  rw [acceptChunk_apply] at h
  split_ifs at h with hsize hfits htotal
  · cases h
  · cases h
  · cases h
  exact ⟨Nat.le_of_not_lt hsize, Nat.le_of_not_lt htotal, Nat.le_of_not_lt hfits,
    (Prod.mk.inj h).2.symm⟩

/-- A chunk that is refused is counted at most. -/
theorem acceptChunk_eq_error (h : acceptChunk limits name loc chunk total s = (.error e, s'))
    (hfits : s.tally.octets ≤ Bytes.maxCount) : s'.files = s.files
      ∧ s.tally.octets ≤ s'.tally.octets ∧ s'.tally.octets ≤ Bytes.maxCount := by
  rw [acceptChunk_apply] at h
  split_ifs at h with hsize hcount htotal
  · obtain rfl := (Prod.mk.inj h).2
    exact ⟨rfl, Nat.le_refl _, hfits⟩
  · obtain rfl := (Prod.mk.inj h).2
    exact ⟨rfl, Nat.le_refl _, hfits⟩
  · obtain rfl := (Prod.mk.inj h).2
    exact ⟨rfl, Nat.le_add_right _ _, Nat.le_of_not_lt hcount⟩
  · cases h

/-! ## One entry up to its first read -/

/-- What is done for an entry before its first read: directories are made, and its file, if it has
one, is opened empty.  Nothing is counted. -/
structure Prepares (s s' : Extraction) (file : Option Location) : Prop where
  entries : s'.tally.entries = s.tally.entries
  octets : s'.tally.octets = s.tally.octets
  made : ∃ fs, AddsDirectories s.files fs ∧ match file with
    | none => s'.files = fs
    | some loc => loc ≠ [] ∧ s'.files = fs.put loc (.file [])

/-- The file that a step answers, if it answers one. -/
def fileOf {α : Type} (file : α → Option Location) : Except ArchiveError α → Option Location
  | .ok a => file a
  | .error _ => none

theorem place_prepares (limits : Limits) (dest : Destination) (entry : EntryDescriptor)
    (s : Extraction) : Prepares s (place limits dest entry s).2
      (fileOf id (place limits dest entry s).1) := by
  have hsame : ∀ {fs : FileSystem} (name : String) (n : Nat), AddsDirectories s.files fs →
      Prepares s { s with
        tally := s.tally.insertName name, files := fs, directoriesCreated := n } none :=
    fun _ _ ha => ⟨insertName_entries _ _, insertName_octets _ _, _, ha, rfl⟩
  simp only [place, Effect.bind_apply, Effect.look]
  rcases judge limits dest s.tally.names entry with e | ⟨_ | ⟨name, p⟩ | ⟨name, p⟩⟩
  · exact ⟨rfl, rfl, _, .refl _, rfl⟩
  · exact ⟨rfl, rfl, _, .refl _, rfl⟩
  · simp only [Effect.bind_apply, noteName, Effect.modify, onFiles_apply]
    rcases hm : dest.makeDirectoryWithin p s.files with ⟨_ | _, fs⟩ <;>
      exact hsame _ _ (Destination.makeDirectoryWithin_addsDirectories hm)
  · have hparent : ∃ result fs, AddsDirectories s.files fs
        ∧ makeParent dest p { s with tally := s.tally.insertName name }
          = (result, { s with tally := s.tally.insertName name, files := fs }) := by
      rw [makeParent]
      rcases p.parent? with _ | parent
      · exact ⟨_, _, .refl _, rfl⟩
      · exact ⟨_, _, Destination.makeDirectoryWithin_addsDirectories rfl, onFiles_apply _ _⟩
    obtain ⟨result, fs, ha, hp⟩ := hparent
    simp only [Effect.bind_apply, noteName, Effect.modify, hp]
    rcases result with e | _
    · exact hsame _ _ ha
    · dsimp only [openOutput]
      rcases hc : fs.create p with e | ⟨loc, fs'⟩
      · exact hsame _ _ ha
      · obtain ⟨rfl, hloc, -⟩ := FileSystem.create_eq_ok hc
        exact ⟨insertName_entries _ _, insertName_octets _ _, fs, ha, hloc, rfl⟩

theorem takeUp_prepares (limits : Limits) (dest : Destination)
    (openEntry : ι → FileSystem → Except ArchiveError Entry) (item : ι) (s : Extraction) :
    Prepares s.counted (takeUp limits dest openEntry item s.counted).2
      (fileOf (·.2) (takeUp limits dest openEntry item s.counted).1) := by
  rw [takeUp_apply]
  rcases openEntry item s.files with e | entry
  · exact ⟨rfl, rfl, _, .refl _, rfl⟩
  · have hp := place_prepares limits dest entry.descriptor (s.inHand entry)
    dsimp only
    rcases hr : place limits dest entry.descriptor (s.inHand entry) with ⟨_ | _, _⟩ <;>
      rw [hr] at hp <;> exact ⟨hp.entries, hp.octets, hp.made⟩

/-! ## Every moment -/

/-- The octets that went into files so far. -/
def Moment.written (m : Moment ι) : Nat := (m.outputs.flatMap (·.2)).length

/-- **A moment is within the limits**: in each file, in all files together and in the entries that
were opened.  The count of octets is not behind the files and fits, and every file is one that was
there, or was written by the extraction and holds what went into it. -/
structure Within (limits : Limits) (before : FileSystem) (m : Moment ι) : Prop where
  size : ∀ output ∈ m.outputs, output.2.length ≤ limits.maxEntrySize
  total : m.written ≤ limits.maxTotalSize
  counted : m.written ≤ m.state.tally.octets
  fits : m.state.tally.octets ≤ Bytes.maxCount
  opened : m.opened ≤ limits.maxEntryCount
  files : ∀ loc content, m.state.files.node? loc = some (.file content) →
    before.node? loc = some (.file content) ∨ (loc, content) ∈ m.outputs

/-- The counts are exact, and with the entries that are left make `count`. -/
structure Exact (count : Nat) (m : Moment ι) (rest : List ι) : Prop where
  octets : m.state.tally.octets = m.written
  entries : m.state.tally.entries = m.opened
  left : m.opened + rest.length = count

/-- The file at `loc` was opened last, and holds `total` octets. -/
structure OpenFile (m : Moment ι) (loc : Location) (total : Nat) : Prop where
  ne_nil : loc ≠ []
  output : ∃ content others, m.outputs = (loc, content) :: others ∧ content.length = total
    ∧ m.state.files.node? loc = some (.file content)

/-- What the counts and the file in hand are at each stage, until the end. -/
def Standing (count : Nat) (m : Moment ι) : Prop :=
  match m.stage with
  | .between rest => Exact count m rest
  | .writing _ loc _ total rest => Exact count m rest ∧ OpenFile m loc total
  | .written rest => Exact count m rest
  | .ended _ => True

theorem recordEntry_eq {t : Tally} (h : t.entries < Bytes.maxCount) :
    t.recordEntry.entries = t.entries + 1 := Nat.min_eq_left h

/-! ## One step -/

theorem written_cons (output : Location × Bytes) (others : List (Location × Bytes)) :
    ((output :: others).flatMap (·.2)).length
      = output.2.length + (others.flatMap (·.2)).length := by
  rw [List.flatMap_cons, List.length_append]

variable {outputs : List (Location × Bytes)} {opened : Nat} {stage stage' : Stage ι}

/-- **Counting more and making directories keeps a moment within its limits.** -/
theorem Within.keep (h : Within limits before ⟨stage, s, outputs, opened⟩)
    (ha : AddsDirectories s.files s'.files) (hle : s.tally.octets ≤ s'.tally.octets)
    (hfits : s'.tally.octets ≤ Bytes.maxCount) {opened' : Nat}
    (hopened : opened' ≤ limits.maxEntryCount) :
    Within limits before ⟨stage', s', outputs, opened'⟩ where
  size := h.size
  total := h.total
  counted := Nat.le_trans h.counted hle
  fits := hfits
  opened := hopened
  files loc content hf := h.files loc content (ha.file_iff.mp hf)

/-- What neither counts nor touches a file keeps a moment within its limits. -/
theorem Within.idle (h : Within limits before ⟨stage, s, outputs, opened⟩)
    (hfiles : s'.files = s.files) (hoctets : s'.tally.octets = s.tally.octets) :
    Within limits before ⟨stage', s', outputs, opened⟩ :=
  h.keep (hfiles ▸ .refl _) hoctets.ge (hoctets.le.trans h.fits) h.opened

/-- **A file that is opened is empty**, and nothing is written yet. -/
theorem Within.openFile (h : Within limits before ⟨stage, s, outputs, opened⟩)
    {fs : FileSystem} (ha : AddsDirectories s.files fs) (hloc : loc ≠ [])
    (hfiles : s'.files = fs.put loc (.file [])) (hoctets : s'.tally.octets = s.tally.octets)
    {opened' : Nat} (hopened : opened' ≤ limits.maxEntryCount) :
    Within limits before ⟨stage', s', (loc, []) :: outputs, opened'⟩ where
  size output ho := by
    rcases List.mem_cons.mp ho with rfl | ho
    · exact Nat.zero_le _
    · exact h.size output ho
  total := h.total
  counted := by
    rw [hoctets]
    exact h.counted
  fits := by
    rw [hoctets]
    exact h.fits
  opened := hopened
  files other content hf := by
    rw [hfiles, fs.node?_put hloc] at hf
    split at hf
    next he =>
      obtain ⟨rfl⟩ : [] = content := by simpa using hf
      exact .inr (he ▸ List.mem_cons_self)
    next => exact (h.files other content (ha.file_iff.mp hf)).imp id (List.mem_cons_of_mem _)

/-- **A chunk that is taken is within the limits of its file and of all files.** -/
theorem Within.take {content : Bytes}
    (h : Within limits before ⟨stage, s, (loc, content) :: outputs, opened⟩)
    (hexact : s.tally.octets = (((loc, content) :: outputs).flatMap (·.2)).length)
    (hloc : loc ≠ []) (hfile : s.files.node? loc = some (.file content))
    (ha : acceptChunk limits name loc chunk (content.length + chunk.length) s = (.ok (), s')) :
    Within limits before ⟨stage', s', (loc, content ++ chunk) :: outputs, opened⟩ := by
  obtain ⟨hsize, htotal, hfits, rfl⟩ := acceptChunk_eq_ok ha
  rw [written_cons] at hexact
  have hwritten : (((loc, content ++ chunk) :: outputs).flatMap (·.2)).length
      = s.tally.octets + chunk.length := by
    rw [written_cons, hexact, List.length_append]
    dsimp only
    omega
  refine ⟨?_, ?_, ?_, hfits, h.opened, ?_⟩
  · intro output ho
    rcases List.mem_cons.mp ho with rfl | ho
    · rw [List.length_append]
      exact hsize
    · exact h.size output (List.mem_cons_of_mem _ ho)
  · rw [Moment.written, hwritten]
    exact htotal
  · rw [Moment.written, hwritten]
  · intro other content' hf
    dsimp only at hf
    rw [FileSystem.append, s.files.node?_put hloc, FileSystem.contentAt, hfile] at hf
    split at hf
    next he =>
      obtain ⟨rfl⟩ : content ++ chunk = content' := by simpa using hf
      exact .inr (he ▸ List.mem_cons_self)
    next hne =>
      refine (h.files other content' hf).imp id fun hm => ?_
      rcases List.mem_cons.mp hm with he | hm
      · exact absurd (congrArg Prod.fst he).symm hne
      · exact List.mem_cons_of_mem _ hm

/-- An entry that passes the count is opened within the limit. -/
theorem Exact.next {rest : List ι} (h : Exact count ⟨stage, s, outputs, opened⟩ (item :: rest))
    (hcount : count ≤ Bytes.maxCount)
    (hn : limits.checkEntryCount s.counted.tally.entries = .ok ()) :
    s.counted.tally.entries = opened + 1 ∧ opened + 1 ≤ limits.maxEntryCount
      ∧ opened + 1 + rest.length = count := by
  have hleft : opened + (item :: rest).length = count := h.left
  have hentries : s.tally.entries = opened := h.entries
  rw [List.length_cons] at hleft
  have hnext : s.counted.tally.entries = opened + 1 := by
    rw [← hentries]
    exact recordEntry_eq (by omega)
  rw [hnext] at hn
  exact ⟨hnext, Limits.checkEntryCount_eq_ok_iff.mp hn, by omega⟩

theorem countFile_state {result : Except ArchiveError Unit}
    (h : countFile limits s = (result, s')) : s'.files = s.files ∧ s'.tally = s.tally := by
  rw [countFile, Effect.bind_apply] at h
  rcases hc : checkTotal limits s with ⟨_ | _, s₁⟩ <;> rw [hc] at h <;>
    obtain rfl := (Prod.mk.inj h).2 <;> obtain rfl := (Prod.mk.inj hc).2 <;> exact ⟨rfl, rfl⟩

/-- **A step keeps within the limits**, and the count of octets does not decrease. -/
theorem Step.within (hs : Step limits dest openEntry m m') (hcount : count ≤ Bytes.maxCount)
    (hw : Within limits before m) (hst : Standing count m) :
    Within limits before m' ∧ Standing count m'
      ∧ m.state.tally.octets ≤ m'.state.tally.octets := by
  cases hs with
  | tooMany hn => exact ⟨hw.idle rfl rfl, trivial, Nat.le_refl _⟩
  | @notPlaced item rest s s' outputs opened e hn hp =>
    obtain ⟨-, hopened, -⟩ := Exact.next hst hcount hn
    have hprep := takeUp_prepares limits dest openEntry item s
    rw [hp] at hprep
    have hoctets : s'.tally.octets = s.tally.octets := hprep.octets
    obtain ⟨fs, ha, rfl⟩ := hprep.made
    exact ⟨hw.keep ha hoctets.ge (hoctets.le.trans hw.fits) hopened, trivial, hoctets.ge⟩
  | @placed item rest s s' outputs opened name hn hp =>
    obtain ⟨hnext, hopened, hleft⟩ := Exact.next hst hcount hn
    have hprep := takeUp_prepares limits dest openEntry item s
    rw [hp] at hprep
    have hoctets : s'.tally.octets = s.tally.octets := hprep.octets
    obtain ⟨fs, ha, rfl⟩ := hprep.made
    refine ⟨hw.keep ha hoctets.ge (hoctets.le.trans hw.fits) hopened, ?_, hoctets.ge⟩
    exact ⟨hoctets.trans hst.octets, hprep.entries.trans hnext, hleft⟩
  | @fileOpened item rest s s' outputs opened name loc hn hp =>
    obtain ⟨hnext, hopened, hleft⟩ := Exact.next hst hcount hn
    have hprep := takeUp_prepares limits dest openEntry item s
    rw [hp] at hprep
    have hoctets : s'.tally.octets = s.tally.octets := hprep.octets
    obtain ⟨fs, ha, hloc, hfiles⟩ := hprep.made
    refine ⟨hw.openFile ha hloc hfiles hoctets hopened, ⟨?_, hloc, [], outputs, rfl, rfl, ?_⟩,
      hoctets.ge⟩
    · exact ⟨hoctets.trans hst.octets, hprep.entries.trans hnext, hleft⟩
    · dsimp only
      rw [hfiles, fs.node?_put hloc, if_pos rfl]
  | interrupted =>
    obtain ⟨hexact, hfile⟩ := hst
    exact ⟨hw.idle rfl rfl, ⟨⟨hexact.octets, hexact.entries, hexact.left⟩, hfile.1, hfile.2⟩,
      Nat.le_refl _⟩
  | @taken name loc chunk content reads total rest s s' outputs opened hc hfew ha =>
    obtain ⟨hexact, hloc, content', others, houtputs, rfl, hfile⟩ := hst
    obtain ⟨⟨-, rfl⟩, rfl⟩ : (loc = loc ∧ content = content') ∧ outputs = others := by
      simpa using houtputs
    have hw' : Within limits before ⟨.writing name loc reads (content.length + chunk.length) rest,
        s', (loc, content ++ chunk) :: outputs, opened⟩ :=
      hw.take hexact.octets hloc hfile ha
    obtain ⟨-, -, -, rfl⟩ := acceptChunk_eq_ok ha
    refine ⟨hw', ⟨⟨?_, hexact.entries, hexact.left⟩, hloc, _, _, rfl, List.length_append, ?_⟩,
      Nat.le_add_right _ _⟩
    · have hoctets := hexact.octets
      rw [Moment.written, written_cons] at hoctets ⊢
      dsimp only at hoctets ⊢
      rw [List.length_append]
      omega
    · dsimp only
      rw [FileSystem.append, s.files.node?_put hloc, if_pos rfl, FileSystem.contentAt, hfile]
  | @refused name loc chunk reads total rest s s' outputs opened e hc hfew ha =>
    obtain ⟨hfiles, hle, hfits⟩ := acceptChunk_eq_error ha hw.fits
    have hkept : AddsDirectories s.files s'.files := hfiles ▸ .refl _
    have hw' : Within limits before ⟨.ended (.error e), s', outputs, opened⟩ :=
      hw.keep hkept hle hfits hw.opened
    exact ⟨hw'.idle rfl rfl, trivial, hle⟩
  | uncounted | failed => exact ⟨hw.idle rfl rfl, trivial, Nat.le_refl _⟩
  | exhausted | emptied =>
    obtain ⟨hexact, -⟩ := hst
    exact ⟨hw.idle rfl rfl, ⟨hexact.octets, hexact.entries, hexact.left⟩, Nat.le_refl _⟩
  | @checked rest s s' outputs opened result hf =>
    obtain ⟨hfiles, htally⟩ := countFile_state hf
    have hoctets : s'.tally.octets = s.tally.octets := by rw [htally]
    refine ⟨hw.idle hfiles hoctets, ?_, hoctets.ge⟩
    cases result with
    | error e => trivial
    | ok _ => exact ⟨hoctets.trans hst.octets, htally ▸ hst.entries, hst.left⟩
  | through => exact ⟨hw.idle rfl rfl, trivial, Nat.le_refl _⟩

/-! ## A whole extraction -/

/-- **Some steps keep within the limits**, and the count of octets does not decrease. -/
theorem Steps.within (hs : Steps limits dest openEntry m m') (hcount : count ≤ Bytes.maxCount)
    (hw : Within limits before m) (hst : Standing count m) :
    Within limits before m' ∧ Standing count m'
      ∧ m.state.tally.octets ≤ m'.state.tally.octets := by
  induction hs with
  | refl => exact ⟨hw, hst, Nat.le_refl _⟩
  | tail _ hstep ih =>
    obtain ⟨hw, hst, hle⟩ := ih
    obtain ⟨hw, hst, hle'⟩ := hstep.within hcount hw hst
    exact ⟨hw, hst, hle.trans hle'⟩

theorem within_start (limits : Limits) (items : List ι) (before : FileSystem) :
    Within limits before (.start items before) where
  size _ ho := absurd ho List.not_mem_nil
  total := Nat.zero_le _
  counted := Nat.zero_le _
  fits := Nat.zero_le _
  opened := Nat.zero_le _
  files _ _ hf := .inl hf

/-- At the start nothing is counted, and all items are left. -/
theorem standing_start (items : List ι) (before : FileSystem) :
    Standing items.length (.start items before) := ⟨rfl, rfl, Nat.zero_add _⟩

/-- **The octets are within their bound wherever they are checked.** -/
theorem Within.checkTotalSize (hw : Within limits before m) (hst : Standing count m)
    {rest : List ι} (hm : m.stage = .between rest ∨ m.stage = .written rest) :
    limits.checkTotalSize m.state.tally.octets = .ok () := by
  have hexact : Exact count m rest := by
    rcases hm with hm | hm <;> rwa [Standing, hm] at hst
  exact Limits.checkTotalSize_eq_ok_iff.mpr (hexact.octets.trans_le hw.total)

/-- **An extraction is bounded** in all its course: it is a way of steps from the start, every
moment is within the limits, the count of octets never decreases, and the checks of it that follow
a file and the last entry do not fail. -/
structure Bounded (limits : Limits) (dest : Destination)
    (openEntry : ι → FileSystem → Except ArchiveError Entry) (items : List ι)
    (before : FileSystem) : Prop where
  way : ∃ result state outputs opened,
    run limits dest openEntry items before = (result.map fun _ => state.report dest, state.files)
      ∧ Steps limits dest openEntry (.start items before) ⟨.ended result, state, outputs, opened⟩
  within : ∀ m, Steps limits dest openEntry (.start items before) m → Within limits before m
  mono : ∀ m m', Steps limits dest openEntry (.start items before) m →
    Steps limits dest openEntry m m' → m.state.tally.octets ≤ m'.state.tally.octets
  checks : ∀ m rest, Steps limits dest openEntry (.start items before) m →
    m.stage = .between rest ∨ m.stage = .written rest →
      limits.checkTotalSize m.state.tally.octets = .ok ()

theorem bounded_of_length_le (limits : Limits) (dest : Destination)
    (openEntry : ι → FileSystem → Except ArchiveError Entry) {items : List ι}
    (before : FileSystem) (h : items.length ≤ Bytes.maxCount) :
    Bounded limits dest openEntry items before := by
  have hall : ∀ m, Steps limits dest openEntry (.start items before) m →
      Within limits before m ∧ Standing items.length m := fun m hm =>
    have hm := hm.within h (within_start limits items before) (standing_start items before)
    ⟨hm.1, hm.2.1⟩
  refine ⟨?_, fun m hm => (hall m hm).1, fun m m' hm hs => ?_, fun m rest hm hstage => ?_⟩
  · obtain ⟨outputs, opened, hsteps⟩ :=
      extractEach_steps limits dest openEntry items { files := before } [] 0
    exact ⟨_, _, outputs, opened, run_apply items before, hsteps⟩
  · obtain ⟨hw, hst⟩ := hall m hm
    exact (hs.within h hw hst).2.2
  · obtain ⟨hw, hst⟩ := hall m hm
    exact hw.checkTotalSize hst hstage

/-- **Every extraction keeps within its limits at every moment**, whatever sizes are declared and
whatever the readers deliver, and whether it succeeds or fails: for as many entries as can be
counted, and so for every archive. -/
theorem extraction_within_limits (limits : Limits) (dest : Destination) (before : FileSystem) :
    (∀ {ι : Type} (openEntry : ι → FileSystem → Except ArchiveError Entry) (items : List ι),
      items.length ≤ Bytes.maxCount → Bounded limits dest openEntry items before)
      ∧ ∀ source, match Archive.load limits source before with
        | .error e => ofSource limits dest source before = (.error e, before)
        | .ok archive =>
          ofSource limits dest source before = run limits dest archive.openEntry archive.records
            before ∧ Bounded limits dest archive.openEntry archive.records before := by
  refine ⟨fun openEntry items h => bounded_of_length_le limits dest openEntry before h,
    fun source => ?_⟩
  rw [ofSource_apply]
  cases hl : Archive.load limits source before with
  | error e => rfl
  | ok archive =>
    exact ⟨rfl, bounded_of_length_le limits dest archive.openEntry before
      (Archive.length_records_le hl)⟩

/-- A file that declares one octet and delivers three. -/
def understated : EntryDescriptor × List Read :=
  ({ name := "a", declaredSize := some 1, compressedSize := 1 },
    [.data [0x31], .interrupted, .data [0x32, 0x33]])

/-- What is delivered beyond the limit is refused, and what was written before stays. -/
theorem bounded_understated : [understated].length ≤ Bytes.maxCount
    ∧ Bounded { maxEntrySize := 2 } ⟨[[0x74]]⟩ ofReads [understated] emptyTarget
    ∧ run { maxEntrySize := 2 } ⟨[[0x74]]⟩ ofReads [understated] emptyTarget
      = (.error (.violation (.entrySize "a" 3 2)),
        emptyTarget.put [[0x74], [0x61]] (.file [0x31])) := by
  refine ⟨by decide, (extraction_within_limits _ _ _).1 ofReads [understated] (by decide), ?_⟩
  have hj : judge { maxEntrySize := 2 } ⟨[[0x74]]⟩ [] understated.1
      = .ok (.file "a" (.ofString "/t/a")) := eq_ok_of_toOption (by decide +kernel)
  rw [run_apply, extractEach_cons, turn_apply]
  simp only [ofReads, extractEntry_apply, inHand, counted, Tally.recordEntry, hj]
  cbv

end GuardedArchive.Extraction
