import GuardedArchive.Proofs.Extraction.Acceptance
import GuardedArchive.Proofs.Extraction.Stopping

/-!
# Proofs/Extraction/Reordering — the order of the entries does not matter

Into an empty directory entries are extracted in every order or in none, and what comes of it is the
same: the report and the tree (`extraction_in_any_order`).

What is asked of the entries has no order (`Acceptable.perm`), and what they denote and how many
they are has none either (`Extracted.agree`).  An item that cannot be opened stops the extraction
wherever it stands, as no turn before it changes what is opened (`Steady`).
-/

namespace GuardedArchive.Extraction

open GuardedArchive.Stream (delivered endsWell)
open Zip (Archive Entry Record Source)

variable {ι : Type} {limits : Limits} {dest : Destination} {before fs fs' : FileSystem}
  {openEntry : ι → FileSystem → Except ArchiveError Entry} {items items' : List ι}
  {exposed : ι → Exposed} {whole : ι → Bool} {entries entries' : List Exposed}
  {s s' : Extraction} {report report' : ExtractionReport}

/-! ## Extractions that come to the same -/

/-- **Two extractions come to the same**: one succeeds exactly where the other does, and then they
report the same and leave the same tree. -/
structure SameSuccess (x y : Except ArchiveError ExtractionReport × FileSystem) : Prop where
  result : ∀ report, x.1 = .ok report ↔ y.1 = .ok report
  tree : ∀ report, x.1 = .ok report → ∀ loc, x.2.node? loc = y.2.node? loc

/-! ## What does not depend on the order -/

theorem octetsOf_perm (hp : entries.Perm entries') : octetsOf entries' = octetsOf entries :=
  ((hp.symm.filter _).flatMap_right _).length_eq

/-- **Entries that can all be extracted can be extracted in every order.** -/
theorem Acceptable.perm (h : Acceptable limits entries) (hp : entries.Perm entries') :
    Acceptable limits entries' where
  admissible entry he := h.admissible entry (hp.mem_iff.mpr he)
  size entry he := h.size entry (hp.mem_iff.mpr he)
  apart := (hp.pairwise_iff Apart.symm).mp h.apart
  count := hp.length_eq ▸ h.count
  total := octetsOf_perm hp ▸ h.total
  fits := octetsOf_perm hp ▸ h.fits

/-- **What entries denote and how they are counted** is the same in every order. -/
theorem Extracted.agree (h : Extracted before dest entries report fs)
    (h' : Extracted before dest entries' report' fs') (hp : entries.Perm entries') :
    report' = report ∧ ∀ loc, fs'.node? loc = fs.node? loc := by
  constructor
  · cases report
    cases report'
    rw [ExtractionReport.mk.injEq]
    refine ⟨h'.target.trans h.target.symm, ?_, ?_, ?_, ?_⟩
    · exact h'.entriesProcessed.trans (hp.length_eq ▸ h.entriesProcessed.symm)
    · exact h'.filesExtracted.trans (hp.countP_eq _ ▸ h.filesExtracted.symm)
    · exact h'.directoriesCreated.trans (hp.countP_eq _ ▸ h.directoriesCreated.symm)
    · exact h'.bytesWritten.trans (octetsOf_perm hp ▸ h.bytesWritten.symm)
  · intro loc
    by_cases hin : dest.root <+: loc
    · obtain ⟨rel, rfl⟩ := hin
      by_cases hrel : rel = []
      · rw [hrel, List.append_nil, h.root _ List.prefix_rfl, h'.root _ List.prefix_rfl]
      · ext node
        rw [h.tree rel node hrel, h'.tree rel node hrel]
        simp only [hp.mem_iff]
    · rw [h.outside loc hin, h'.outside loc hin]

/-! ## Items that open, or do not -/

/-- An item that can be opened at all is supplied throughout. -/
def Steady (root : Location) (before : FileSystem)
    (openEntry : ι → FileSystem → Except ArchiveError Entry) (exposed : ι → Exposed)
    (whole : ι → Bool) : Prop :=
  ∀ item fs opened, SameOutside root before fs → openEntry item fs = .ok opened →
    Supplies root before openEntry exposed whole item

theorem Steady.exposes (h : Steady dest.root before openEntry exposed whole) :
    Exposes dest.root before openEntry exposed := by
  intro item fs fs' opened hfs hfs' ho
  obtain ⟨entry, ho', hd, hreads⟩ := h item fs opened hfs ho fs hfs
  obtain rfl := Except.ok.inj (ho.symm.trans ho')
  exact ⟨hd, (hreads fs' hfs').2⟩

/-- **A successful extraction succeeds in every other order**, and comes to the same. -/
theorem run_eq_ok_of_perm (hroot : IsEmptyRoot before dest.root)
    (hs : Steady dest.root before openEntry exposed whole) (hp : items.Perm items')
    (h : (run limits dest openEntry items before).1 = .ok report) :
    (run limits dest openEntry items' before).1 = .ok report
      ∧ ∀ loc, (run limits dest openEntry items' before).2.node? loc
        = (run limits dest openEntry items before).2.node? loc := by
  have hx := hs.exposes
  have hsupplies : ∀ item ∈ items, Supplies dest.root before openEntry exposed whole item := by
    intro item hi
    obtain ⟨s, heach, -⟩ := run_eq_ok_iff.mp (Prod.ext h rfl)
    obtain ⟨done, s₁, opened, hdone, ho⟩ := (Places.of_extractEach heach).opened item hi
    have hbuilt : Built before dest ([] ++ done.map exposed) s₁ :=
      hdone.built hroot hx (.start hroot)
    exact hs item s₁.files opened hbuilt.extracted.outside ho
  obtain ⟨hacc, hobtainable⟩ := (run_ok_iff hroot hx hsupplies).mp ⟨report, h⟩
  have hsupplies' := fun item hi => hsupplies item (hp.mem_iff.mpr hi)
  obtain ⟨report', h'⟩ := (run_ok_iff hroot hx hsupplies').mpr
    ⟨hacc.perm (hp.map exposed), fun item hi => hobtainable item (hp.mem_iff.mpr hi)⟩
  obtain ⟨rfl, htree⟩ := (run_extracted hroot hx (Prod.ext h rfl)).agree
    (run_extracted hroot hx (Prod.ext h' rfl)) (hp.map exposed)
  exact ⟨h', htree⟩

/-- **Items in two orders are extracted alike.** -/
theorem run_sameSuccess (hroot : IsEmptyRoot before dest.root)
    (hs : Steady dest.root before openEntry exposed whole) (hp : items.Perm items') :
    SameSuccess (run limits dest openEntry items before) (run limits dest openEntry items' before)
    where
  result _ := ⟨fun h => (run_eq_ok_of_perm hroot hs hp h).1,
    fun h => (run_eq_ok_of_perm hroot hs hp.symm h).1⟩
  tree _ h loc := ((run_eq_ok_of_perm hroot hs hp h).2 loc).symm

/-! ## Archives -/

theorem steady_ofReads (root : Location) (before : FileSystem) :
    Steady root before ofReads (fun e => (e.1, delivered e.2)) (fun e => endsWell e.2) :=
  fun _ _ _ _ _ _ _ => ⟨_, rfl, rfl, fun _ _ => ⟨rfl, rfl⟩⟩

/-- The archive has a reader for the record that comes to the end of its content. -/
def wholeBy (archive : Archive) (fs : FileSystem) (r : Record) : Bool :=
  match archive.openEntry r fs with
  | .error _ => false
  | .ok entry => endsWell (entry.reads fs)

/-- **An archive outside is read alike whatever happens below the root.** -/
theorem steady_openEntry {source : Source} {archive : Archive} {root : Location}
    (hroot : IsEmptyRoot before root) (hl : Archive.load limits source before = .ok archive) :
    Steady root before archive.openEntry (exposedBy archive before) (wholeBy archive before) := by
  intro r fs opened hfs ho fs' hfs'
  have hsource := (Archive.load_eq_ok_iff.mp hl).2.2
  have hoctets : ∀ {fs}, SameOutside root before fs →
      archive.source.octets fs = archive.source.octets before :=
    fun hfs => hsource ▸ octets_sameOutside hroot hl hfs
  rw [openEntry_congr (hoctets hfs)] at ho
  refine ⟨opened, (openEntry_congr (hoctets hfs')).trans ho, (openEntry_eq_ok ho).1, ?_⟩
  intro fs'' hfs''
  rw [wholeBy, exposedBy, ho]
  dsimp only
  rw [reads_congr ho (hoctets hfs'')]
  exact ⟨rfl, rfl⟩

/-- **Extraction into an empty directory does not depend on the order of the entries**: with every
list of entries, and with the records of every archive, each order succeeds exactly where another
does, and then reports the same and leaves the same tree. -/
theorem extraction_in_any_order (limits : Limits) (dest : Destination) (before : FileSystem)
    (hroot : IsEmptyRoot before dest.root) :
    (∀ entries entries' : List (EntryDescriptor × List Read), entries.Perm entries' →
      SameSuccess (run limits dest ofReads entries before)
        (run limits dest ofReads entries' before))
    ∧ ∀ source archive, Archive.load limits source before = .ok archive →
      ∀ records, archive.records.Perm records →
        SameSuccess (run limits dest archive.openEntry archive.records before)
          (run limits dest archive.openEntry records before) :=
  ⟨fun _ _ hp => run_sameSuccess hroot (steady_ofReads dest.root before) hp,
    fun _ _ hl _ hp => run_sameSuccess hroot (steady_openEntry hroot hl) hp⟩

/-! ## A directory behind its file -/

/-- The directory `a`. -/
def enclosing : EntryDescriptor × List Read :=
  ({ name := "a/", isDirectory := true, declaredSize := some 0, compressedSize := 0 }, [])

theorem run_nested_enclosing : (run {} ⟨[[0x74]]⟩ ofReads [nested, enclosing] emptyTarget).1
    = .ok ⟨.ofString "/t", 2, 1, 1, 1⟩ := by
  have hj : judge {} ⟨[[0x74]]⟩ ["a/b"] enclosing.1 = .ok (.directory "a" (.ofString "/t/a")) :=
    eq_ok_of_toOption (by decide +kernel)
  rw [run_apply, extractEach_cons, turn_nested]
  dsimp only
  rw [extractEach_cons, turn_apply]
  simp only [ofReads, extractEntry_apply, inHand, counted, afterNested, Tally.recordEntry, hj]
  cbv

/-- The directory `a` may come before its file `a/b` or behind it. -/
theorem enclosing_in_any_order : IsEmptyRoot emptyTarget [[0x74]]
    ∧ [nested, enclosing].Perm [enclosing, nested]
    ∧ (run {} ⟨[[0x74]]⟩ ofReads [enclosing, nested] emptyTarget).1
      = .ok ⟨.ofString "/t", 2, 1, 1, 1⟩ := by
  have hp : [nested, enclosing].Perm [enclosing, nested] := .swap _ _ _
  have hsame := (extraction_in_any_order {} ⟨[[0x74]]⟩ emptyTarget isEmptyRoot_emptyTarget).1 _ _ hp
  exact ⟨isEmptyRoot_emptyTarget, hp, (hsame.result _).mp run_nested_enclosing⟩

end GuardedArchive.Extraction
