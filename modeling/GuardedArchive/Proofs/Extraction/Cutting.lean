import GuardedArchive.Proofs.Extraction.Admission
import GuardedArchive.Proofs.Stream.Copying

/-!
# Proofs/Extraction/Cutting — the limits are exact, however a content is cut

    content  =  chunk₁ ++ … ++ chunkₖ ++ chunkₖ₊₁ ++ …
                └ written: within the limits ┘ └ refused: beyond one of them

Reads that cut a content deliver it in chunks, with interruptions anywhere (`Cuts`).  Whether the
content is written into a file depends on its length only, and where it is not, whole chunks are
written up to the first that would go beyond a limit (`holdExactly_of_cuts`).
-/

namespace GuardedArchive

namespace Stream

variable {reads : List Read} {content : Bytes}

/-- The reads cut a content into chunks that are not empty, with interruptions between them. -/
structure Cuts (reads : List Read) (content : Bytes) : Prop where
  goesOn : ∀ r ∈ reads, r.GoesOn
  flatten_eq : (chunksOf reads).flatten = content

theorem endsWell_of_goesOn (h : ∀ r ∈ reads, r.GoesOn) : endsWell reads := by
  induction reads with
  | nil => rfl
  | cons read reads ih =>
    obtain ⟨hread, hrest⟩ := List.forall_mem_cons.mp h
    cases read with
    | data octets => rw [endsWell, ih hrest, Bool.or_true]
    | interrupted => exact ih hrest
    | failure e => exact hread.elim

theorem delivered_of_goesOn (h : ∀ r ∈ reads, r.GoesOn) :
    delivered reads = (chunksOf reads).flatten := by
  induction reads with
  | nil => rfl
  | cons read reads ih =>
    obtain ⟨hread, hrest⟩ := List.forall_mem_cons.mp h
    cases read with
    | data octets =>
      rw [delivered, if_neg (mt List.isEmpty_iff.mp hread), chunksOf_data hread,
        List.flatten_cons, ih hrest]
    | interrupted => exact ih hrest
    | failure e => exact hread.elim

theorem Cuts.endsWell (h : Cuts reads content) : Stream.endsWell reads :=
  endsWell_of_goesOn h.goesOn

theorem Cuts.delivered_eq (h : Cuts reads content) : delivered reads = content :=
  (delivered_of_goesOn h.goesOn).trans h.flatten_eq

end Stream

namespace Extraction

open GuardedArchive.Stream (copyFrom copyChunks delivered endsWell chunksOf Cuts Copied)

variable {limits : Limits} {loc : Location} {fs : FileSystem} {s : Extraction} {reads : List Read}
  {content before : Bytes} {total : Nat}

/-- A chunk that the bounds do not admit ends the copy, and the files stay as they are. -/
theorem copyFrom_of_not_admits {chunk : Bytes} (name : String) (hne : chunk ≠ [])
    (h : ¬Admits limits total s.tally.octets chunk.length) :
    (copyFrom (acceptChunk limits name loc) (.data chunk :: reads) total s).state.files
      = s.files := by
  rw [copyFrom, if_neg (mt List.isEmpty_iff.mp hne)]
  dsimp only
  split
  · rfl
  · rcases acceptChunk_state limits name loc chunk (total + chunk.length) s with ha | ⟨e, _, ha⟩
    · exact absurd (admits_of_acceptChunk (by rw [ha])) h
    · rw [ha]

/-- **A copy that fails wrote whole chunks within the bounds**, and the next would have gone beyond
one of them. -/
theorem exists_refused (limits : Limits) (name : String) (hloc : loc ≠ []) {e : ArchiveError} :
    ∀ (reads : List Read) {total : Nat} {s : Extraction} {before : Bytes},
      (∀ r ∈ reads, r.GoesOn) → s.files = fs.put loc (.file before) →
      Admits limits total s.tally.octets 0 → total ≤ s.tally.octets →
      (copyFrom (acceptChunk limits name loc) reads total s).result = .error e →
        ∃ front chunk back, chunksOf reads = front ++ chunk :: back
          ∧ (copyFrom (acceptChunk limits name loc) reads total s).state.files
            = fs.put loc (.file (before ++ front.flatten))
          ∧ Admits limits total s.tally.octets front.flatten.length
          ∧ ¬Admits limits total s.tally.octets (front ++ [chunk]).flatten.length := by
  intro reads
  induction reads with
  | nil =>
    intro _ _ _ _ _ _ _ he
    cases he
  | cons read reads ih =>
    intro total s before hon hfiles hs hle he
    obtain ⟨hread, hrest⟩ := List.forall_mem_cons.mp hon
    cases read with
    | interrupted => exact ih hrest hfiles hs hle he
    | failure e => exact hread.elim
    | data chunk =>
      rw [Stream.chunksOf_data hread]
      by_cases hadmits : Admits limits total s.tally.octets chunk.length
      · have hcount := hadmits.count
        rw [copyFrom, if_neg (mt List.isEmpty_iff.mp hread)] at he ⊢
        dsimp only at he ⊢
        rw [if_neg (by omega), acceptChunk_of_admits name loc hadmits] at he ⊢
        obtain ⟨front, refused, back, hchunks, hput, hfront, hrefused⟩ :=
          ih hrest (by rw [hfiles, FileSystem.append_put fs hloc])
            (admits_add.mp (by rwa [Nat.add_zero])) (Nat.add_le_add_right hle _) he
        refine ⟨chunk :: front, refused, back, by rw [hchunks, List.cons_append], ?_, ?_, ?_⟩
        · rw [hput, List.flatten_cons, List.append_assoc]
        · rw [List.flatten_cons, List.length_append]
          exact admits_add.mpr hfront
        · rw [List.cons_append, List.flatten_cons, List.length_append]
          exact mt admits_add.mp hrefused
      · refine ⟨[], chunk, chunksOf reads, rfl, ?_, hs, ?_⟩
        · rw [copyFrom_of_not_admits name hread hadmits, hfiles, List.flatten_nil,
            List.append_nil]
        · rwa [List.nil_append, List.flatten_singleton]

/-- The limits on one entry and on all admit so many octets more, behind `octets` in all. -/
def WithinLimits (limits : Limits) (octets more : Nat) : Prop :=
  more ≤ limits.maxEntrySize ∧ octets + more ≤ limits.maxTotalSize
deriving Decidable

theorem admits_iff_withinLimits (hlimits : limits.maxTotalSize ≤ Bytes.maxCount)
    {octets more : Nat} : Admits limits 0 octets more ↔ WithinLimits limits octets more := by
  constructor
  · rintro ⟨hentry, hall, -⟩
    exact ⟨by omega, hall⟩
  · rintro ⟨hentry, hall⟩
    exact ⟨by omega, hall, by omega⟩

/-- **The limits hold exactly** for reads that cut a content, written behind `before` into the file
at `loc`: the copy succeeds where the content is within them, and then all of it is written and
counted (`whole`).  Otherwise the chunks in front are written, as many as are within the limits
(`front`).  Other cuts of the content fare alike. -/
structure HoldExactly (limits : Limits) (name : String) (fs : FileSystem) (loc : Location)
    (before : Bytes) (s : Extraction) (reads : List Read) (content : Bytes) : Prop where
  ok_iff : (∃ n, (copyChunks (acceptChunk limits name loc) reads s).result = .ok n)
    ↔ WithinLimits limits s.tally.octets content.length
  whole : ∀ n, (copyChunks (acceptChunk limits name loc) reads s).result = .ok n →
    (copyChunks (acceptChunk limits name loc) reads s).state
      = { s with files := fs.put loc (.file (before ++ content))
                 tally := { s.tally with octets := s.tally.octets + content.length } }
  front : ∀ e, (copyChunks (acceptChunk limits name loc) reads s).result = .error e →
    ∃ front chunk back, chunksOf reads = front ++ chunk :: back
      ∧ (copyChunks (acceptChunk limits name loc) reads s).state.files
        = fs.put loc (.file (before ++ front.flatten))
      ∧ front.flatten <+: content
      ∧ WithinLimits limits s.tally.octets front.flatten.length
      ∧ ¬WithinLimits limits s.tally.octets (front ++ [chunk]).flatten.length
  alike : ∀ reads', Cuts reads' content →
    ((∃ n, (copyChunks (acceptChunk limits name loc) reads' s).result = .ok n)
      ↔ ∃ n, (copyChunks (acceptChunk limits name loc) reads s).result = .ok n)

/-- **The limits are exact and do not depend on the cutting.** -/
theorem holdExactly_of_cuts (name : String) (hloc : loc ≠ [])
    (hfiles : s.files = fs.put loc (.file before))
    (hlimits : limits.maxTotalSize ≤ Bytes.maxCount) (hs : s.tally.octets ≤ limits.maxTotalSize)
    (hreads : Cuts reads content) : HoldExactly limits name fs loc before s reads content := by
  have hadmits : ∀ {n : Nat}, Admits limits 0 s.tally.octets n
      ↔ WithinLimits limits s.tally.octets n := admits_iff_withinLimits hlimits
  have hnone : Admits limits 0 s.tally.octets 0 := hadmits.mpr ⟨Nat.zero_le _, hs⟩
  have hverdict : ∀ {reads' : List Read}, Cuts reads' content →
      ((∃ n, (copyChunks (acceptChunk limits name loc) reads' s).result = .ok n)
        ↔ WithinLimits limits s.tally.octets content.length) := by
    intro reads' h
    rw [copyChunks, copyFrom_ok_iff limits name loc reads' hnone (Nat.zero_le _), h.delivered_eq,
      hadmits]
    exact and_iff_right h.endsWell
  refine ⟨hverdict hreads, fun n hn => ?_, fun e he => ?_,
    fun reads' h => (hverdict h).trans (hverdict hreads).symm⟩
  · obtain ⟨written, octets, -, hstate, hok⟩ :=
      copyFrom_acceptChunk limits name hloc reads before 0 hfiles
    obtain ⟨rfl, rfl⟩ := hok n hn
    rw [copyChunks, hstate, hreads.delivered_eq]
  · obtain ⟨front, chunk, back, hchunks, hput, hfront, hrefused⟩ :=
      exists_refused limits name hloc reads hreads.goesOn hfiles hnone (Nat.zero_le _) he
    refine ⟨front, chunk, back, hchunks, hput, ?_, hadmits.mp hfront, mt hadmits.mpr hrefused⟩
    rw [← hreads.flatten_eq, hchunks, List.flatten_append]
    exact List.prefix_append _ _

/-- Three octets in two reads come up to both limits. -/
theorem holdExactly_of_cuts_three :
    Cuts [.data [0x31, 0x32], .interrupted, .data [0x33]] [0x31, 0x32, 0x33]
      ∧ WithinLimits { maxEntrySize := 3, maxTotalSize := 4 } 1 3
      ∧ HoldExactly { maxEntrySize := 3, maxTotalSize := 4 } "a" emptyTarget [[0x74], [0x61]] [0x30]
        { files := emptyTarget.put [[0x74], [0x61]] (.file [0x30]), tally := { octets := 1 } }
        [.data [0x31, 0x32], .interrupted, .data [0x33]] [0x31, 0x32, 0x33] := by
  have hcuts : Cuts [.data [0x31, 0x32], .interrupted, .data [0x33]] [0x31, 0x32, 0x33] :=
    ⟨by simp [Read.GoesOn], rfl⟩
  exact ⟨hcuts, by decide, holdExactly_of_cuts "a" (by decide) rfl (by decide) (by decide) hcuts⟩

end Extraction

end GuardedArchive
