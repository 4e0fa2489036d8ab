import GuardedArchive.Proofs.Effect
import GuardedArchive.Zip.Archive
import GuardedArchive.Zip.Writer
import Mathlib.Data.List.Dedup
import Mathlib.Data.List.Forall2
import Mathlib.Data.List.Induction

/-!
# Proofs/Zip/Agreement — when the scan and the reader look at the same directory

`Archive.load` compares two readings of an archive by their counts alone.  The scan walks what
stands before the last end record; the reader takes the claim of an end record that it chooses, and
keeps one entry for each name.  Where the counts agree the two directories **hold the same records**
exactly if no two records that were read have one name and the names at both places agree
(`load_sameRecords_iff`); so they do where both start at one place and nothing has collapsed.
Otherwise they need not (`load_hides`).
-/

namespace GuardedArchive.Zip

/-! ## Records off the front -/

theorem slice_append {a : Bytes} {offset length : Nat} (b : Bytes)
    (h : offset + length ≤ a.length) :
    Bytes.slice (a ++ b) offset length = Bytes.slice a offset length := by
  rw [Bytes.slice, Bytes.slice, List.drop_append_of_le_length (by omega),
    List.take_append_of_le_length (by rw [List.length_drop]; omega)]

namespace DirectoryRecord

variable {a : Bytes} {d : DirectoryRecord} {rest : Bytes}

theorem field_append {offset width : Nat} (b : Bytes) (h : offset + width ≤ a.length) :
    Bytes.field (a ++ b) offset width = Bytes.field a offset width := by
  rw [Bytes.field, Bytes.field, slice_append b h]

theorem tooShort_iff : tooShort a ↔ a.length < directoryLength := by
  rw [tooShort, List.isEmpty_iff, List.drop_eq_nil_iff, directoryLength]
  omega

/-- **A record stands at the front of octets** that begin with its mark and hold all its parts. -/
theorem next_eq_record_iff : next a = .record d rest
    ↔ directoryLength + variableLength a ≤ a.length ∧ startsWith directoryMark a
      ∧ d = ofParts (a.take directoryLength) (a.drop directoryLength)
      ∧ rest = (a.drop directoryLength).drop (variableLength a) := by
  rw [next]
  by_cases hshort : tooShort a
  · have hlen := tooShort_iff.mp hshort
    rw [hshort, Bool.true_or, if_pos rfl]
    exact iff_of_false (by simp) fun h => absurd h.1 (by omega)
  have hlen : directoryLength ≤ a.length := Nat.not_lt.mp (mt tooShort_iff.mpr hshort)
  cases hmark : startsWith directoryMark a
  · simp
  simp only [hshort, Bool.not_true, Bool.or_self, Bool.false_eq_true, if_false]
  by_cases hcut : variableLength a ≠ 0 ∧ ((a.drop directoryLength).drop
      (variableLength a - 1)).isEmpty
  · rw [if_pos (by simpa using hcut)]
    refine iff_of_false (by simp) fun h => ?_
    have hle := List.drop_eq_nil_iff.mp (List.isEmpty_iff.mp hcut.2)
    rw [List.length_drop] at hle
    omega
  · rw [if_neg (by simpa using hcut)]
    have hall : directoryLength + variableLength a ≤ a.length := by
      by_cases hz : variableLength a = 0
      · rwa [hz, Nat.add_zero]
      · have hle := mt (fun he => (⟨hz, List.isEmpty_iff.mpr (List.drop_eq_nil_iff.mpr he)⟩ :
          variableLength a ≠ 0 ∧ _)) hcut
        rw [List.length_drop] at hle
        omega
    simp [hall, eq_comm]

theorem variableLength_append (b : Bytes) (h : directoryLength ≤ a.length) :
    variableLength (a ++ b) = variableLength a := by
  simp only [variableLength, directoryLength] at h ⊢
  rw [field_append b (by omega), field_append b (by omega), field_append b (by omega)]

/-- The lengths of the variable parts stand in the fixed part. -/
theorem variableLength_take (h : directoryLength ≤ a.length) :
    variableLength (a.take directoryLength) = variableLength a := by
  conv => rhs; rw [← List.take_append_drop directoryLength a]
  exact (variableLength_append _ (by rw [List.length_take]; omega)).symm

theorem ofParts_append (head : Bytes) {tail : Bytes} (b : Bytes)
    (h : variableLength head ≤ tail.length) : ofParts head (tail ++ b) = ofParts head tail := by
  rw [variableLength] at h
  rw [ofParts, ofParts, List.take_append_of_le_length (by omega), slice_append b (by omega),
    slice_append b (by omega)]

/-- **A record at the front is read in longer octets too.** -/
theorem next_append (b : Bytes) (h : next a = .record d rest) :
    next (a ++ b) = .record d (rest ++ b) := by
  obtain ⟨hlen, hmark, rfl, rfl⟩ := next_eq_record_iff.mp h
  have hfixed : directoryLength ≤ a.length := by omega
  have hmark4 : 4 ≤ a.length := by
    rw [directoryLength] at hfixed
    omega
  have hparts : variableLength a ≤ (a.drop directoryLength).length := by
    rw [List.length_drop]
    omega
  have hhead := variableLength_take hfixed
  rw [next_eq_record_iff, variableLength_append b hfixed, List.drop_append_of_le_length hfixed,
    List.take_append_of_le_length hfixed, List.drop_append_of_le_length hparts,
    ofParts_append _ b (hhead ▸ hparts)]
  refine ⟨by rw [List.length_append]; omega, ?_, rfl, rfl⟩
  rwa [startsWith, List.take_append_of_le_length hmark4]

/-- The records at the front of octets, at most `count` of them. -/
def upTo : Nat → Bytes → List DirectoryRecord
  | 0, _ => []
  | count + 1, bs =>
    match next bs with
    | .record d rest => d :: upTo count rest
    | _ => []

/-- **As many records as were found in octets are found in longer ones.** -/
theorem upTo_append (b : Bytes) : ∀ (count : Nat) (a : Bytes),
    upTo (upTo count a).length (a ++ b) = upTo count a
  | 0, _ => rfl
  | count + 1, a => by
    rw [upTo]
    split
    next d rest h =>
      rw [List.length_cons, upTo, next_append b h]
      exact congrArg (d :: ·) (upTo_append b count rest)
    next => rfl

end DirectoryRecord

/-! ## The scan -/

/-- The records that the scan walks in a directory. -/
def Extent.records (extent : Extent) (archive : Bytes) : List DirectoryRecord :=
  DirectoryRecord.upTo (extent.octets archive).length (extent.octets archive)

/-- The names of the records at the front of octets. -/
def namesAt (count : Nat) (bs : Bytes) : List Bytes :=
  (DirectoryRecord.upTo count bs).map (·.name)

/-- The scan counts the records that it walks. -/
theorem scanFrom_eq_ok {limits : Limits} : ∀ {fuel : Nat} {directory : Bytes} {count n : Nat}
    {seen : List Bytes}, scanFrom limits fuel directory count seen = .ok n →
      n = count + (DirectoryRecord.upTo fuel directory).length
  | 0, _, _, _, _, h => (Except.ok.inj h).symm
  | fuel + 1, directory, count, n, seen, h => by
    rw [scanFrom] at h
    rw [DirectoryRecord.upTo]
    cases hn : DirectoryRecord.next directory with
    | none =>
      rw [hn] at h
      exact (Except.ok.inj h).symm
    | cut =>
      rw [hn] at h
      obtain ⟨_, -, he⟩ := bind_eq_ok_iff.mp h
      cases he
    | record r rest =>
      rw [hn] at h
      obtain ⟨_, -, hrest⟩ := bind_eq_ok_iff.mp h
      have hcount : ∀ {seen : List Bytes}, scanFrom limits fuel rest (count + 1) seen = .ok n →
          n = count + (r :: DirectoryRecord.upTo fuel rest).length := fun hs => by
        rw [scanFrom_eq_ok hs, List.length_cons, Nat.add_assoc, Nat.add_comm 1]
      split at hrest
      · exact hcount hrest
      · split at hrest
        · cases hrest
        · exact hcount hrest

/-- The scan counts no further than the limit. -/
theorem scanFrom_le {limits : Limits} : ∀ {fuel : Nat} {directory : Bytes} {count n : Nat}
    {seen : List Bytes}, scanFrom limits fuel directory count seen = .ok n →
      count ≤ limits.maxEntryCount → n ≤ limits.maxEntryCount
  | 0, _, _, _, _, h, hc => Except.ok.inj h ▸ hc
  | fuel + 1, directory, count, n, seen, h, hc => by
    rw [scanFrom] at h
    cases hn : DirectoryRecord.next directory with
    | none =>
      rw [hn] at h
      exact Except.ok.inj h ▸ hc
    | cut =>
      rw [hn] at h
      obtain ⟨_, -, he⟩ := bind_eq_ok_iff.mp h
      cases he
    | record r rest =>
      rw [hn] at h
      obtain ⟨_, hnext, hrest⟩ := bind_eq_ok_iff.mp h
      have hnext := Limits.checkEntryCount_eq_ok_iff.mp hnext
      split at hrest
      · exact scanFrom_le hrest hnext
      · split at hrest
        · cases hrest
        · exact scanFrom_le hrest hnext

theorem scan_le {limits : Limits} {medium : Medium} {archive : Bytes} {n : Nat}
    (h : scan limits medium archive = .ok n) : n ≤ limits.maxEntryCount := by
  obtain ⟨_, -, h⟩ := bind_eq_ok_iff.mp h
  obtain ⟨_, -, h⟩ := bind_eq_ok_iff.mp h
  exact scanFrom_le h (Nat.zero_le _)

theorem scan_eq_ok {limits : Limits} {medium : Medium} {archive : Bytes} {n : Nat}
    (h : scan limits medium archive = .ok n) :
    ∃ extent, locate medium archive = .ok extent ∧ n = (extent.records archive).length := by
  obtain ⟨extent, hl, h⟩ := bind_eq_ok_iff.mp h
  obtain ⟨_, -, h⟩ := bind_eq_ok_iff.mp h
  exact ⟨extent, hl, (scanFrom_eq_ok h).trans (Nat.zero_add _)⟩

/-- **What the scan walks is what stands at the start of the directory.** -/
theorem Extent.records_eq (extent : Extent) (archive : Bytes) : extent.records archive
    = DirectoryRecord.upTo (extent.records archive).length (archive.drop extent.start) := by
  conv => rhs; rw [← List.take_append_drop extent.size (archive.drop extent.start)]
  exact (DirectoryRecord.upTo_append _ _ _).symm

/-! ## The reader -/

/-- The claim of the first end record, of those at the positions, that leads to a directory which
can be read. -/
def firstClaim (archive : Bytes) : List Nat → Option DirectoryClaim
  | [] => none
  | position :: rest =>
    match claimAt archive position with
    | .error _ => firstClaim archive rest
    | .ok claim =>
      match claim.read archive with
      | .ok _ => some claim
      | .error _ => firstClaim archive rest

/-- The claim that the reader goes by, of all end records from the last to the first. -/
def readerClaim (archive : Bytes) : Option DirectoryClaim :=
  firstClaim archive (marksDown endMark archive 0 archive.length)

/-- The directory records that a claim leads to. -/
def DirectoryClaim.records (claim : DirectoryClaim) (archive : Bytes) : List DirectoryRecord :=
  DirectoryRecord.upTo claim.count (archive.drop claim.start)

theorem readFrom_eq_ok {archive : Bytes} {entries : List Record} :
    ∀ {e : ArchiveError} {positions : List Nat}, readFrom archive e positions = .ok entries →
      ∃ claim rs, firstClaim archive positions = some claim ∧ claim.read archive = .ok rs
        ∧ entries = distinct rs
  | _, [], h => by cases h
  | e, position :: rest, h => by
    rw [readFrom] at h
    rw [firstClaim]
    cases hc : claimAt archive position with
    | error e' =>
      rw [hc] at h
      exact readFrom_eq_ok h
    | ok claim =>
      rw [hc] at h
      dsimp only at h ⊢
      cases hr : claim.read archive with
      | error e' =>
        rw [hr] at h
        exact readFrom_eq_ok h
      | ok rs =>
        rw [hr] at h
        exact ⟨claim, rs, rfl, hr, (Except.ok.inj h).symm⟩

/-- **The reader makes one entry of each directory record that it reads**, as many as are
claimed. -/
theorem readRecords_eq_ok {shift : Nat} : ∀ {count : Nat} {bs : Bytes} {rs : List Record},
    readRecords shift count bs = .ok rs → (DirectoryRecord.upTo count bs).length = count
      ∧ List.Forall₂ (fun d r => Record.ofDirectory shift d = .ok r)
        (DirectoryRecord.upTo count bs) rs
  | 0, _, _, h => by
    obtain rfl := Except.ok.inj h
    exact ⟨rfl, .nil⟩
  | count + 1, bs, rs, h => by
    rw [readRecords] at h
    rw [DirectoryRecord.upTo]
    cases hn : DirectoryRecord.next bs with
    | none | cut =>
      rw [hn] at h
      cases h
    | record d rest =>
      rw [hn] at h
      obtain ⟨r, hr, hothers⟩ := bind_eq_ok_iff.mp h
      obtain ⟨others, ho, hrs⟩ := bind_eq_ok_iff.mp hothers
      obtain rfl := Except.ok.inj hrs
      obtain ⟨hlen, hall⟩ := readRecords_eq_ok ho
      exact ⟨congrArg (· + 1) hlen, .cons hr hall⟩

theorem DirectoryClaim.read_eq_ok {claim : DirectoryClaim} {archive : Bytes} {rs : List Record}
    (h : claim.read archive = .ok rs) : (claim.records archive).length = claim.count
      ∧ List.Forall₂ (fun d r => Record.ofDirectory claim.shift d = .ok r)
        (claim.records archive) rs := by
  rw [DirectoryClaim.read] at h
  split at h
  · cases h
  · split at h
    · cases h
    · exact readRecords_eq_ok h

theorem toNat_lt_capacity : ∀ octets : Bytes, Bytes.toNat octets < Bytes.capacity octets.length
  | [] => Nat.one_pos
  | b :: rest => by
    have hrest := toNat_lt_capacity rest
    have hb := b.toNat_lt
    rw [Bytes.toNat, List.length_cons, Bytes.capacity]
    omega

theorem capacity_le {width : Nat} : ∀ {more : Nat}, width ≤ more →
    Bytes.capacity width ≤ Bytes.capacity more
  | 0, h => Nat.le_zero.mp h ▸ Nat.le_refl _
  | more + 1, h => by
    rcases Nat.le_succ_iff.mp h with hle | rfl
    · have hmore := capacity_le hle
      rw [Bytes.capacity]
      omega
    · exact Nat.le_refl _

/-- A field of eight octets or less holds no more than a count does. -/
theorem field_le_maxCount (bs : Bytes) (offset : Nat) {width : Nat} (h : width ≤ 8) :
    Bytes.field bs offset width ≤ Bytes.maxCount := by
  have hlen : (Bytes.slice bs offset width).length ≤ 8 := Nat.le_trans (List.length_take_le _ _) h
  exact Nat.le_of_lt_succ (Nat.lt_of_lt_of_le (toNat_lt_capacity _) (capacity_le hlen))

theorem firstOk_eq_ok {α β : Type} {e : ArchiveError} {f : α → Except ArchiveError β} {b : β} :
    ∀ {items : List α}, firstOk e f items = .ok b → ∃ a, f a = .ok b
  | [], h => by cases h
  | a :: rest, h => by
    rw [firstOk] at h
    split at h
    next hf => exact ⟨a, hf.trans h⟩
    next => exact firstOk_eq_ok h

theorem count_le_of_wideClaim {archive : Bytes} {position : Nat} {claim : DirectoryClaim}
    (h : wideClaim archive position = .ok claim) : claim.count ≤ Bytes.maxCount := by
  rw [wideClaim] at h
  dsimp only at h
  split at h
  · cases h
  split at h
  · cases h
  obtain ⟨start, h⟩ := firstOk_eq_ok h
  rw [wideClaimAt] at h
  dsimp only at h
  split at h
  · cases h
  split at h
  · cases h
  split at h
  · cases h
  split at h
  · cases h
  obtain rfl := Except.ok.inj h
  exact field_le_maxCount _ _ (by decide)

theorem count_of_narrowClaim {archive : Bytes} {record : EndRecord} {position : Nat}
    {claim : DirectoryClaim} (h : narrowClaim archive record position = .ok claim) :
    claim.count = record.entriesHere := by
  rw [narrowClaim] at h
  split at h
  · obtain rfl := Except.ok.inj h
    rfl
  · split at h
    · cases h
    · split at h
      · cases h
      · obtain rfl := Except.ok.inj h
        rfl

/-- **The records that a claim counts fit a count**: it takes their number from a field. -/
theorem count_le_of_claimAt {archive : Bytes} {position : Nat} {claim : DirectoryClaim}
    (h : claimAt archive position = .ok claim) : claim.count ≤ Bytes.maxCount := by
  rw [claimAt] at h
  split at h
  · cases h
  · split at h
    · exact count_le_of_wideClaim h
    · rw [count_of_narrowClaim h]
      exact field_le_maxCount _ _ (by decide)

theorem count_le_of_firstClaim {archive : Bytes} {claim : DirectoryClaim} :
    ∀ {positions : List Nat}, firstClaim archive positions = some claim →
      claim.count ≤ Bytes.maxCount
  | [], h => by cases h
  | position :: rest, h => by
    rw [firstClaim] at h
    split at h
    next => exact count_le_of_firstClaim h
    next hc =>
      split at h
      next =>
        obtain rfl := Option.some.inj h
        exact count_le_of_claimAt hc
      next => exact count_le_of_firstClaim h

/-! ## Entries of one name -/

/-- The names stay as they are, or the new one comes to the end. -/
theorem map_name_insertByName (r : Record) : ∀ rs : List Record,
    (insertByName r rs).map (·.name)
      = if r.name ∈ rs.map (·.name) then rs.map (·.name) else rs.map (·.name) ++ [r.name]
  | [] => rfl
  | s :: rest => by
    rw [insertByName]
    split
    next h => simp [h]
    next h =>
      simp only [List.map_cons, map_name_insertByName r rest, List.mem_cons,
        or_iff_right (Ne.symm h)]
      split <;> rfl

theorem insertByName_of_not_mem {r : Record} : ∀ {rs : List Record}, r.name ∉ rs.map (·.name) →
    insertByName r rs = rs ++ [r]
  | [], _ => rfl
  | s :: rest, h => by
    rw [List.map_cons, List.mem_cons, not_or] at h
    rw [insertByName, if_neg (Ne.symm h.1), insertByName_of_not_mem h.2, List.cons_append]

theorem distinct_concat (rs : List Record) (r : Record) :
    distinct (rs ++ [r]) = insertByName r (distinct rs) := by
  rw [distinct, List.foldl_append, ← distinct, List.foldl_cons, List.foldl_nil]

theorem mem_map_name_distinct {name : String} (rs : List Record) :
    name ∈ (distinct rs).map (·.name) ↔ name ∈ rs.map (·.name) := by
  induction rs using List.reverseRecOn with
  | nil => rfl
  | append_singleton rs r ih =>
    rw [distinct_concat, map_name_insertByName, List.map_append, List.mem_append, ← ih,
      List.map_singleton, List.mem_singleton]
    split
    next h => exact (or_iff_left_of_imp fun he => he ▸ h).symm
    next => rw [List.mem_append, List.mem_singleton]

theorem nodup_map_name_distinct (rs : List Record) : ((distinct rs).map (·.name)).Nodup := by
  induction rs using List.reverseRecOn with
  | nil => exact List.nodup_nil
  | append_singleton rs r ih =>
    rw [distinct_concat, map_name_insertByName]
    split
    next => exact ih
    next h => exact List.nodup_append.mpr ⟨ih, List.pairwise_singleton _ _, by simpa using h⟩

/-- **One entry is left of each name.** -/
theorem length_distinct (rs : List Record) :
    (distinct rs).length = ((rs.map (·.name)).dedup).length := by
  have hperm : ((distinct rs).map (·.name)).Perm (rs.map (·.name)).dedup :=
    (List.perm_ext_iff_of_nodup (nodup_map_name_distinct rs) (List.nodup_dedup _)).mpr
      fun name => by rw [mem_map_name_distinct, List.mem_dedup]
  rw [← hperm.length_eq, List.length_map]

theorem length_distinct_le (rs : List Record) : (distinct rs).length ≤ rs.length := by
  have hnames : (rs.map (·.name)).length = rs.length := List.length_map _
  rw [length_distinct, ← hnames]
  exact (List.dedup_sublist _).length_le

/-- **As many entries are left as there were exactly where no two had one name.** -/
theorem length_distinct_eq_iff {rs : List Record} :
    (distinct rs).length = rs.length ↔ (rs.map (·.name)).Nodup := by
  have hnames : (rs.map (·.name)).length = rs.length := List.length_map _
  rw [length_distinct, ← hnames, ← List.dedup_eq_self]
  exact ⟨(List.dedup_sublist _).eq_of_length, congrArg List.length⟩

/-- Entries of different names are all kept. -/
theorem distinct_eq_self {rs : List Record} (h : (rs.map (·.name)).Nodup) : distinct rs = rs := by
  induction rs using List.reverseRecOn with
  | nil => rfl
  | append_singleton rs r ih =>
    rw [List.map_append, List.nodup_append] at h
    rw [distinct_concat, ih h.1, insertByName_of_not_mem]
    exact fun hmem => h.2.2 _ hmem r.name (List.mem_singleton.mpr rfl) rfl

/-! ## Agreement -/

/-- **An archive is opened** where the scan succeeds, the directory is read, and the counts
agree. -/
theorem Archive.load_eq_ok_iff {limits : Limits} {source : Source} {fs : FileSystem}
    {archive : Archive} : Archive.load limits source fs = .ok archive
      ↔ readDirectory (source.octets fs) = .ok archive.records
        ∧ scan limits source.medium (source.octets fs) = .ok archive.records.length
        ∧ archive.source = source := by
  constructor
  · intro h
    obtain ⟨count, hs, h⟩ := bind_eq_ok_iff.mp h
    obtain ⟨records, hr, h⟩ := bind_eq_ok_iff.mp h
    split at h
    · cases h
    next hlen =>
      obtain rfl := Except.ok.inj h
      exact ⟨hr, (not_not.mp hlen).symm ▸ hs, rfl⟩
  · rintro ⟨hr, hs, rfl⟩
    rw [Archive.load]
    refine bind_eq_ok_iff.mpr ⟨_, hs, bind_eq_ok_iff.mpr ⟨_, hr, ?_⟩⟩
    rw [if_neg (by simp)]
    rfl

/-- **The entries of an archive are no more than the limit.** -/
theorem Archive.length_records_le_maxEntryCount {limits : Limits} {source : Source}
    {fs : FileSystem} {archive : Archive} (h : Archive.load limits source fs = .ok archive) :
    archive.records.length ≤ limits.maxEntryCount := scan_le (load_eq_ok_iff.mp h).2.1

/-- **The entries of an archive are no more than a count holds.** -/
theorem Archive.length_records_le {limits : Limits} {source : Source} {fs : FileSystem}
    {archive : Archive} (h : Archive.load limits source fs = .ok archive) :
    archive.records.length ≤ Bytes.maxCount := by
  obtain ⟨claim, rs, hclaim, hrs, hdistinct⟩ := readFrom_eq_ok (load_eq_ok_iff.mp h).1
  obtain ⟨hcount, hall⟩ := DirectoryClaim.read_eq_ok hrs
  calc archive.records.length ≤ rs.length := by rw [hdistinct]; exact length_distinct_le rs
    _ = claim.count := by rw [← hall.length_eq, hcount]
    _ ≤ Bytes.maxCount := count_le_of_firstClaim hclaim

/-- The directory that the scan walked and the one that the reader went by hold records of the same
names, in the same order. -/
def SameRecords (archive : Bytes) (extent : Extent) (claim : DirectoryClaim) : Prop :=
  (claim.records archive).map (·.name) = (extent.records archive).map (·.name)

theorem sameRecords_iff {archive : Bytes} {extent : Extent} {claim : DirectoryClaim}
    (hc : (claim.records archive).length = claim.count) : SameRecords archive extent claim
      ↔ claim.count = (extent.records archive).length
        ∧ namesAt claim.count (archive.drop claim.start)
          = namesAt claim.count (archive.drop extent.start) := by
  rw [SameRecords, namesAt, namesAt, ← DirectoryClaim.records]
  constructor
  · intro hsame
    have hnumber : claim.count = (extent.records archive).length := by
      have := congrArg List.length hsame
      rwa [List.length_map, List.length_map, hc] at this
    rw [hsame, hnumber, ← extent.records_eq]
    exact ⟨rfl, rfl⟩
  · rintro ⟨hnumber, hnames⟩
    rw [hnames, hnumber, ← extent.records_eq]

/-- **An opened archive was read as it was scanned exactly where no two of the records that the
reader read have one name** — that is, where its end record counts as many as were scanned, and all
are kept — **and that many names from both starts on are the same.** -/
theorem load_sameRecords_iff {limits : Limits} {source : Source} {fs : FileSystem}
    {archive : Archive} (h : Archive.load limits source fs = .ok archive) :
    ∃ extent claim rs, locate source.medium (source.octets fs) = .ok extent
      ∧ readerClaim (source.octets fs) = some claim
      ∧ claim.read (source.octets fs) = .ok rs ∧ archive.records = distinct rs
      ∧ (claim.count = (extent.records (source.octets fs)).length ↔ (rs.map (·.name)).Nodup)
      ∧ ((rs.map (·.name)).Nodup → archive.records = rs)
      ∧ (SameRecords (source.octets fs) extent claim ↔ (rs.map (·.name)).Nodup
        ∧ namesAt claim.count ((source.octets fs).drop claim.start)
          = namesAt claim.count ((source.octets fs).drop extent.start))
      ∧ (claim.start = extent.start →
        (SameRecords (source.octets fs) extent claim ↔ (rs.map (·.name)).Nodup)) := by
  obtain ⟨hread, hscan, -⟩ := Archive.load_eq_ok_iff.mp h
  obtain ⟨extent, hlocate, hlen⟩ := scan_eq_ok hscan
  obtain ⟨claim, rs, hclaim, hrs, hdistinct⟩ := readFrom_eq_ok hread
  obtain ⟨hcount, hall⟩ := DirectoryClaim.read_eq_ok hrs
  have hrecords : claim.count = rs.length := hcount.symm.trans hall.length_eq
  have hkept : claim.count = (extent.records (source.octets fs)).length
      ↔ (rs.map (·.name)).Nodup := by
    rw [← hlen, hrecords, hdistinct, eq_comm]
    exact length_distinct_eq_iff
  have hsame : SameRecords (source.octets fs) extent claim ↔ (rs.map (·.name)).Nodup
      ∧ namesAt claim.count ((source.octets fs).drop claim.start)
        = namesAt claim.count ((source.octets fs).drop extent.start) := by
    rw [← hkept]
    exact sameRecords_iff hcount
  refine ⟨extent, claim, rs, hlocate, hclaim, hrs, hdistinct, hkept,
    fun hnodup => hdistinct.trans (distinct_eq_self hnodup), hsame, fun hs => ?_⟩
  rw [hsame, hs]
  exact and_iff_left rfl

/-- The writer with two empty entries, `a` and `b`. -/
def twoEntries : Writer :=
  (({} : Writer).add ⟨[0x61], .stored, fileMode⟩ []).add ⟨[0x62], .stored, fileMode⟩ []

/-- The entry of an empty file whose local header stands at `offset`. -/
def emptyEntry (name : String) (offset : Nat) : Record :=
  { name := name, rawName := Bytes.ofString name, comment := "", isEncrypted := false
    isAesEncrypted := false, method := 0, checksum := 0, compressedSize := 0
    uncompressedSize := 0, headerOffset := offset, unixMode := some fileMode }

/-- As the writer finishes an archive, scan and reader look at one directory. -/
theorem load_finished : ∃ archive extent claim,
    Archive.load {} (.memory twoEntries.finish) {} = .ok archive
      ∧ locate .memory twoEntries.finish = .ok extent
      ∧ readerClaim twoEntries.finish = some claim
      ∧ SameRecords twoEntries.finish extent claim := by
  have hread : (readDirectory twoEntries.finish).toOption
      = some [emptyEntry "a" 0, emptyEntry "b" 31] := by decide +kernel
  have hscan : (scan {} .memory twoEntries.finish).toOption = some 2 := by decide +kernel
  have hextent : (locate .memory twoEntries.finish).toOption = some ⟨62, 94⟩ := by decide +kernel
  have hreader : readerClaim twoEntries.finish = some ⟨0, 0, 62, 2, 2, 0⟩ := by decide +kernel
  have hload : Archive.load {} (.memory twoEntries.finish) {}
      = .ok ⟨.memory twoEntries.finish, [emptyEntry "a" 0, emptyEntry "b" 31]⟩ :=
    Archive.load_eq_ok_iff.mpr ⟨eq_ok_of_toOption hread, eq_ok_of_toOption hscan, rfl⟩
  obtain ⟨extent, claim, rs, hlocate, hclaim, -, -, hkept, -, -, hstart⟩ :=
    load_sameRecords_iff hload
  obtain rfl : ⟨62, 94⟩ = extent :=
    Except.ok.inj ((eq_ok_of_toOption hextent).symm.trans hlocate)
  obtain rfl : ⟨0, 0, 62, 2, 2, 0⟩ = claim := Option.some.inj (hreader.symm.trans hclaim)
  have hcount : ((Extent.mk 62 94).records twoEntries.finish).length = 2 := by decide +kernel
  exact ⟨_, _, _, hload, hlocate, hclaim, (hstart rfl).mpr (hkept.mp hcount.symm)⟩

/-- An archive whose end record counts the two records of one name that its offset leads to, and
whose directory, by its size, is the one record behind them. -/
def hidingArchive : Bytes :=
  let read := (twoEntries.records.take 1).flatMap DirectoryRecord.encode
  let scanned := (twoEntries.records.drop 1).flatMap DirectoryRecord.encode
  twoEntries.octets ++ read ++ read ++ scanned
    ++ EndRecord.encode
      { entriesHere := 2, entries := 2, size := scanned.length, offset := twoEntries.octets.length }

/-- **The counts may agree on two directories that have no name in common**: the records that were
read have collapsed, and the one that was scanned is hidden. -/
theorem load_hides : ∃ archive extent claim,
    Archive.load {} (.memory hidingArchive) {} = .ok archive
    ∧ locate .memory hidingArchive = .ok extent ∧ readerClaim hidingArchive = some claim
    ∧ (extent.records hidingArchive).map (·.name) = [[0x62]]
    ∧ (claim.records hidingArchive).map (·.name) = [[0x61], [0x61]]
    ∧ archive.records.map (·.rawName) = [[0x61]]
    ∧ ¬SameRecords hidingArchive extent claim := by
  have hread : (readDirectory hidingArchive).toOption = some [emptyEntry "a" 0] := by decide +kernel
  have hscan : (scan {} .memory hidingArchive).toOption = some 1 := by decide +kernel
  have hlocate : (locate .memory hidingArchive).toOption = some ⟨156, 47⟩ := by decide +kernel
  have hclaim : readerClaim hidingArchive = some ⟨0, 0, 62, 2, 2, 0⟩ := by decide +kernel
  have hscanned : ((Extent.mk 156 47).records hidingArchive).map (·.name) = [[0x62]] := by
    decide +kernel
  have hclaimed : ((DirectoryClaim.mk 0 0 62 2 2 0).records hidingArchive).map (·.name)
      = [[0x61], [0x61]] := by decide +kernel
  refine ⟨⟨.memory hidingArchive, [emptyEntry "a" 0]⟩, _, _,
    Archive.load_eq_ok_iff.mpr ⟨eq_ok_of_toOption hread, eq_ok_of_toOption hscan, rfl⟩,
    eq_ok_of_toOption hlocate, hclaim, hscanned, hclaimed, rfl, ?_⟩
  rw [SameRecords, hscanned, hclaimed]
  decide

end GuardedArchive.Zip
