import GuardedArchive.Proofs.Zip.Decoding
import GuardedArchive.Proofs.Zip.Locating

/-!
# Proofs/Zip/Walking — the scan is the walk of a list of records

    directory  =  record … record  ++  rest        at whose front no record stands

A directory **lists** the records that it is spelled from (`Lists`).  Wherever a directory is found,
the scan of one that lists records counts them, or refuses the first that is one too many or repeats
a name that is held; and where the scan counts, what it has walked is such a list
(`scan_of_lists`).
-/

namespace GuardedArchive.Zip

variable {limits : Limits} {medium : Medium} {archive directory : Bytes} {extent : Extent}
  {r : DirectoryRecord} {rs before after : List DirectoryRecord}

/-! ## Lists of records -/

/-- The octets are directory records, one after the other, and then octets at whose front none
stands: they are too few for one, or begin with another mark. -/
structure Lists (directory : Bytes) (rs : List DirectoryRecord) : Prop where
  parts : ∀ r ∈ rs, r.HasParts
  spelled : ∃ rest, directory = rs.flatMap DirectoryRecord.encode ++ rest
    ∧ (rest.length < directoryLength ∨ ¬startsWith directoryMark rest)

theorem Lists.cons (hr : r.HasParts) (h : Lists directory rs) :
    Lists (r.encode ++ directory) (r :: rs) := by
  obtain ⟨rest, hrest, hend⟩ := h.spelled
  refine ⟨List.forall_mem_cons.mpr ⟨hr, h.parts⟩, rest, ?_, hend⟩
  rw [hrest, List.flatMap_cons, List.append_assoc]

/-- Why the record at `i` is refused, if it is: it is one more than the limit admits, or its name is
held and stands in a record before it. -/
def refusal? (limits : Limits) (rs : List DirectoryRecord) (i : Nat) : Option ArchiveError :=
  match rs[i]? with
  | none => none
  | some r =>
    if limits.maxEntryCount < i + 1 then
      some (.violation (.entryCount (limits.maxEntryCount + 1) limits.maxEntryCount))
    else if r.name.length ≤ limits.maxEntryNameLength ∧ r.name ∈ (rs.take i).map (·.name) then
      some (.violation (.duplicateEntry (Utf8.decodeLossy r.name)))
    else none

theorem mem_heldNames_iff {name : Bytes} : name ∈ heldNames limits rs
    ↔ name.length ≤ limits.maxEntryNameLength ∧ name ∈ rs.map (·.name) := by
  rw [heldNames, List.mem_filter, decide_eq_true_iff, and_comm]

theorem heldNames_concat (limits : Limits) (rs : List DirectoryRecord) (r : DirectoryRecord) :
    heldNames limits (rs ++ [r]) = if limits.maxEntryNameLength < r.name.length then
      heldNames limits rs else heldNames limits rs ++ [r.name] := by
  have hone : heldNames limits [r]
      = if limits.maxEntryNameLength < r.name.length then [] else [r.name] := heldNames_cons _ _ _
  have hboth : heldNames limits (rs ++ [r]) = heldNames limits rs ++ heldNames limits [r] := by
    rw [heldNames, List.map_append, List.filter_append]
    rfl
  rw [hboth, hone]
  split
  · exact List.append_nil _
  · rfl

/-- A name that is too long is not held. -/
theorem not_mem_heldNames (h : limits.maxEntryNameLength < r.name.length) :
    r.name ∉ heldNames limits rs := fun hmem =>
  absurd (mem_heldNames_iff.mp hmem).1 (Nat.not_le.mpr h)

theorem nodup_heldNames_concat : (heldNames limits (rs ++ [r])).Nodup
    ↔ (heldNames limits rs).Nodup ∧ r.name ∉ heldNames limits rs := by
  rw [heldNames_concat]
  split
  next hlong => exact (and_iff_left (not_mem_heldNames hlong)).symm
  next =>
    rw [List.nodup_append_comm, List.singleton_append, List.nodup_cons]
    exact and_comm

/-- The record behind `before` is refused by what stands before it. -/
theorem refusal?_append (limits : Limits) (before : List DirectoryRecord) (r : DirectoryRecord)
    (after : List DirectoryRecord) : refusal? limits (before ++ r :: after) before.length
      = if limits.maxEntryCount < before.length + 1 then
          some (.violation (.entryCount (limits.maxEntryCount + 1) limits.maxEntryCount))
        else if r.name ∈ heldNames limits before then
          some (.violation (.duplicateEntry (Utf8.decodeLossy r.name)))
        else none := by
  rw [refusal?, List.getElem?_append_right (Nat.le_refl _), Nat.sub_self, List.getElem?_cons_zero]
  simp only [List.take_left, mem_heldNames_iff]

/-- What stands behind a record does not refuse it. -/
theorem refusal?_append_of_lt {i : Nat} (h : i < before.length) :
    refusal? limits (before ++ after) i = refusal? limits before i := by
  rw [refusal?, refusal?, List.getElem?_append_left h, List.take_append_of_le_length (by omega)]

theorem refusal?_of_length_le {i : Nat} (h : rs.length ≤ i) : refusal? limits rs i = none := by
  rw [refusal?, List.getElem?_eq_none h]

/-- **No record is refused where they are not too many and no name that is held comes twice.** -/
theorem refusal?_eq_none_iff : (∀ i, refusal? limits rs i = none)
    ↔ rs.length ≤ limits.maxEntryCount ∧ (heldNames limits rs).Nodup := by
  induction rs using List.reverseRecOn with
  | nil => exact iff_of_true (fun i => refusal?_of_length_le (Nat.zero_le i)) ⟨Nat.zero_le _, .nil⟩
  | append_singleton before r ih =>
    have hlast : (∀ i, refusal? limits (before ++ [r]) i = none)
        ↔ (∀ i, refusal? limits before i = none)
          ∧ refusal? limits (before ++ [r]) before.length = none := by
      constructor
      · intro h
        refine ⟨fun i => ?_, h before.length⟩
        rcases Nat.lt_or_ge i before.length with hi | hi
        · rw [← refusal?_append_of_lt hi, h i]
        · exact refusal?_of_length_le hi
      · intro ⟨h, hr⟩ i
        rcases Nat.lt_trichotomy i before.length with hi | rfl | hi
        · rw [refusal?_append_of_lt hi, h i]
        · exact hr
        · exact refusal?_of_length_le (by rw [List.length_append, List.length_singleton]; omega)
    rw [hlast, ih, refusal?_append, nodup_heldNames_concat, List.length_append,
      List.length_singleton]
    by_cases hmany : limits.maxEntryCount < before.length + 1
    · rw [if_pos hmany]
      exact iff_of_false (fun h => by cases h.2) fun h => absurd h.1 (Nat.not_le.mpr hmany)
    · have hroom := Nat.not_lt.mp hmany
      have hbefore : before.length ≤ limits.maxEntryCount := Nat.le_of_succ_le hroom
      rw [if_neg hmany]
      by_cases hseen : r.name ∈ heldNames limits before <;> simp [hseen, hroom, hbefore]

/-- There is one first record that is refused. -/
theorem refusal_unique {i i' : Nat} {e e' : ArchiveError} (h : refusal? limits rs i = some e)
    (hfirst : ∀ j < i, refusal? limits rs j = none) (h' : refusal? limits rs i' = some e')
    (hfirst' : ∀ j < i', refusal? limits rs j = none) : e = e' := by
  rcases Nat.lt_trichotomy i i' with hlt | rfl | hlt
  · exact absurd (h.symm.trans (hfirst' i hlt)) nofun
  · exact Option.some.inj (h.symm.trans h')
  · exact absurd (h'.symm.trans (hfirst i' hlt)) nofun

/-! ## The walk -/

/-- The scan ends where no record stands. -/
theorem scanFrom_of_next_eq_none {rest : Bytes} (h : DirectoryRecord.next rest = .none)
    (fuel count : Nat) (seen : List Bytes) : scanFrom limits fuel rest count seen = .ok count := by
  rcases fuel with _ | fuel
  · rfl
  · rw [scanFrom, h]

/-- **One record of the walk**: it is refused, or counted with its name held from then on. -/
theorem scanFrom_record (hr : r.HasParts) (hcount : before.length ≤ limits.maxEntryCount)
    {seen : List Bytes} (hseen : ∀ name, name ∈ seen ↔ name ∈ heldNames limits before)
    (fuel : Nat) (rest : Bytes) (after : List DirectoryRecord) :
    (∃ e, refusal? limits (before ++ r :: after) before.length = some e
        ∧ scanFrom limits (fuel + 1) (r.encode ++ rest) before.length seen = .error e)
      ∨ refusal? limits (before ++ r :: after) before.length = none
        ∧ before.length + 1 ≤ limits.maxEntryCount
        ∧ ∃ seen', (∀ name, name ∈ seen' ↔ name ∈ heldNames limits (before ++ [r]))
          ∧ scanFrom limits (fuel + 1) (r.encode ++ rest) before.length seen
            = scanFrom limits fuel rest (before.length + 1) seen' := by
  rw [refusal?_append, scanFrom_cons hr, heldNames_concat]
  simp only [hseen]
  by_cases hmany : limits.maxEntryCount < before.length + 1
  · have hone : before.length = limits.maxEntryCount := by omega
    rw [if_pos hmany, if_pos hmany, hone]
    exact .inl ⟨_, rfl, rfl⟩
  rw [if_neg hmany, if_neg hmany]
  by_cases hlong : limits.maxEntryNameLength < r.name.length
  · rw [if_neg (not_mem_heldNames hlong), if_pos hlong, if_pos hlong]
    exact .inr ⟨rfl, Nat.not_lt.mp hmany, seen, hseen, rfl⟩
  rw [if_neg hlong, if_neg hlong]
  by_cases hagain : r.name ∈ heldNames limits before
  · rw [if_pos hagain, if_pos hagain]
    exact .inl ⟨_, rfl, rfl⟩
  · rw [if_neg hagain, if_neg hagain]
    refine .inr ⟨rfl, Nat.not_lt.mp hmany, r.name :: seen, fun name => ?_, rfl⟩
    rw [List.mem_cons, hseen, List.mem_append, List.mem_singleton, or_comm]

/-- **The walk of a list of records**, from behind those that were counted: none is refused and all
are counted, or the first that is refused ends it. -/
theorem scanFrom_list {rest : Bytes} (hend : DirectoryRecord.next rest = .none) :
    ∀ {rs before : List DirectoryRecord} {fuel : Nat} {seen : List Bytes},
      (∀ r ∈ rs, r.HasParts) → rs.length ≤ fuel → before.length ≤ limits.maxEntryCount →
      (∀ name, name ∈ seen ↔ name ∈ heldNames limits before) →
      (∀ j < before.length, refusal? limits (before ++ rs) j = none) →
        ((∀ i, refusal? limits (before ++ rs) i = none)
            ∧ scanFrom limits fuel (rs.flatMap DirectoryRecord.encode ++ rest) before.length seen
              = .ok (before ++ rs).length)
          ∨ ∃ i e, refusal? limits (before ++ rs) i = some e
            ∧ (∀ j < i, refusal? limits (before ++ rs) j = none)
            ∧ scanFrom limits fuel (rs.flatMap DirectoryRecord.encode ++ rest) before.length seen
              = .error e
  | [], before, fuel, seen, _, _, _, _, hbefore => by
    rw [List.append_nil] at hbefore ⊢
    refine .inl ⟨fun i => ?_, scanFrom_of_next_eq_none hend fuel _ seen⟩
    rcases Nat.lt_or_ge i before.length with hi | hi
    · exact hbefore i hi
    · exact refusal?_of_length_le hi
  | r :: rs, before, 0, seen, _, hfuel, _, _, _ => absurd hfuel (Nat.not_succ_le_zero _)
  | r :: rs, before, fuel + 1, seen, hparts, hfuel, hcount, hseen, hbefore => by
    obtain ⟨hr, hrs⟩ := List.forall_mem_cons.mp hparts
    rw [List.flatMap_cons, List.append_assoc]
    rcases scanFrom_record hr hcount hseen fuel (rs.flatMap DirectoryRecord.encode ++ rest) rs
      with ⟨e, hrefused, hscan⟩ | ⟨hpassed, hroom, seen', hseen', hscan⟩
    · exact .inr ⟨before.length, e, hrefused, hbefore, hscan⟩
    · have hlength : (before ++ [r]).length = before.length + 1 := by simp
      have hsame : before ++ r :: rs = before ++ [r] ++ rs := by simp
      have hnext : ∀ j < (before ++ [r]).length,
          refusal? limits (before ++ [r] ++ rs) j = none := by
        intro j hj
        rw [← hsame]
        rcases Nat.lt_or_eq_of_le (Nat.le_of_lt_succ (hlength ▸ hj)) with hlt | rfl
        · exact hbefore j hlt
        · exact hpassed
      rw [hscan, hsame, ← hlength]
      exact scanFrom_list hend hrs (Nat.le_of_succ_le_succ hfuel) (hlength ▸ hroom) hseen' hnext

/-- **A walk that counts has walked a list of records**, where it may take as many as there are
octets. -/
theorem exists_lists_of_scanFrom : ∀ {fuel : Nat} {directory : Bytes} {count n : Nat}
    {seen : List Bytes}, directory.length ≤ fuel →
      scanFrom limits fuel directory count seen = .ok n →
        ∃ rs, n = count + rs.length ∧ Lists directory rs
  | 0, directory, count, n, seen, hfuel, h => by
    obtain rfl := Except.ok.inj h
    have hnil : directory.length < directoryLength := Nat.lt_of_le_of_lt hfuel (by decide)
    exact ⟨[], rfl, fun _ hr => absurd hr List.not_mem_nil, directory, rfl, .inl hnil⟩
  | fuel + 1, directory, count, n, seen, hfuel, h => by
    rw [scanFrom] at h
    cases hnext : DirectoryRecord.next directory with
    | none =>
      rw [hnext] at h
      obtain rfl := Except.ok.inj h
      exact ⟨[], rfl, fun _ hr => absurd hr List.not_mem_nil, directory, rfl,
        DirectoryRecord.next_eq_none_iff.mp hnext⟩
    | cut =>
      rw [hnext] at h
      obtain ⟨_, -, he⟩ := bind_eq_ok_iff.mp h
      cases he
    | record r rest =>
      rw [hnext] at h
      obtain ⟨_, -, h⟩ := bind_eq_ok_iff.mp h
      obtain ⟨rfl, hr⟩ := DirectoryRecord.eq_encode_of_next hnext
      have hshort : rest.length ≤ fuel := by
        rw [List.length_append, DirectoryRecord.length_encode, directoryLength] at hfuel
        omega
      have hrest : ∀ {seen : List Bytes}, scanFrom limits fuel rest (count + 1) seen = .ok n →
          ∃ rs, n = count + rs.length ∧ Lists (r.encode ++ rest) rs := fun hscan => by
        obtain ⟨rs, hn, hlists⟩ := exists_lists_of_scanFrom hshort hscan
        exact ⟨r :: rs, by rw [hn, List.length_cons]; omega, hlists.cons hr⟩
      split at h
      · exact hrest h
      · split at h
        · cases h
        · exact hrest h

/-! ## The scan -/

/-- **The walk of a directory that lists records** counts them, or fails with the first refusal. -/
theorem scanFrom_lists (h : Lists directory rs) :
    ((∀ i, refusal? limits rs i = none)
        ∧ scanFrom limits directory.length directory 0 [] = .ok rs.length)
      ∨ ∃ i e, refusal? limits rs i = some e ∧ (∀ j < i, refusal? limits rs j = none)
        ∧ scanFrom limits directory.length directory 0 [] = .error e := by
  obtain ⟨rest, hspelled, hend⟩ := h.spelled
  have hfuel : rs.length ≤ directory.length := by
    have hle := Classic.length_le_length_flatMap_encode rs
    rw [hspelled, List.length_append]
    omega
  have hwalk := @scanFrom_list limits rest (DirectoryRecord.next_eq_none_iff.mpr hend) rs [] _ []
    h.parts hfuel (Nat.zero_le _) (fun _ => Iff.rfl) fun j hj => absurd hj (Nat.not_lt_zero j)
  rwa [← hspelled] at hwalk

/-- **The scan of a directory against its grammar.**  Where the directory lists records the scan
counts them exactly if they are not too many and no name that is held comes twice; otherwise it
fails as the first record that is refused tells.  Where it counts, the directory lists as many
records. -/
theorem scan_of_lists (limits : Limits) (hmedium : medium.Holds archive)
    (hlocate : locate medium archive = .ok extent) :
    (∀ rs, Lists (extent.octets archive) rs →
      (∀ n, scan limits medium archive = .ok n ↔ n = rs.length
        ∧ rs.length ≤ limits.maxEntryCount ∧ (heldNames limits rs).Nodup)
      ∧ ∀ e, scan limits medium archive = .error e ↔ ∃ i, refusal? limits rs i = some e
        ∧ ∀ j < i, refusal? limits rs j = none)
    ∧ ∀ n, scan limits medium archive = .ok n →
      ∃ rs, Lists (extent.octets archive) rs ∧ rs.length = n := by
  rw [scan_eq hmedium hlocate]
  refine ⟨fun rs hlists => ?_, fun n hscan => ?_⟩
  · rw [← refusal?_eq_none_iff]
    rcases scanFrom_lists hlists with ⟨hnone, hok⟩ | ⟨i, e, hrefused, hfirst, herror⟩
    · rw [hok]
      refine ⟨fun n => ?_, fun e => iff_of_false nofun fun ⟨i, hi, _⟩ => ?_⟩
      · rw [Except.ok.injEq, eq_comm]
        exact (and_iff_left hnone).symm
      · exact absurd (hi.symm.trans (hnone i)) nofun
    · rw [herror]
      refine ⟨fun n => iff_of_false nofun fun ⟨_, h⟩ => ?_, fun e' => ?_⟩
      · exact absurd (hrefused.symm.trans (h i)) nofun
      · rw [Except.error.injEq]
        constructor
        · rintro rfl
          exact ⟨i, hrefused, hfirst⟩
        · intro ⟨i', hrefused', hfirst'⟩
          exact refusal_unique hrefused hfirst hrefused' hfirst'
  · obtain ⟨rs, hn, hlists⟩ := exists_lists_of_scanFrom (Nat.le_refl _) hscan
    exact ⟨rs, hlists, by rw [hn, Nat.zero_add]⟩

/-- The records of two entries, and the first of them once more. -/
def repeatedRecords : List DirectoryRecord := twoEntries.records ++ twoEntries.records.take 1

/-- An archive whose directory is these records and one octet of the next mark. -/
def repeatedArchive : Bytes :=
  let directory := repeatedRecords.flatMap DirectoryRecord.encode ++ [0x50]
  twoEntries.octets ++ directory ++ EndRecord.encode
    { entriesHere := 3, entries := 3, size := directory.length, offset := twoEntries.octets.length }

/-- The third record repeats a name; where it is also one too many, that is what is told. -/
theorem scan_repeated : locate .memory repeatedArchive = .ok ⟨62, 142⟩
    ∧ Lists (Extent.octets ⟨62, 142⟩ repeatedArchive) repeatedRecords
    ∧ scan {} .memory repeatedArchive = .error (.violation (.duplicateEntry "a"))
    ∧ scan { maxEntryCount := 2 } .memory repeatedArchive
      = .error (.violation (.entryCount 3 2)) := by
  have hlocate : locate .memory repeatedArchive = .ok ⟨62, 142⟩ :=
    eq_ok_of_toOption (by decide +kernel)
  have hlists : Lists (Extent.octets ⟨62, 142⟩ repeatedArchive) repeatedRecords :=
    { parts := by
        intro r hr
        have hall : ∀ r ∈ repeatedRecords, r.name.length < 0x10000 ∧ r.extra.length < 0x10000
          ∧ r.comment.length < 0x10000 := by decide +kernel
        exact ⟨(hall r hr).1, (hall r hr).2.1, (hall r hr).2.2⟩
      spelled := ⟨[0x50], by decide +kernel, .inl (by decide)⟩ }
  have hscan := fun limits e => ((scan_of_lists limits (Medium.holds_memory _) hlocate).1 _
    hlists).2 e
  refine ⟨hlocate, hlists, (hscan {} _).mpr ⟨2, by decide +kernel, by decide +kernel⟩,
    (hscan { maxEntryCount := 2 } _).mpr ⟨2, by decide +kernel, by decide +kernel⟩⟩

end GuardedArchive.Zip
