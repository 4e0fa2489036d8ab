import GuardedArchive.Proofs.Zip.Agreement
import GuardedArchive.Zip.ExtraField

/-!
# Proofs/Zip/Encoding — a record that was written is read back

    field (fields ((w, n) :: fs) ++ rest) 0 w  =  n % capacity w

Numbers of fixed widths stand one behind the other, so a field is read by passing those before it.
What `next` finds in front of an encoded directory record is that record, as far as its numbers fit
their fields (`next_encode`), and the records of a directory are found one after the other
(`upTo_encode`).  A local header tells where the content begins (`lengthOf?_encode`), and a wide
field the numbers that are too large for their own fields (`readExtra_wide`).
-/

namespace GuardedArchive.Zip

/-! ## Numbers in fields -/

theorem toNat_ofNat_mod : ∀ width n : Nat,
    Bytes.toNat (Bytes.ofNat width n) = n % Bytes.capacity width
  | 0, n => (Nat.mod_one n).symm
  | width + 1, n => by
    rw [Bytes.ofNat, Bytes.toNat, toNat_ofNat_mod width, UInt8.toNat_ofNat', Bytes.capacity,
      Nat.mod_mul]

@[simp] theorem fields_nil : fields [] = [] := rfl

@[simp] theorem fields_cons (w n : Nat) (fs : List (Nat × Nat)) :
    fields ((w, n) :: fs) = Bytes.ofNat w n ++ fields fs := rfl

/-- A slice behind the front of octets. -/
theorem slice_append_right {a b : Bytes} {offset length : Nat} (h : a.length ≤ offset) :
    Bytes.slice (a ++ b) offset length = Bytes.slice b (offset - a.length) length := by
  obtain ⟨more, rfl⟩ := Nat.exists_eq_add_of_le h
  rw [Bytes.slice, Bytes.slice, ← List.drop_drop, List.drop_left, Nat.add_sub_cancel_left]

/-- A slice that is the front of octets. -/
theorem slice_front (a b : Bytes) : Bytes.slice (a ++ b) 0 a.length = a := by
  rw [Bytes.slice, List.drop_zero, List.take_left]

/-- **The first field holds its number.** -/
theorem field_first (w n : Nat) (fs : List (Nat × Nat)) (rest : Bytes) :
    Bytes.field (fields ((w, n) :: fs) ++ rest) 0 w = n % Bytes.capacity w := by
  have hfront := slice_front (Bytes.ofNat w n) (fields fs ++ rest)
  rw [Bytes.length_ofNat] at hfront
  rw [Bytes.field, fields_cons, List.append_assoc, hfront, toNat_ofNat_mod]

/-- **The fields before one are passed by.** -/
theorem field_later {w offset : Nat} (h : w ≤ offset) (n width : Nat) (fs : List (Nat × Nat))
    (rest : Bytes) : Bytes.field (fields ((w, n) :: fs) ++ rest) offset width
      = Bytes.field (fields fs ++ rest) (offset - w) width := by
  rw [Bytes.field, Bytes.field, fields_cons, List.append_assoc,
    slice_append_right (by rwa [Bytes.length_ofNat]), Bytes.length_ofNat]

theorem startsWith_fields {mark : Nat} (fs : List (Nat × Nat)) (rest : Bytes) :
    startsWith mark (fields ((4, mark) :: fs) ++ rest) := by
  rw [startsWith, fields_cons, List.append_assoc, List.take_left' (Bytes.length_ofNat _ _)]
  exact beq_self_eq_true _

/-- Octets that begin with a mark are not fewer than it. -/
theorem four_le_of_startsWith {mark : Nat} {bs : Bytes} (h : startsWith mark bs) :
    4 ≤ bs.length := by
  have hlen := congrArg List.length (beq_iff_eq.mp h)
  rw [List.length_take, Bytes.length_ofNat] at hlen
  omega

/-! ## Directory records -/

namespace DirectoryRecord

variable {r : DirectoryRecord} {rs : List DirectoryRecord}

/-- The fields of a record that stand in front of its variable parts. -/
def fixed (r : DirectoryRecord) : Bytes :=
  fields [(4, directoryMark), (2, r.madeBy), (2, r.versionNeeded), (2, r.flags), (2, r.method),
    (2, r.time), (2, r.date), (4, r.checksum), (4, r.compressedSize), (4, r.uncompressedSize),
    (2, r.name.length), (2, r.extra.length), (2, r.comment.length), (2, r.disk),
    (2, r.internalAttributes), (4, r.externalAttributes), (4, r.headerOffset)]

theorem encode_eq (r : DirectoryRecord) (rest : Bytes) :
    r.encode ++ rest = r.fixed ++ (r.name ++ (r.extra ++ (r.comment ++ rest))) := by
  simp only [encode, fixed, List.append_assoc]

@[simp] theorem length_fixed (r : DirectoryRecord) : r.fixed.length = directoryLength := by
  simp [fixed, directoryLength]

/-- The variable parts of a record are as long as their fields can tell. -/
structure HasParts (r : DirectoryRecord) : Prop where
  name : r.name.length < 0x10000
  extra : r.extra.length < 0x10000
  comment : r.comment.length < 0x10000

/-- A record as its fields hold it: of a number that is too large the low octets. -/
def stored (r : DirectoryRecord) : DirectoryRecord where
  madeBy := r.madeBy % 0x10000
  versionNeeded := r.versionNeeded % 0x10000
  flags := r.flags % 0x10000
  method := r.method % 0x10000
  time := r.time % 0x10000
  date := r.date % 0x10000
  checksum := r.checksum % 0x100000000
  compressedSize := r.compressedSize % 0x100000000
  uncompressedSize := r.uncompressedSize % 0x100000000
  disk := r.disk % 0x10000
  internalAttributes := r.internalAttributes % 0x10000
  externalAttributes := r.externalAttributes % 0x100000000
  headerOffset := r.headerOffset % 0x100000000
  name := r.name
  extra := r.extra
  comment := r.comment

theorem length_encode (r : DirectoryRecord) : r.encode.length
    = directoryLength + (r.name.length + (r.extra.length + r.comment.length)) := by
  rw [← List.append_nil r.encode, encode_eq]
  simp

/-- The fields that tell how long the variable parts are. -/
theorem lengths_fixed (h : r.HasParts) (rest : Bytes) :
    Bytes.field (r.fixed ++ rest) 28 2 = r.name.length
      ∧ Bytes.field (r.fixed ++ rest) 30 2 = r.extra.length
      ∧ Bytes.field (r.fixed ++ rest) 32 2 = r.comment.length := by
  have hname := h.name
  have hextra := h.extra
  have hcomment := h.comment
  simp (disch := decide) only [fixed, field_later, field_first, Nat.reduceSub, Bytes.capacity]
  omega

theorem lengths_encode (h : r.HasParts) (rest : Bytes) :
    Bytes.field (r.encode ++ rest) 28 2 = r.name.length
      ∧ Bytes.field (r.encode ++ rest) 30 2 = r.extra.length
      ∧ Bytes.field (r.encode ++ rest) 32 2 = r.comment.length := by
  rw [encode_eq]
  exact lengths_fixed h _

/-- The name stands behind the fixed part. -/
theorem slice_name (r : DirectoryRecord) (rest : Bytes) :
    Bytes.slice (r.encode ++ rest) directoryLength r.name.length = r.name := by
  rw [encode_eq, Bytes.slice, List.drop_left' r.length_fixed, List.take_left]

theorem variableLength_fixed (h : r.HasParts) (rest : Bytes) : variableLength (r.fixed ++ rest)
    = r.name.length + r.extra.length + r.comment.length := by
  obtain ⟨hname, hextra, hcomment⟩ := lengths_fixed h rest
  rw [variableLength, hname, hextra, hcomment]

theorem ofParts_fixed (h : r.HasParts) (rest : Bytes) :
    ofParts r.fixed (r.name ++ (r.extra ++ (r.comment ++ rest))) = r.stored := by
  obtain ⟨hname, hextra, hcomment⟩ := lengths_fixed h []
  rw [List.append_nil] at hname hextra hcomment
  have hslice : ∀ a b : Bytes, Bytes.slice (a ++ b) 0 a.length = a := slice_front
  rw [ofParts, hname, hextra, hcomment, List.take_left, slice_append_right (Nat.le_refl _),
    slice_append_right (Nat.le_add_right _ _), Nat.sub_self, Nat.add_sub_cancel_left,
    slice_append_right (Nat.le_refl _), Nat.sub_self, slice_front, slice_front]
  rw [← List.append_nil r.fixed]
  simp (disch := decide) only [fixed, field_later, field_first, Nat.reduceSub, Bytes.capacity]
  rfl

/-- **An encoded record is read back**, with what follows it. -/
theorem next_encode (h : r.HasParts) (rest : Bytes) :
    next (r.encode ++ rest) = .record r.stored rest := by
  rw [encode_eq, next_eq_record_iff, variableLength_fixed h,
    List.drop_left' (length_fixed r), List.take_left' (length_fixed r), ofParts_fixed h]
  refine ⟨?_, startsWith_fields _ _, rfl, ?_⟩
  · simp only [List.length_append, length_fixed]
    omega
  · simp only [← List.append_assoc]
    exact (List.drop_left' (by simp [Nat.add_assoc])).symm

/-- **The records of a directory are found one after the other.** -/
theorem upTo_encode (rest : Bytes) : ∀ {rs : List DirectoryRecord}, (∀ r ∈ rs, r.HasParts) →
    upTo rs.length (rs.flatMap encode ++ rest) = rs.map stored
  | [], _ => rfl
  | r :: rs, h => by
    rw [List.length_cons, upTo, List.flatMap_cons, List.append_assoc,
      next_encode (h r List.mem_cons_self)]
    exact congrArg (r.stored :: ·)
      (upTo_encode rest fun r' hr' => h r' (List.mem_cons_of_mem _ hr'))

/-- A directory holds no more than its records, however many are looked for. -/
theorem upTo_flatMap_encode : ∀ {rs : List DirectoryRecord} {count : Nat}, rs.length ≤ count →
    (∀ r ∈ rs, r.HasParts) → upTo count (rs.flatMap encode) = rs.map stored
  | [], 0, _, _ => rfl
  | [], _ + 1, _, _ => rfl
  | r :: rs, count + 1, hcount, h => by
    rw [upTo, List.flatMap_cons, next_encode (h r List.mem_cons_self)]
    exact congrArg (r.stored :: ·) (upTo_flatMap_encode (Nat.le_of_succ_le_succ hcount)
      fun r' hr' => h r' (List.mem_cons_of_mem _ hr'))

end DirectoryRecord

/-! ## Local headers -/

namespace LocalHeader

theorem length_encode (r : LocalHeader) :
    r.encode.length = localLength + r.name.length + r.extra.length := by
  rw [encode, List.length_append, List.length_append]
  simp [localLength]

/-- **A local header tells where the content behind it begins.** -/
theorem lengthOf?_encode {r : LocalHeader} (hname : r.name.length < 0x10000)
    (hextra : r.extra.length < 0x10000) (rest : Bytes) :
    lengthOf? (r.encode ++ rest) = some r.encode.length := by
  have hlong : ((r.encode ++ rest).drop (localLength - 1)).isEmpty = false := by
    rw [List.isEmpty_eq_false_iff, ne_eq, List.drop_eq_nil_iff, List.length_append, length_encode,
      localLength]
    omega
  rw [lengthOf?, hlong, length_encode, encode, List.append_assoc, List.append_assoc,
    startsWith_fields, if_neg (by decide)]
  simp (disch := decide) only [field_later, field_first, Nat.reduceSub, Bytes.capacity,
    Nat.reduceMul, Nat.mod_eq_of_lt hname, Nat.mod_eq_of_lt hextra]

end LocalHeader

/-! ## Wide fields -/

namespace Record

variable {size packed offset : Nat}

theorem widened_fields {n : Nat} (h : n ≤ Bytes.maxCount) (narrow : Nat) (fs : List (Nat × Nat)) :
    widened true narrow (fields ((8, n) :: fs)) = some (n, fields fs, 8) := by
  have hmod : n % Bytes.capacity 8 = n := Nat.mod_eq_of_lt (Nat.lt_succ_of_le h)
  have hfield : Bytes.field (fields ((8, n) :: fs)) 0 8 = n := by
    rw [← List.append_nil (fields ((8, n) :: fs)), field_first, hmod]
  have hlong : ((fields ((8, n) :: fs)).drop 7).isEmpty = false := by
    rw [List.isEmpty_eq_false_iff, ne_eq, List.drop_eq_nil_iff, fields_cons, List.length_append,
      Bytes.length_ofNat]
    omega
  have hdrop : (fields ((8, n) :: fs)).drop 8 = fields fs :=
    List.drop_left' (Bytes.length_ofNat 8 n)
  rw [widened, hlong, hfield, hdrop]
  rfl

section

variable (hsize : size ≤ Bytes.maxCount) (hpacked : packed ≤ Bytes.maxCount)
  (hoffset : offset ≤ Bytes.maxCount)
include hsize hpacked hoffset

theorem readWide_fields (r : Record) :
    readWide r 24 (fields [(8, size), (8, packed), (8, offset)]) = .ok
      ({ r with
        uncompressedSize := size, compressedSize := packed, headerOffset := offset }, []) := by
  have halways : decide (24 ≤ 24) = true := rfl
  simp only [readWide, halways, widened_fields hsize, widened_fields hpacked,
    widened_fields hoffset]
  rfl

/-- **The wide field tells sizes and offset.** -/
theorem readExtra_wide (r : Record) (fuel : Nat) :
    readExtra (fuel + 2) (fields [(2, 1), (2, 24), (8, size), (8, packed), (8, offset)]) r = .ok
      { r with uncompressedSize := size, compressedSize := packed, headerOffset := offset } := by
  have hkind : Bytes.field (fields [(2, 1), (2, 24), (8, size), (8, packed), (8, offset)]) 0 2
      = 1 := by
    rw [← List.append_nil (fields _), field_first]
    rfl
  have hlength : Bytes.field (fields [(2, 1), (2, 24), (8, size), (8, packed), (8, offset)]) 2 2
      = 24 := by
    rw [← List.append_nil (fields _), field_later (by decide), field_first]
    rfl
  rw [readExtra, hkind, hlength]
  change (readWide r 24 (fields [(8, size), (8, packed), (8, offset)]) >>= fun x =>
    readExtra (fuel + 1) x.2 x.1) = _
  rw [readWide_fields hsize hpacked hoffset]
  rfl

end

end Record

end GuardedArchive.Zip
