import Mathlib.Algebra.GroupWithZero.Nat
import GuardedArchive.Proofs.Zip.Encoding

/-!
# Proofs/Zip/Decoding — a record that was read is what stands there

    octets  =  record  ++  rest        exactly where `next` finds the record in front of the rest

`Proofs/Zip/Encoding` reads back what was written; here what was read, written again, gives the same
octets.  Numbers of fixed widths are given back by their fields (`fields_numbersAt`), and so is a
whole directory record (`next_eq_record_iff_encode`).  No record stands at the front of octets
exactly where they are too few for one or begin with another mark (`next_eq_none_iff`).
-/

namespace GuardedArchive.Zip

/-! ## Numbers in fields -/

/-- **The number of octets gives them back.** -/
theorem ofNat_toNat : ∀ bs : Bytes, Bytes.ofNat bs.length (Bytes.toNat bs) = bs
  | [] => rfl
  | b :: bs => by
    have hb := b.toNat_lt
    have hlow : UInt8.ofNat (b.toNat + 256 * Bytes.toNat bs) = b :=
      UInt8.toNat_inj.mp (by rw [UInt8.toNat_ofNat']; omega)
    have hhigh : (b.toNat + 256 * Bytes.toNat bs) / 256 = Bytes.toNat bs := by omega
    rw [List.length_cons, Bytes.ofNat, Bytes.toNat, hlow, hhigh, ofNat_toNat bs]

theorem length_slice {bs : Bytes} {offset length : Nat} (h : offset + length ≤ bs.length) :
    (Bytes.slice bs offset length).length = length := by
  rw [Bytes.slice, List.length_take, List.length_drop]
  omega

/-- A slice is what stands in front of the octets from its start on. -/
theorem slice_append_drop (bs : Bytes) (offset length : Nat) :
    Bytes.slice bs offset length ++ bs.drop (offset + length) = bs.drop offset := by
  rw [Bytes.slice, ← List.drop_drop, List.take_append_drop]

theorem field_drop (bs : Bytes) (start offset width : Nat) :
    Bytes.field (bs.drop start) offset width = Bytes.field bs (start + offset) width := by
  rw [Bytes.field, Bytes.field, Bytes.slice, Bytes.slice, List.drop_drop]

/-- A field of a slice is one of the octets. -/
theorem field_slice {bs : Bytes} {start length offset width : Nat} (h : offset + width ≤ length) :
    Bytes.field (Bytes.slice bs start length) offset width
      = Bytes.field bs (start + offset) width := by
  rw [← field_drop, Bytes.field, Bytes.field, Bytes.slice, Bytes.slice, Bytes.slice,
    List.drop_take, List.take_take, Nat.min_eq_left (by omega)]

/-- A field gives back the octets that it takes. -/
theorem ofNat_field {bs : Bytes} {offset width : Nat} (h : offset + width ≤ bs.length) :
    Bytes.ofNat width (Bytes.field bs offset width) = Bytes.slice bs offset width := by
  have hback := ofNat_toNat (Bytes.slice bs offset width)
  rwa [length_slice h] at hback

theorem field_lt_capacity (bs : Bytes) (offset width : Nat) :
    Bytes.field bs offset width < Bytes.capacity width :=
  Nat.lt_of_lt_of_le (toNat_lt_capacity _) (capacity_le (List.length_take_le _ _))

/-- The numbers of the given widths that stand one behind the other from `offset` on. -/
def numbersAt (bs : Bytes) : Nat → List Nat → List (Nat × Nat)
  | _, [] => []
  | offset, width :: widths =>
    (width, Bytes.field bs offset width) :: numbersAt bs (offset + width) widths

/-- **Numbers that were read give back the octets that they take.** -/
theorem fields_numbersAt (bs : Bytes) (widths : List Nat) :
    ∀ offset : Nat, offset + widths.sum ≤ bs.length →
      fields (numbersAt bs offset widths) = Bytes.slice bs offset widths.sum := by
  induction widths with
  | nil => exact fun offset _ => List.take_zero.symm
  | cons width widths ih =>
    intro offset h
    rw [List.sum_cons] at h
    have hrest := ih (offset + width) (by omega)
    rw [numbersAt, fields_cons, hrest, ofNat_field (by omega), List.sum_cons, Bytes.slice,
      Bytes.slice, Bytes.slice, List.take_add, List.drop_drop]

/-! ## Directory records -/

namespace DirectoryRecord

variable {bs rest : Bytes} {r : DirectoryRecord}

/-- The widths of the fixed fields of a directory record, behind its mark. -/
def fixedWidths : List Nat := [2, 2, 2, 2, 2, 2, 4, 4, 4, 2, 2, 2, 2, 2, 4, 4]

/-- The fixed part of a record that was read is the one it was read from. -/
theorem fixed_ofParts {head tail : Bytes} (hlen : head.length = directoryLength)
    (hmark : startsWith directoryMark head) (htail : variableLength head ≤ tail.length) :
    (ofParts head tail).fixed = head := by
  have hname : (ofParts head tail).name.length = Bytes.field head 28 2 := by
    rw [variableLength] at htail
    rw [ofParts, List.length_take]
    omega
  have hextra : (ofParts head tail).extra.length = Bytes.field head 30 2 := by
    rw [variableLength] at htail
    exact length_slice (by omega)
  have hcomment : (ofParts head tail).comment.length = Bytes.field head 32 2 :=
    length_slice htail
  have hnumbers : (ofParts head tail).fixed
      = fields ((4, directoryMark) :: numbersAt head 4 fixedWidths) := by
    rw [fixed, hname, hextra, hcomment]
    rfl
  have hall : 4 + fixedWidths.sum = head.length := hlen.symm
  have hback : Bytes.slice head 4 fixedWidths.sum = head.drop 4 := by
    refine List.take_of_length_le ?_
    rw [List.length_drop]
    omega
  rw [hnumbers, fields_cons, fields_numbersAt head fixedWidths 4 (Nat.le_of_eq hall), hback,
    ← beq_iff_eq.mp hmark, List.take_append_drop]

theorem hasParts_ofParts (head tail : Bytes) : (ofParts head tail).HasParts where
  name := Nat.lt_of_le_of_lt (List.length_take_le _ _) (field_lt_capacity head 28 2)
  extra := Nat.lt_of_le_of_lt (List.length_take_le _ _) (field_lt_capacity head 30 2)
  comment := Nat.lt_of_le_of_lt (List.length_take_le _ _) (field_lt_capacity head 32 2)

/-- The variable parts of a record stand in front of what follows it. -/
theorem parts_ofParts (head tail : Bytes) :
    (ofParts head tail).name ++ ((ofParts head tail).extra
      ++ ((ofParts head tail).comment ++ tail.drop (variableLength head))) = tail := by
  have hcomment := slice_append_drop tail (Bytes.field head 28 2 + Bytes.field head 30 2)
    (Bytes.field head 32 2)
  have hextra := slice_append_drop tail (Bytes.field head 28 2) (Bytes.field head 30 2)
  rw [ofParts, variableLength, hcomment, hextra, List.take_append_drop]

/-- **A record that was read stands there as it is written.** -/
theorem eq_encode_of_next (h : next bs = .record r rest) : bs = r.encode ++ rest ∧ r.HasParts := by
  obtain ⟨hlen, hmark, rfl, rfl⟩ := next_eq_record_iff.mp h
  have hfixed : directoryLength ≤ bs.length := by omega
  have hhead : (bs.take directoryLength).length = directoryLength := by
    rw [List.length_take]
    omega
  have hlengths := variableLength_take hfixed
  have hmark' : startsWith directoryMark (bs.take directoryLength) := by
    rw [startsWith, List.take_take]
    exact hmark
  have htail : variableLength (bs.take directoryLength) ≤ (bs.drop directoryLength).length := by
    rw [hlengths, List.length_drop]
    omega
  refine ⟨?_, hasParts_ofParts _ _⟩
  rw [encode_eq, fixed_ofParts hhead hmark' htail, ← hlengths, parts_ofParts,
    List.take_append_drop]

/-- **Reading a record accepts exactly what writing one produces.** -/
theorem next_eq_record_iff_encode :
    next bs = .record r rest ↔ bs = r.encode ++ rest ∧ r.HasParts ∧ r.stored = r := by
  constructor
  · intro h
    obtain ⟨hbs, hparts⟩ := eq_encode_of_next h
    have hagain := next_encode hparts rest
    rw [← hbs, h] at hagain
    exact ⟨hbs, hparts, (Next.record.inj hagain).1.symm⟩
  · rintro ⟨rfl, hparts, hstored⟩
    rw [next_encode hparts, hstored]

/-- **No record stands at the front of octets** that are too few for one or begin with another
mark. -/
theorem next_eq_none_iff :
    next bs = .none ↔ bs.length < directoryLength ∨ ¬startsWith directoryMark bs := by
  rw [next, ← tooShort_iff]
  by_cases hstop : tooShort bs ∨ ¬startsWith directoryMark bs
  · rw [if_pos (by simpa using hstop)]
    exact iff_of_true rfl hstop
  · rw [if_neg (by simpa using hstop)]
    refine iff_of_false ?_ hstop
    dsimp only
    split <;> simp

/-- **A record is cut off** where its mark and its fixed part stand, and less than the parts that it
announces. -/
theorem next_eq_cut_iff : next bs = .cut ↔ directoryLength ≤ bs.length
    ∧ startsWith directoryMark bs ∧ bs.length < directoryLength + variableLength bs := by
  cases hnext : next bs with
  | none =>
    refine iff_of_false nofun fun ⟨hlen, hmark, _⟩ => ?_
    exact (next_eq_none_iff.mp hnext).elim (Nat.not_lt.mpr hlen) fun h => h hmark
  | record r rest =>
    exact iff_of_false nofun fun ⟨_, _, hcut⟩ =>
      absurd (next_eq_record_iff.mp hnext).1 (Nat.not_le.mpr hcut)
  | cut =>
    have hfront := mt next_eq_none_iff.mpr (by rw [hnext]; nofun)
    rw [not_or, Nat.not_lt, not_not] at hfront
    refine iff_of_true rfl ⟨hfront.1, hfront.2, Nat.not_le.mp fun hall => ?_⟩
    have hrecord := next_eq_record_iff.mpr ⟨hall, hfront.2, rfl, rfl⟩
    rw [hnext] at hrecord
    cases hrecord

end DirectoryRecord

end GuardedArchive.Zip
