import GuardedArchive.Proofs.Zip.Inflating
import GuardedArchive.Zip.Writer

/-!
# Proofs/Zip/Storing — stored blocks hold the octets that are in them

    storedBlocks count content  ──inflate──▸  content, in one step for each block

Reading a block takes its octets and its five octets of header (`readBlocks_storedBlock`), and the
last block ends the stream (`readBlocks_last`).
-/

namespace GuardedArchive.Inflate

open Zip

variable {content more : Bytes} {read : Nat} {out : Output}

/-- A stored block. -/
def storedBlock (final : Nat) (content : Bytes) : Bytes :=
  fields [(1, final), (2, content.length), (2, maxBlockLength - content.length)] ++ content

theorem length_storedBlock (final : Nat) (content : Bytes) :
    (storedBlock final content).length = 5 + content.length := by
  simp [storedBlock]
  omega

/-- The lengths in front of a stored block, both of which are read from there. -/
theorem lengths_storedBlock (hlen : content.length ≤ maxBlockLength) (rest : Bytes) :
    let header := fields [(2, content.length), (2, maxBlockLength - content.length)]
    Bytes.field (header ++ rest) 0 2 = content.length
      ∧ Bytes.field (header ++ rest) 2 2 = maxBlockLength - content.length := by
  constructor
  · rw [field_first]
    exact Nat.mod_eq_of_lt (Nat.lt_succ_of_le hlen)
  · rw [field_later (Nat.le_refl 2), field_first]
    exact Nat.mod_eq_of_lt (Nat.lt_succ_of_le (Nat.sub_le ..))

theorem readStored_eq (hlen : content.length ≤ maxBlockLength) (hold count : Nat) :
    readStored ⟨fields [(2, content.length), (2, maxBlockLength - content.length)]
        ++ (content ++ more), hold, count, read⟩ out
      = (out.stored content ⟨content ++ more, 0, 0, read + 4⟩,
        .ok ⟨more, 0, 0, read + 4 + content.length⟩) := by
  obtain ⟨hlow, hhigh⟩ := lengths_storedBlock hlen (content ++ more)
  generalize hheader : fields [(2, content.length), (2, maxBlockLength - content.length)]
    = header at hlow hhigh
  have hlength : header.length = 4 := by simp [← hheader]
  have hempty : (List.drop 3 (header ++ (content ++ more))).isEmpty = false := by
    rw [List.isEmpty_eq_false_iff, ne_eq, List.drop_eq_nil_iff, List.length_append, hlength]
    omega
  simp only [readStored, Bits.skip, hempty, List.drop_left' hlength, hlow, hhigh]
  rw [if_neg Bool.false_ne_true, if_neg (by rw [Nat.add_sub_of_le hlen]; exact not_not.mpr rfl),
    List.take_left, if_neg (Nat.lt_irrefl _), List.drop_left]

/-- The first octet of a stored block says that it is stored, and if it is the last. -/
theorem readHeader_eq {final : Nat} (hfinal : final < 2) (rest : Bytes) (hold : Nat) :
    readHeader ⟨UInt8.ofNat final :: rest, hold, 0, read⟩
      = .ok (final, 0, ⟨rest, 0, 5, read + 1⟩) := by
  obtain rfl | rfl : final = 0 ∨ final = 1 := by omega
  · simp [readHeader, Bits.take, Bits.next, bind, Except.bind, pure, Except.pure]
  · simp [readHeader, Bits.take, Bits.next, bind, Except.bind, pure, Except.pure]

/-- **A stored block is read as its octets**, and reading goes on behind it unless it is the
last. -/
theorem readBlocks_storedBlock {final : Nat} (hfinal : final < 2)
    (hlen : content.length ≤ maxBlockLength) (limit fuel hold read : Nat) (more : Bytes)
    (out : Output) : ∃ out', out'.octets.toList = out.octets.toList ++ content
      ∧ readBlocks limit (fuel + 1) ⟨storedBlock final content ++ more, hold, 0, read⟩ out
        = if final = 1 then (out', .ok (read + 5 + content.length))
          else readBlocks limit fuel ⟨more, 0, 0, read + 5 + content.length⟩ out' := by
  have hfront : storedBlock final content ++ more = UInt8.ofNat final
      :: (fields [(2, content.length), (2, maxBlockLength - content.length)]
        ++ (content ++ more)) := by
    rw [storedBlock, fields_cons, List.append_assoc, List.append_assoc]
    rfl
  refine ⟨out.stored content ⟨content ++ more, 0, 0, read + 5⟩, by simp [Output.stored], ?_⟩
  rw [readBlocks, hfront, readHeader_eq hfinal]
  simp only [readBlock, if_true, readStored_eq hlen]

theorem storedBlocks_succ (count : Nat) (content : Bytes) : storedBlocks (count + 1) content
    = if content.length ≤ maxBlockLength then storedBlock 1 content
      else storedBlock 0 (content.take maxBlockLength)
        ++ storedBlocks count (content.drop maxBlockLength) := by
  rw [storedBlocks]
  split
  · rfl
  · rename_i h
    rw [storedBlock, List.length_take_of_le (Nat.le_of_not_le h), Nat.sub_self]

/-- The last block ends the stream. -/
theorem readBlocks_last (hlen : content.length ≤ maxBlockLength) (limit fuel hold read : Nat)
    (out : Output) : ∃ out' n,
      readBlocks limit (fuel + 1) ⟨storedBlock 1 content, hold, 0, read⟩ out = (out', .ok n)
        ∧ out'.octets.toList = out.octets.toList ++ content := by
  obtain ⟨out', hout', h⟩ :=
    readBlocks_storedBlock (by decide : 1 < 2) hlen limit fuel hold read [] out
  rw [if_pos rfl, List.append_nil] at h
  exact ⟨out', _, h, hout'⟩

/-- **Stored blocks are read as the octets in them.** -/
theorem readBlocks_storedBlocks (limit : Nat) : ∀ {count fuel : Nat} {content : Bytes}
    (hold read : Nat) (out : Output), count < fuel →
      content.length ≤ (count + 1) * maxBlockLength → ∃ out' n,
        readBlocks limit fuel ⟨storedBlocks count content, hold, 0, read⟩ out = (out', .ok n)
          ∧ out'.octets.toList = out.octets.toList ++ content
  | 0, fuel + 1, content, hold, read, out, _, hlen =>
    readBlocks_last (by simpa using hlen) limit fuel hold read out
  | count + 1, fuel + 1, content, hold, read, out, hfuel, hlen => by
    rw [storedBlocks_succ]
    by_cases hlast : content.length ≤ maxBlockLength
    · rw [if_pos hlast]
      exact readBlocks_last hlast limit fuel hold read out
    rw [if_neg hlast]
    have htake : (content.take maxBlockLength).length = maxBlockLength :=
      List.length_take_of_le (Nat.le_of_not_le hlast)
    have hdrop : (content.drop maxBlockLength).length ≤ (count + 1) * maxBlockLength := by
      rw [Nat.succ_mul (count + 1)] at hlen
      rw [List.length_drop]
      omega
    obtain ⟨out₁, hout₁, h₁⟩ := readBlocks_storedBlock (by decide : 0 < 2) (Nat.le_of_eq htake)
      limit fuel hold read (storedBlocks count (content.drop maxBlockLength)) out
    obtain ⟨out₂, n, h₂, hout₂⟩ := readBlocks_storedBlocks limit 0
      (read + 5 + (content.take maxBlockLength).length) out₁ (Nat.lt_of_succ_lt_succ hfuel) hdrop
    refine ⟨out₂, n, h₁.trans h₂, ?_⟩
    rw [hout₂, hout₁, List.append_assoc, List.take_append_drop]

theorem length_le_length_storedBlocks : ∀ (count : Nat) (content : Bytes),
    content.length ≤ (storedBlocks count content).length
  | 0, content => by
    change _ ≤ (storedBlock 1 content).length
    rw [length_storedBlock]
    omega
  | count + 1, content => by
    rw [storedBlocks_succ]
    split
    · rw [length_storedBlock]
      omega
    · have := length_le_length_storedBlocks count (content.drop maxBlockLength)
      rw [List.length_append, length_storedBlock, List.length_take]
      rw [List.length_drop] at this
      omega

/-- **A stream of stored blocks holds the octets in them.** -/
theorem holds_deflateStored (content : Bytes) : Holds (deflateStored content) content := by
  have hcount : content.length / maxBlockLength < 8 * (deflateStored content).length + 1 := by
    have hle := length_le_length_storedBlocks (content.length / maxBlockLength) content
    have hdiv := Nat.div_le_self content.length maxBlockLength
    rw [deflateStored]
    omega
  have hroom : content.length ≤ (content.length / maxBlockLength + 1) * maxBlockLength := by
    rw [maxBlockLength]
    omega
  obtain ⟨out, n, hread, hout⟩ := readBlocks_storedBlocks (8 * (deflateStored content).length + 1)
    0 0 {} hcount hroom
  have hinflate := inflate_eq hread
  exact ⟨by rw [hinflate, hout]; rfl, n, by rw [hinflate]⟩

end GuardedArchive.Inflate
