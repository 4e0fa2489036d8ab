import GuardedArchive.Proofs.Text.Utf8

/-!
# Proofs/Text/Boundary — octets are cut between two characters

    c₁ … cₖ │ cₖ₊₁ …        where cₖ₊₁ goes beyond the room

An index of octets is a boundary at either end, and in front of an octet that does not continue a
sequence.  In the octets of a text the boundaries are the lengths of its starts
(`isBoundary_ofChars_iff`).  So whoever goes back from the room that there is, octet by octet, comes
to the end of the longest start that has room, and never to an index below zero
(`cutOctets_ofChars`).
-/

namespace GuardedArchive

/-! ## The longest start that has room -/

/-- **The longest start of a text that takes at most `room` octets.** -/
structure Text.IsLongestStart (room : Nat) (start s : List Char) : Prop where
  isStart : start <+: s
  length_le : Text.utf8Length start ≤ room
  longest : ∀ other, other <+: s → Text.utf8Length other ≤ room → other <+: start

namespace Segment

theorem prefix_cut : ∀ {room : Nat} {s start : List Char}, start <+: s →
    Text.utf8Length start ≤ room → start <+: cut room s
  | _, _, [], _, _ => List.nil_prefix
  | room, [], c :: start, h, _ => absurd (List.prefix_nil.mp h) (List.cons_ne_nil _ _)
  | room, d :: s, c :: start, h, hroom => by
    obtain ⟨rfl, hstart⟩ := List.cons_prefix_cons.mp h
    rw [Text.utf8Length] at hroom
    rw [cut, if_pos (by omega)]
    exact List.cons_prefix_cons.mpr ⟨rfl, prefix_cut hstart (by omega)⟩

/-- **A text is cut to the longest start that has room.** -/
theorem isLongestStart_cut (room : Nat) (s : List Char) :
    Text.IsLongestStart room (cut room s) s :=
  ⟨cut_starts room s, utf8Length_cut room s, fun _ => prefix_cut⟩

end Segment

/-- A text that has room is the longest start of itself. -/
theorem Text.IsLongestStart.eq {room : Nat} {start s : List Char}
    (h : Text.IsLongestStart room start s) (hroom : Text.utf8Length s ≤ room) : start = s :=
  h.isStart.eq_of_length_le (h.longest s List.prefix_rfl hroom).length_le

namespace Utf8

/-! ## Going back to a boundary -/

/-- No character is cut in two at this index. -/
def isBoundary (bs : Bytes) (index : Nat) : Bool :=
  index == 0 || index == bs.length || bs[index]?.any (!isContinuation ·)

/-- The last boundary up to an index, looked for octet by octet from there; `none` is a step below
zero. -/
def boundaryUpTo (bs : Bytes) : (index : Nat) → Option Nat
  | 0 => if isBoundary bs 0 then some 0 else none
  | index + 1 => if isBoundary bs (index + 1) then some (index + 1) else boundaryUpTo bs index

/-- The octets before an index, which must be a boundary. -/
def takeTo (bs : Bytes) (index : Nat) : Option Bytes :=
  if isBoundary bs index then some (bs.take index) else none

/-- The octets, cut at the last boundary up to `room` where they are more than that. -/
def cutOctets (room : Nat) (bs : Bytes) : Option Bytes :=
  if bs.length ≤ room then some bs else (boundaryUpTo bs room).bind (takeTo bs)

variable {bs : Bytes} {s : List Char} {c : Char} {b : UInt8} {i index room : Nat}

/-- **The last boundary is found.** -/
theorem boundaryUpTo_eq_some (hi : isBoundary bs i) : ∀ {index : Nat}, i ≤ index →
    (∀ j, i < j → j ≤ index → ¬isBoundary bs j) → boundaryUpTo bs index = some i
  | 0, hle, _ => by
    obtain rfl := Nat.le_zero.mp hle
    rw [boundaryUpTo, if_pos hi]
  | index + 1, hle, hnone => by
    rcases Nat.eq_or_lt_of_le hle with rfl | hlt
    · rw [boundaryUpTo, if_pos hi]
    · rw [boundaryUpTo, if_neg (hnone (index + 1) hlt (Nat.le_refl _))]
      exact boundaryUpTo_eq_some hi (Nat.le_of_lt_succ hlt) fun j hij hj =>
        hnone j hij (Nat.le_succ_of_le hj)

/-! ## The boundaries of a text -/

theorem isContinuation_of_lead {b₀ b₁ low high : UInt8} {more : Nat}
    (hl : lead b₀ = some (more, low, high)) (h₁ : (low ≤ b₁ && b₁ ≤ high) = true) :
    isContinuation b₀ = false ∧ isContinuation b₁ = true := by
  have ho := opens_of_lead hl h₁
  rw [← Bool.not_eq_true, isContinuation_iff, isContinuation_iff]
  match more, ho with
  | 1, ⟨hx, hy⟩ => omega
  | 2, ⟨hx, hy, _, _⟩ => omega
  | 3, ⟨hx, hy, _, _⟩ => omega

/-- **Of the octets of a character all but the first continue it.** -/
theorem exists_first (c : Char) : ∃ first more, String.utf8EncodeChar c = first :: more
    ∧ isContinuation first = false ∧ ∀ b ∈ more, isContinuation b = true := by
  cases hc : String.utf8EncodeChar c with
  | nil =>
    have hpos := c.utf8Size_pos
    rw [← String.length_utf8EncodeChar, hc] at hpos
    exact absurd hpos (Nat.lt_irrefl 0)
  | cons first more =>
    have hspells := spells_encode c
    rw [hc] at hspells
    refine ⟨first, more, rfl, ?_⟩
    generalize c.val.toNat = n at hspells
    cases hspells with
    | one h =>
      have hlow : first.toNat < 0x80 := UInt8.lt_iff_toNat_lt.mp h
      refine ⟨?_, fun b hb => absurd hb List.not_mem_nil⟩
      rw [← Bool.not_eq_true, isContinuation_iff]
      omega
    | two hl h₁ => simp [isContinuation_of_lead hl h₁]
    | three hl h₁ h₂ => simp [isContinuation_of_lead hl h₁, h₂]
    | four hl h₁ h₂ h₃ => simp [isContinuation_of_lead hl h₁, h₂, h₃]

theorem isBoundary_zero (bs : Bytes) : isBoundary bs 0 = true := rfl

/-- The octets of a text begin with a boundary behind whatever stands before them. -/
theorem isBoundary_append (front : Bytes) (s : List Char) (i : Nat) :
    isBoundary (front ++ Bytes.ofChars s) (front.length + i)
      = isBoundary (Bytes.ofChars s) i := by
  cases i with
  | zero =>
    rw [isBoundary_zero, Nat.add_zero, isBoundary]
    cases s with
    | nil => simp [Bytes.ofChars_eq_flatMap]
    | cons c s =>
      obtain ⟨first, more, hc, hfirst, -⟩ := exists_first c
      simp [Bytes.ofChars_eq_flatMap, hc, hfirst]
  | succ i =>
    have hzero : front.length + (i + 1) ≠ 0 := by omega
    rw [isBoundary, isBoundary, List.getElem?_append_right (Nat.le_add_right _ _),
      Nat.add_sub_cancel_left, List.length_append, beq_eq_false_iff_ne.mpr hzero]
    simp [beq_eq_decide]

theorem ofChars_cons (c : Char) (s : List Char) :
    Bytes.ofChars (c :: s) = String.utf8EncodeChar c ++ Bytes.ofChars s := by
  rw [Bytes.ofChars_eq_flatMap, Bytes.ofChars_eq_flatMap, List.flatMap_cons]

/-- **Within a character there is no boundary.** -/
theorem not_isBoundary_within (hpos : 0 < i) (hi : i < c.utf8Size) :
    ¬isBoundary (Bytes.ofChars (c :: s)) i := by
  obtain ⟨first, more, hc, -, hmore⟩ := exists_first c
  obtain ⟨j, rfl⟩ := Nat.exists_eq_succ_of_ne_zero (Nat.ne_of_gt hpos)
  have hj : j < more.length := by
    rw [← String.length_utf8EncodeChar, hc] at hi
    exact Nat.lt_of_succ_lt_succ hi
  have hcont := hmore more[j] (List.getElem_mem hj)
  have hend : j ≠ more.length + (Bytes.ofChars s).length := by omega
  rw [ofChars_cons, hc]
  simp [isBoundary, List.getElem?_append_left hj, List.getElem?_eq_getElem hj, hcont, hend]

/-- Behind a character the boundaries are those of what follows. -/
theorem isBoundary_behind (c : Char) (s : List Char) (i : Nat) :
    isBoundary (Bytes.ofChars (c :: s)) (c.utf8Size + i) = isBoundary (Bytes.ofChars s) i := by
  rw [ofChars_cons, ← String.length_utf8EncodeChar, isBoundary_append]

/-- **The boundaries of a text are the lengths of its starts.** -/
theorem isBoundary_ofChars_iff : ∀ {s : List Char} {i : Nat},
    isBoundary (Bytes.ofChars s) i ↔ ∃ start, start <+: s ∧ Text.utf8Length start = i
  | [], i => by
    have hnil : isBoundary (Bytes.ofChars []) i ↔ 0 = i := by
      cases i <;> simp [isBoundary, Bytes.ofChars_eq_flatMap]
    simp [hnil, List.prefix_nil, Text.utf8Length]
  | c :: s, i => by
    constructor
    · intro h
      by_cases hzero : i = 0
      · exact ⟨[], List.nil_prefix, hzero.symm⟩
      rcases Nat.lt_or_ge i c.utf8Size with hwithin | hbehind
      · exact absurd h (not_isBoundary_within (Nat.pos_of_ne_zero hzero) hwithin)
      · obtain ⟨j, rfl⟩ := Nat.exists_eq_add_of_le hbehind
        rw [isBoundary_behind, isBoundary_ofChars_iff] at h
        obtain ⟨start, hstart, rfl⟩ := h
        exact ⟨c :: start, List.cons_prefix_cons.mpr ⟨rfl, hstart⟩, rfl⟩
    · rintro ⟨_ | ⟨d, start⟩, hstart, rfl⟩
      · rfl
      · obtain ⟨rfl, hback⟩ := List.cons_prefix_cons.mp hstart
        rw [Text.utf8Length, isBoundary_behind]
        exact isBoundary_ofChars_iff.mpr ⟨start, hback, rfl⟩

theorem take_ofChars {start : List Char} (h : start <+: s) :
    (Bytes.ofChars s).take (Text.utf8Length start) = Bytes.ofChars start := by
  obtain ⟨back, rfl⟩ := h
  rw [← Bytes.length_ofChars, Bytes.ofChars_eq_flatMap (start ++ back), List.flatMap_append,
    ← Bytes.ofChars_eq_flatMap, List.take_left]

/-- **Going back from the room that there is comes to the end of the longest start that has room**,
which is a boundary, and not below zero. -/
theorem boundaryUpTo_ofChars (room : Nat) (s : List Char) :
    boundaryUpTo (Bytes.ofChars s) room = some (Text.utf8Length (Segment.cut room s)) := by
  have hcut := Segment.isLongestStart_cut room s
  refine boundaryUpTo_eq_some (isBoundary_ofChars_iff.mpr ⟨_, hcut.isStart, rfl⟩) hcut.length_le
    fun j hlt hle hj => ?_
  obtain ⟨start, hstart, rfl⟩ := isBoundary_ofChars_iff.mp hj
  have hprefix := hcut.longest start hstart hle
  exact absurd (Segment.utf8Length_sublist hprefix.sublist) (Nat.not_le.mpr hlt)

/-- **Cutting the octets of a text cuts the text.** -/
theorem cutOctets_ofChars (room : Nat) (s : List Char) :
    cutOctets room (Bytes.ofChars s) = some (Bytes.ofChars (Segment.cut room s)) := by
  have hcut := Segment.isLongestStart_cut room s
  rw [cutOctets, Bytes.length_ofChars]
  split
  next hroom => rw [hcut.eq hroom]
  next =>
    have hboundary := isBoundary_ofChars_iff.mpr ⟨_, hcut.isStart, rfl⟩
    rw [boundaryUpTo_ofChars, Option.bind_some, takeTo, if_pos hboundary,
      take_ofChars hcut.isStart]

end Utf8

end GuardedArchive
