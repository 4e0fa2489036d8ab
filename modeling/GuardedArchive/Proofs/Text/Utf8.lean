import GuardedArchive.Proofs.Entry.Location
import GuardedArchive.Zip.CodePage

/-!
# Proofs/Text/Utf8 — octets that are text are the octets of their text

    units (octets of c ++ rest)  =  c :: units rest

A sequence spells a number by the rules that `units` cuts octets by (`Spells`); so it is read as the
character of that number whatever follows, and it is what that character is encoded as
(`Spells.encode`).  As every character is spelled by its octets, a text is read back from its
octets, and octets that can be read are those of their text (`decode?_eq_some_iff`).  No octets have
a text that is shorter than they are (`length_le_decodeLossy`).
-/

namespace GuardedArchive.Utf8

variable {bs rest : Bytes} {n : Nat} {c : Char}

/-! ## Sequences -/

/-- The octets are a well-formed sequence with a number. -/
inductive Spells : Bytes → Nat → Prop
  | one {b : UInt8} (h : b < 0x80) : Spells [b] b.toNat
  | two {b₀ b₁ low high : UInt8} (hl : lead b₀ = some (1, low, high))
      (h₁ : (low ≤ b₁ && b₁ ≤ high) = true) :
      Spells [b₀, b₁] (b₀.toNat % 32 * 64 + payload b₁)
  | three {b₀ b₁ b₂ low high : UInt8} (hl : lead b₀ = some (2, low, high))
      (h₁ : (low ≤ b₁ && b₁ ≤ high) = true) (h₂ : isContinuation b₂ = true) :
      Spells [b₀, b₁, b₂] ((b₀.toNat % 16 * 64 + payload b₁) * 64 + payload b₂)
  | four {b₀ b₁ b₂ b₃ low high : UInt8} (hl : lead b₀ = some (3, low, high))
      (h₁ : (low ≤ b₁ && b₁ ≤ high) = true) (h₂ : isContinuation b₂ = true)
      (h₃ : isContinuation b₃ = true) :
      Spells [b₀, b₁, b₂, b₃]
        (((b₀.toNat % 8 * 64 + payload b₁) * 64 + payload b₂) * 64 + payload b₃)

/-- What the first two octets of a sequence can be; `more` octets follow the first. -/
def Opens : Nat → Nat → Nat → Prop
  | 1, x, y => (0xc2 ≤ x ∧ x ≤ 0xdf) ∧ 0x80 ≤ y ∧ y ≤ 0xbf
  | 2, x, y => (0xe0 ≤ x ∧ x ≤ 0xef) ∧ (0x80 ≤ y ∧ y ≤ 0xbf) ∧ (x = 0xe0 → 0xa0 ≤ y)
    ∧ (x = 0xed → y ≤ 0x9f)
  | 3, x, y => (0xf0 ≤ x ∧ x ≤ 0xf4) ∧ (0x80 ≤ y ∧ y ≤ 0xbf) ∧ (x = 0xf0 → 0x90 ≤ y)
    ∧ (x = 0xf4 → y ≤ 0x8f)
  | _, _, _ => False

theorem le_iff (b b' : UInt8) : (decide (b ≤ b') = true) ↔ b.toNat ≤ b'.toNat := by
  rw [decide_eq_true_iff, UInt8.le_iff_toNat_le]

/-- The table of first octets, by their numbers. -/
theorem lead_eq (b : UInt8) : lead b
    = if 0xc2 ≤ b.toNat ∧ b.toNat ≤ 0xdf then some (1, 0x80, 0xbf)
      else if b.toNat = 0xe0 then some (2, 0xa0, 0xbf)
      else if b.toNat = 0xed then some (2, 0x80, 0x9f)
      else if 0xe1 ≤ b.toNat ∧ b.toNat ≤ 0xef then some (2, 0x80, 0xbf)
      else if b.toNat = 0xf0 then some (3, 0x90, 0xbf)
      else if 0xf1 ≤ b.toNat ∧ b.toNat ≤ 0xf3 then some (3, 0x80, 0xbf)
      else if b.toNat = 0xf4 then some (3, 0x80, 0x8f)
      else none := by
  simp only [lead, Bool.and_eq_true, le_iff, beq_iff_eq, ← UInt8.toNat_inj, UInt8.reduceToNat]

theorem opens_of_lead {b₀ b₁ low high : UInt8} {more : Nat}
    (hl : lead b₀ = some (more, low, high)) (h₁ : (low ≤ b₁ && b₁ ≤ high) = true) :
    Opens more b₀.toNat b₁.toNat := by
  rw [lead_eq] at hl
  rw [Bool.and_eq_true, le_iff, le_iff] at h₁
  split_ifs at hl <;> simp only [Option.some.injEq, Prod.mk.injEq] at hl <;>
    obtain ⟨rfl, rfl, rfl⟩ := hl <;> simp only [Opens, UInt8.reduceToNat] at * <;> omega

theorem exists_lead {b₀ b₁ : UInt8} {more : Nat} (h : Opens more b₀.toNat b₁.toNat) :
    ∃ low high, lead b₀ = some (more, low, high) ∧ (low ≤ b₁ && b₁ ≤ high) = true := by
  simp only [lead_eq, Bool.and_eq_true, le_iff]
  match more, h with
  | 1, ⟨hx, hy⟩ => exact ⟨_, _, if_pos hx, hy⟩
  | 2, ⟨hx, hy, hlow, hhigh⟩ =>
    rw [if_neg (by omega)]
    split_ifs with he0 hed hmid
    · exact ⟨_, _, rfl, hlow he0, hy.2⟩
    · exact ⟨_, _, rfl, hy.1, hhigh hed⟩
    · exact ⟨_, _, rfl, hy⟩
    all_goals omega
  | 3, ⟨hx, hy, hlow, hhigh⟩ =>
    rw [if_neg (by omega), if_neg (by omega), if_neg (by omega), if_neg (by omega)]
    split_ifs with hf0 hmid hf4
    · exact ⟨_, _, rfl, hlow hf0, hy.2⟩
    · exact ⟨_, _, rfl, hy⟩
    · exact ⟨_, _, rfl, hy.1, hhigh hf4⟩
    · omega

theorem not_lt_of_lead {b : UInt8} {x : Nat × UInt8 × UInt8} (h : lead b = some x) :
    ¬b < 0x80 := fun hlt => by
  have hlow : b.toNat < 0x80 := UInt8.lt_iff_toNat_lt.mp hlt
  rw [lead_eq] at h
  split_ifs at h <;> omega

/-- **A sequence is read as the character of its number**, whatever follows. -/
theorem Spells.unitsOnto_append (h : Spells bs n) (read : List (Option Char)) (rest : Bytes) :
    unitsOnto read (bs ++ rest) = unitsOnto (some (Char.ofNat n) :: read) rest := by
  cases h with
  | one h => rw [List.singleton_append, unitsOnto, if_pos h]
  | two hl h₁ =>
    rw [List.cons_append, unitsOnto, if_neg (not_lt_of_lead hl), hl]
    simp [h₁]
  | three hl h₁ h₂ =>
    rw [List.cons_append, unitsOnto, if_neg (not_lt_of_lead hl), hl]
    simp [h₁, h₂]
  | four hl h₁ h₂ h₃ =>
    rw [List.cons_append, unitsOnto, if_neg (not_lt_of_lead hl), hl]
    simp [h₁, h₂, h₃]

theorem toNat_ofNat (h : n.isValidChar) : (Char.ofNat n).val.toNat = n := by
  rw [Char.ofNat, dif_pos h]
  rfl

theorem ofNat_eq_octet {n : Nat} {b : UInt8} (h : n = b.toNat) : UInt8.ofNat n = b := by
  rw [h, UInt8.ofNat_toNat]

theorem isContinuation_iff {b : UInt8} :
    isContinuation b = true ↔ 0x80 ≤ b.toNat ∧ b.toNat ≤ 0xbf := by
  simp [isContinuation, UInt8.le_iff_toNat_le]

/-- **A sequence is what the character of its number is encoded as.** -/
theorem Spells.encode (h : Spells bs n) : String.utf8EncodeChar (Char.ofNat n) = bs := by
  cases h with
  | @one b h =>
    have hb : b.toNat < 0x80 := by simpa [UInt8.lt_iff_toNat_lt] using h
    rw [String.utf8EncodeChar, toNat_ofNat (.inl (by omega)), if_pos (by omega), 
      UInt8.ofNat_toNat]
  | @two b₀ b₁ _ _ hl h₁ =>
    have ho := opens_of_lead hl h₁
    simp only [Opens] at ho
    simp only [payload]
    rw [String.utf8EncodeChar, toNat_ofNat (.inl (by omega)), if_neg (by omega),
      if_pos (by omega), ofNat_eq_octet (b := b₀) (by omega),
      ofNat_eq_octet (b := b₁) (by omega)]
  | @three b₀ b₁ b₂ _ _ hl h₁ h₂ =>
    have ho := opens_of_lead hl h₁
    rw [isContinuation_iff] at h₂
    simp only [Opens] at ho
    simp only [payload]
    rw [String.utf8EncodeChar, toNat_ofNat (by rw [Nat.isValidChar]; omega), if_neg (by omega),
      if_neg (by omega), if_pos (by omega), ofNat_eq_octet (b := b₀) (by omega),
      ofNat_eq_octet (b := b₁) (by omega), ofNat_eq_octet (b := b₂) (by omega)]
  | @four b₀ b₁ b₂ b₃ _ _ hl h₁ h₂ h₃ =>
    have ho := opens_of_lead hl h₁
    rw [isContinuation_iff] at h₂ h₃
    simp only [Opens] at ho
    simp only [payload]
    rw [String.utf8EncodeChar, toNat_ofNat (by rw [Nat.isValidChar]; omega), if_neg (by omega),
      if_neg (by omega), if_neg (by omega), ofNat_eq_octet (b := b₀) (by omega),
      ofNat_eq_octet (b := b₁) (by omega), ofNat_eq_octet (b := b₂) (by omega),
      ofNat_eq_octet (b := b₃) (by omega)]

theorem toNat_octet {n : Nat} (h : n < 256) : (UInt8.ofNat n).toNat = n := by
  rw [UInt8.toNat_ofNat', Nat.mod_eq_of_lt h]

theorem isContinuation_octet (n : Nat) : isContinuation (UInt8.ofNat (n % 64 + 128)) = true := by
  rw [isContinuation_iff, toNat_octet (by omega)]
  omega

/-- **A character is spelled by its octets.** -/
theorem spells_encode (c : Char) : Spells (String.utf8EncodeChar c) c.val.toNat := by
  have hv : c.val.toNat.isValidChar := c.valid
  rw [String.utf8EncodeChar]
  generalize c.val.toNat = v at hv
  rw [Nat.isValidChar] at hv
  split_ifs with h1 h2 h3
  · have hb : (UInt8.ofNat v).toNat = v := toNat_octet (by omega)
    have := Spells.one (UInt8.lt_iff_toNat_lt.mpr (hb ▸ Nat.lt_succ_of_le h1))
    rwa [hb] at this
  · have ho : Opens 1 (UInt8.ofNat (v / 64 % 32 + 192)).toNat
        (UInt8.ofNat (v % 64 + 128)).toNat := by
      rw [toNat_octet (by omega), toNat_octet (by omega), Opens]
      omega
    obtain ⟨low, high, hl, h₁⟩ := exists_lead ho
    convert Spells.two hl h₁ using 1
    simp only [payload]
    rw [toNat_octet (by omega), toNat_octet (by omega)]
    omega
  · have ho : Opens 2 (UInt8.ofNat (v / 4096 % 16 + 224)).toNat
        (UInt8.ofNat (v / 64 % 64 + 128)).toNat := by
      rw [toNat_octet (by omega), toNat_octet (by omega), Opens]
      omega
    obtain ⟨low, high, hl, h₁⟩ := exists_lead ho
    convert Spells.three hl h₁ (isContinuation_octet v) using 1
    simp only [payload]
    rw [toNat_octet (by omega), toNat_octet (by omega), toNat_octet (by omega)]
    omega
  · have ho : Opens 3 (UInt8.ofNat (v / 262144 % 8 + 240)).toNat
        (UInt8.ofNat (v / 4096 % 64 + 128)).toNat := by
      rw [toNat_octet (by omega), toNat_octet (by omega), Opens]
      omega
    obtain ⟨low, high, hl, h₁⟩ := exists_lead ho
    convert Spells.four hl h₁ (isContinuation_octet (v / 64)) (isContinuation_octet v) using 1
    simp only [payload]
    rw [toNat_octet (by omega), toNat_octet (by omega), toNat_octet (by omega),
      toNat_octet (by omega)]
    omega

/-! ## Texts -/

/-- The octets of a text are read as its characters, whatever follows. -/
theorem unitsOnto_encode (rest : Bytes) : ∀ (s : List Char) (read : List (Option Char)),
    unitsOnto read (s.flatMap String.utf8EncodeChar ++ rest)
      = unitsOnto ((s.map some).reverse ++ read) rest
  | [], _ => rfl
  | c :: s, read => by
    rw [List.flatMap_cons, List.append_assoc, (spells_encode c).unitsOnto_append,
      show c.val.toNat = c.toNat from rfl, Char.ofNat_toNat, unitsOnto_encode rest s]
    simp

/-- **The octets of a text are read as its characters.** -/
theorem units_ofChars (s : List Char) : units (Bytes.ofChars s) = s.map some := by
  have h := unitsOnto_encode [] s []
  rw [List.append_nil] at h
  rw [units, Bytes.ofChars_eq_flatMap, h, unitsOnto]
  simp

theorem mem_unitsOnto {u : Option Char} {read : List (Option Char)} (h : u ∈ read) (bs : Bytes) :
    u ∈ unitsOnto read bs := by
  fun_induction unitsOnto read bs <;> simp_all

/-- A sequence in front of the octets of characters. -/
theorem Spells.exists_chars (h : Spells bs n)
    (hrest : ∃ s : List Char, rest = s.flatMap String.utf8EncodeChar) :
    ∃ s : List Char, bs ++ rest = s.flatMap String.utf8EncodeChar := by
  obtain ⟨s, rfl⟩ := hrest
  exact ⟨Char.ofNat n :: s, by rw [List.flatMap_cons, h.encode]⟩

/-- Octets without an ill-formed piece are those of characters. -/
theorem exists_chars {read : List (Option Char)} {bs : Bytes} (h : none ∉ unitsOnto read bs) :
    ∃ s : List Char, bs = s.flatMap String.utf8EncodeChar := by
  fun_induction unitsOnto read bs with
  | case1 => exact ⟨[], rfl⟩
  | case2 read b₀ r₀ hb ih => exact (Spells.one hb).exists_chars (ih h)
  | case6 _ _ _ _ _ _ _ h₁ hl ih =>
    exact (Spells.two hl (by simpa using h₁)).exists_chars (ih h)
  | case9 _ _ _ _ _ _ h₁ _ _ h₂ hl _ ih =>
    exact (Spells.three hl (by simpa using h₁) (by simpa using h₂)).exists_chars (ih h)
  | case12 _ _ _ more _ _ hl _ h₁ hone _ h₂ htwo _ _ h₃ ih =>
    have h₁ := by simpa using h₁
    obtain rfl : more = 3 := by
      have ho := opens_of_lead hl (by simpa using h₁)
      match more, hone, htwo, ho with
      | 3, _, _, _ => rfl
    exact (Spells.four hl (by simpa using h₁) (by simpa using h₂)
      (by simpa using h₃)).exists_chars (ih h)
  | case3 | case4 | case5 | case7 | case8 | case10 | case11 =>
    first
      | exact absurd (mem_unitsOnto List.mem_cons_self _) h
      | simp at h

/-- **Octets that can be read are those of their text**, and those of a text can be read. -/
theorem decode?_eq_some_iff {s : String} : decode? bs = some s ↔ bs = Bytes.ofString s := by
  have hread : ∀ s : List Char, decode? (Bytes.ofChars s) = some (String.ofList s) := fun s => by
    rw [decode?, units_ofChars]
    simp [List.filterMap_map]
  constructor
  · intro h
    have hall : none ∉ units bs := fun hnone => by
      rw [decode?, if_neg (by simpa using hnone)] at h
      cases h
    obtain ⟨t, rfl⟩ := exists_chars hall
    rw [← Bytes.ofChars_eq_flatMap, hread] at h
    rw [← Bytes.ofChars_eq_flatMap, ← Option.some.inj h, Bytes.ofChars]
  · rintro rfl
    have := hread s.toList
    rwa [Bytes.ofChars, String.ofList_toList] at this

/-- **The text of the octets of a text.** -/
theorem decodeLossy_ofChars (s : List Char) :
    decodeLossy (Bytes.ofChars s) = String.ofList s := by
  rw [decodeLossy, units_ofChars, List.map_map]
  exact congrArg String.ofList (List.map_id s)

/-- Octets that can be read have no other text. -/
theorem decodeLossy_of_decode? {s : String} (h : decode? bs = some s) : decodeLossy bs = s := by
  have := decodeLossy_ofChars s.toList
  rwa [Bytes.ofChars, String.ofList_toList, ← decode?_eq_some_iff.mp h] at this

theorem unitsOnto_of_ascii : ∀ (bs : Bytes) (read : List (Option Char)), (∀ b ∈ bs, b < 0x80) →
    unitsOnto read bs = read.reverse ++ bs.map fun b => some (CodePage.char b)
  | [], read, _ => by rw [unitsOnto, List.map_nil, List.append_nil]
  | b :: bs, read, h => by
    have hb := h b List.mem_cons_self
    rw [unitsOnto, if_pos hb, unitsOnto_of_ascii bs _ fun b' hb' => h b' (.tail b hb'),
      List.map_cons, CodePage.char, if_pos hb]
    simp

/-- **Octets below 128 are the same text in the code page.** -/
theorem decodeLossy_of_ascii (h : ∀ b ∈ bs, b < 0x80) : decodeLossy bs = CodePage.decode bs := by
  rw [decodeLossy, units, unitsOnto_of_ascii bs [] h, CodePage.decode, List.reverse_nil,
    List.nil_append, List.map_map]
  rfl

/-! ## Lengths -/

/-- How many octets the text has that units are shown as. -/
def width (us : List (Option Char)) : Nat :=
  (us.flatMap fun u => String.utf8EncodeChar (u.getD '\uFFFD')).length

theorem width_cons (u : Option Char) (us : List (Option Char)) :
    width (u :: us) = (u.getD '\uFFFD').utf8Size + width us := by
  rw [width, List.flatMap_cons, List.length_append, String.length_utf8EncodeChar, ← width]

theorem width_reverse (us : List (Option Char)) : width us.reverse = width us := by
  rw [width, width, List.length_flatMap, List.length_flatMap, List.map_reverse, List.sum_reverse]

/-- A sequence is as long as the character that it is read as. -/
theorem Spells.length_add_width_le {read : List (Option Char)} {w : Nat} (h : Spells bs n)
    (hrest : rest.length + width (some (Char.ofNat n) :: read) ≤ w) :
    (bs ++ rest).length + width read ≤ w := by
  have hsize : (Char.ofNat n).utf8Size = bs.length := by
    rw [← String.length_utf8EncodeChar, h.encode]
  rw [width_cons, Option.getD_some, hsize] at hrest
  rw [List.length_append]
  omega

/-- No unit is shown by fewer octets than it took; an ill-formed piece has three at most, and so has
U+FFFD. -/
theorem length_add_width_le (read : List (Option Char)) (bs : Bytes) :
    bs.length + width read ≤ width (unitsOnto read bs) := by
  have hpiece : ('\uFFFD' : Char).utf8Size = 3 := by decide
  fun_induction unitsOnto read bs with
  | case1 => exact Nat.le_of_eq ((Nat.zero_add _).trans (width_reverse _).symm)
  | case2 read b₀ r₀ hb ih => exact (Spells.one hb).length_add_width_le ih
  | case6 _ _ _ _ _ _ _ h₁ hl ih =>
    exact (Spells.two hl (by simpa using h₁)).length_add_width_le ih
  | case9 _ _ _ _ _ _ h₁ _ _ h₂ hl _ ih =>
    exact (Spells.three hl (by simpa using h₁) (by simpa using h₂)).length_add_width_le ih
  | case12 _ _ _ more _ _ hl _ h₁ hone _ h₂ htwo _ _ h₃ ih =>
    have h₁ := by simpa using h₁
    obtain rfl : more = 3 := by
      have ho := opens_of_lead hl (by simpa using h₁)
      match more, hone, htwo, ho with
      | 3, _, _, _ => rfl
    exact (Spells.four hl (by simpa using h₁) (by simpa using h₂)
      (by simpa using h₃)).length_add_width_le ih
  | case3 | case4 | case5 | case7 | case8 | case10 | case11 =>
    simp_all only [width_reverse, width_cons, Option.getD_none, List.length_cons, List.length_nil]
    omega

/-- **The text of octets is not shorter than they are.** -/
theorem length_le_decodeLossy (bs : Bytes) : bs.length ≤ (decodeLossy bs).utf8ByteSize := by
  have hsize : (decodeLossy bs).utf8ByteSize
      = (Bytes.ofChars ((units bs).map (·.getD '\uFFFD'))).length := rfl
  rw [hsize, Bytes.ofChars_eq_flatMap, List.flatMap_map]
  exact length_add_width_le [] bs

end GuardedArchive.Utf8

namespace GuardedArchive.CodePage

/-- The text of octets in the code page is not shorter than they are. -/
theorem length_le_decode (bs : Bytes) : bs.length ≤ (decode bs).utf8ByteSize := by
  have hsize : (decode bs).utf8ByteSize = (Bytes.ofChars (bs.map char)).length := rfl
  rw [hsize, Bytes.length_ofChars]
  clear hsize
  induction bs with
  | nil => exact Nat.zero_le _
  | cons b bs ih =>
    rw [List.length_cons, List.map_cons, Text.utf8Length, Nat.add_comm]
    exact Nat.add_le_add (Char.utf8Size_pos _) ih

end GuardedArchive.CodePage
