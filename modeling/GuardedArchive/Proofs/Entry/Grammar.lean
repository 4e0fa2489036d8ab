import GuardedArchive.Proofs.Text.Boundary
import Mathlib.Data.List.Forall2

/-!
# Proofs/Entry/Grammar — which names pass the name check

    name  =  s₁ │ s₂ │ … │ sₖ        cut at `/` and at `\`

A name is asked six things, in a fixed order, all of them about its segments and its characters as
they come (`Rule`).  The check turns each `\` into `/` first and then tests octets, characters,
segments and the whole; that comes to asking the rules (`check_eq_ask`), since a separator is no
blank, no control character and no part of an arrow.  So names that differ in their separators only
are checked alike, and a name that passes is answered with its segments joined by `/`
(`check_accepts_grammar`).
-/

namespace GuardedArchive

/-- An octet below 0x80 in front is a character of its own. -/
theorem Bytes.ofChars_eq_cons_iff {s : List Char} {b : UInt8} {bs : Bytes} (hb : b.toNat < 0x80) :
    ofChars s = b :: bs ↔ ∃ (c : Char) (back : List Char), s = c :: back ∧ c.toNat = b.toNat
      ∧ ofChars back = bs := by
  have hone : ∀ c : Char, c.toNat = b.toNat → String.utf8EncodeChar c = [b] := fun c hc => by
    have hlow : c.toNat ≤ 127 := by omega
    have hoctet : UInt8.ofNat c.toNat = b := by rw [hc, UInt8.ofNat_toNat]
    simp [String.utf8EncodeChar, hlow, hoctet]
  constructor
  · intro h
    cases s with
    | nil => cases h
    | cons c back =>
      have hmem : b ∈ String.utf8EncodeChar c := by
        obtain ⟨first, more, hfirst, -⟩ := Utf8.exists_first c
        rw [ofChars_eq_flatMap, List.flatMap_cons, hfirst, List.cons_append] at h
        rw [hfirst, (List.cons.inj h).1]
        exact List.mem_cons_self
      have hc : c.toNat = b.toNat := val_of_mem hb hmem
      rw [ofChars_eq_flatMap, List.flatMap_cons, hone c hc] at h
      exact ⟨c, back, rfl, hc, (ofChars_eq_flatMap back).trans (List.cons.inj h).2⟩
  · rintro ⟨c, back, rfl, hc, rfl⟩
    rw [ofChars_eq_flatMap, List.flatMap_cons, hone c hc, ← ofChars_eq_flatMap,
      List.singleton_append]

namespace EntryName

/-! ## Segments -/

/-- A character that parts two segments of a name. -/
def isSeparator (c : Char) : Bool := c == '/' || c == '\\'

/-- The segments of a name as it comes. -/
def parts (name : String) : List (List Char) := name.toList.splitOnP isSeparator

/-- The segments of a name joined by `/`. -/
def rejoined (name : String) : String := String.ofList (['/'].intercalate (parts name))

/-- Two names differ at most in which separators they have. -/
def SameButSeparators (a b : String) : Prop :=
  List.Forall₂ (fun c d => c = d ∨ isSeparator c ∧ isSeparator d) a.toList b.toList

instance (a b : String) : Decidable (SameButSeparators a b) :=
  inferInstanceAs (Decidable (List.Forall₂ _ _ _))

variable {limits : Limits} {name normal a b : String} {s : List Char} {c : Char}

/-- **Separators are made normal between the segments**, which stay. -/
theorem segments_normalizeSeparators (name : String) :
    segments (normalizeSeparators name) = parts name := by
  rw [segments, normalizeSeparators, String.toList_ofList, parts]
  induction name.toList with
  | nil => rfl
  | cons c s ih =>
    rw [List.map_cons, List.splitOn_cons_eq_if_modifyHead, List.splitOnP_cons_eq_if_modifyHead, ih,
      isSeparator]
    by_cases hback : c = '\\'
    · simp [hback]
    · simp [hback]

theorem normalizeSeparators_eq (name : String) : normalizeSeparators name = rejoined name := by
  rw [rejoined, ← segments_normalizeSeparators, segments, List.intercalate_splitOn,
    String.ofList_toList]

/-- A name is as long with its separators normal. -/
theorem utf8ByteSize_normalizeSeparators (name : String) :
    (normalizeSeparators name).utf8ByteSize = name.utf8ByteSize := by
  have hsize : ∀ s : List Char, (String.ofList s).utf8ByteSize = Text.utf8Length s :=
    Bytes.length_ofChars
  rw [normalizeSeparators, hsize, ← String.ofList_toList (s := name), hsize, String.toList_ofList]
  induction name.toList with
  | nil => rfl
  | cons c cs ih =>
    rw [List.map_cons, Text.utf8Length, ih, Text.utf8Length]
    split
    next h => rw [h]; rfl
    next => rfl

/-- The first segment ends before the first separator. -/
theorem head?_splitOn (s : List Char) :
    (s.splitOn '/').head? = some (s.takeWhile (· != '/')) := by
  induction s with
  | nil => rfl
  | cons c s ih =>
    rw [List.splitOn_cons_eq_if_modifyHead]
    by_cases hslash : c = '/'
    · simp [hslash]
    · simp [hslash, ih]

/-! ## Drives and arrows -/

/-- An octet that spells a letter. -/
def isLetter (b : UInt8) : Bool := (0x41 ≤ b && b ≤ 0x5a) || (0x61 ≤ b && b ≤ 0x7a)

/-- The octets of a name begin with those of a letter and a colon, and end there or go on with a
slash. -/
def startsWithDrive : Bytes → Bool
  | letter :: colon :: back =>
    isLetter letter && colon == 0x3a && back.head?.all (· == Path.slash)
  | _ => false

theorem hasDrive_iff_exists : hasDrive s = true ↔ ∃ (letter : Char) (back : List Char),
    s = letter :: ':' :: back ∧ letter.isAlpha ∧ back.head?.all (· == '/') := by
  constructor
  · intro h
    unfold hasDrive at h
    split at h
    next letter => exact ⟨letter, [], rfl, h, rfl⟩
    next letter back => exact ⟨letter, '/' :: back, rfl, h, rfl⟩
    next => cases h
  · rintro ⟨letter, back, rfl, hletter, hback⟩
    cases back with
    | nil => exact hletter
    | cons d back =>
      obtain rfl : d = '/' := beq_iff_eq.mp hback
      exact hletter

/-- **A drive is a first segment of a letter and a colon.** -/
theorem hasDrive_iff : hasDrive s = true
    ↔ ∃ letter : Char, letter.isAlpha ∧ s.takeWhile (· != '/') = [letter, ':'] := by
  rw [hasDrive_iff_exists]
  constructor
  · rintro ⟨letter, back, rfl, hletter, hback⟩
    have hne : letter ≠ '/' := by
      rintro rfl
      exact absurd hletter (by decide)
    refine ⟨letter, hletter, ?_⟩
    cases back with
    | nil => simp [hne]
    | cons d back =>
      obtain rfl : d = '/' := beq_iff_eq.mp hback
      simp [hne]
  · rintro ⟨letter, hletter, hfirst⟩
    refine ⟨letter, s.dropWhile (· != '/'), ?_, hletter, ?_⟩
    · conv_lhs => rw [← List.takeWhile_append_dropWhile (p := (· != '/')) (l := s), hfirst]
      rfl
    · have hstop := List.head?_dropWhile_not (· != '/') s
      cases hc : (s.dropWhile (· != '/')).head? with
      | none => rfl
      | some c => simpa [hc] using hstop

theorem toNat_lt_of_isLetter {b : UInt8} (h : isLetter b = true) : b.toNat < 0x80 := by
  have hupper : (0x5a : UInt8).toNat = 0x5a := rfl
  have hlower : (0x7a : UInt8).toNat = 0x7a := rfl
  simp only [isLetter, Bool.or_eq_true, Bool.and_eq_true, decide_eq_true_eq,
    UInt8.le_iff_toNat_le] at h
  omega

theorem isAlpha_iff : c.isAlpha = true
    ↔ (0x41 ≤ c.toNat ∧ c.toNat ≤ 0x5a) ∨ (0x61 ≤ c.toNat ∧ c.toNat ≤ 0x7a) := by
  change (decide (65 ≤ c.val ∧ c.val ≤ 90)
    || decide (97 ≤ c.val) && decide (c.val ≤ 122)) = true ↔ _
  simp only [Bool.or_eq_true, Bool.and_eq_true, decide_eq_true_eq, UInt32.le_iff_toNat_le]
  rfl

theorem isLetter_eq_isAlpha {b : UInt8} (h : c.toNat = b.toNat) : isLetter b = c.isAlpha := by
  rw [Bool.eq_iff_iff, isAlpha_iff, h]
  simp only [isLetter, Bool.or_eq_true, Bool.and_eq_true, decide_eq_true_eq,
    UInt8.le_iff_toNat_le]
  rfl

theorem toNat_lt_of_isAlpha (h : c.isAlpha = true) : c.toNat < 0x80 := by
  rw [isAlpha_iff] at h
  omega

/-- The octets of a text begin with a slash where the text does. -/
theorem head?_ofChars_all (s : List Char) :
    (Bytes.ofChars s).head?.all (· == Path.slash) = s.head?.all (· == '/') := by
  cases s with
  | nil => rfl
  | cons c s =>
    obtain ⟨first, more, hfirst, -⟩ := Utf8.exists_first c
    rw [Bytes.ofChars_eq_flatMap, List.flatMap_cons, hfirst]
    change (first == Path.slash) = (c == '/')
    rw [Bool.eq_iff_iff, beq_iff_eq, beq_iff_eq]
    constructor
    · rintro rfl
      exact Bytes.eq_slash_of_mem (hfirst ▸ List.mem_cons_self)
    · rintro rfl
      exact (List.cons.inj hfirst).1.symm

theorem ofChars_letter_colon (hletter : c.isAlpha = true) (s : List Char) :
    Bytes.ofChars (c :: ':' :: s) = UInt8.ofNat c.toNat :: 0x3a :: Bytes.ofChars s := by
  have hlow := toNat_lt_of_isAlpha hletter
  have hc : c.toNat = (UInt8.ofNat c.toNat).toNat := by
    rw [UInt8.toNat_ofNat', Nat.mod_eq_of_lt (by omega)]
  have hrest : Bytes.ofChars (':' :: s) = 0x3a :: Bytes.ofChars s :=
    (Bytes.ofChars_eq_cons_iff (by decide)).mpr ⟨':', s, rfl, rfl, rfl⟩
  exact (Bytes.ofChars_eq_cons_iff (hc ▸ hlow)).mpr ⟨c, ':' :: s, rfl, hc, hrest⟩

/-- **A drive shows in the octets of a name**: no character of more than one octet looks like a
letter or a colon. -/
theorem startsWithDrive_ofChars (s : List Char) :
    startsWithDrive (Bytes.ofChars s) = hasDrive s := by
  rw [Bool.eq_iff_iff, hasDrive_iff_exists]
  constructor
  · intro h
    unfold startsWithDrive at h
    split at h
    next first second octets hs =>
      simp only [Bool.and_eq_true, beq_iff_eq] at h
      obtain ⟨⟨hletter, rfl⟩, hback⟩ := h
      have hlow := toNat_lt_of_isLetter hletter
      obtain ⟨letter, rest, rfl, hc, hrest⟩ := (Bytes.ofChars_eq_cons_iff hlow).mp hs
      obtain ⟨colon, back, rfl, hd, rfl⟩ := (Bytes.ofChars_eq_cons_iff (by decide)).mp hrest
      obtain rfl : colon = ':' := Char.toNat_inj.mp hd
      exact ⟨letter, back, rfl, isLetter_eq_isAlpha hc ▸ hletter, head?_ofChars_all back ▸ hback⟩
    next => cases h
  · rintro ⟨letter, back, rfl, hletter, hback⟩
    have hlow := toNat_lt_of_isAlpha hletter
    have hc : letter.toNat = (UInt8.ofNat letter.toNat).toNat := by
      rw [UInt8.toNat_ofNat', Nat.mod_eq_of_lt (by omega)]
    rw [ofChars_letter_colon hletter, startsWithDrive, isLetter_eq_isAlpha hc, hletter,
      head?_ofChars_all, hback]
    rfl

/-- **An arrow is a part of a name.** -/
theorem hasArrow_iff : hasArrow s = true ↔ ['-', '>'] <:+: s := by
  induction s with
  | nil => simp [hasArrow]
  | cons c s ih =>
    have hfront : ['-', '>'] <+: c :: s ↔ c = '-' ∧ s.head? = some '>' := by
      rw [List.cons_prefix_cons, eq_comm]
      cases s <;> simp [List.cons_prefix_cons, eq_comm]
    rw [hasArrow, List.infix_cons_iff, hfront, ← ih]
    split
    next h => exact iff_of_true rfl (.inl h)
    next h => exact ⟨.inr, fun hor => hor.resolve_left h⟩

/-- Separators are no part of an arrow. -/
theorem hasArrow_normalizeSeparators (name : String) :
    hasArrow (normalizeSeparators name).toList = hasArrow name.toList := by
  rw [normalizeSeparators, String.toList_ofList]
  induction name.toList with
  | nil => rfl
  | cons c s ih =>
    rw [List.map_cons, hasArrow, hasArrow, ih]
    have hdash : (if c = '\\' then '/' else c) = '-' ↔ c = '-' := by
      split
      next h => simp [h]
      next => rfl
    have hhead : (s.map fun d => if d = '\\' then '/' else d).head? = some '>'
        ↔ s.head? = some '>' := by
      cases s with
      | nil => rfl
      | cons d s =>
        rw [List.map_cons, List.head?_cons, List.head?_cons, Option.some_inj, Option.some_inj]
        split
        next h => simp [h]
        next => rfl
    simp only [hdash, hhead]

/-! ## Rules -/

/-- One letter and a colon. -/
def isDrive : List Char → Bool
  | [letter, ':'] => letter.isAlpha
  | _ => false

/-- What a name is asked. -/
inductive Rule
  | notBlank
  | notLong
  | noControl
  | noUp
  | relative
  | noArrow
deriving DecidableEq, Repr

namespace Rule

/-- The rules, in the order in which a name is asked them. -/
def all : List Rule := [notBlank, notLong, noControl, noUp, relative, noArrow]

/-- **A name keeps a rule**, told of its segments and its characters as they come. -/
def Holds (limits : Limits) (name : String) : Rule → Prop
  | notBlank => ∃ c ∈ name.toList, isBlank c = false
  | notLong => name.utf8ByteSize ≤ limits.maxEntryNameLength
  | noControl => ∀ c ∈ name.toList, 0x20 ≤ c.toNat
  | noUp => ∀ s ∈ parts name, s ≠ ['.', '.']
  | relative => ∀ first ∈ (parts name).head?, first ≠ [] ∧ isDrive first = false
  | noArrow => ¬['-', '>'] <:+: name.toList

-- The quantifiers go over the characters and segments of the name, and not over all characters.
instance (limits : Limits) (name : String) : DecidablePred (Holds limits name)
  | notBlank => List.decidableBEx (isBlank · = false) name.toList
  | notLong => Nat.decLe name.utf8ByteSize limits.maxEntryNameLength
  | noControl => List.decidableBAll (fun c : Char => 0x20 ≤ c.toNat) name.toList
  | noUp => List.decidableBAll (· ≠ ['.', '.']) (parts name)
  | relative => inferInstanceAs (Decidable (∀ first ∈ (parts name).head?, _))
  | noArrow => inferInstanceAs (Decidable ¬_)

/-- What a name is refused with that breaks a rule. -/
def violation (limits : Limits) (name : String) : Rule → Violation
  | notBlank => .emptyName
  | notLong => .nameTooLong name.utf8ByteSize limits.maxEntryNameLength
  | noControl => .controlCharacter (Text.escaped (rejoined name))
  | noUp => .pathTraversal (.ofString (rejoined name))
  | relative => .absolutePath (rejoined name)
  | noArrow => .linkMarker (rejoined name)

/-- A name is asked one rule after the other, up to the first that it breaks. -/
def ask (limits : Limits) (name : String) : List Rule → Except ArchiveError String
  | [] => .ok (rejoined name)
  | rule :: rules =>
    if rule.Holds limits name then ask limits name rules
    else .error (.violation (rule.violation limits name))

variable {rule : Rule} {rules : List Rule} {e : ArchiveError}

theorem ask_eq_ok_iff : ask limits name rules = .ok normal
    ↔ (∀ rule ∈ rules, rule.Holds limits name) ∧ normal = rejoined name := by
  induction rules with
  | nil => simp [ask, eq_comm]
  | cons rule rules ih =>
    rw [ask]
    split_ifs with hholds
    · rw [ih, List.forall_mem_cons, and_iff_right hholds]
    · exact iff_of_false (fun h => by cases h) fun h => hholds (h.1 rule List.mem_cons_self)

/-- **A name is refused with the first rule that it breaks.** -/
theorem ask_eq_error_iff : ask limits name rules = .error e
    ↔ ∃ front rule back, rules = front ++ rule :: back ∧ (∀ kept ∈ front, kept.Holds limits name)
      ∧ ¬rule.Holds limits name ∧ e = .violation (rule.violation limits name) := by
  induction rules with
  | nil => simp [ask]
  | cons rule rules ih =>
    rw [ask]
    split_ifs with hholds
    · rw [ih]
      constructor
      · rintro ⟨front, broken, back, rfl, hfront, hbroken⟩
        exact ⟨rule :: front, broken, back, rfl, List.forall_mem_cons.mpr ⟨hholds, hfront⟩, hbroken⟩
      · rintro ⟨front, broken, back, hrules, hfront, hbroken, he⟩
        cases front with
        | nil => exact absurd ((List.cons.inj hrules).1 ▸ hholds) hbroken
        | cons kept front =>
          exact ⟨front, broken, back, (List.cons.inj hrules).2, (List.forall_mem_cons.mp hfront).2,
            hbroken, he⟩
    · constructor
      · intro h
        exact ⟨[], rule, rules, rfl, fun _ h => absurd h List.not_mem_nil, hholds,
          (Except.error.inj h).symm⟩
      · rintro ⟨front, broken, back, hrules, hfront, -, rfl⟩
        cases front with
        | nil => rw [(List.cons.inj hrules).1]
        | cons kept front =>
          exact absurd ((List.cons.inj hrules).1 ▸ hfront kept List.mem_cons_self) hholds

/-! ## The tests of the check -/

theorem allBlank_iff : Text.allBlank name = true ↔ ¬notBlank.Holds limits name := by
  simp [Text.allBlank, Holds]

theorem any_control_iff :
    (normalizeSeparators name).toList.any (·.toNat < 0x20) = true
      ↔ ¬noControl.Holds limits name := by
  have hkept : ∀ c : Char, (if c = '\\' then '/' else c).toNat < 0x20 ↔ c.toNat < 0x20 := by
    intro c
    split
    next h => simp [h]
    next => rfl
  rw [normalizeSeparators, String.toList_ofList, List.any_map]
  simp [Holds, Function.comp_def, hkept]

theorem contains_dotDot_iff :
    (segments (normalizeSeparators name)).contains ['.', '.'] = true
      ↔ ¬noUp.Holds limits name := by
  rw [segments_normalizeSeparators, List.contains_iff_mem, Holds]
  simp

theorem isDrive_iff : isDrive s = true ↔ ∃ letter : Char, letter.isAlpha ∧ s = [letter, ':'] := by
  constructor
  · intro h
    unfold isDrive at h
    split at h
    next letter => exact ⟨letter, h, rfl⟩
    next => cases h
  · rintro ⟨letter, hletter, rfl⟩
    exact hletter

/-- A name that is not empty starts relatively where its first segment is neither empty nor a
drive. -/
theorem startsAbsolute_iff (hne : name.toList ≠ []) :
    ((normalizeSeparators name).toList.head? = some '/'
        || hasDrive (normalizeSeparators name).toList) = true
      ↔ ¬relative.Holds limits name := by
  have hfirst : (parts name).head?
      = some ((normalizeSeparators name).toList.takeWhile (· != '/')) := by
    rw [← segments_normalizeSeparators, segments, head?_splitOn]
  have hne' : (normalizeSeparators name).toList ≠ [] := by
    rw [normalizeSeparators, String.toList_ofList]
    simpa using hne
  rw [Holds, hfirst, Bool.or_eq_true, hasDrive_iff, ← isDrive_iff, decide_eq_true_eq]
  generalize (normalizeSeparators name).toList = s at hne'
  have hslash : s.head? = some '/' ↔ s.takeWhile (· != '/') = [] := by
    cases s with
    | nil => exact absurd rfl hne'
    | cons c s => by_cases hc : c = '/' <;> simp [hc]
  rw [hslash]
  simp only [Option.mem_some_iff, forall_eq', ne_eq, not_and_or, not_not, Bool.not_eq_false]

theorem hasArrow_iff_not_holds :
    hasArrow (normalizeSeparators name).toList = true ↔ ¬noArrow.Holds limits name := by
  rw [hasArrow_normalizeSeparators, hasArrow_iff, Holds, not_not]

/-- A test in front of an answer asks a rule in front of the others. -/
theorem ite_eq_ask (rule : Rule) {test : Prop} [Decidable test] {rest : Except ArchiveError String}
    (htest : test ↔ ¬rule.Holds limits name)
    (hrest : rule.Holds limits name → rest = ask limits name rules) :
    (if test then .error (.violation (rule.violation limits name)) else rest)
      = ask limits name (rule :: rules) := by
  rw [ask]
  split_ifs with ht hholds
  · exact absurd hholds (htest.mp ht)
  · rfl
  · exact hrest ‹_›
  · exact absurd (htest.mpr ‹_›) ht

end Rule

/-- **The name check asks the rules in their order.** -/
theorem check_eq_ask (limits : Limits) (name : String) :
    check limits name = Rule.ask limits name Rule.all := by
  have hnormal := normalizeSeparators_eq name
  have hsize : (rejoined name).utf8ByteSize = name.utf8ByteSize :=
    hnormal ▸ utf8ByteSize_normalizeSeparators name
  rw [check, hnormal, hsize]
  refine Rule.ite_eq_ask .notBlank Rule.allBlank_iff fun hblank => ?_
  have hne : name.toList ≠ [] := by
    intro hnil
    simp [Rule.Holds, hnil] at hblank
  refine Rule.ite_eq_ask .notLong Nat.not_le.symm fun _ => ?_
  refine Rule.ite_eq_ask .noControl (hnormal ▸ Rule.any_control_iff) fun _ => ?_
  refine Rule.ite_eq_ask .noUp (hnormal ▸ Rule.contains_dotDot_iff) fun _ => ?_
  refine Rule.ite_eq_ask .relative (hnormal ▸ Rule.startsAbsolute_iff hne) fun _ => ?_
  exact Rule.ite_eq_ask .noArrow (hnormal ▸ Rule.hasArrow_iff_not_holds) fun _ => rfl

/-- **A name passes exactly where it keeps every rule**, and it is answered with its segments joined
by `/`. -/
theorem check_eq_ok_iff : check limits name = .ok normal
    ↔ (∀ rule : Rule, rule.Holds limits name) ∧ normal = rejoined name := by
  have hall : ∀ rule : Rule, rule ∈ Rule.all := fun rule => by cases rule <;> decide
  rw [check_eq_ask, Rule.ask_eq_ok_iff]
  simp only [hall, forall_const]

/-! ## Names that differ in their separators only -/

theorem isBlank_of_isSeparator (h : isSeparator c) : isBlank c = false := by
  rw [isSeparator, Bool.or_eq_true, beq_iff_eq, beq_iff_eq] at h
  rcases h with rfl | rfl <;> rfl

theorem SameButSeparators.allBlank_eq (h : SameButSeparators a b) :
    Text.allBlank a = Text.allBlank b := by
  rw [Text.allBlank, Text.allBlank]
  rw [SameButSeparators] at h
  generalize a.toList = s, b.toList = t at h
  induction h with
  | nil => rfl
  | cons hc _ ih =>
    rw [List.all_cons, List.all_cons, ih]
    rcases hc with rfl | ⟨hc, hd⟩
    · rfl
    · rw [isBlank_of_isSeparator hc, isBlank_of_isSeparator hd]

theorem SameButSeparators.normalizeSeparators_eq (h : SameButSeparators a b) :
    normalizeSeparators a = normalizeSeparators b := by
  rw [normalizeSeparators, normalizeSeparators]
  rw [SameButSeparators] at h
  congr 1
  generalize a.toList = s, b.toList = t at h
  induction h with
  | nil => rfl
  | cons hc _ ih =>
    rw [List.map_cons, List.map_cons, ih]
    rcases hc with rfl | ⟨hc, hd⟩
    · rfl
    · simp only [isSeparator, Bool.or_eq_true, beq_iff_eq] at hc hd
      rcases hc with rfl | rfl <;> rcases hd with rfl | rfl <;> rfl

/-- **Names that differ in their separators only are checked alike.** -/
theorem SameButSeparators.check_eq (h : SameButSeparators a b) (limits : Limits) :
    check limits a = check limits b := by
  rw [check, check, h.allBlank_eq, h.normalizeSeparators_eq]

/-- A name and its segments joined differ in their separators only. -/
theorem sameButSeparators_rejoined (name : String) : SameButSeparators name (rejoined name) := by
  rw [SameButSeparators, ← EntryName.normalizeSeparators_eq, normalizeSeparators,
    String.toList_ofList, List.forall₂_map_right_iff, List.forall₂_same]
  intro c _
  split
  next h => exact .inr ⟨by rw [h]; rfl, rfl⟩
  next => exact .inl rfl

/-! ## The grammar of names -/

/-- **A name passes exactly where it keeps every rule**, and it is answered with its segments joined
by `/`; such a name has as many octets, and passes as it is.  A name that breaks a rule is refused
with the first one that it breaks.  Names that differ in their separators only are checked alike.
The test for a drive finds on the octets of a name what it finds on its characters. -/
theorem check_accepts_grammar (limits : Limits) (name : String) :
    (∀ normal, check limits name = .ok normal
      ↔ (∀ rule : Rule, rule.Holds limits name) ∧ normal = rejoined name)
    ∧ (∀ e, check limits name = .error e ↔ ∃ front rule back, Rule.all = front ++ rule :: back
      ∧ (∀ kept ∈ front, Rule.Holds limits name kept) ∧ ¬rule.Holds limits name
      ∧ e = .violation (rule.violation limits name))
    ∧ (∀ normal, check limits name = .ok normal →
      normal.utf8ByteSize = name.utf8ByteSize ∧ check limits normal = .ok normal)
    ∧ (∀ other, SameButSeparators name other → check limits other = check limits name)
    ∧ startsWithDrive (Bytes.ofChars (normalizeSeparators name).toList)
      = hasDrive (normalizeSeparators name).toList := by
  refine ⟨fun normal => check_eq_ok_iff, fun e => by rw [check_eq_ask, Rule.ask_eq_error_iff],
    fun normal h => ?_, fun other h => (h.check_eq limits).symm, startsWithDrive_ofChars _⟩
  obtain ⟨-, rfl⟩ := check_eq_ok_iff.mp h
  constructor
  · rw [← normalizeSeparators_eq, utf8ByteSize_normalizeSeparators]
  · rw [← (sameButSeparators_rejoined name).check_eq, h]

/-- Two spellings of one name that passes. -/
theorem check_accepts_grammar_mixed :
    (rejoined "docs\\a:b/./c.." = "docs/a:b/./c.."
      ∧ check {} "docs\\a:b/./c.." = .ok "docs/a:b/./c..")
    ∧ check {} "docs/a:b\\.\\c.." = .ok "docs/a:b/./c.."
    ∧ "docs/a:b/./c..".utf8ByteSize = "docs\\a:b/./c..".utf8ByteSize := by
  have hgrammar := check_accepts_grammar {} "docs\\a:b/./c.."
  have hok : check {} "docs\\a:b/./c.." = .ok "docs/a:b/./c.." := by
    refine (hgrammar.1 _).mpr ⟨fun rule => ?_, by decide +kernel⟩
    cases rule <;> decide +kernel
  refine ⟨⟨by decide +kernel, hok⟩, ?_, (hgrammar.2.2.1 _ hok).1⟩
  rw [hgrammar.2.2.2.1 _ ?_, hok]
  decide +kernel

end EntryName

end GuardedArchive
