import GuardedArchive.Text.Blank

/-!
# Entry/Segment — file names that every system takes

A segment is clean when it is not empty, holds no control or reserved character, has no blank at
either end, fits into 255 octets and is not made of dots only.  `Segment.sanitize` makes a clean
segment of any text, and falls back to `unnamed` when nothing is left.
-/

namespace GuardedArchive.Segment

/-- A character that some system does not take in a file name. -/
def isReserved (c : Char) : Bool :=
  ['/', '\\', '<', '>', ':', '\"', '|', '?', '*'].contains c

/-- The longest file name, in octets. -/
def maxLength : Nat := 255

/-- The segment that stands for a text of which nothing is left. -/
def fallback : List Char := ['u', 'n', 'n', 'a', 'm', 'e', 'd']

/-- The longest start of a text that takes at most `room` octets. -/
def cut : Nat → List Char → List Char
  | _, [] => []
  | room, c :: cs => if c.utf8Size ≤ room then c :: cut (room - c.utf8Size) cs else []

/-- A text of dots only, or empty. -/
def isDots (s : List Char) : Bool := s.all (· == '.')

/-- A text without its control characters, with `_` for each reserved one. -/
def replaced (s : List Char) : List Char :=
  (s.filter (!isControl ·)).map fun c => if isReserved c then '_' else c

/-- What is left of a text as a segment: blanks and excess length gone. -/
def remainder (s : List Char) : List Char :=
  Text.trimEnd (cut maxLength (Text.trim (replaced s)))

/-- The clean segment of a text. -/
def sanitizeChars (s : List Char) : List Char :=
  let left := remainder s
  if isDots left then fallback else left

/-- The clean segment of a text. -/
def sanitize (raw : String) : String := String.ofList (sanitizeChars raw.toList)

/-- A segment that every system takes as a file name. -/
def Clean (s : List Char) : Prop :=
  s ≠ [] ∧ Text.utf8Length s ≤ maxLength ∧ Text.trim s = s
    ∧ (∀ c ∈ s, isControl c = false ∧ isReserved c = false) ∧ isDots s = false

instance (s : List Char) : Decidable (Clean s) := inferInstanceAs (Decidable (_ ∧ _))

end GuardedArchive.Segment
