/-!
# Text/Blank — which characters are blank, and cutting them off both ends of a text

A character is blank when it has the Unicode property White_Space.  `trim` drops the blanks at both
ends and nothing else.
-/

namespace GuardedArchive

/-- A character with the property White_Space. -/
def isBlank (c : Char) : Bool :=
  let n := c.toNat
  (9 ≤ n && n ≤ 13) || n == 0x20 || n == 0x85 || n == 0xa0 || n == 0x1680
    || (0x2000 ≤ n && n ≤ 0x200a) || n == 0x2028 || n == 0x2029 || n == 0x202f || n == 0x205f
    || n == 0x3000

/-- A control character: C0, DEL and C1, that is, the category Cc. -/
def isControl (c : Char) : Bool :=
  let n := c.toNat
  n < 0x20 || (0x7f ≤ n && n ≤ 0x9f)

namespace Text

/-- A text without the blanks at its start. -/
def trimStart (s : List Char) : List Char := s.dropWhile isBlank

/-- A text without the blanks at its end. -/
def trimEnd (s : List Char) : List Char := (s.reverse.dropWhile isBlank).reverse

/-- A text without the blanks at either end. -/
def trim (s : List Char) : List Char := trimEnd (trimStart s)

/-- A text of blanks only, or empty. -/
def allBlank (s : String) : Bool := s.toList.all isBlank

/-- The number of octets of a text in UTF-8. -/
def utf8Length : List Char → Nat
  | [] => 0
  | c :: cs => c.utf8Size + utf8Length cs

end Text

end GuardedArchive
