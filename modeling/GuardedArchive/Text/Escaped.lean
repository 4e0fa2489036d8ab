import GuardedArchive.Text.Extending
import GuardedArchive.Text.Printable

/-!
# Text/Escaped — a text in which every character can be seen

Quotes, the backslash and the usual controls get a backslash form, and a character that is not
printable is written by its number.  At the start of a text the same holds of a character that
extends the one before it.
-/

namespace GuardedArchive.Text

/-- A character by its number, such as `\u{1f}` for U+001F. -/
def escapeByNumber (c : Char) : List Char :=
  ['\\', 'u', '\x7b'] ++ Nat.toDigits 16 c.toNat ++ ['\x7d']

/-- The visible form of one character; `starts` says that it begins the text. -/
def escapeChar (starts : Bool) (c : Char) : List Char :=
  if c == '\x00' then ['\\', '0']
  else if c == '\t' then ['\\', 't']
  else if c == '\r' then ['\\', 'r']
  else if c == '\n' then ['\\', 'n']
  else if c == '\'' || c == '\"' || c == '\\' then ['\\', c]
  else if (starts && isExtending c) || !isPrintable c then escapeByNumber c
  else [c]

/-- A text with every character made visible. -/
def escaped (s : String) : String :=
  match s.toList with
  | [] => ""
  | c :: cs => String.ofList (escapeChar true c ++ cs.flatMap (escapeChar false))

end GuardedArchive.Text
