import ShiftReduce.Text.DefaultIgnorable
import ShiftReduce.Text.GraphemeExtend
import ShiftReduce.Text.Unprintable

/-!
# Quoted text

A text is quoted so that every character of it can be seen: quotes and
backslashes are escaped, line feeds and their like are written by letter, and a
character that cannot be seen by itself is written by its number.
-/

namespace ShiftReduce.Text

/-- The two halfwidth sound marks. They extend the character before them, but
take up a place of their own. -/
def halfwidthSoundMarks : CharRange := ⟨0xff9e, 0xff9f⟩

/-- Whether a character is drawn onto the one before it. -/
def isAttached (c : Char) : Bool := isGraphemeExtend c && !halfwidthSoundMarks.holds c

/-- Whether a character cannot be seen by itself. -/
def isHidden (c : Char) : Bool := isAttached c || isUnprintable c || isDefaultIgnorable c

/-- The lower-case hexadecimal digits of a number. -/
def hexDigits (n : Nat) : List Char := Nat.toDigits 16 n

/-- A character as it is written between quotes. -/
def escape (c : Char) : List Char :=
  match c with
  | '"' => ['\\', '"']
  | '\\' => ['\\', '\\']
  | '\n' => ['\\', 'n']
  | '\r' => ['\\', 'r']
  | '\t' => ['\\', 't']
  | '\x00' => ['\\', '0']
  | c => if isHidden c then ['\\', 'u', '\x7b'] ++ hexDigits c.toNat ++ ['\x7d'] else [c]

def quote (text : String) : String :=
  String.ofList ('"' :: text.toList.flatMap escape ++ ['"'])

end ShiftReduce.Text
