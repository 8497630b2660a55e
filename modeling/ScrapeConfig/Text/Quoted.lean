import ScrapeConfig.Text.Hidden

/-!
# Quoted text

Text between double quotes. A backslash stands before a double quote and before itself; line feed,
carriage return, tab and NUL are written as a backslash and a letter or digit, and any other
character without a visible shape of its own by its number in braces.
-/

namespace ScrapeConfig.Quoted

/-- The lower case hexadecimal digits of a number. -/
def hex (n : Nat) : List Char := Nat.toDigits 16 n

def escape (c : Char) : List Char :=
  match c with
  | '"' => ['\\', '"']
  | '\\' => ['\\', '\\']
  | '\n' => ['\\', 'n']
  | '\r' => ['\\', 'r']
  | '\t' => ['\\', 't']
  | '\x00' => ['\\', '0']
  | c => if Text.isHidden c then '\\' :: 'u' :: '\x7b' :: hex c.toNat ++ ['\x7d'] else [c]

def encodeChars (cs : List Char) : List Char :=
  '"' :: cs.flatMap escape ++ ['"']

def encode (s : String) : String := String.ofList (encodeChars s.toList)

end ScrapeConfig.Quoted
