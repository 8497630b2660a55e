import ScrapeConfig.Text.Split

/-!
# TOML strings

Four kinds of strings: between single or triple quotes, and literal ones between apostrophes or
between double quotes with escapes. Each function takes what follows the opening quotes and gives
the text and what follows the closing ones. The lines of the text end in `\n` alone.
-/

namespace ScrapeConfig.Toml

/-- Whether a character may stand for itself in strings and comments. -/
def isPlain (c : Char) : Bool := c == '\t' || (0x20 ≤ c.toNat && c.toNat != 0x7F)

def isBlank (c : Char) : Bool := c == ' ' || c == '\t'

/-- The character with a code that hexadecimal digits spell. -/
def ofCode (digits : List Char) : Option Char := do
  let n ← Text.readNat 16 digits
  if n.isValidChar then some (Char.ofNat n) else none

/-- The character that a backslash and a letter stand for. -/
def unescape : Char → Option Char
  | 'b' => some '\x08'
  | 'f' => some '\x0c'
  | 'n' => some '\n'
  | 'r' => some '\r'
  | 't' => some '\t'
  | '"' => some '"'
  | '\\' => some '\\'
  | _ => none

/-- Puts a character in front of the text that was read. -/
def withFront (c : Option Char) (r : Option (List Char × List Char)) :
    Option (List Char × List Char) := do
  let c ← c
  let (text, rest) ← r
  return (c :: text, rest)

def basicString : List Char → Option (List Char × List Char)
  | '"' :: cs => some ([], cs)
  | '\\' :: 'u' :: a :: b :: c :: d :: cs => withFront (ofCode [a, b, c, d]) (basicString cs)
  | '\\' :: 'U' :: a :: b :: c :: d :: e :: f :: g :: h :: cs =>
    withFront (ofCode [a, b, c, d, e, f, g, h]) (basicString cs)
  | '\\' :: c :: cs => withFront (unescape c) (basicString cs)
  | c :: cs => if isPlain c then withFront c (basicString cs) else none
  | [] => none

def literalString : List Char → Option (List Char × List Char)
  | '\'' :: cs => some ([], cs)
  | c :: cs => if isPlain c then withFront c (literalString cs) else none
  | [] => none

/-- Whether only blanks are left of the line, which is not the last one. -/
def endsLine (cs : List Char) : Bool := (cs.dropWhile isBlank).head? == some '\n'

/-- A string over several lines. Up to two quotes may stand before the closing ones. While
`skipping`, which a backslash at the end of a line begins, blanks and line ends are left out. -/
def multilineBasicString (skipping : Bool) : List Char → Option (List Char × List Char)
  | '"' :: '"' :: '"' :: '"' :: '"' :: cs => some (['"', '"'], cs)
  | '"' :: '"' :: '"' :: '"' :: cs => some (['"'], cs)
  | '"' :: '"' :: '"' :: cs => some ([], cs)
  | '\\' :: 'u' :: a :: b :: c :: d :: cs =>
    withFront (ofCode [a, b, c, d]) (multilineBasicString false cs)
  | '\\' :: 'U' :: a :: b :: c :: d :: e :: f :: g :: h :: cs =>
    withFront (ofCode [a, b, c, d, e, f, g, h]) (multilineBasicString false cs)
  | '\\' :: c :: cs =>
    if endsLine (c :: cs) then multilineBasicString true cs
    else withFront (unescape c) (multilineBasicString false cs)
  | c :: cs =>
    if skipping && (isBlank c || c == '\n') then multilineBasicString true cs
    else if isPlain c || c == '\n' then withFront c (multilineBasicString false cs)
    else none
  | [] => none

def multilineLiteralString : List Char → Option (List Char × List Char)
  | '\'' :: '\'' :: '\'' :: '\'' :: '\'' :: cs => some (['\'', '\''], cs)
  | '\'' :: '\'' :: '\'' :: '\'' :: cs => some (['\''], cs)
  | '\'' :: '\'' :: '\'' :: cs => some ([], cs)
  | c :: cs =>
    if isPlain c || c == '\n' then withFront c (multilineLiteralString cs) else none
  | [] => none

/-- A line end right behind the opening quotes is left out. -/
def dropLineEnd : List Char → List Char
  | '\n' :: cs => cs
  | cs => cs

/-- A string on one line, as a key may be, and the rest. -/
def singleLineString : List Char → Option (List Char × List Char)
  | '"' :: cs => basicString cs
  | '\'' :: cs => literalString cs
  | _ => none

/-- A string of any kind, and the rest. -/
def anyString : List Char → Option (List Char × List Char)
  | '"' :: '"' :: '"' :: cs => multilineBasicString false (dropLineEnd cs)
  | '\'' :: '\'' :: '\'' :: cs => multilineLiteralString (dropLineEnd cs)
  | cs => singleLineString cs

end ScrapeConfig.Toml
