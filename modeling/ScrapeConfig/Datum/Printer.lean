import ScrapeConfig.Datum.Basic

/-!
# JSON text

`compact` writes a datum without any blanks, `pretty` over several lines with two blanks of
indentation, where an empty array or object stays on one line. A number that is not finite is
written as `null`.
-/

namespace ScrapeConfig.Datum

def hexDigit (n : Nat) : Char :=
  if n < 10 then Char.ofNat (48 + n) else Char.ofNat (87 + n)

/-- The escape of a control character, in four hexadecimal digits. -/
def controlEscape (c : Char) : String :=
  String.ofList ['\\', 'u', '0', '0', hexDigit (c.toNat / 16), hexDigit (c.toNat % 16)]

def escapeChar (c : Char) : String :=
  match c with
  | '"' => "\\\""
  | '\\' => "\\\\"
  | '\n' => "\\n"
  | '\r' => "\\r"
  | '\t' => "\\t"
  | '\x08' => "\\b"
  | '\x0c' => "\\f"
  | c => if c.toNat < 0x20 then controlEscape c else c.toString

def quote (s : String) : String :=
  s.foldl (fun acc c => acc ++ escapeChar c) "\"" ++ "\""

def floatText (x : Binary64) : String :=
  if x.isFinite then x.render .inJson else "null"

mutual

def compact : Datum → String
  | .null => "null"
  | .unreadable => "null"
  | .bool b => if b then "true" else "false"
  | .int i => toString i
  | .float x => floatText x
  | .str s => quote s
  | .arr items => "[" ++ compactItems items ++ "]"
  | .obj fields => "\x7b" ++ compactFields fields ++ "\x7d"

def compactItems : List Datum → String
  | [] => ""
  | [d] => compact d
  | d :: ds => compact d ++ "," ++ compactItems ds

def compactFields : List (String × Datum) → String
  | [] => ""
  | [(k, d)] => quote k ++ ":" ++ compact d
  | (k, d) :: ds => quote k ++ ":" ++ compact d ++ "," ++ compactFields ds

end

def indentation (depth : Nat) : String :=
  String.ofList (List.replicate (2 * depth) ' ')

mutual

/-- The lines of a datum that begins at some place of a line at nesting depth `depth`. -/
def prettyAt (depth : Nat) : Datum → String
  | .arr [] => "[]"
  | .obj [] => "\x7b\x7d"
  | .arr items => "[\n" ++ prettyItems (depth + 1) items ++ "\n" ++ indentation depth ++ "]"
  | .obj fields =>
    "\x7b\n" ++ prettyFields (depth + 1) fields ++ "\n" ++ indentation depth ++ "\x7d"
  | .null => "null"
  | .unreadable => "null"
  | .bool b => if b then "true" else "false"
  | .int i => toString i
  | .float x => floatText x
  | .str s => quote s

def prettyItems (depth : Nat) : List Datum → String
  | [] => ""
  | [d] => indentation depth ++ prettyAt depth d
  | d :: ds => indentation depth ++ prettyAt depth d ++ ",\n" ++ prettyItems depth ds

def prettyFields (depth : Nat) : List (String × Datum) → String
  | [] => ""
  | [(k, d)] => indentation depth ++ quote k ++ ": " ++ prettyAt depth d
  | (k, d) :: ds =>
    indentation depth ++ quote k ++ ": " ++ prettyAt depth d ++ ",\n" ++ prettyFields depth ds

end

def pretty (d : Datum) : String :=
  prettyAt 0 d

end ScrapeConfig.Datum
