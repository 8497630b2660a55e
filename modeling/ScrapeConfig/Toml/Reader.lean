import ScrapeConfig.Toml.Outline
import ScrapeConfig.Toml.Quoted
import ScrapeConfig.Toml.Scalar

/-!
# Reading TOML text

`Datum.ofToml?` reads the statements of a text, one or none on each line, and carries them out; it
yields the table of the whole text as data. A line ends in `\n` or `\r\n`; a byte order mark in
front is left out. Keys have fewer than `nestingLimit` parts and values are nested less deep than
that.
-/

namespace ScrapeConfig.Toml

/-- Reads from the front of a text, or fails. -/
abbrev Reader := StateT (List Char) Option

namespace Reader

def nestingLimit : Nat := 80

/-- A reader given by a function on texts. -/
def ofFunction {α : Type} (f : List Char → Option (α × List Char)) : Reader α := f

/-- Takes a character, if it is next. -/
def take? (c : Char) : Reader Bool := do
  match ← get with
  | [] => return false
  | d :: cs => if d = c then set cs; return true else return false

def expect (c : Char) : Reader Unit := do
  if !(← take? c) then failure

def takeWhile (p : Char → Bool) : Reader (List Char) := do
  let cs ← get
  set (cs.dropWhile p)
  return cs.takeWhile p

def blanks : Reader Unit := do
  let _ ← takeWhile isBlank

/-- Runs a reader that takes at least one character until it declines. -/
def many {α : Type} (item : Reader (Option α)) : Reader (List α) := do
  go ((← get).length + 1)
where
  go : Nat → Reader (List α)
    | 0 => failure
    | fuel + 1 => do
      match ← item with
      | none => return []
      | some a => return a :: (← go fuel)

/-- A comment, if one is next. -/
def comment : Reader Unit := do
  if ← take? '#' then
    let _ ← takeWhile isPlain

/-- The rest of a line after its statement. -/
def lineEnd : Reader Unit := do
  blanks
  comment
  match ← get with
  | [] => return
  | _ => expect '\n'

/-- Blanks, comments and line ends, which may stand between the items of an array. -/
def gap : Reader Unit := do
  let _ ← many do
    blanks
    comment
    return if ← take? '\n' then some () else none

def isBareKeyChar (c : Char) : Bool := c.isAlphanum || c == '_' || c == '-'

def keyPart : Reader String := do
  blanks
  let part ← match ← get with
    | '"' :: _ => ofFunction singleLineString
    | '\'' :: _ => ofFunction singleLineString
    | _ => do
      let part ← takeWhile isBareKeyChar
      if part.isEmpty then failure
      pure part
  blanks
  return String.ofList part

def key : Reader DottedKey := do
  let first ← keyPart
  let others ← many do
    if ← take? '.' then some <$> keyPart else pure none
  let parts := first :: others
  if nestingLimit ≤ parts.length then failure
  return ⟨parts.dropLast, others.getLastD first⟩

def isWordChar (c : Char) : Bool :=
  c.isAlphanum || c == '_' || c == '-' || c == '+' || c == '.' || c == ':'

/-- A number, boolean, date or time. One blank may stand between a date and a time. -/
def scalarValue : Reader Datum := do
  let word ← takeWhile isWordChar
  let word ← match ← get with
    | ' ' :: d :: cs =>
      if isDate word && d.isDigit then do
        set (d :: cs)
        pure (word ++ 'T' :: (← takeWhile isWordChar))
      else pure word
    | _ => pure word
  match scalar word with
  | some v => return v
  | none => failure

/-- Items up to a bracket, behind each but the last one a comma. The last one may have one. -/
def items (item : Reader Datum) : Reader (List Datum) := do
  let values ← many do
    gap
    match ← get with
    | ']' :: _ => return none
    | _ =>
      let v ← item
      gap
      if !(← take? ',') then
        match ← get with
        | ']' :: _ => pure ()
        | _ => failure
      return some v
  expect ']'
  return values

/-- A key and a value. -/
def assignment (item : Reader Datum) : Reader (DottedKey × Datum) := do
  let k ← key
  expect '='
  blanks
  return (k, ← item)

/-- Assignments up to a brace, separated by commas. -/
def assignments (item : Reader Datum) : Reader (List (DottedKey × Datum)) := do
  blanks
  if ← take? '\x7d' then return []
  let first ← assignment item
  blanks
  let others ← many do
    if ← take? ',' then
      let a ← assignment item
      blanks
      return some a
    else return none
  expect '\x7d'
  return first :: others

/-- A value; `depth` is one more than the number of arrays and inline tables it may be nested
in. -/
def value : (depth : Nat) → Reader Datum
  | 0 => failure
  | depth + 1 => do
    if depth = 0 ∧ (← get).head?.any (fun c => c == '[' || c == '\x7b') then failure
    match ← get with
    | '[' :: cs =>
      set cs
      return .arr (← items (value depth))
    | '\x7b' :: cs =>
      set cs
      match tableOfAssignments? (← assignments (value depth)) with
      | some t => return t
      | none => failure
    | '"' :: _ => return .str (String.ofList (← ofFunction anyString))
    | '\'' :: _ => return .str (String.ofList (← ofFunction anyString))
    | _ => scalarValue

def statement : Reader Statement := do
  if ← take? '[' then
    if ← take? '[' then
      let k ← key
      expect ']'
      expect ']'
      return .item k
    else
      let k ← key
      expect ']'
      return .table k
  else
    let (k, v) ← assignment (value nestingLimit)
    return .assign k v

/-- All statements up to the end of the text. -/
def statements : Reader (List Statement) :=
  many do
    gap
    match ← get with
    | [] => return none
    | _ =>
      let s ← statement
      lineEnd
      return some s

end Reader

/-- Writes each line end as `\n`. -/
def unifyLineEnds : List Char → List Char
  | '\r' :: '\n' :: cs => '\n' :: unifyLineEnds cs
  | c :: cs => c :: unifyLineEnds cs
  | [] => []

def dropByteOrderMark : List Char → List Char
  | '\uFEFF' :: cs => cs
  | cs => cs

end ScrapeConfig.Toml

namespace ScrapeConfig

open Toml

/-- The table that TOML text stands for, as data; none if it is no TOML. -/
def Datum.ofToml? (text : String) : Option Datum := do
  let (statements, _) ← Reader.statements (unifyLineEnds (dropByteOrderMark text.toList))
  tableOfStatements? statements

end ScrapeConfig
