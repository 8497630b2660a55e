import ScrapeConfig.Datum.Number
import ScrapeConfig.Text.Split

/-!
# Reading JSON text

The reader takes one character after the other. Between them it keeps the arrays and objects that
are still open, innermost first, and what may come next. Nothing may follow the value.

An array or object is readable if fewer than `maxDepth` of them, itself included, are open at its
place, and a string if its escapes pair up the halves of characters beyond 16 bits.
-/

namespace ScrapeConfig.Datum

/-- A part of a string: a character, or a half of one. -/
inductive Piece where
  | char (c : Char)
  | half (n : Nat)

namespace Piece

def isLeading (n : Nat) : Bool := 0xD800 ≤ n && n ≤ 0xDBFF

def isTrailing (n : Nat) : Bool := 0xDC00 ≤ n && n ≤ 0xDFFF

/-- The part that an escape with four hexadecimal digits stands for. -/
def ofUnit (n : Nat) : Piece :=
  if isLeading n || isTrailing n then .half n else .char (Char.ofNat n)

/-- Joins a leading half to the trailing half right behind it; other halves are refused. -/
def join : List Piece → Option (List Char)
  | [] => some []
  | .char c :: rest => (join rest).map (c :: ·)
  | .half a :: .half b :: rest =>
    if isLeading a && isTrailing b then
      (join rest).map (Char.ofNat (0x10000 + (a - 0xD800) * 0x400 + (b - 0xDC00)) :: ·)
    else none
  | .half _ :: _ => none

end Piece

/-- The character that a backslash and a letter stand for. -/
def unescape : Char → Option Char
  | '"' => some '"'
  | '\\' => some '\\'
  | '/' => some '/'
  | 'b' => some '\x08'
  | 'f' => some '\x0c'
  | 'n' => some '\n'
  | 'r' => some '\r'
  | 't' => some '\t'
  | _ => none

/-- Where in a lexeme the reader is. What has been read of it is kept in reverse. -/
inductive Mode where
  | between
  | word (read : List Char)
  | quoted (read : List Piece)
  | escaped (read : List Piece)
  | unit (digits : List Char) (read : List Piece)

/-- An array or object that is still open, with its items in reverse. A key is absent if it is
unreadable. -/
inductive Container where
  | array (items : List Datum)
  | object (fields : List (Option String × Datum))
  | member (key : Option String) (fields : List (Option String × Datum))

/-- What may come next outside of lexemes. -/
inductive Expected where
  | value
  | valueOrClose
  | key
  | keyOrClose
  | colon
  | separator
  deriving DecidableEq

structure Reader where
  mode : Mode := .between
  containers : List Container := []
  expected : Expected := .value
  result : Datum := .null

namespace Reader

def maxDepth : Nat := 128

def isBlank (c : Char) : Bool := c == ' ' || c == '\t' || c == '\n' || c == '\r'

def wantsValue (r : Reader) : Bool := r.expected == .value || r.expected == .valueOrClose

def wantsKey (r : Reader) : Bool := r.expected == .key || r.expected == .keyOrClose

/-- Adds a finished value to the innermost container. -/
def put (r : Reader) (d : Datum) : Reader :=
  let r := { r with mode := .between, expected := .separator }
  match r.containers with
  | [] => { r with result := d }
  | .array items :: rest => { r with containers := .array (d :: items) :: rest }
  | .object fields :: rest => { r with containers := .object fields :: rest }
  | .member key fields :: rest => { r with containers := .object ((key, d) :: fields) :: rest }

/-- Closes the innermost container, whose value is `d`. -/
def close (r : Reader) (rest : List Container) (d : Datum) : Reader :=
  let d := if r.containers.length < maxDepth then d else .unreadable
  { r with containers := rest }.put d

def objectOf (fields : List (Option String × Datum)) : Datum :=
  match fields.reverse.mapM fun (key, d) => key.map (·, d) with
  | some fields => .obj fields
  | none => .unreadable

def finishString (r : Reader) (text : Option String) : Option Reader :=
  if r.wantsKey then match r.containers with
    | .object fields :: rest =>
      some { r with
        mode := .between, expected := .colon, containers := .member text fields :: rest }
    | _ => none
  else match text with
    | some s => some (r.put (.str s))
    | none => some (r.put .unreadable)

def finishWord (r : Reader) (word : List Char) : Option Reader :=
  if word = "null".toList then some (r.put .null)
  else if word = "true".toList then some (r.put (.bool true))
  else if word = "false".toList then some (r.put (.bool false))
  else (Numeral.read word).map fun n => r.put n.toDatum

def isWordChar (c : Char) : Bool := c.isAlphanum || c == '-' || c == '+' || c == '.'

/-- A character that is not part of a lexeme already begun. -/
def stepBetween (r : Reader) (c : Char) : Option Reader :=
  if isBlank c then some r
  else match c, r.containers, r.expected with
    | ',', .array _ :: _, .separator => some { r with expected := .value }
    | ',', .object _ :: _, .separator => some { r with expected := .key }
    | ':', _, .colon => some { r with expected := .value }
    | ']', .array items :: rest, e =>
      if e = .separator ∨ e = .valueOrClose then some (r.close rest (.arr items.reverse)) else none
    | '\x7d', .object fields :: rest, e =>
      if e = .separator ∨ e = .keyOrClose then some (r.close rest (objectOf fields)) else none
    | c, _, _ =>
      if c = '"' then
        (if r.wantsKey || r.wantsValue then some { r with mode := .quoted [] } else none)
      else if !r.wantsValue then none
      else if c = '[' then
        some { r with expected := .valueOrClose, containers := .array [] :: r.containers }
      else if c = '\x7b' then
        some { r with expected := .keyOrClose, containers := .object [] :: r.containers }
      else if isWordChar c then some { r with mode := .word [c] }
      else none

def step (r : Reader) (c : Char) : Option Reader :=
  match r.mode with
  | .between => r.stepBetween c
  | .word read =>
    if isWordChar c then some { r with mode := .word (c :: read) }
    else do (← r.finishWord read.reverse).stepBetween c
  | .quoted read =>
    if c = '"' then r.finishString ((Piece.join read.reverse).map String.ofList)
    else if c = '\\' then some { r with mode := .escaped read }
    else if c.toNat < 0x20 then none
    else some { r with mode := .quoted (.char c :: read) }
  | .escaped read =>
    if c = 'u' then some { r with mode := .unit [] read }
    else (unescape c).map fun c => { r with mode := .quoted (.char c :: read) }
  | .unit digits read =>
    if digits.length < 3 then
      if (Text.digitValue c).isSome then some { r with mode := .unit (c :: digits) read } else none
    else (Text.readNat 16 (c :: digits).reverse).map fun n =>
      { r with mode := .quoted (.ofUnit n :: read) }

/-- The value, once the text has ended. -/
def finish (r : Reader) : Option Datum := do
  let r ← match r.mode with
    | .between => some r
    | .word read => r.finishWord read.reverse
    | _ => none
  if r.containers.isEmpty && r.expected == .separator then some r.result else none

end Reader

/-- The value that JSON text stands for; none if the text is malformed. -/
def ofJson? (text : String) : Option Datum := do
  (← text.toList.foldlM Reader.step {}).finish

end ScrapeConfig.Datum
