import ScrapeConfig.Location.Address
import ScrapeConfig.Location.Domain

/-!
# Absolute URLs

`fault? text` says why a text is no absolute URL. Blanks and controls around the text are ignored,
tabs and line breaks everywhere. The schemes of the web take a host after any number of slashes,
`file` and other schemes after two slashes only; what follows the host is always fine.
-/

namespace ScrapeConfig.Location

/-- Why a text is no absolute URL. -/
inductive Fault where
  | relative
  | emptyHost
  | invalidDomainName
  | invalidPort
  | invalidIpv4
  | invalidIpv6
  | invalidHostCharacter
  deriving DecidableEq, Repr

def Fault.message : Fault → String
  | .relative => "relative URL without a base"
  | .emptyHost => "empty host"
  | .invalidDomainName => "invalid international domain name"
  | .invalidPort => "invalid port number"
  | .invalidIpv4 => "invalid IPv4 address"
  | .invalidIpv6 => "invalid IPv6 address"
  | .invalidHostCharacter => "invalid domain character"

/-- The kinds of scheme that differ in how a host is read. -/
inductive Scheme where
  | web
  | file
  | other
  deriving DecidableEq, Repr

def Scheme.ofName (name : String) : Scheme :=
  if ["http", "https", "ws", "wss", "ftp"].contains name then .web
  else if name = "file" then .file
  else .other

def isSchemeChar (c : Char) : Bool :=
  c.isAlphanum || c = '+' || c = '-' || c = '.'

/-- The scheme in front of the first colon, and what follows the colon. -/
def splitScheme (cs : List Char) : Option (Scheme × List Char) :=
  let name := cs.takeWhile isSchemeChar
  match cs.head?, cs.drop name.length with
  | some c, ':' :: rest =>
    if c.isAlpha then some (.ofName (String.ofList (name.map Char.toLower)), rest) else none
  | _, _ => none

def isSlash (c : Char) : Bool := c = '/' || c = '\\'

/-- Whether the part of a URL that holds user, host and port ends before `c`. -/
def endsAuthority (s : Scheme) (c : Char) : Bool :=
  c = '/' || c = '?' || c = '#' || (s ≠ .other && c = '\\')

/-- The host at the front, a colon between brackets being part of it, and the rest. -/
def splitHost (s : Scheme) : (bracket : Bool) → List Char → List Char × List Char
  | _, [] => ([], [])
  | bracket, c :: cs =>
    if endsAuthority s c || (c = ':' && !bracket) then ([], c :: cs)
    else
      let bracket := if c = '[' then true else if c = ']' then false else bracket
      let (host, rest) := splitHost s bracket cs
      (c :: host, rest)

/-- Why a host in brackets is no address. -/
def bracketFault? (host : List Char) : Option Fault :=
  if host.getLast? = some ']' && isIpv6 (host.drop 1).dropLast then none else some .invalidIpv6

/-- Why a text is no host of a special scheme. -/
def domainFault? (host : List Char) : Option Fault :=
  if host.head? = some '[' then bracketFault? host
  else match prepareDomain host with
    | none => some .invalidDomainName
    | some [] => some .emptyHost
    | some domain => if endsInNumber domain && !isIpv4 domain then some .invalidIpv4 else none

/-- Why a text is no host of a scheme without rules of its own. -/
def opaqueFault? (host : List Char) : Option Fault :=
  if host.head? = some '[' then bracketFault? host
  else if host.any fun c => "\x00\t\n\r #/:<>?@[\\]^|".toList.contains c then
    some .invalidHostCharacter
  else none

/-- Why a text behind the host does not begin with a port. -/
def portFault? (rest : List Char) : Option Fault :=
  let digits := rest.takeWhile Char.isDigit
  let ended := (rest.drop digits.length).head?.all fun c => isSlash c || c = '?' || c = '#'
  if (Text.readNat 10 digits).any (· ≤ 65535) && ended then none else some .invalidPort

/-- Why no host and port stand at the front of `cs`; `userShown` says whether a user stands
before. -/
def hostFault? (s : Scheme) (userShown : Bool) (cs : List Char) : Option Fault :=
  let (host, rest) := splitHost s false cs
  let hostFault := if s = .web then (if host.isEmpty then some .emptyHost else domainFault? host)
    else opaqueFault? host
  match hostFault, rest with
  | some f, _ => some f
  | none, ':' :: port =>
    if host.isEmpty then some .emptyHost else portFault? port
  | none, _ => if host.isEmpty && userShown then some .emptyHost else none

/-- Why no user, host and port stand at the front of `cs`. The user ends at the last `@`. -/
def authorityFault? (s : Scheme) (cs : List Char) : Option Fault :=
  let authority := cs.takeWhile (!endsAuthority s ·)
  match authority.reverse.dropWhile (· ≠ '@') with
  | [] => hostFault? s false cs
  | _ :: user =>
    let rest := cs.drop (user.length + 1)
    if user.isEmpty && rest.head?.any (endsAuthority s) then some .emptyHost
    else hostFault? s (user ≠ [] && user ≠ [':']) rest

def isDriveLetter (cs : List Char) : Bool :=
  match cs with
  | [c, d] => c.isAlpha && (d = ':' || d = '|')
  | _ => false

/-- Why a text behind `file:` is no file URL. -/
def fileFault? : List Char → Option Fault
  | a :: b :: rest =>
    let host := rest.takeWhile fun c => !(isSlash c || c = '?' || c = '#')
    if isSlash a && isSlash b && !host.isEmpty && !isDriveLetter host then domainFault? host
    else none
  | _ => none

/-- The text without blanks and controls at its ends and without tabs and line breaks. -/
def clean (text : String) : List Char :=
  let outer (c : Char) : Bool := c.toNat ≤ 0x20
  let trimmed := ((text.toList.dropWhile outer).reverse.dropWhile outer).reverse
  trimmed.filter fun c => c ≠ '\t' && c ≠ '\n' && c ≠ '\r'

/-- Why a text is no absolute URL; none if it is one. -/
def fault? (text : String) : Option Fault :=
  match splitScheme (clean text) with
  | none => some .relative
  | some (.web, rest) => authorityFault? .web (rest.dropWhile isSlash)
  | some (.file, rest) => fileFault? rest
  | some (.other, '/' :: '/' :: rest) => authorityFault? .other rest
  | some (.other, _) => none

end ScrapeConfig.Location
