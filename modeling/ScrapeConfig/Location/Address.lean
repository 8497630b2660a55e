import ScrapeConfig.Decimal.Power
import ScrapeConfig.Text.Split

/-!
# Internet addresses in URLs
-/

namespace ScrapeConfig.Location

/-- A number of a dotted address: hexadecimal after `0x`, octal after `0`, else decimal. -/
def addressNumber : List Char → Option Nat
  | [] => none
  | '0' :: 'x' :: cs => Text.readNat 16 cs
  | '0' :: 'X' :: cs => Text.readNat 16 cs
  | '0' :: c :: cs => Text.readNat 8 (c :: cs)
  | cs => Text.readNat 10 cs

/-- Whether the last label of a domain name is a number, so that the name has to be an address. -/
def endsInNumber (domain : List Char) : Bool :=
  let last := match (Text.pieces '.' domain).reverse with
    | [] :: label :: _ => label
    | label :: _ => label
    | [] => []
  (!last.isEmpty && last.all Char.isDigit) || (addressNumber last).isSome

/-- Whether a dotted address of at most four numbers is in range: the last number fills the bytes
that the others leave. -/
def isIpv4 (domain : List Char) : Bool :=
  let parts := match (Text.pieces '.' domain).reverse with
    | [] :: rest => rest
    | rest => rest
  match parts.mapM addressNumber with
  | some (last :: others) =>
    others.length ≤ 3 && last < twoTo (8 * (4 - others.length)) && others.all (· ≤ 255)
  | _ => false

/-- Four decimal numbers up to 255 without leading zeros. -/
def isDottedQuad (cs : List Char) : Bool :=
  let parts := Text.pieces '.' cs
  parts.length == 4 && parts.all fun p =>
    p.all Char.isDigit && (p == ['0'] || p.head?.any (· ≠ '0')) &&
      p.length ≤ 3 && (Text.readNat 10 p).any (· ≤ 255)

/-- Reads the groups of an IPv6 address; `count` groups stand before, and `gap` says whether a
double colon does. The end may be a dotted address in place of two groups. -/
def ipv6Groups : (fuel count : Nat) → (gap : Bool) → List Char → Bool
  | _, count, gap, [] => gap || count == 8
  | 0, _, _, _ => false
  | fuel + 1, count, gap, cs =>
    if count = 8 then false
    else match cs with
      | ':' :: rest => !gap && ipv6Groups fuel (count + 1) true rest
      | cs =>
        let group := (cs.take 4).takeWhile fun c => (Text.digitValue c).isSome
        match cs.drop group.length with
        | [] => ipv6Groups fuel (count + 1) gap []
        | '.' :: _ =>
          !group.isEmpty && count ≤ 6 && isDottedQuad cs && (gap || count == 6)
        | ':' :: rest => !rest.isEmpty && ipv6Groups fuel (count + 1) gap rest
        | _ => false

/-- Whether the text between brackets is an IPv6 address. -/
def isIpv6 (cs : List Char) : Bool :=
  match cs with
  | ':' :: ':' :: rest => ipv6Groups (rest.length + 1) 1 true rest
  | ':' :: _ => false
  | _ => 2 ≤ cs.length && ipv6Groups (cs.length + 1) 0 false cs

end ScrapeConfig.Location
