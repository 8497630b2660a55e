import ScrapeConfig.Location.Label

/-!
# Domain names in URLs

A host of a special scheme is percent-decoded and prepared as an international domain name: letters
become lower case, wide forms become the ASCII characters they stand for, and some invisible
characters are dropped. All its labels must be in order, and if one of them runs from right to left
every label must keep its direction.
-/

namespace ScrapeConfig.Location

/-- The bytes that a text stands for when `%` and two hexadecimal digits are taken as a byte. -/
def percentDecode : List UInt8 → List UInt8
  | 0x25 :: a :: b :: rest =>
    match Text.readNat 16 [Char.ofNat a.toNat, Char.ofNat b.toNat] with
    | some n => UInt8.ofNat n :: percentDecode rest
    | none => 0x25 :: percentDecode (a :: b :: rest)
  | x :: rest => x :: percentDecode rest
  | [] => []

/-- The prepared form of a host, unless it is no domain name. -/
def prepareDomain (host : List Char) : Option (List Char) := do
  let bytes := percentDecode (String.ofList host).toUTF8.toList
  let text ← String.fromUTF8? ⟨bytes.toArray⟩
  let domain ← prepare text.toList
  let labels ← (Text.pieces '.' domain).mapM shownLabel?
  if labels.any (·.any Text.isRightToLeft) && !labels.all keepsDirection then none else domain

end ScrapeConfig.Location
