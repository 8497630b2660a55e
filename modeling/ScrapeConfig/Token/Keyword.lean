import ScrapeConfig.Text.Blank
import ScrapeConfig.Token.Kind

/-!
# The keyword table

Keywords, the comma and the structural kinds by name. A text is looked up in capitals, with one
underscore in place of the white space between its words.
-/

namespace ScrapeConfig.Keyword

def normalizeChars (cs : List Char) : List Char :=
  (List.intercalate ['_'] (Text.words cs)).map Char.toUpper

def normalize (text : String) : String := String.ofList (normalizeChars text.toList)

def table : List (String × TokenKind) :=
  (TokenKind.keywords ++ TokenKind.structural).map (fun k => (k.label, k)) ++ [(",", .comma)]

def lookup (text : String) : Option TokenKind :=
  table.lookup (normalize text)

end ScrapeConfig.Keyword
