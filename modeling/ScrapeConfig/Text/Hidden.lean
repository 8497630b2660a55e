import ScrapeConfig.Text.Mark
import ScrapeConfig.Text.Unassigned

/-!
# Characters without a visible shape of their own

Controls, format characters, separators other than the blank, surrogates, private use and
unassigned code points, and the marks that extend the character before them.
-/

namespace ScrapeConfig.Text

/-- Controls, format characters, separators, surrogates and private use above the ASCII range. -/
def formats : CodeSet := .ofText "
  7F-A0 AD 600-605 61C 6DD 70F 890-891 8E2 1680 180E 2000-200F 2028-202F 205F-2064 2066-206F 3000
  D800-F8FF FEFF FFF9-FFFB 110BD 110CD 13430-1343F 1BCA0-1BCA3 1D173-1D17A E0001 E0020-E007F
  F0000-FFFFD 100000-10FFFD"

/-- The spacing marks without which the character before them is not complete. -/
def extendingMarks : CodeSet := .ofText "
  9BE 9D7 B3E B57 BBE BD7 CC0 CC2 CC7-CC8 CCA-CCB CD5-CD6 D3E D57 DCF DDF 1715 1734 1B35 1B3B 1B3D
  1B43-1B44 1BAA 1BF2-1BF3 302E-302F A953 A9C0 111C0 11235 1133E 1134D 11357 113B8 113C2 113C5
  113C7-113C9 113CF 114B0 114BD 115AF 116B6 11930 1193D 11F41 16FF0-16FF1 1D165-1D166 1D16D-1D172"

/-- Whether a character has no visible shape of its own. -/
def isHidden (c : Char) : Bool :=
  if c.toNat < 0x7F then c.toNat < 0x20
  else formats.contains c || unassigned.contains c || nonspacingMarks.contains c ||
    extendingMarks.contains c

end ScrapeConfig.Text
