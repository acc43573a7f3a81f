import Bundler.Text.CaseTable
/-!
# Blanks

The code points that count as blank at the edge of a text, and the text without them.
-/
namespace Bundler.Text

/-- Blanks at the edge of a text: the code points of the White_Space property. -/
def isBlank (c : Char) : Bool :=
  inRanges [(9, 13), (32, 32), (133, 133), (160, 160), (5760, 5760), (8192, 8202), (8232, 8233),
    (8239, 8239), (8287, 8287), (12288, 12288)] c.toNat

def trimBlanks (s : String) : String :=
  String.ofList (((s.toList.dropWhile isBlank).reverse.dropWhile isBlank).reverse)

end Bundler.Text
