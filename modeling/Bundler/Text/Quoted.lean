import Bundler.Text.CaseTable
import Bundler.Text.Hidden
/-!
# Quoted text in messages

A text in quotes for a reader: quotes and backslashes are escaped, and so is all that would not
show, as its code point in braces.
-/
namespace Bundler.Text

/-- A code point in hexadecimal digits, without zeros in front. -/
def bracedEscape (c : Char) : List Char :=
  '\\' :: 'u' :: '\x7b' :: Nat.toDigits 16 c.toNat ++ ['\x7d']

def quotedChar (c : Char) : List Char :=
  if c = '"' then ['\\', '"']
  else if c = '\\' then ['\\', '\\']
  else if c = '\n' then ['\\', 'n']
  else if c = '\r' then ['\\', 'r']
  else if c = '\t' then ['\\', 't']
  else if c.toNat = 0 then ['\\', '0']
  else if c.toNat < 32 || c.toNat = 127 then bracedEscape c
  else if c.toNat < 127 then [c]
  else if inRanges hiddenRanges c.toNat then bracedEscape c
  else [c]

def quoted (s : String) : String :=
  String.ofList ('"' :: s.toList.flatMap quotedChar ++ ['"'])

def quotedList (ss : List String) : String := "[" ++ ", ".intercalate (ss.map quoted) ++ "]"

end Bundler.Text
