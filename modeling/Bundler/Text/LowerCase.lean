import Bundler.Text.CaseTable
/-!
# Lower-casing and case-insensitive order

Lower-casing of whole texts: each code point by its table entry, `İ` as `i` with a dot above, and
a capital sigma by its place in the word. The case-insensitive order of names compares lower-cased
texts by code points.
-/
namespace Bundler.Text

def lowerChar (c : Char) : List Char :=
  if c.toNat < 128 then [c.toLower]
  else if c = 'İ' then ['i', Char.ofNat 0x307]
  else match lowerCaseRuns.find? (·.covers c.toNat) with
    | some r => [Char.ofNat (c.toNat + r.shift).toNat]
    | none => [c]

/-- Whether the next letter is a cased one, ignorable code points passed over. -/
def startsCased (cs : List Char) : Bool :=
  match cs.dropWhile fun c => inRanges caseIgnorableRanges c.toNat with
  | c :: _ => inRanges casedRanges c.toNat
  | [] => false

/-- Lower-cases a text of which `before`, read backwards, has been passed. A capital sigma that
ends a word of at least two letters takes its final form. -/
def lowerChars (before : List Char) : List Char → List Char
  | [] => []
  | c :: rest =>
    (if c = 'Σ' then [if startsCased before && !startsCased rest then 'ς' else 'σ']
      else lowerChar c) ++ lowerChars (c :: before) rest

/-- The text may become longer, as `İ` does. -/
def lowerCase (s : String) : String := String.ofList (lowerChars [] s.toList)

/-- Texts that differ in case alone are equal here. -/
def compareNames (a b : String) : Ordering := compare (lowerCase a) (lowerCase b)

/-- The case-insensitive order of two sequences of names, element by element; a proper beginning
comes first. -/
def compareNameLists : List String → List String → Ordering
  | [], [] => .eq
  | [], _ :: _ => .lt
  | _ :: _, [] => .gt
  | a :: as, b :: bs => (compareNames a b).then (compareNameLists as bs)

end Bundler.Text
