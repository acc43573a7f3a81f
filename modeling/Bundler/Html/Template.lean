import Bundler.Text.Search
/-!
# Edits of an HTML template

A template gets a title and script tags by edits of its text. The title replaces the first title
element, or goes before the end of the head, or to the front. Script tags go before the last end
of the body, or to the end. Texts inside markup are escaped.
-/
namespace Bundler.Html

/-- The entity of a character that means something to markup; all others stand for themselves. -/
def escapeChar : Char → List Char
  | '&' => "&amp;".toList
  | '<' => "&lt;".toList
  | '>' => "&gt;".toList
  | '"' => "&quot;".toList
  | c => [c]

/-- A text that markup takes as text, inside elements and inside attributes in double quotes. -/
def escape (s : List Char) : List Char := s.flatMap escapeChar

def titleElement (title : List Char) : List Char :=
  "<title>".toList ++ escape title ++ "</title>".toList

/-- What comes before the first title element and after it. An element that is not closed is none.
-/
def cutTitle (html : List Char) : Option (List Char × List Char) := do
  let (before, rest) ← Text.cutFirst "<title>".toList html
  let (_, after) ← Text.cutFirst "</title>".toList rest
  return (before, after)

/-- The place for a title: what comes before and after its element. -/
def titlePlace (html : List Char) : List Char × List Char :=
  match cutTitle html with
  | some place => place
  | none =>
    match Text.cutFirst "</head>".toList html with
    | some (before, after) => (before ++ [' ', ' '], '\n' :: "</head>".toList ++ after)
    | none => ([], '\n' :: html)

/-- Gives a template a title. Nothing but an earlier title element is lost. -/
def injectTitle (html title : List Char) : List Char :=
  (titlePlace html).1 ++ titleElement title ++ (titlePlace html).2

def tagLine (tag : List Char) : List Char := ' ' :: ' ' :: tag ++ ['\n']

/-- Puts a tag at the end, on a new line unless the text is empty or ends in one. -/
def appendTag (html tag : List Char) : List Char :=
  if html = [] ∨ html.getLast? = some '\n' then html ++ tag else html ++ '\n' :: tag

/-- Puts tags into a template in their order. Without tags the template stays as it is. -/
def injectTags (html : List Char) (tags : List (List Char)) : List Char :=
  if tags = [] then html
  else match Text.cutLast "</body>".toList html with
    | some (before, after) => before ++ tags.flatMap tagLine ++ "</body>".toList ++ after
    | none => tags.foldl appendTag html ++ ['\n']

/-- A tag that loads a script once the page has been read. -/
def scriptTag (src : List Char) : List Char :=
  "<script defer src=\"".toList ++ escape src ++ "\"></script>".toList

/-- The URL of a file below a public path: one slash between them, none after an empty path. -/
def publicUrl (publicPath file : String) : String :=
  if publicPath.isEmpty ∨ publicPath.toList.getLast? = some '/' then publicPath ++ file
  else publicPath ++ "/" ++ file

end Bundler.Html
