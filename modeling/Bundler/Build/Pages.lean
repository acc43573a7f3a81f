import Bundler.Build.Compilation
import Bundler.Html.Template
/-!
# HTML pages

Writing pages from templates: each page gets its title and one script tag for every file of the
entries it selects, and is emitted as an asset.
-/
namespace Bundler

def htmlPluginName : String := "HtmlPlugin"

namespace Compilation

/-- The files of the entries that a page selects, in order and without repeats. Unknown entries
are passed over. -/
def pageFiles (p : Plan) (page : HtmlPage) : Except GraphError (OrderedSet String) :=
  let names := page.chunks.getD p.entrypoints.keys
  (names.filter p.entrypoints.contains).foldlM (fun files name => do
    return files.insertAll (← p.entrypointFiles name)) ∅

/-- The text of a page. The title goes in before the tags do. -/
def renderPage (c : Compilation) (page : HtmlPage) : Except BuildError String := do
  let path := c.settings.locate page.template
  let template ← (c.files.readText path).mapError fun
    | .notFound _ => .plugin htmlPluginName (.templateNotFound path)
    | e => .plugin htmlPluginName (.templateUnreadable path e)
  let files ← (pageFiles c.plan page).mapError .graph
  let tags := files.toList.map fun file =>
    Html.scriptTag (Html.publicUrl c.settings.output.publicPath file).toList
  let titled := match page.title with
    | some title => Html.injectTitle template.toList title.toList
    | none => template.toList
  return String.ofList (Html.injectTags titled tags)

/-- Emits a page under its file name. A page of the same name and text may have been emitted before.
-/
def emitPage (c : Compilation) (page : HtmlPage) : Except BuildError Compilation := do
  c.emit page.filename (← c.renderPage page).toUTF8

/-- Emits pages up to the first failure. Those before it stay emitted. -/
def emitPages (c : Compilation) : List HtmlPage → Compilation × Except BuildError Unit
  | [] => (c, .ok ())
  | page :: pages =>
    match c.emitPage page with
    | .ok c => c.emitPages pages
    | .error e => (c, .error e)

end Compilation

end Bundler
