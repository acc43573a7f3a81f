import Bundler.Build.Pages
import Bundler.Config.Schema
import Bundler.Files.Memory
import Bundler.Proofs.OrderedMaps
import Bundler.Proofs.Results
import Bundler.Proofs.Utf8
/-!
# Pages that are written

Where every entrypoint of a plan is one file named for it, writing pages fails only on a template
that cannot be read, and pages with file names of their own become the assets of the build, in their
order, each with one script tag for every entry that it selects.
-/
namespace Bundler

/-- A text is read where its bytes stand. -/
theorem FileView.readText_eq_ok {v : FileView} {path text : String} :
    v.readText path = .ok text ↔ v.read path = .ok text.toUTF8 := by
  simp only [readText, bind_eq_ok, mapError_eq_ok, Text.ofUtf8_eq_ok, exists_eq_right]

theorem MemoryFiles.read_eq_ok {m : MemoryFiles} {path : String} {bytes : ByteArray} :
    m.view.read path = .ok bytes ↔ m.files.get? (m.locate path) = some bytes := by
  show m.read path = _ ↔ _
  unfold read
  cases m.files.get? (m.locate path) with
  | none => exact iff_of_false (fun h => by cases h) (fun h => by cases h)
  | some content => rw [Except.ok.injEq, Option.some_inj]

namespace HtmlPage

/-- The entries that a page selects, in the order of its choice and each once. -/
def selected (page : HtmlPage) (entries : List String) : List String :=
  ((page.chunks.getD entries).filter (· ∈ entries)).eraseDups

/-- The page of a template, with a tag for the script of every entry that it selects. -/
def rendered (page : HtmlPage) (publicPath : String) (entries : List String) (template : String) :
    String :=
  let tags := (page.selected entries).map fun name =>
    Html.scriptTag (Html.publicUrl publicPath (name ++ ".js")).toList
  String.ofList (Html.injectTags
    (page.title.elim template.toList fun title => Html.injectTitle template.toList title.toList)
    tags)

end HtmlPage

/-- Every entrypoint of the plan is one file, named for it. -/
def Plan.OneFileEach (p : Plan) : Prop :=
  ∀ name ∈ p.entrypoints.keys, p.entrypointFiles name = .ok [name ++ ".js"]

namespace Compilation
variable {c d : Compilation} {page : HtmlPage} {pages : List HtmlPage}

theorem foldlM_insertAll_files {p : Plan} (h : p.OneFileEach) {names : List String}
    (hnames : ∀ name ∈ names, name ∈ p.entrypoints.keys) (files : OrderedSet String) :
    names.foldlM (fun files name => do return files.insertAll (← p.entrypointFiles name)) files =
      (.ok (files.insertAll (names.map (· ++ ".js"))) : Except GraphError (OrderedSet String)) := by
  induction names generalizing files with
  | nil => rfl
  | cons name names ih =>
    rw [List.foldlM_cons, h name (hnames name List.mem_cons_self)]
    exact ih (fun n hn => hnames n (List.mem_cons_of_mem _ hn)) _

theorem append_injective (s : String) : Function.Injective (· ++ s) := by
  intro a b h
  apply String.toList_inj.mp
  have hlist := congrArg String.toList h
  rw [String.toList_append, String.toList_append] at hlist
  exact List.append_cancel_right hlist

theorem pageFiles_ok {p : Plan} (h : p.OneFileEach) (page : HtmlPage) :
    ∃ files, pageFiles p page = .ok files ∧
      files.toList = (page.selected p.entrypoints.keys).map (· ++ ".js") := by
  have hfilter : ∀ names : List String, names.filter p.entrypoints.contains =
      names.filter (· ∈ p.entrypoints.keys) := by
    intro names
    apply List.filter_congr
    intro name _
    rw [Bool.eq_iff_iff, OrderedMap.contains_iff, decide_eq_true_iff]
  have hknown : ∀ name ∈ (page.chunks.getD p.entrypoints.keys).filter p.entrypoints.contains,
      name ∈ p.entrypoints.keys :=
    fun name hname => OrderedMap.contains_iff.mp (List.mem_filter.mp hname).2
  refine ⟨_, foldlM_insertAll_files h hknown ∅, ?_⟩
  show (OrderedSet.ofList _).toList = _
  rw [OrderedSet.toList_ofList, eraseDups_map (append_injective ".js"), hfilter]
  rfl

theorem renderPage_eq_ok (h : c.plan.OneFileEach) {html : String} :
    c.renderPage page = .ok html ↔ ∃ template,
      c.files.readText (c.settings.locate page.template) = .ok template ∧
        page.rendered c.settings.output.publicPath c.plan.entrypoints.keys template = html := by
  obtain ⟨files, hfiles, hlist⟩ := pageFiles_ok h page
  have htags : (files.toList.map fun file =>
      Html.scriptTag (Html.publicUrl c.settings.output.publicPath file).toList) =
      (page.selected c.plan.entrypoints.keys).map fun name =>
        Html.scriptTag (Html.publicUrl c.settings.output.publicPath (name ++ ".js")).toList := by
    rw [hlist, List.map_map]
    rfl
  simp only [renderPage, bind_eq_ok, mapError_eq_ok, hfiles, Except.ok.injEq, exists_eq_left',
    htags]
  refine exists_congr fun template => and_congr_right fun _ => ?_
  rw [HtmlPage.rendered]
  cases page.title with
  | none => exact Iff.of_eq (Except.ok.injEq ..)
  | some title => exact Iff.of_eq (Except.ok.injEq ..)

theorem emit_eq_ok {name : String} {content : ByteArray} (h : c.emit name content = .ok d) :
    ∃ assets, d = { c with assets } := by
  unfold emit at h
  split at h
  · split at h
    · cases h
      exact ⟨_, rfl⟩
    · cases h
  · cases h
    exact ⟨_, rfl⟩

theorem emitPage_eq_ok (h : c.emitPage page = .ok d) :
    (∃ html, c.renderPage page = .ok html) ∧ ∃ assets, d = { c with assets } := by
  obtain ⟨html, hhtml, h⟩ := exists_of_bind_eq_ok h
  exact ⟨⟨html, hhtml⟩, emit_eq_ok h⟩

/-- The asset that a page becomes. -/
def Writes (c : Compilation) (page : HtmlPage) (asset : String × ByteArray) : Prop :=
  ∃ html, c.renderPage page = .ok html ∧ asset = (page.filename, html.toUTF8)

theorem rendered_of_emitPages (h : c.emitPages pages = (d, .ok ())) :
    ∀ page ∈ pages, ∃ html, c.renderPage page = .ok html := by
  induction pages generalizing c with
  | nil => exact fun _ hpage => absurd hpage List.not_mem_nil
  | cons page pages ih =>
    unfold emitPages at h
    split at h
    · rename_i t ht
      obtain ⟨hhtml, assets, rfl⟩ := emitPage_eq_ok ht
      exact List.forall_mem_cons.mpr ⟨hhtml, ih (c := { c with assets }) h⟩
    · cases h

theorem emitPages_ok (hnames : (c.assets.keys ++ pages.map (·.filename)).Nodup)
    (hpages : ∀ page ∈ pages, ∃ html, c.renderPage page = .ok html) :
    ∃ assets, c.emitPages pages = ({ c with assets }, .ok ()) ∧ ∃ written,
      assets.toList = c.assets.toList ++ written ∧ List.Forall₂ c.Writes pages written := by
  induction pages generalizing c with
  | nil => exact ⟨c.assets, rfl, [], (List.append_nil _).symm, .nil⟩
  | cons page pages ih =>
    obtain ⟨⟨html, hhtml⟩, hpages⟩ := List.forall_mem_cons.mp hpages
    have hfree : page.filename ∉ c.assets.keys := by
      rw [List.nodup_append] at hnames
      exact fun hin => hnames.2.2 _ hin _ List.mem_cons_self rfl
    have hlist := OrderedMap.toList_insert_of_not_mem hfree html.toUTF8
    have hkeys : (c.assets.insert page.filename html.toUTF8).keys =
        c.assets.keys ++ [page.filename] := by
      rw [OrderedMap.keys_insert, if_neg hfree]
    have hemit : c.emitPage page =
        .ok { c with assets := c.assets.insert page.filename html.toUTF8 } := by
      rw [emitPage, hhtml]
      show c.emit page.filename html.toUTF8 = _
      rw [emit, OrderedMap.get?_eq_none.mpr hfree]
    obtain ⟨assets, hassets, written, htoList, hwritten⟩ :=
      ih (c := { c with assets := c.assets.insert page.filename html.toUTF8 })
        (by rw [hkeys, List.append_assoc]; exact hnames) hpages
    refine ⟨assets, ?_, (page.filename, html.toUTF8) :: written, ?_,
      .cons ⟨html, hhtml, rfl⟩ hwritten⟩
    · rw [emitPages, hemit]
      exact hassets
    · rw [htoList, hlist, List.append_assoc]
      rfl

end Compilation

end Bundler
