import Bundler.Command.Assets
import Bundler.Proofs.Pages
import Bundler.Proofs.StoredFiles
/-!
# Assets that are written

Assets have names of their own, but what is written goes to the files that these names lead to.
Writing to files in memory never fails, and afterwards a file has what the last asset brought that
leads to it. So all assets are there just if no two of them with different content lead to one file,
as is always so for names that are spelled plainly.
-/
namespace Bundler

theorem exists_of_forall₂ {α β : Type} {R : α → β → Prop} {as : List α} {bs : List β}
    (h : List.Forall₂ R as bs) :
    (∀ a ∈ as, ∃ b ∈ bs, R a b) ∧ ∀ b ∈ bs, ∃ a ∈ as, R a b := by
  induction h with
  | nil => exact ⟨fun _ ha => absurd ha List.not_mem_nil, fun _ hb => absurd hb List.not_mem_nil⟩
  | cons hab _ ih =>
    simp only [List.forall_mem_cons, List.exists_mem_cons_iff]
    exact ⟨⟨.inl hab, fun a ha => .inr (ih.1 a ha)⟩, .inl hab, fun b hb => .inr (ih.2 b hb)⟩

namespace Compilation
variable {c d : Compilation} {name : String} {content : ByteArray} {es : List (String × ByteArray)}

/-- Emits files one after the other. -/
def emitAll (c : Compilation) (es : List (String × ByteArray)) : Except BuildError Compilation :=
  es.foldlM (fun c e => c.emit e.1 e.2) c

theorem mem_assets_emit (h : c.emit name content = .ok d) (e : String × ByteArray) :
    e ∈ d.assets.toList ↔ e ∈ c.assets.toList ∨ e = (name, content) := by
  unfold emit at h
  split at h
  · rename_i old hold
    split at h
    · rename_i hdata
      cases h
      have hmem := OrderedMap.mem_of_get? hold
      rw [ByteArray.ext hdata] at hmem
      refine ⟨.inl, ?_⟩
      rintro (he | rfl)
      · exact he
      · exact hmem
    · cases h
  · rename_i hnone
    cases h
    rw [OrderedMap.toList_insert_of_not_mem (OrderedMap.get?_eq_none.mp hnone), List.mem_append,
      List.mem_singleton]

theorem mem_assets_emitAll (h : c.emitAll es = .ok d) (e : String × ByteArray) :
    e ∈ d.assets.toList ↔ e ∈ c.assets.toList ∨ e ∈ es := by
  induction es generalizing c with
  | nil =>
    cases h
    simp
  | cons first es ih =>
    rw [emitAll, List.foldlM_cons] at h
    obtain ⟨b, hb, h⟩ := exists_of_bind_eq_ok h
    rw [ih h, mem_assets_emit hb, List.mem_cons, or_assoc]

/-- Emitting pages is emitting a file for each of them. -/
theorem emitAll_of_emitPages {pages : List HtmlPage} (h : c.emitPages pages = (d, .ok ())) :
    ∃ es, c.emitAll es = .ok d ∧ List.Forall₂ c.Writes pages es := by
  induction pages generalizing c with
  | nil =>
    cases h
    exact ⟨[], rfl, .nil⟩
  | cons page pages ih =>
    unfold emitPages at h
    split at h
    · rename_i b hb
      obtain ⟨html, hhtml, hemit⟩ := exists_of_bind_eq_ok hb
      obtain ⟨assets, rfl⟩ := emit_eq_ok hemit
      obtain ⟨es, hes, hwrites⟩ := ih h
      refine ⟨(page.filename, html.toUTF8) :: es, ?_, .cons ⟨html, hhtml, rfl⟩ hwrites⟩
      rw [emitAll, List.foldlM_cons, hemit]
      exact hes
    · cases h

end Compilation

section
-- The two sides are compared step by step; looking into what a step writes would not end.
attribute [local irreducible] FileSink.writeAsset

theorem FileSink.writeEach_cons {σ : Type} (k : FileSink σ) (s : σ) (outDir name : String)
    (content : ByteArray) (es : List (String × ByteArray)) :
    k.writeEach s outDir ((name, content) :: es) =
      match k.writeAsset s outDir name content with
      | (s, .error e) => (s, .error e)
      | (s, .ok ()) => k.writeEach s outDir es := by
  rfl

end

namespace MemoryFiles
variable {m : MemoryFiles} {outDir : String} {es : List (String × ByteArray)}

/-- Writes files below a directory one after the other. -/
def writeAll (m : MemoryFiles) (outDir : String) (es : List (String × ByteArray)) : MemoryFiles :=
  es.foldl (fun m e => m.write (Path.join outDir e.1) e.2) m

/-- Writing to files in memory does not fail. -/
theorem writeAsset_sink (m : MemoryFiles) (outDir name : String) (content : ByteArray) :
    sink.writeAsset m outDir name content = (m.write (Path.join outDir name) content, .ok ()) := by
  unfold FileSink.writeAsset
  cases hparent : Path.parent (Path.join outDir name) with
  | none =>
    simp only [hparent]
    rfl
  | some dir =>
    simp only [hparent]
    rfl

theorem writeEach_sink (m : MemoryFiles) (outDir : String) (es : List (String × ByteArray)) :
    sink.writeEach m outDir es = (m.writeAll outDir es, .ok ()) := by
  induction es generalizing m with
  | nil => rfl
  | cons e es ih =>
    obtain ⟨name, content⟩ := e
    rw [FileSink.writeEach_cons, writeAsset_sink]
    exact ih (m.write (Path.join outDir name) content)

theorem writeAssets_sink (m : MemoryFiles) (outDir : String)
    (assets : OrderedMap String ByteArray) :
    sink.writeAssets m outDir assets = (m.writeAll outDir assets.toList, .ok ()) :=
  writeEach_sink m outDir assets.toList

theorem writeAll_eq (m : MemoryFiles) (outDir : String) (es : List (String × ByteArray)) :
    m.writeAll outDir es = m.writeEach (es.map fun e => (Path.join outDir e.1, e.2)) := by
  rw [writeAll, writeEach, List.foldl_map]

theorem locate_writeAll (m : MemoryFiles) (outDir : String) (es : List (String × ByteArray)) :
    (m.writeAll outDir es).locate = m.locate := by
  rw [writeAll_eq, locate_writeEach]

/-- A file has what was written last of all that leads to it. -/
theorem read_writeAll (m : MemoryFiles) (outDir path : String) (es : List (String × ByteArray)) :
    (m.writeAll outDir es).read path =
      match es.reverse.find? fun e => m.locate path = m.locate (Path.join outDir e.1) with
      | some e => .ok e.2
      | none => m.read path := by
  have hfind : (es.map fun e => (Path.join outDir e.1, e.2)).reverse.find?
        (fun w => m.locate path = m.locate w.1) =
      (es.reverse.find? fun e => m.locate path = m.locate (Path.join outDir e.1)).map
        fun e => (Path.join outDir e.1, e.2) := by
    rw [← List.map_reverse, List.find?_map]
    rfl
  rw [writeAll_eq, read_writeEach, hfind]
  cases es.reverse.find? fun e => m.locate path = m.locate (Path.join outDir e.1) <;> rfl

/-- All that was written is read back just if what leads to one file has one content. -/
theorem read_writeAll_iff :
    (∀ e ∈ es, (m.writeAll outDir es).read (Path.join outDir e.1) = .ok e.2) ↔
      ∀ e ∈ es, ∀ f ∈ es,
        m.locate (Path.join outDir e.1) = m.locate (Path.join outDir f.1) → e.2 = f.2 := by
  constructor
  · intro hread e he f hf hlocate
    have hsame : (m.writeAll outDir es).read (Path.join outDir e.1) =
        (m.writeAll outDir es).read (Path.join outDir f.1) := by
      rw [read, locate_writeAll, hlocate, read, locate_writeAll]
    exact Except.ok.inj ((hread e he).symm.trans (hsame.trans (hread f hf)))
  · intro hone e he
    rw [read_writeAll]
    cases hfind : es.reverse.find? fun f =>
        m.locate (Path.join outDir e.1) = m.locate (Path.join outDir f.1) with
    | none =>
      rw [List.find?_eq_none] at hfind
      exact absurd (decide_eq_true rfl) (hfind e (List.mem_reverse.mpr he))
    | some f =>
      have hf := List.mem_reverse.mp (List.mem_of_find?_eq_some hfind)
      have hlocate : m.locate (Path.join outDir e.1) = m.locate (Path.join outDir f.1) := by
        simpa using List.find?_some hfind
      exact congrArg Except.ok (hone e he f hf hlocate).symm

end MemoryFiles

namespace Compilation
variable {c d : Compilation} {es : List (String × ByteArray)}

theorem mem_assets_iff (hempty : c.assets = ∅) (h : c.emitAll es = .ok d)
    (e : String × ByteArray) : e ∈ d.assets.toList ↔ e ∈ es := by
  rw [mem_assets_emitAll h, hempty, OrderedMap.toList_empty]
  exact ⟨fun he => he.resolve_left List.not_mem_nil, .inr⟩

/-- Emitted files are all there after writing just if those that lead to one file have one
content. Emitting itself tells them apart by their names only. -/
theorem read_written_iff (hempty : c.assets = ∅) (h : c.emitAll es = .ok d) (m : MemoryFiles)
    (outDir : String) : ∃ m', MemoryFiles.sink.writeAssets m outDir d.assets = (m', .ok ()) ∧
      ((∀ e ∈ es, m'.read (Path.join outDir e.1) = .ok e.2) ↔
        ∀ e ∈ es, ∀ f ∈ es, m.locate (Path.join outDir e.1) = m.locate (Path.join outDir f.1) →
          e.2 = f.2) := by
  refine ⟨_, m.writeAssets_sink outDir d.assets, ?_⟩
  simp only [← mem_assets_iff hempty h]
  exact MemoryFiles.read_writeAll_iff

/-- A build without plugins that runs in memory. -/
def inMemory (m : MemoryFiles) : Compilation where
  settings := {
    context := m.cwd, mode := .production, entry := ∅, output := {}, builtins := {}, plugins := [] }
  files := m.view

theorem read_written_two : ∃ d m',
    (inMemory { cwd := "/app" }).emitAll
        [("index.html", "first".toUTF8), ("pages/index.html", "second".toUTF8)] = .ok d ∧
      MemoryFiles.sink.writeAssets { cwd := "/app" } "dist" d.assets = (m', .ok ()) ∧
      m'.read (Path.join "dist" "index.html") = .ok "first".toUTF8 ∧
      m'.read (Path.join "dist" "pages/index.html") = .ok "second".toUTF8 := by
  obtain ⟨d, hemit⟩ : ∃ d, (inMemory { cwd := "/app" }).emitAll
      [("index.html", "first".toUTF8), ("pages/index.html", "second".toUTF8)] = .ok d := ⟨_, rfl⟩
  obtain ⟨m', hwrite, hread⟩ := read_written_iff rfl hemit { cwd := "/app" } "dist"
  have hall := hread.mpr (by decide +kernel)
  exact ⟨d, m', hemit, hwrite, hall ("index.html", "first".toUTF8) (.head _),
    hall ("pages/index.html", "second".toUTF8) (.tail _ (.head _))⟩

/-- An acceptable configuration with two spellings of one file name. -/
def twoSpellings : Config where
  entry := .ofList [("main", "./index.js")]
  builtins := { html := [
    { template := "first.html", filename := "page.html", chunks := some [] },
    { template := "second.html", filename := "./page.html", chunks := some [] }] }

def twoTemplates : MemoryFiles where
  cwd := "/app"
  files := .ofList [("/app/first.html", "first".toUTF8), ("/app/second.html", "second".toUTF8)]

/-- The second page overwrites the first. -/
theorem overwritten_page : ∃ d m', twoSpellings.fault? = none ∧
    (inMemory twoTemplates).emitPages twoSpellings.builtins.html = (d, .ok ()) ∧
      MemoryFiles.sink.writeAssets twoTemplates "dist" d.assets = (m', .ok ()) ∧
      d.assets.get? "page.html" = some "first".toUTF8 ∧
      m'.read (Path.join "dist" "page.html") = .ok "second".toUTF8 := by
  refine ⟨((inMemory twoTemplates).emitPages twoSpellings.builtins.html).1, _, by decide, ?_,
    MemoryFiles.writeAssets_sink twoTemplates "dist" _, ?_, ?_⟩
  · exact Prod.ext rfl (eq_ok_of_toOption (by decide +kernel))
  · decide +kernel
  · exact eq_ok_of_toOption (by decide +kernel)

/-- Files whose names are spelled plainly are never lost. -/
theorem read_written_of_plain (hempty : c.assets = ∅) (h : c.emitAll es = .ok d)
    (hplain : ∀ e ∈ es, ∀ part ∈ Path.parts e.1, Path.Plain part) {m : MemoryFiles}
    (hcwd : Path.isAbsolute m.cwd = true) (outDir : String) :
    ∃ m', MemoryFiles.sink.writeAssets m outDir d.assets = (m', .ok ()) ∧
      ∀ e ∈ es, m'.read (Path.join outDir e.1) = .ok e.2 := by
  refine ⟨_, m.writeAssets_sink outDir d.assets, ?_⟩
  simp only [← mem_assets_iff hempty h] at hplain ⊢
  rw [MemoryFiles.read_writeAll_iff]
  intro e he f hf hlocate
  have hname := MemoryFiles.eq_of_locate_eq hcwd (hplain e he) (hplain f hf) hlocate
  have hsome := (OrderedMap.get?_of_mem he).symm.trans (hname ▸ OrderedMap.get?_of_mem hf)
  exact Option.some.inj hsome

/-- Pages whose file names are spelled plainly are there as they were made. -/
theorem read_written_pages {pages : List HtmlPage} (hempty : c.assets = ∅)
    (h : c.emitPages pages = (d, .ok ()))
    (hplain : ∀ page ∈ pages, ∀ part ∈ Path.parts page.filename, Path.Plain part)
    {m : MemoryFiles} (hcwd : Path.isAbsolute m.cwd = true) (outDir : String) :
    ∃ m', MemoryFiles.sink.writeAssets m outDir d.assets = (m', .ok ()) ∧
      ∀ page ∈ pages, ∃ html, c.renderPage page = .ok html ∧
        m'.read (Path.join outDir page.filename) = .ok html.toUTF8 := by
  obtain ⟨es, hes, hwrites⟩ := emitAll_of_emitPages h
  have hnames : ∀ e ∈ es, ∀ part ∈ Path.parts e.1, Path.Plain part := by
    intro e he
    obtain ⟨page, hpage, html, -, rfl⟩ := (exists_of_forall₂ hwrites).2 e he
    exact hplain page hpage
  obtain ⟨m', hwrite, hread⟩ := read_written_of_plain hempty hes hnames hcwd outDir
  refine ⟨m', hwrite, fun page hpage => ?_⟩
  obtain ⟨e, he, html, hhtml, rfl⟩ := (exists_of_forall₂ hwrites).1 page hpage
  have hfile := hread _ he
  exact ⟨html, hhtml, hfile⟩

end Compilation

end Bundler
