import Bundler.Build.Compiler
import Bundler.Proofs.EntryChunks
import Bundler.Proofs.EntryPaths
import Bundler.Proofs.Pages
import Bundler.Proofs.Paths
/-!
# Builds with the built-in plugins

An accepted configuration without further plugins always gives a compiler, whose run fails only if
the template of a page is not there or is no text. Otherwise it ends with a chunk for every entry
and the pages as assets.
-/
namespace Bundler

namespace Config
variable {config : Config}

theorem nodup_of_pageFault {before : List String} {pages : List HtmlPage}
    (h : pageFault before pages = none) :
    (pages.map (·.filename)).Nodup ∧ ∀ page ∈ pages, page.filename ∉ before := by
  induction pages generalizing before with
  | nil => exact ⟨.nil, fun _ hpage => absurd hpage List.not_mem_nil⟩
  | cons page pages ih =>
    unfold pageFault at h
    split at h
    · cases h
    · split at h
      · cases h
      · rename_i hfree
        obtain ⟨hnodup, hbefore⟩ := ih h
        refine ⟨List.nodup_cons.mpr ⟨?_, hnodup⟩, List.forall_mem_cons.mpr ⟨hfree, ?_⟩⟩
        · intro hin
          obtain ⟨other, hother, heq⟩ := List.mem_map.mp hin
          exact hbefore other hother (heq ▸ List.mem_cons_self)
        · exact fun other hother hin => hbefore other hother (List.mem_cons_of_mem _ hin)

/-- An acceptable configuration allows a chunk, and gives its pages file names of their own. -/
theorem of_fault?_eq_none (h : config.fault? = none) :
    (∀ l ∈ config.builtins.limitChunkCount, 1 ≤ l.maxChunks.toNat) ∧
      (config.builtins.html.map (·.filename)).Nodup := by
  unfold fault? at h
  split at h
  · cases h
  · simp only [Option.or_eq_none_iff] at h
    obtain ⟨-, hlimit, hpages, -⟩ := h
    refine ⟨?_, (nodup_of_pageFault hpages).1⟩
    intro l hl
    split at hlimit
    · cases hlimit
    · rename_i hany
      rw [Option.mem_def.mp hl] at hany
      have hle : ¬ l.maxChunks < 1 := by simpa using hany
      exact Nat.not_lt.mp fun hlt => hle (UInt32.lt_iff_toNat_lt.mpr hlt)

end Config

/-- The built-in plugins of a configuration, in the order in which they run. -/
def builtinPlugins (limits : List ChunkLimit) (pages : List HtmlPage) : List BuiltinPlugin :=
  limits.map .limit ++ if pages.isEmpty then [] else [.html pages]

theorem Builtins.toPlugins_ok {b : Builtins}
    (h : ∀ l ∈ b.limitChunkCount, 1 ≤ l.maxChunks.toNat) :
    ∃ limits, b.toPlugins = .ok (builtinPlugins limits b.html) := by
  unfold toPlugins
  cases hlimit : b.limitChunkCount with
  | none => exact ⟨[], rfl⟩
  | some l =>
    obtain ⟨limit, htoLimit⟩ : ∃ limit, l.toLimit = .ok limit := ⟨_, dif_pos (h l hlimit)⟩
    refine ⟨[limit], ?_⟩
    dsimp only
    rw [htoLimit]
    rfl

theorem builtinPlugins_phases (limits : List ChunkLimit) (pages : List HtmlPage) :
    (builtinPlugins limits pages).Pairwise fun a b => a.phase.rank ≤ b.phase.rank := by
  have hlimit : ∀ a ∈ limits.map BuiltinPlugin.limit, a.phase.rank = 10 := by
    intro a ha
    obtain ⟨l, -, rfl⟩ := List.mem_map.mp ha
    rfl
  refine List.pairwise_append.mpr ⟨?_, ?_, ?_⟩
  · apply List.pairwise_of_forall_mem_list
    exact fun a ha b hb => Nat.le_of_eq ((hlimit a ha).trans (hlimit b hb).symm)
  · split
    · exact .nil
    · exact List.pairwise_singleton ..
  · intro a ha b hb
    split at hb
    · cases hb
    · rw [hlimit a ha, List.mem_singleton.mp hb]
      show 10 ≤ 20
      decide

theorem BuiltinPlugin.writePages_eq_ok {pages : List HtmlPage} {c d : Compilation} :
    writePages pages c = .ok d ↔ c.emitPages pages = (d, .ok ()) := by
  unfold writePages
  rcases c.emitPages pages with ⟨t, e | u⟩
  · exact iff_of_false (fun h => by cases h) (fun h => by cases h)
  · exact ⟨fun h => by cases h; rfl, fun h => by cases h; rfl⟩

/-- Pages are written just if each of them can be made, and become the assets. -/
theorem BuiltinPlugin.writePages_iff {pages : List HtmlPage} {c : Compilation}
    (hassets : c.assets = ∅) (hnames : (pages.map (·.filename)).Nodup) :
    ((∃ d, writePages pages c = .ok d) ↔ ∀ page ∈ pages, ∃ html, c.renderPage page = .ok html) ∧
      ∀ d, writePages pages c = .ok d →
        d.plan = c.plan ∧ List.Forall₂ c.Writes pages d.assets.toList := by
  have hfree : (c.assets.keys ++ pages.map (·.filename)).Nodup := hassets ▸ hnames
  simp only [writePages_eq_ok]
  refine ⟨⟨?_, ?_⟩, ?_⟩
  · intro hdone
    obtain ⟨d, hd⟩ := hdone
    exact Compilation.rendered_of_emitPages hd
  · intro hpages
    obtain ⟨assets, hemit, -⟩ := Compilation.emitPages_ok hfree hpages
    exact ⟨_, hemit⟩
  · intro d hd
    obtain ⟨assets, hemit, written, hlist, hwritten⟩ :=
      Compilation.emitPages_ok hfree (Compilation.rendered_of_emitPages hd)
    rw [hd] at hemit
    cases hemit
    rw [hassets, OrderedMap.toList_empty, List.nil_append] at hlist
    exact ⟨rfl, hlist ▸ hwritten⟩

namespace Compiler

theorem entries_register {m : Type → Type} (plugins : List (Plugin m))
    (r : Registry (Plugin m)) :
    (plugins.foldl (fun r p => r.add p.phase p) r).entries =
      r.entries ++ plugins.map fun p => (p.phase, p) := by
  induction plugins generalizing r with
  | nil => exact (List.append_nil _).symm
  | cons p plugins ih =>
    rw [List.foldl_cons, ih, List.map_cons]
    exact List.append_assoc ..

/-- Plugins are sorted by the ranks of their phases. -/
theorem inOrder_eq_mergeSort {m : Type → Type} (plugins : List (Plugin m)) :
    inOrder plugins = plugins.mergeSort fun a b => a.phase.rank ≤ b.phase.rank := by
  have hsort : (plugins.mergeSort fun a b => a.phase.rank ≤ b.phase.rank).map
        (fun p => (p.phase, p)) =
      (plugins.map fun p => (p.phase, p)).mergeSort fun a b => a.1.rank ≤ b.1.rank :=
    List.map_mergeSort fun _ _ _ _ => rfl
  unfold inOrder Registry.inOrder
  rw [entries_register plugins {}, List.nil_append, ← hsort, List.map_map]
  exact List.map_id _

theorem inOrder_eq {m : Type → Type} {plugins : List (Plugin m)}
    (h : plugins.Pairwise fun a b => a.phase.rank ≤ b.phase.rank) : inOrder plugins = plugins := by
  rw [inOrder_eq_mergeSort]
  exact List.mergeSort_of_pairwise (h.imp decide_eq_true)

theorem seed_entries (settings : Settings) (files : FileView) (g : ModuleGraph) :
    (seed settings files g).2 =
      settings.entry.toList.map fun e => (e.1, settings.locate e.2) :=
  congrArg Prod.snd (seedWith_eq _ settings.entry g)

/-- A run begins with an entrypoint for every entry, in their order. -/
theorem begin_ok {m : Type → Type} (c : Compiler m) (g : ModuleGraph) : ∃ p,
    c.begin g = .ok { settings := c.settings, files := c.files, plan := p } ∧
      p.EntriesOnly (c.settings.entry.toList.map fun e => (e.1, c.settings.locate e.2)) := by
  have hnames : ([] ++ (seed c.settings c.files g).2).map Prod.fst = c.settings.entry.keys := by
    rw [List.nil_append, seed_entries, List.map_map]
    rfl
  obtain ⟨p, hp, honly⟩ := (Plan.entriesOnly_empty (seed c.settings c.files g).1 {}).addEntrypoints
    (seed c.settings c.files g).2 (hnames ▸ c.settings.entry.nodup_keys)
  refine ⟨p, ?_, ?_⟩
  · unfold begin
    dsimp only
    rw [hp]
    rfl
  · rw [← seed_entries c.settings c.files g]
    exact honly

section Run
variable {m : Type → Type} [Monad m] [LawfulMonad m]

theorem applyAll_builtin (settings : Settings) (hook : EntryHook m) (bs : List BuiltinPlugin) :
    applyAll settings hook (bs.map BuiltinPlugin.plugin) = pure (.ok hook) := by
  induction bs with
  | nil => rfl
  | cons b bs ih =>
    have happly : (b.plugin (m := m)).apply settings hook = pure (.ok hook) := by
      cases b with
      | limit l => rfl
      | html pages => rfl
    rw [List.map_cons, applyAll, happly, pure_bind]
    exact ih

theorem create_builtin (settings : Settings) (files : FileView) {bs : List BuiltinPlugin}
    (h : bs.Pairwise fun a b => a.phase.rank ≤ b.phase.rank) :
    create settings (bs.map (BuiltinPlugin.plugin (m := m))) files =
      pure (.ok { settings, hook := {}, plugins := bs.map BuiltinPlugin.plugin, files }) := by
  have hphase : ∀ b : BuiltinPlugin, (b.plugin (m := m)).phase = b.phase := by
    intro b
    cases b with
    | limit l => rfl
    | html pages => rfl
  have hsorted : (bs.map (BuiltinPlugin.plugin (m := m))).Pairwise
      fun a b => a.phase.rank ≤ b.phase.rank := by
    rw [List.pairwise_map]
    simpa only [hphase] using h
  unfold create
  rw [inOrder_eq hsorted]
  dsimp only
  rw [applyAll_builtin, pure_bind]
  show (EntryHook.callTaps settings.context settings.entry [] >>= _) = _
  rw [EntryHook.callTaps, pure_bind]

theorem optimizeRound_builtin {c : Compilation}
    (h : ∀ l : ChunkLimit, l.pass c.plan = (c.plan, .ok false))
    (changed : Bool) (bs : List BuiltinPlugin) :
    optimizeRound c changed (bs.map (BuiltinPlugin.plugin (m := m))) = pure (.ok (c, changed)) := by
  induction bs with
  | nil => rfl
  | cons b bs ih =>
    have hoptimize : (b.plugin (m := m)).optimize c = pure (.ok (c, false)) := by
      cases b with
      | limit l =>
        show pure (BuiltinPlugin.limitPass l c) = _
        rw [BuiltinPlugin.limitPass, h l]
      | html pages => rfl
    rw [List.map_cons, optimizeRound, hoptimize, pure_bind]
    dsimp only
    rw [Bool.or_false]
    exact ih

theorem finishAll_builtin (c : Compilation) (limits : List ChunkLimit) (pages : List HtmlPage) :
    finishAll c ((builtinPlugins limits pages).map (BuiltinPlugin.plugin (m := m))) =
      pure (BuiltinPlugin.writePages pages c) := by
  unfold builtinPlugins
  induction limits with
  | nil =>
    cases pages with
    | nil => rfl
    | cons page pages =>
      show (pure (BuiltinPlugin.writePages (page :: pages) c) >>= _) = _
      rw [pure_bind]
      cases BuiltinPlugin.writePages (page :: pages) c with
      | error e => rfl
      | ok d => rfl
  | cons l limits ih =>
    show (pure (Except.ok c) >>= _) = _
    rw [pure_bind]
    exact ih

theorem compile_builtin {c : Compiler m} {limits : List ChunkLimit} {pages : List HtmlPage}
    (hplugins : c.plugins = (builtinPlugins limits pages).map BuiltinPlugin.plugin) :
    ∃ p : Plan, p.EntriesOnly
        (c.settings.entry.toList.map fun e => (e.1, c.settings.locate e.2)) ∧
      ∀ again, c.compile again = pure ((BuiltinPlugin.writePages pages
        { settings := c.settings, files := c.files, plan := p.assignIds }).map some) := by
  obtain ⟨p, hbegin, honly⟩ := begin_ok c {}
  refine ⟨p, honly, fun again => ?_⟩
  have hround : ∀ d : Compilation, d.plan = p →
      optimizeRound d false c.plugins = pure (.ok (d, false)) := by
    rintro d rfl
    rw [hplugins]
    exact optimizeRound_builtin honly.pass_eq false _
  unfold compile compileWith
  rw [hbegin]
  dsimp only
  rw [pure_bind]
  dsimp only
  rw [optimizeRounds, hround _ rfl, pure_bind]
  dsimp only
  rw [pure_bind, hplugins]
  dsimp only
  rw [finishAll_builtin, pure_bind]

end Run

end Compiler

namespace Settings
variable {M : Type → Type} [Monad M] [LawfulMonad M] {config : Config} {cwd : String} {s : Settings}

theorem Accepts.renderPage_eq_ok (h : s.Accepts config) {p : Plan} (files : MemoryFiles)
    (hentries : p.entrypoints.keys = config.entry.keys) (hfiles : p.OneFileEach)
    (page : HtmlPage) (html : String) :
    Compilation.renderPage { settings := s, files := files.view, plan := p } page = .ok html ↔
      ∃ template, files.files.get? (s.locate page.template) = some template.toUTF8 ∧
        page.rendered config.output.publicPath config.entry.keys template = html := by
  rw [Compilation.renderPage_eq_ok hfiles]
  dsimp only
  simp only [FileView.readText_eq_ok, MemoryFiles.read_eq_ok,
    MemoryFiles.locate_locate h.context, hentries, h.publicPath]

/-- Pages are written just if each of them has a template that is a text. -/
theorem Accepts.writePages_iff (h : s.Accepts config) {p : Plan} (files : MemoryFiles)
    (hentries : p.entrypoints.keys = config.entry.keys) (hfiles : p.OneFileEach) :
    ((∃ d, BuiltinPlugin.writePages config.builtins.html
        { settings := s, files := files.view, plan := p } = .ok d) ↔
      ∀ page ∈ config.builtins.html, ∃ template : String,
        files.files.get? (s.locate page.template) = some template.toUTF8) ∧
    ∀ d, BuiltinPlugin.writePages config.builtins.html
        { settings := s, files := files.view, plan := p } = .ok d →
      d.plan = p ∧ List.Forall₂ (fun page asset => ∃ template : String,
        files.files.get? (s.locate page.template) = some template.toUTF8 ∧
        asset = (page.filename,
          (page.rendered config.output.publicPath config.entry.keys template).toUTF8))
        config.builtins.html d.assets.toList := by
  have hrender := h.renderPage_eq_ok files hentries hfiles
  obtain ⟨-, hnames⟩ := Config.of_fault?_eq_none h.valid
  obtain ⟨hdone, hwritten⟩ := BuiltinPlugin.writePages_iff
    (c := { settings := s, files := files.view, plan := p }) rfl hnames
  refine ⟨?_, ?_⟩
  · rw [hdone]
    simp only [hrender]
    refine forall₂_congr fun page _ => ?_
    constructor
    · intro hex
      obtain ⟨html, template, htemplate, -⟩ := hex
      exact ⟨template, htemplate⟩
    · intro hex
      obtain ⟨template, htemplate⟩ := hex
      exact ⟨_, template, htemplate, rfl⟩
  · intro d hd
    obtain ⟨hplan, hassets⟩ := hwritten d hd
    refine ⟨hplan, hassets.imp fun page asset hasset => ?_⟩
    obtain ⟨html, hhtml, rfl⟩ := hasset
    obtain ⟨template, htemplate, rfl⟩ := (hrender page html).mp hhtml
    exact ⟨template, htemplate, rfl⟩

/-- An accepted configuration gives a compiler. Its run ends well just if every page has a template
that is a text, with a chunk for every entry and every page as an asset. -/
theorem compile_iff_templates (hplugins : config.plugins = [])
    (haccepted : ofConfig config cwd = .ok s) (factories : Factories (Plugin M))
    (files : MemoryFiles) :
    ∃ compiler, Compiler.ofSettings s [] factories files.view = pure (.ok compiler) ∧
      ∃ r : Except BuildError Compilation,
        (∀ again, compiler.compile again = pure (r.map some)) ∧
        ((∃ d, r = .ok d) ↔ ∀ page ∈ config.builtins.html, ∃ template : String,
          files.files.get? (s.locate page.template) = some template.toUTF8) ∧
        ∀ d, r = .ok d →
          d.plan.chunks.values.map Chunk.id = config.entry.keys.map some ∧
          List.Forall₂ (fun page asset => ∃ template : String,
            files.files.get? (s.locate page.template) = some template.toUTF8 ∧
            asset = (page.filename,
              (page.rendered config.output.publicPath config.entry.keys template).toUTF8))
            config.builtins.html d.assets.toList := by
  have h := accepts_of_ofConfig haccepted
  obtain ⟨hlimit, -⟩ := Config.of_fault?_eq_none h.valid
  obtain ⟨limits, hbuiltins⟩ := Builtins.toPlugins_ok hlimit
  have hcompiler : Compiler.ofSettings (m := M) s [] factories files.view = pure (.ok
      { settings := s, hook := {}, files := files.view,
        plugins := (builtinPlugins limits config.builtins.html).map BuiltinPlugin.plugin }) := by
    unfold Compiler.ofSettings
    rw [h.builtins, h.plugins, hplugins, hbuiltins]
    show Compiler.create s ((List.map _ _ ++ []) ++ []) files.view = _
    rw [List.append_nil, List.append_nil]
    exact Compiler.create_builtin s files.view (builtinPlugins_phases limits _)
  refine ⟨_, hcompiler, ?_⟩
  obtain ⟨p, honly, hcompile⟩ := Compiler.compile_builtin (m := M) (c := {
    settings := s, hook := {}, files := files.view,
    plugins := (builtinPlugins limits config.builtins.html).map BuiltinPlugin.plugin }) rfl
  have hentries : p.entrypoints.keys = config.entry.keys := by
    rw [honly.names, List.map_map, ← h.entry]
    rfl
  obtain ⟨hdone, hwritten⟩ := h.writePages_iff (p := p.assignIds) files hentries
    fun name hname => honly.entrypointFiles hname
  refine ⟨_, hcompile, hdone, ?_⟩
  intro d hd
  obtain ⟨hplan, hassets⟩ := hwritten d hd
  refine ⟨?_, hassets⟩
  rw [hplan, honly.ids, List.map_map, ← h.entry, OrderedMap.keys, List.map_map]
  rfl

/-- Two entries, a page for both, and a page that names one of them twice and one that is not
there. The limit asks for fewer chunks than there are entries. -/
def twoEntries : Config where
  context := some "shop/./"
  entry := ⟨[("main", "./src/main.js"), ("admin", "src/admin.js")], by decide⟩
  output := { publicPath := "/assets" }
  builtins := {
    html := [{ template := "./index.html" },
      { template := "pages/../index.html", filename := "admin.html", title := some "Admin",
        chunks := some ["admin", "gone", "admin"] }]
    limitChunkCount := some { maxChunks := 1 } }

def twoEntriesSettings : Settings where
  context := "/site/shop"
  mode := .production
  entry := twoEntries.entry
  output := { path := "/site/shop/dist", publicPath := "/assets" }
  builtins := twoEntries.builtins
  plugins := []

def oneTemplate : MemoryFiles where
  cwd := "/"
  files := ⟨[("/site/shop/index.html", "<body></body>".toUTF8)], by decide⟩

theorem twoEntries_compile : twoEntries.plugins = [] ∧
    ofConfig twoEntries "/site" = .ok twoEntriesSettings ∧
    ∃ compiler, Compiler.ofSettings (m := Id) twoEntriesSettings [] ∅ oneTemplate.view =
        pure (.ok compiler) ∧
      ∃ d, compiler.compile 0 = pure (.ok (some d)) ∧
        d.plan.chunks.values.map Chunk.id = [some "main", some "admin"] ∧
        d.assets.keys = ["index.html", "admin.html"] := by
  have haccepted : ofConfig twoEntries "/site" = .ok twoEntriesSettings := rfl
  obtain ⟨compiler, hcompiler, r, hr, hdone, hbuilt⟩ :=
    compile_iff_templates (M := Id) rfl haccepted ∅ oneTemplate
  have htemplates : ∀ page ∈ twoEntries.builtins.html, ∃ template : String,
      oneTemplate.files.get? (twoEntriesSettings.locate page.template) = some template.toUTF8 := by
    intro page hpage
    have hlocate : ∀ page ∈ twoEntries.builtins.html,
        twoEntriesSettings.locate page.template = "/site/shop/index.html" := by decide
    rw [hlocate page hpage]
    exact ⟨"<body></body>", rfl⟩
  obtain ⟨d, rfl⟩ := hdone.mpr htemplates
  obtain ⟨hids, hassets⟩ := hbuilt d rfl
  refine ⟨rfl, haccepted, compiler, hcompiler, d, hr 0, hids, ?_⟩
  have hkeys : List.Forall₂ (· = ·) (twoEntries.builtins.html.map (·.filename)) d.assets.keys := by
    rw [OrderedMap.keys, List.forall₂_map_left_iff, List.forall₂_map_right_iff]
    refine hassets.imp fun page asset hasset => ?_
    obtain ⟨template, -, rfl⟩ := hasset
    rfl
  rw [List.forall₂_eq_eq_eq] at hkeys
  exact hkeys.symm

end Settings

end Bundler
