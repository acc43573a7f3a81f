import Bundler.Build.ByteSettings
import Bundler.Proofs.BytePaths
import Bundler.Proofs.Results
/-!
# Paths of settings and entries

The paths that settings hold or locate are absolute and cleaned, one for each place, however a
configuration and its entries spell them. Before a run every entry is given a module: those that are
there stay, and each name that has none gets one. Where the paths are texts, that is one module for
each place that an entry means, so that entries that mean one file share it.
-/
namespace Bundler

namespace Path
variable {p : String}

theorem placeFrom_clean (h : isAbsolute p = true) : placeFrom [] (clean p) = placeFrom [] p := by
  rw [← cleanParts_eq_placeFrom (isAbsolute_clean h) [], cleanParts_clean h,
    cleanParts_eq_placeFrom h []]

theorem placeFrom_join (h : isAbsolute p = true) (q : String) :
    placeFrom [] (join p q) = placeFrom (placeFrom [] p) q := by
  rw [← cleanParts_eq_placeFrom (isAbsolute_join h q) [], cleanParts_join h]

end Path

namespace BytePath
variable {p q : BytePath}

/-- The path is the one spelling of a place: it starts at the root, and cleaning keeps it. -/
structure Canonical (p : BytePath) : Prop where
  absolute : p.isAbsolute = true
  cleaned : p.clean = p

/-- The place that an absolute path means: the names on the way to it from the root. -/
def place (p : BytePath) : List String := Path.placeFrom [] p.spelling

theorem isAbsolute_join (h : p.isAbsolute = true) (q : BytePath) : (p.join q).isAbsolute = true := by
  rw [isAbsolute, spelling_join]
  exact Path.isAbsolute_join h q.spelling

theorem canonical_clean (h : p.isAbsolute = true) : p.clean.Canonical where
  absolute := by
    rw [isAbsolute, spelling_clean]
    exact Path.isAbsolute_clean h
  cleaned := by
    apply spelling_injective
    rw [spelling_clean, spelling_clean]
    exact Path.clean_clean h

theorem place_clean (h : p.isAbsolute = true) : p.clean.place = p.place := by
  rw [place, spelling_clean, Path.placeFrom_clean h, place]

theorem place_join (h : p.isAbsolute = true) (q : BytePath) :
    (p.join q).place = Path.placeFrom p.place q.spelling := by
  rw [place, spelling_join, Path.placeFrom_join h, place]

theorem place_clean_join (h : p.isAbsolute = true) (q : BytePath) :
    (p.join q).clean.place = Path.placeFrom p.place q.spelling := by
  rw [place_clean (isAbsolute_join h q), place_join h]

theorem Canonical.eq_iff (hp : p.Canonical) (hq : q.Canonical) : p = q ↔ p.place = q.place := by
  have hclean : ∀ {r : BytePath}, r.Canonical → Path.clean r.spelling = r.spelling := fun h => by
    rw [← spelling_clean, h.cleaned]
  rw [place, place, ← Path.cleanParts_eq_placeFrom hp.absolute [],
    ← Path.cleanParts_eq_placeFrom hq.absolute [], ← Path.clean_eq_iff hp.absolute hq.absolute,
    hclean hp, hclean hq, spelling_injective.eq_iff]

/-- The path is UTF-8. -/
def IsText (p : BytePath) : Prop := ∃ s, p = ofText s

theorem IsText.clean (h : p.IsText) : p.clean.IsText := by
  obtain ⟨s, rfl⟩ := h
  exact ⟨_, clean_ofText s⟩

theorem IsText.join (hp : p.IsText) (hq : q.IsText) : (p.join q).IsText := by
  obtain ⟨s, rfl⟩ := hp
  obtain ⟨t, rfl⟩ := hq
  exact ⟨_, join_ofText s t⟩

theorem IsText.eq_of_lossy_eq (hp : p.IsText) (hq : q.IsText) (h : p.lossy = q.lossy) : p = q := by
  obtain ⟨s, rfl⟩ := hp
  obtain ⟨t, rfl⟩ := hq
  rw [lossy_ofText, lossy_ofText] at h
  rw [h]

end BytePath

theorem eraseDups_filter_concat {α : Type u} [DecidableEq α] (keep : α → Bool) (as : List α)
    (a : α) : ((as ++ [a]).filter keep).eraseDups =
      if keep a = false ∨ a ∈ as then (as.filter keep).eraseDups
      else (as.filter keep).eraseDups ++ [a] := by
  rw [List.filter_append]
  cases hkeep : keep a with
  | false =>
    rw [if_pos (.inl rfl), List.filter_cons_of_neg (by simp [hkeep]), List.filter_nil,
      List.append_nil]
  | true =>
    have hmem : a ∈ as.filter keep ↔ a ∈ as := by simp [hkeep]
    rw [List.filter_cons_of_pos hkeep, List.filter_nil, eraseDups_concat]
    simp [hmem]

namespace Compiler
variable {g : ModuleGraph} {ms : List Module} {m : Module} {id : ModuleId}

theorem seedWith_eq (moduleFor : String → Module) (entries : Entries) (g : ModuleGraph) :
    seedWith moduleFor entries g =
      ((entries.toList.map fun e => moduleFor e.2).foldl ensure g,
        entries.toList.map fun e => (e.1, (moduleFor e.2).id)) := by
  have hfold : ∀ (es : List (String × String)) (g : ModuleGraph)
      (named : List (String × ModuleId)),
      es.foldl (fun (t : ModuleGraph × List (String × ModuleId)) e =>
          (ensure t.1 (moduleFor e.2), t.2 ++ [(e.1, (moduleFor e.2).id)])) (g, named) =
        ((es.map fun e => moduleFor e.2).foldl ensure g,
          named ++ es.map fun e => (e.1, (moduleFor e.2).id)) := by
    intro es
    induction es with
    | nil => exact fun g named => Prod.ext rfl (List.append_nil named).symm
    | cons e es ih =>
      intro g named
      rw [List.foldl_cons, ih, List.append_assoc]
      rfl
  exact hfold entries.toList g []

theorem contains_ensure : (ensure g m).contains id = true ↔ g.contains id = true ∨ id = m.id := by
  unfold ensure
  split
  · rename_i hthere
    constructor
    · exact Or.inl
    · intro h
      rcases h with h | rfl
      · exact h
      · exact hthere
  · show (g.modules.insert m.id _).contains id = true ↔ g.modules.contains id = true ∨ _
    rw [OrderedMap.contains_iff, OrderedMap.contains_iff, OrderedMap.mem_keys_insert]

theorem contains_foldl_ensure :
    (ms.foldl ensure g).contains id = true ↔ g.contains id = true ∨ id ∈ ms.map Module.id := by
  induction ms generalizing g with
  | nil => exact (or_iff_left List.not_mem_nil).symm
  | cons m ms ih => rw [List.foldl_cons, ih, contains_ensure, List.map_cons, List.mem_cons, or_assoc]

/-- The last of several modules is new just if neither the graph nor an earlier one has its name. -/
theorem toList_foldl_ensure_concat : ((ms ++ [m]).foldl ensure g).modules.toList =
    if g.contains m.id = true ∨ m.id ∈ ms.map Module.id then (ms.foldl ensure g).modules.toList
    else (ms.foldl ensure g).modules.toList ++ [(m.id, m)] := by
  rw [List.foldl_append, List.foldl_cons, List.foldl_nil, ensure]
  by_cases hthere : g.contains m.id = true ∨ m.id ∈ ms.map Module.id
  · rw [if_pos (contains_foldl_ensure.mpr hthere), if_pos hthere]
  · have hnew : (ms.foldl ensure g).contains m.id ≠ true :=
      fun h => hthere (contains_foldl_ensure.mp h)
    rw [if_neg hnew, if_neg hthere]
    apply OrderedMap.toList_insert_of_not_mem
    exact fun hin => hnew (OrderedMap.contains_iff.mpr hin)

/-- Every name without a module gets one, and no other names come in. -/
theorem keys_foldl_ensure (g : ModuleGraph) (ms : List Module) :
    (ms.foldl ensure g).modules.keys =
      g.modules.keys ++ ((ms.map Module.id).filter fun id => !g.contains id).eraseDups := by
  induction ms using List.reverseRecOn with
  | nil => exact (List.append_nil _).symm
  | append_singleton ms m ih =>
    rw [OrderedMap.keys, toList_foldl_ensure_concat, List.map_append, List.map_singleton,
      eraseDups_filter_concat]
    simp only [Bool.not_eq_false']
    split
    · exact ih
    · rw [List.map_append, ← List.append_assoc, ← ih]
      rfl

/-- Modules that are there stay where they are. Of things that have modules of different names, each
that has none in the graph gets its own, at the end. -/
theorem toList_foldl_ensure {ι : Type} [DecidableEq ι] (g : ModuleGraph) (f : ι → Module)
    {is : List ι} (hf : ∀ i ∈ is, ∀ j ∈ is, (f i).id = (f j).id → i = j) :
    ((is.map f).foldl ensure g).modules.toList = g.modules.toList ++
      ((is.filter fun i => !g.contains (f i).id).eraseDups.map fun i => ((f i).id, f i)) := by
  induction is using List.reverseRecOn with
  | nil => exact (List.append_nil _).symm
  | append_singleton is i ih =>
    have hrest := ih fun j hj k hk =>
      hf j (List.mem_append_left _ hj) k (List.mem_append_left _ hk)
    have hname : (f i).id ∈ (is.map f).map Module.id ↔ i ∈ is := by
      rw [List.map_map]
      constructor
      · intro h
        obtain ⟨j, hj, hname⟩ := List.mem_map.mp h
        have hsame := hf j (List.mem_append_left _ hj) i
          (List.mem_append_right _ List.mem_cons_self) hname
        exact hsame ▸ hj
      · exact fun h => List.mem_map_of_mem h
    rw [List.map_append, List.map_singleton, toList_foldl_ensure_concat, eraseDups_filter_concat]
    simp only [hname, Bool.not_eq_false']
    split
    · exact hrest
    · rw [List.map_append, List.map_singleton, ← List.append_assoc, ← hrest]

theorem get?_foldl_ensure (h : g.get? id = some m) : (ms.foldl ensure g).get? id = some m := by
  induction ms generalizing g with
  | nil => exact h
  | cons n ms ih =>
    apply ih
    unfold ensure
    split
    · exact h
    · rename_i hnew
      have hne : id ≠ n.id := by
        rintro rfl
        exact hnew (OrderedMap.contains_iff.mpr (OrderedMap.mem_keys_of_get? h))
      show (g.modules.insert n.id _).get? id = some m
      rw [OrderedMap.get?_insert, if_neg hne]
      exact h

end Compiler

/-- The configuration with its paths as bytes. -/
def ByteConfig.ofTexts (c : Config) : ByteConfig :=
  ⟨c, c.context.map .ofText, .ofText c.output.path⟩

namespace ByteSettings
variable {config : ByteConfig} {cwd : BytePath} {s : ByteSettings}

theorem ofConfig_eq_ok : ofConfig config cwd = .ok s ↔
    config.rest.fault? = none ∧ cwd.isAbsolute = true ∧ s = resolve config cwd := by
  unfold ofConfig Config.validate
  cases config.rest.fault? with
  | some fault => simp [Except.mapError, bind, Except.bind]
  | none =>
    cases cwd.isAbsolute with
    | false => simp [Except.mapError, bind, Except.bind, throw, throwThe, MonadExceptOf.throw]
    | true => simp [Except.mapError, bind, Except.bind, pure, Except.pure, eq_comm]

/-- Whatever bytes the working directory and the paths of an accepted configuration are, the paths
of the settings and all that they locate are canonical, and mean the places that the configuration
and the request mean, one seen from the other. Before a run every entry is given its module, the
modules that are there stay, and each name without one gets one. Paths that are texts have different
names, so that each of them without a module gets one. -/
theorem ofConfig_canonical_and_seed (h : ofConfig config cwd = .ok s) :
    (s.context.Canonical ∧ s.outputPath.Canonical ∧ ∀ request, (s.locate request).Canonical) ∧
    (s.context.place = config.context.elim cwd.place (fun c => Path.placeFrom cwd.place c.spelling) ∧
      s.outputPath.place = Path.placeFrom s.context.place config.outputPath.spelling ∧
      (∀ request, (s.locate request).place =
        Path.placeFrom s.context.place (BytePath.ofText request).spelling) ∧
      ∀ request other, s.locate request = s.locate other ↔
        (s.locate request).place = (s.locate other).place) ∧
    (cwd.IsText → (∀ c ∈ config.context, c.IsText) → ∀ request, (s.locate request).IsText) ∧
    ∀ info g,
      let paths := s.entry.toList.map fun e => s.locate e.2
      (s.seed info g).1.modules.keys = g.modules.keys ++
        ((paths.map BytePath.lossy).filter fun id => !g.contains id).eraseDups ∧
      (∀ id m, g.get? id = some m → (s.seed info g).1.get? id = some m) ∧
      (s.seed info g).2 = s.entry.toList.map (fun e => (e.1, (s.locate e.2).lossy)) ∧
      ((∀ path ∈ paths, path.IsText) → (s.seed info g).1.modules.toList = g.modules.toList ++
        ((paths.filter fun path => !g.contains path.lossy).eraseDups.map fun path =>
          (path.lossy, Compiler.entryModule path.lossy (info path)))) := by
  obtain ⟨-, hcwd, hs⟩ := ofConfig_eq_ok.mp h
  have hcontext : s.context = (config.context.elim cwd cwd.join).clean := hs ▸ rfl
  have houtput : s.outputPath = (s.context.join config.outputPath).clean := hs ▸ rfl
  have hstart : (config.context.elim cwd cwd.join).isAbsolute = true := by
    cases config.context with
    | none => exact hcwd
    | some c => exact BytePath.isAbsolute_join hcwd c
  have habsolute : s.context.Canonical := hcontext ▸ BytePath.canonical_clean hstart
  have hlocate : ∀ request, (s.locate request).Canonical := fun request =>
    BytePath.canonical_clean (BytePath.isAbsolute_join habsolute.absolute _)
  refine ⟨⟨habsolute, houtput ▸ BytePath.canonical_clean
    (BytePath.isAbsolute_join habsolute.absolute _), hlocate⟩, ⟨?_, ?_, fun request => ?_,
    fun request other => (hlocate request).eq_iff (hlocate other)⟩, ?_, fun info g => ?_⟩
  · rw [hcontext, BytePath.place_clean hstart]
    cases config.context with
    | none => rfl
    | some c => exact BytePath.place_join hcwd c
  · rw [houtput, BytePath.place_clean_join habsolute.absolute]
  · exact BytePath.place_clean_join habsolute.absolute _
  · intro hcwdText hcontextText request
    have hhome : s.context.IsText := by
      rw [hcontext]
      cases hc : config.context with
      | none => exact hcwdText.clean
      | some c => exact (hcwdText.join (hcontextText c hc)).clean
    exact (hhome.join ⟨request, rfl⟩).clean
  · have hmodules : s.entry.toList.map (fun e => s.moduleFor info e.2) =
        (s.entry.toList.map fun e => s.locate e.2).map fun path =>
          Compiler.entryModule path.lossy (info path) := by
      rw [List.map_map]
      rfl
    rw [seed, Compiler.seedWith_eq]
    refine ⟨?_, fun id m hm => Compiler.get?_foldl_ensure hm, rfl, fun htexts => ?_⟩
    · dsimp only
      rw [hmodules, Compiler.keys_foldl_ensure, List.map_map]
      rfl
    · dsimp only
      rw [hmodules, Compiler.toList_foldl_ensure g
        fun path : BytePath => Compiler.entryModule path.lossy (info path)]
      · rfl
      · exact fun p hp q hq hname => (htexts p hp).eq_of_lossy_eq (htexts q hq) hname

/-- The settings with their paths as bytes. -/
def ofTexts (s : Settings) : ByteSettings where
  context := .ofText s.context
  mode := s.mode
  entry := s.entry
  outputPath := .ofText s.output.path
  publicPath := s.output.publicPath
  builtins := s.builtins
  plugins := s.plugins

/-- Where all paths are texts, they come to the settings that a build has. -/
theorem ofConfig_ofTexts (c : Config) (cwd : String) :
    ofConfig (.ofTexts c) (.ofText cwd) = (Settings.ofConfig c cwd).map ofTexts := by
  have hresolve : resolve (.ofTexts c) (.ofText cwd) = ofTexts {
      context := Path.clean (c.context.elim cwd (Path.join cwd))
      mode := c.mode
      entry := c.entry
      output := { c.output with
        path := Path.clean (Path.join (Path.clean (c.context.elim cwd (Path.join cwd)))
          c.output.path) }
      builtins := c.builtins
      plugins := c.plugins } := by
    have hcontext : ((c.context.map BytePath.ofText).elim (.ofText cwd)
        (BytePath.ofText cwd).join).clean =
          .ofText (Path.clean (c.context.elim cwd (Path.join cwd))) := by
      cases c.context with
      | none => exact BytePath.clean_ofText cwd
      | some context =>
        exact (congrArg BytePath.clean (BytePath.join_ofText cwd context)).trans
          (BytePath.clean_ofText _)
    unfold resolve ByteConfig.ofTexts ofTexts
    dsimp only
    rw [hcontext, BytePath.join_ofText, BytePath.clean_ofText]
  have hrest : (ByteConfig.ofTexts c).rest = c := rfl
  unfold ofConfig Settings.ofConfig Config.validate
  rw [BytePath.isAbsolute_ofText, BytePath.lossy_ofText, hresolve, hrest]
  cases c.fault? with
  | some fault => rfl
  | none =>
    cases Path.isAbsolute cwd with
    | false => rfl
    | true => rfl

theorem locate_ofTexts (s : Settings) (request : String) :
    (ofTexts s).locate request = .ofText (s.locate request) :=
  (congrArg BytePath.clean (BytePath.join_ofText s.context request)).trans (BytePath.clean_ofText _)

theorem seed_ofTexts (s : Settings) (files : FileView) (g : ModuleGraph)
    {info : BytePath → Except FileError FileInfo}
    (hinfo : ∀ path, info (.ofText path) = files.info path) :
    (ofTexts s).seed info g = Compiler.seed s files g := by
  have hmodule : (ofTexts s).moduleFor info = fun request =>
      Compiler.entryModule (s.locate request) (files.info (s.locate request)) := by
    funext request
    rw [moduleFor, locate_ofTexts, BytePath.lossy_ofText, hinfo]
  rw [seed, hmodule]
  rfl

/-- Two entries that spell one file differently, and one whose module is there already. -/
def respelledEntries : ByteConfig where
  rest := {
    entry := .ofList [("main", "./src/index.js"), ("again", "../app/src/lib/..//index.js"),
      ("style", "/site/style.css")] }
  context := some (.ofText "../site//app/.")
  outputPath := .ofText "../out/"

def respelledSettings : ByteSettings := resolve respelledEntries (.ofText "/work/./")

theorem respelledEntries_seed :
    ofConfig respelledEntries (.ofText "/work/./") = .ok respelledSettings ∧
      respelledSettings.context = .ofText "/site/app" ∧ respelledSettings.context.Canonical ∧
      respelledSettings.outputPath = .ofText "/site/out" ∧ respelledSettings.outputPath.Canonical ∧
      respelledSettings.locate "./src/index.js" =
        respelledSettings.locate "../app/src/lib/..//index.js" ∧
      ∀ info, (respelledSettings.seed info (.ofList [{ id := "/site/style.css" }])).1.modules.toList =
        [("/site/style.css", { id := "/site/style.css" }),
          ("/site/app/src/index.js", Compiler.entryModule "/site/app/src/index.js"
            (info (.ofText "/site/app/src/index.js")))] := by
  have haccepted : ofConfig respelledEntries (.ofText "/work/./") = .ok respelledSettings :=
    ofConfig_eq_ok.mpr ⟨by decide +kernel, by decide +kernel, rfl⟩
  obtain ⟨⟨hcontext, houtput, -⟩, ⟨-, -, -, hsame⟩, htexts, hseed⟩ :=
    ofConfig_canonical_and_seed haccepted
  have hcontexts : ∀ c ∈ respelledEntries.context, c.IsText := by
    rintro c ⟨⟩
    exact ⟨_, rfl⟩
  have hpaths := htexts ⟨_, rfl⟩ hcontexts
  refine ⟨haccepted, by decide +kernel, hcontext, by decide +kernel, houtput,
    (hsame _ _).mpr (by decide +kernel), fun info => ?_⟩
  obtain ⟨-, -, -, hmodules⟩ := hseed info (.ofList [{ id := "/site/style.css" }])
  rw [hmodules fun path hpath => ?_]
  · have hmissing : ((respelledSettings.entry.toList.map fun e => respelledSettings.locate e.2).filter
        fun path => !(ModuleGraph.ofList [{ id := "/site/style.css" }]).contains
          path.lossy).eraseDups = [.ofText "/site/app/src/index.js"] := by decide +kernel
    rw [hmissing, List.map_singleton, BytePath.lossy_ofText]
    rfl
  · obtain ⟨e, -, rfl⟩ := List.mem_map.mp hpath
    exact hpaths e.2

/-- Two entries below a directory whose name is no text. -/
def unreadableEntries : ByteConfig where
  rest := { entry := .ofList [("a", "a.js"), ("b", "../\ufffd/a.js")] }
  context := none
  outputPath := .ofText "dist"

def unreadableSettings : ByteSettings := resolve unreadableEntries ⟨[0x2F, 0xFF]⟩

/-- The entries mean two files, but only one module is made for them. -/
theorem unreadableEntries_share_module :
    ofConfig unreadableEntries ⟨[0x2F, 0xFF]⟩ = .ok unreadableSettings ∧
      unreadableSettings.locate "a.js" ≠ unreadableSettings.locate "../\ufffd/a.js" ∧
      ∀ info, (unreadableSettings.seed info {}).1.modules.keys = ["/\ufffd/a.js"] := by
  refine ⟨ofConfig_eq_ok.mpr ⟨by decide +kernel, by decide +kernel, rfl⟩, by decide +kernel,
    fun info => ?_⟩
  have hids : unreadableSettings.entry.toList.map
      (fun e => (unreadableSettings.moduleFor info e.2).id) =
        ["/\ufffd/a.js", "/\ufffd/a.js"] := by
    show unreadableSettings.entry.toList.map (fun e => (unreadableSettings.locate e.2).lossy) = _
    decide +kernel
  rw [seed, Compiler.seedWith_eq, Compiler.keys_foldl_ensure, List.map_map]
  show [] ++ ((unreadableSettings.entry.toList.map
    fun e => (unreadableSettings.moduleFor info e.2).id).filter _).eraseDups = _
  rw [hids]
  decide +kernel

end ByteSettings

end Bundler
