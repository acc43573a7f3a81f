import Bundler.Build.Compiler
import Bundler.Proofs.RoundTrip
/-!
# Built-in plugins that are declared by name

A built-in plugin may be asked for among the built-ins or by an entry among the plugins. The options
of such an entry are what writing the settings gives, and reading them back gives the settings, with
the same parts left out. So both ways make the same plugin or fail with the same error, and a build
in which the entry comes first among the plugins has the same plugins in the same order.
-/
namespace Bundler

namespace NameMap
variable {β γ : Type}

theorem lookup_insertAscending (k j : String) (b : β) (ps : List (String × β)) :
    (insertAscending k b ps).lookup j = if j = k then some b else ps.lookup j := by
  induction ps with
  | nil => simp [insertAscending, List.lookup_cons]; grind
  | cons p ps ih =>
    unfold insertAscending
    split
    · grind
    · split
      · grind
      · rw [List.lookup_cons, List.lookup_cons, ih]
        grind

theorem get?_insert (m : NameMap β) (k j : String) (b : β) :
    (m.insert k b).get? j = if j = k then some b else m.get? j :=
  lookup_insertAscending k j b m.toList

/-- A map into which the entries of another are put, each changed by `f`, has what that one has. -/
theorem get?_foldl_insert_toList (m : NameMap β) (f : β → γ) (k : String) :
    (m.toList.foldl (fun (t : NameMap γ) e => t.insert e.1 (f e.2)) ∅).get? k =
      (m.get? k).map f := by
  let changed : NameMap γ :=
    ⟨m.toList.map fun e => (e.1, f e.2), by rw [List.map_map]; exact m.ascending⟩
  have hchanged : m.toList.foldl (fun (t : NameMap γ) e => t.insert e.1 (f e.2)) ∅ = changed := by
    rw [← ofList_toList changed, ofList, List.foldl_map]
  rw [hchanged]
  exact lookup_mapValues (fun _ => f) m.toList k

end NameMap

namespace Factories
variable {p : PluginEntry} {m : Type → Type} [Monad m]

def htmlNames : List String := ["html", htmlPluginName]

def limitNames : List String := ["limitChunkCount", limitPluginName]

theorem get?_builtin (name : String) : builtin.get? name =
    if name ∈ limitNames then some limitFactory
    else if name ∈ htmlNames then some htmlFactory else none := by
  show (((((∅ : Factories BuiltinPlugin).insert _ _).insert _ _).insert _ _).insert _ _).get? _ = _
  have hnone : (∅ : Factories BuiltinPlugin).get? name = none := rfl
  simp only [NameMap.get?_insert, hnone, limitNames, htmlNames, List.mem_cons, List.not_mem_nil,
    or_false]
  grind

theorem create_plugins (p : PluginEntry) : (plugins (m := m)).create p =
    (builtin.create p).map (Option.map BuiltinPlugin.plugin) := by
  have hget : (plugins (m := m)).get? p.name = (builtin.get? p.name).map
      fun make options => (make options).map BuiltinPlugin.plugin :=
    NameMap.get?_foldl_insert_toList builtin
      (fun make options => (make options).map (BuiltinPlugin.plugin (m := m))) p.name
  unfold create
  rw [hget]
  split
  · rfl
  · cases builtin.get? p.name with
    | none => rfl
    | some make =>
      show ((make p.options).map _).map some = ((make p.options).map some).map _
      cases make p.options <;> rfl

theorem create_of_get? {α : Type} {t : Factories α} {make : Factory α} (henabled : p.enabled = true)
    (hget : t.get? p.name = some make) : t.create p = (make p.options).map some := by
  rw [create, henabled, hget]
  rfl

theorem get?_of_limitName {name : String} (h : name ∈ limitNames) :
    builtin.get? name = some limitFactory := by rw [get?_builtin, if_pos h]

theorem get?_of_htmlName {name : String} (h : name ∈ htmlNames) :
    builtin.get? name = some htmlFactory := by
  have hother : name ∉ limitNames := by
    simp only [htmlNames, limitNames, List.mem_cons, List.not_mem_nil, or_false] at h ⊢
    rcases h with rfl | rfl <;> decide
  rw [get?_builtin, if_neg hother, if_pos h]

theorem readOptions_written {α : Type} {read : Json → Json.Decoded α} {write : α → Json}
    (h : Json.Restores read write) (plugin : String) (a : α) :
    readOptions plugin read (write a) = .ok a := by
  rw [readOptions, h]
  rfl

theorem limitFactory_settings (l : LimitSettings) :
    limitFactory l.toJson = l.toLimit.map .limit := by
  rw [limitFactory, readOptions_written LimitSettings.restores]
  show (do return BuiltinPlugin.limit (← l.toLimit) : Except BuildError _) = _
  cases l.toLimit <;> rfl

theorem htmlFactory_pages (pages : List HtmlPage) :
    htmlFactory (.array (pages.map HtmlPage.toJson)) = .ok (.html pages) := by
  have hread := readOptions_written HtmlPage.restores.list htmlPluginName pages
  show (do return BuiltinPlugin.html (← readOptions _ _ _) : Except BuildError _) = _
  rw [hread]
  rfl

theorem htmlFactory_page (page : HtmlPage) : htmlFactory page.toJson = .ok (.html [page]) := by
  have hread := readOptions_written HtmlPage.restores htmlPluginName page
  show (do return BuiltinPlugin.html [← readOptions _ _ _] : Except BuildError _) = _
  rw [hread]
  rfl

/-- An enabled entry says under a name of a built-in plugin what the built-ins say. What is made of
it is what its settings make by themselves. -/
inductive Declares (p : PluginEntry) : Builtins → Except BuildError BuiltinPlugin → Prop
  | limit {l : LimitSettings} : p.enabled = true → p.name ∈ limitNames → p.options = l.toJson →
      Declares p { limitChunkCount := some l } (l.toLimit.map .limit)
  | pages {pages : List HtmlPage} : pages ≠ [] → p.enabled = true → p.name ∈ htmlNames →
      p.options = .array (pages.map HtmlPage.toJson) →
      Declares p { html := pages } (.ok (.html pages))
  | page {page : HtmlPage} : p.enabled = true → p.name ∈ htmlNames → p.options = page.toJson →
      Declares p { html := [page] } (.ok (.html [page]))

variable {b : Builtins} {made : Except BuildError BuiltinPlugin}

theorem Declares.create (h : Declares p b made) : builtin.create p = made.map some := by
  cases h with
  | limit henabled hname hoptions =>
    rw [create_of_get? henabled (get?_of_limitName hname), hoptions, limitFactory_settings]
  | pages _ henabled hname hoptions =>
    rw [create_of_get? henabled (get?_of_htmlName hname), hoptions, htmlFactory_pages]
  | page henabled hname hoptions =>
    rw [create_of_get? henabled (get?_of_htmlName hname), hoptions, htmlFactory_page]

theorem Declares.toPlugins (h : Declares p b made) :
    b.toPlugins = made.map fun plugin => [plugin] := by
  cases h with
  | @limit l _ _ _ =>
    show (do return [BuiltinPlugin.limit (← l.toLimit)] ++ [] : Except BuildError _) = _
    cases l.toLimit <;> rfl
  | @pages pages hne _ _ _ =>
    show Except.ok ([] ++ if pages.isEmpty then [] else [BuiltinPlugin.html pages]) = _
    rw [List.isEmpty_eq_false_iff.mpr hne]
    rfl
  | page _ _ _ => rfl

theorem createAll_cons {α : Type} (t : Factories α) (p : PluginEntry) (ps : List PluginEntry) :
    t.createAll (p :: ps) = do
      let first ← t.create p
      return first.toList ++ (← t.createAll ps) := by
  unfold createAll
  rw [List.mapM_cons]
  cases t.create p with
  | error e => rfl
  | ok first =>
    cases ps.mapM t.create with
    | error e => rfl
    | ok rest => cases first <;> rfl

/-- A built-in plugin that is declared by an entry is made as the built-ins make it, under any of
its names and with all of its settings, or fails as they fail. In front of other entries it is the
plugin that the built-ins have in front of these. -/
theorem declared_as_builtin (h : Declares p b made) :
    builtin.create p = made.map some ∧ (b.toPlugins = made.map fun plugin => [plugin]) ∧
    ∀ (m : Type → Type) [Monad m] (ps : List PluginEntry),
      (plugins (m := m)).create p = made.map (fun plugin => some plugin.plugin) ∧
      (plugins (m := m)).createAll (p :: ps) = do
        let builtin ← b.toPlugins
        return builtin.map BuiltinPlugin.plugin ++ (← (plugins (m := m)).createAll ps) := by
  refine ⟨h.create, h.toPlugins, fun m _ ps => ?_⟩
  have hcreate : (plugins (m := m)).create p = made.map fun plugin => some plugin.plugin := by
    rw [create_plugins, h.create]
    cases made <;> rfl
  refine ⟨hcreate, ?_⟩
  rw [createAll_cons, hcreate, h.toPlugins]
  cases made <;> rfl

def newsPage : HtmlPage := { template := "news.html", title := some "News", chunks := some ["a"] }

def newsEntry : PluginEntry := { name := "html", options := newsPage.toJson }

theorem newsEntry_as_builtin : Declares newsEntry { html := [newsPage] } (.ok (.html [newsPage])) ∧
    builtin.create newsEntry = .ok (some (.html [newsPage])) := by
  have h : Declares newsEntry { html := [newsPage] } (.ok (.html [newsPage])) :=
    .page rfl (by decide) rfl
  exact ⟨h, (declared_as_builtin h).1⟩

end Factories
end Bundler
