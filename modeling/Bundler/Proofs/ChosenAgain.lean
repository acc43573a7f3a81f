import Bundler.Proofs.Settling
/-!
# Profiles that are chosen again

Choosing a profile lays its changes over the written form of the base, reads the result, and does
the same for each plugin, whose list may itself come from the profile. Choosing it once more lays
the same changes over what was read. This module shows that nothing is changed by that, whatever
shapes the changes have, and that the second choice succeeds wherever the first did.
-/
namespace Bundler

open Json Json.RecordShape

variable {profile : String} {changes : Json}

/-- Profiles are written under one key, unless there are none. -/
theorem Json.DistinctKeys.of_profiles {v w : Json} {profiles : List (String × Json)}
    (h : v.DistinctKeys)
    (hv : v.field? "profiles" = if profiles.isEmpty then none else some (.object profiles))
    (hw : profiles.lookup profile = some w) : w.DistinctKeys := by
  cases profiles with
  | nil => cases hw
  | cons first rest => exact (h.field hv).field hw

namespace PluginEntry
variable {p q : PluginEntry} {fields : List (String × Json)}

theorem read_object : read (.object fields) = .ok p ↔ shape.read (.object fields) = .ok p := by
  rw [read]
  · cases shape.read (.object fields) with
    | error e => exact iff_of_false (fun h => by cases h) (fun h => by cases h)
    | ok q => exact Iff.rfl
  · exact fun _ => Json.noConfusion

theorem profiles_of_underProfile (h : p.underProfile profile = .ok q) :
    q.profiles = p.profiles := by
  unfold underProfile at h
  split at h
  · exact Except.ok.inj h ▸ rfl
  · exact Except.ok.inj h ▸ rfl
  · obtain ⟨r, -, h⟩ := exists_of_bind_eq_ok h
    exact Except.ok.inj h ▸ rfl

theorem field?_options (p : PluginEntry) : p.toJson.field? "options" =
    match p.options with
    | .null => none
    | v => some v := by
  unfold toJson Json.field?
  cases p.options <;> cases p.profiles.isEmpty <;> rfl

theorem field?_enabled (p : PluginEntry) : p.toJson.field? "enabled" = some (.bool p.enabled) := by
  unfold toJson Json.field?
  cases p.options <;> rfl

theorem field?_profiles (p : PluginEntry) : p.toJson.field? "profiles" =
    if p.profiles.isEmpty then none else some (.object p.profiles.toList) := by
  unfold toJson Json.field?
  cases p.options <;> cases p.profiles.isEmpty <;> rfl

/-- Options are left out just if they are `null`, which counts as `null` again. -/
theorem settles_options : Settles (.ok : Json → Decoded Json) fun
    | .null => none
    | v => some v := by
  intro t v a ht hv hread
  have hwritten : (match a with
    | .null => none
    | v => some v).getD Json.null = a := by
    cases a <;> rfl
  obtain rfl := Except.ok.inj hread
  rw [hwritten]
  exact congrArg Except.ok (overlay_overlay hv t)

/-- A table of changes that was laid over an entry has no effect on what it gave, where the two have
the same profiles. -/
theorem read_again (hfields : (Json.object fields).DistinctKeys)
    (hread : read (p.toJson.overlay (.object fields)) = .ok q) :
    read ({ q with profiles := p.profiles }.toJson.overlay (.object fields)) = .ok q := by
  let r : PluginEntry := { q with profiles := p.profiles }
  obtain ⟨merged, hmerged, hnodup, -⟩ :=
    exists_overlay_object p.nodup_keys_toJson hfields.nodup_keys
  obtain ⟨again, hagain, hkeys, -⟩ :=
    exists_overlay_object r.nodup_keys_toJson hfields.nodup_keys
  have hq : shape.read (p.toJson.overlay (.object fields)) = .ok q := by
    rw [hmerged] at hread ⊢
    exact read_object.mp hread
  have hobject : (p.toJson.overlay (.object fields)).keys.Nodup := hmerged ▸ hnodup
  have hname := settles_string.field (a := q.name) (.inr ⟨p.name, rfl⟩) rfl
    (written.part name_part r) hfields (name_part.of_read hmerged hobject hq)
  have hoptions := settles_options.field (a := q.options) (.inr ⟨p.options, p.field?_options⟩)
    r.field?_options (written.part options_part r) hfields
    (options_part.of_read hmerged hobject hq)
  have henabled := settles_bool.field (a := q.enabled) (.inr ⟨p.enabled, p.field?_enabled⟩)
    r.field?_enabled (written.part enabled_part r) hfields
    (enabled_part.of_read hmerged hobject hq)
  have hprofiles := profiles_part.of_read hmerged hobject hq
  rw [field?_overlay hfields.nodup_keys, p.field?_profiles, ← r.field?_profiles,
    ← field?_overlay hfields.nodup_keys] at hprofiles
  have hneeded : ((r.toJson.overlay (.object fields)).field? "name").isSome = true := by
    rw [field?_overlay hfields.nodup_keys]
    cases fields.lookup "name" <;> rfl
  show read (r.toJson.overlay (.object fields)) = .ok q
  rw [hagain] at hname hoptions henabled hprofiles hneeded ⊢
  exact read_object.mpr (read_of_parts hkeys hneeded hname hoptions henabled hprofiles)

/-- Changes that were made to an entry are made again without effect. -/
theorem underProfile_again (hchanges : ∀ v, p.profiles.get? profile = some v → v.DistinctKeys)
    (h : p.underProfile profile = .ok q) : q.underProfile profile = .ok q := by
  have hprofiles := profiles_of_underProfile h
  unfold underProfile at h ⊢
  rw [hprofiles]
  split at h
  · rfl
  · rfl
  · rename_i changes hnull hchosen
    obtain ⟨r, hr, h⟩ := exists_of_bind_eq_ok h
    cases h
    have hagain : read ({ r with profiles := p.profiles }.toJson.overlay changes) = .ok r := by
      cases changes with
      | object fields => exact read_again (hchanges _ hchosen) hr
      | _ => exact hr
    rw [hagain]
    rfl

end PluginEntry

namespace Config
variable {c d e : Config} {fields merged again : List (String × Json)} {key : String}
variable {α : Type} {read : Json → Decoded α} {write : α → Option Json}

theorem field?_context (c : Config) : c.written.field? "context" = c.context.map .string := by
  unfold written toJson Json.field?
  cases c.context <;> cases c.plugins.isEmpty <;> rfl

theorem field?_mode (c : Config) : c.written.field? "mode" = some (.string c.mode.word) := by
  unfold written toJson Json.field?
  cases c.context <;> rfl

/-- What is read from a field of the written form. -/
theorem written_part {get : Config → α} (h : shape.Part key read get)
    (hget : ∀ (c : Config) profiles, get { c with profiles } = get c) (c : Config) :
    (c.written.field? key).elim (.ok (get shape.start)) read = .ok (get c) :=
  hget c ∅ ▸ written_json.part h { c with profiles := ∅ }

/-- A part that settles is read again from the changes laid over any configuration that has it. -/
theorem part_again {get : Config → α} (h : shape.Part key read get) (hkey : key ≠ "profiles")
    (hget : ∀ (c : Config) profiles, get { c with profiles } = get c)
    (hsettles : Settles read write) (hwrite : ∀ c : Config, c.written.field? key = write (get c))
    (hfields : (Json.object fields).DistinctKeys)
    (hmerged : c.written.overlay (.object fields) = .object merged)
    (he : shape.read (.object (removeField "profiles" merged)) = .ok e)
    (hagain : d.written.overlay (.object fields) = .object again) (hsame : get d = get e) :
    ((removeField "profiles" again).lookup key).elim (.ok (get shape.start)) read =
      .ok (get e) := by
  obtain ⟨hkeys, -, hlookup⟩ := lookup_merged hfields.nodup_keys hmerged
  obtain ⟨-, -, hlookup'⟩ := lookup_merged hfields.nodup_keys hagain
  have hfirst := h.of_read rfl hkeys he
  rw [show (Json.object (removeField "profiles" merged)).field? key = _ from hlookup key hkey]
    at hfirst
  rw [hlookup' key hkey]
  exact hsettles.field (.inr ⟨get c, hwrite c⟩) (hsame ▸ hwrite d)
    (hsame ▸ written_part h hget d) hfields hfirst

/-- The plugins that are read when changes are laid over a configuration again: those listed in the
changes, and else those it has. -/
theorem plugins_again (hfields : (Json.object fields).DistinctKeys)
    (hmerged : c.written.overlay (.object fields) = .object merged)
    (he : shape.read (.object (removeField "profiles" merged)) = .ok e)
    (hagain : d.written.overlay (.object fields) = .object again) :
    ∃ listed, ((removeField "profiles" again).lookup "plugins").elim (.ok shape.start.plugins)
        (asList PluginEntry.read) = .ok listed ∧
      (listed = d.plugins ∧ e.plugins = c.plugins ∨ listed = e.plugins) := by
  obtain ⟨hkeys, -, hlookup⟩ := lookup_merged hfields.nodup_keys hmerged
  obtain ⟨-, -, hlookup'⟩ := lookup_merged hfields.nodup_keys hagain
  have hfirst := plugins_part.of_read rfl hkeys he
  rw [show (Json.object (removeField "profiles" merged)).field? "plugins" = _ from
    hlookup _ (by decide), field?_overlay hfields.nodup_keys] at hfirst
  rw [hlookup' _ (by decide), field?_overlay hfields.nodup_keys]
  cases hkey : fields.lookup "plugins" with
  | none =>
    rw [hkey] at hfirst
    have hbase := written_part plugins_part (fun _ _ => rfl) c
    exact ⟨d.plugins, written_part plugins_part (fun _ _ => rfl) d,
      .inl ⟨rfl, Except.ok.inj (hfirst.symm.trans hbase)⟩⟩
  | some v =>
    rw [hkey, Option.elim_some, (flatAt_plugins c).overlay] at hfirst
    rw [Option.elim_some, (flatAt_plugins d).overlay]
    exact ⟨e.plugins, hfirst, .inr rfl⟩

theorem layOver_object_again (hfields : (Json.object fields).DistinctKeys)
    (hd : c.layOver (.object fields) = .ok d) (plugins : List PluginEntry) :
    ∃ listed, { d with plugins }.layOver (.object fields) = .ok { d with plugins := listed } ∧
      (listed = plugins ∧ d.plugins = c.plugins ∨ listed = d.plugins) := by
  obtain ⟨merged, e, hmerged, he, rfl⟩ := layOver_object_eq_ok.mp hd
  let d' : Config := { e with plugins, profiles := c.profiles }
  obtain ⟨again, hagain, -⟩ := exists_overlay_object d'.nodup_keys_written hfields.nodup_keys
  obtain ⟨listed, hlisted, hcases⟩ := plugins_again hfields hmerged he hagain
  obtain ⟨hkeys, hnone, -⟩ := lookup_merged hfields.nodup_keys hagain
  have hpaths : ∀ (context : Option String) fields,
      context.map Json.string ≠ some (.object fields) := by
    intro context fields
    cases context <;> exact nofun
  have hwords : Settles Mode.read fun m => some (.string m.word) := .of_flat nofun
  have hcontext := part_again context_part (by decide) (fun _ _ => rfl) (.of_flat hpaths)
    field?_context hfields hmerged he hagain rfl
  have hmode := part_again mode_part (by decide) (fun _ _ => rfl) hwords field?_mode hfields
    hmerged he hagain rfl
  have hentry := part_again entry_part (by decide) (fun _ _ => rfl) Entries.settles
    written_entry hfields hmerged he hagain rfl
  have houtput := part_again output_part (by decide) (fun _ _ => rfl) Output.settles
    written_output hfields hmerged he hagain rfl
  have hbuiltins := part_again builtins_part (by decide) (fun _ _ => rfl) Builtins.settles
    written_builtins hfields hmerged he hagain rfl
  have hprofiles : ((removeField "profiles" again).lookup "profiles").elim
      (.ok shape.start.profiles) (fun v => (asFields .ok v).map .ofList) = .ok ∅ := by
    rw [hnone]
    rfl
  refine ⟨listed, layOver_object_eq_ok.mpr ⟨again, { e with plugins := listed, profiles := ∅ },
    hagain, ?_, rfl⟩, hcases⟩
  exact read_of_parts hkeys hcontext hmode hentry houtput hbuiltins hlisted hprofiles

/-- Changes that were laid over a configuration are laid over the result without effect, whatever
has been done to the plugins. These are taken over unless the changes have a list of their own. -/
theorem layOver_again (hchanges : changes.DistinctKeys) (hd : c.layOver changes = .ok d)
    (plugins : List PluginEntry) :
    ∃ listed, { d with plugins }.layOver changes = .ok { d with plugins := listed } ∧
      (listed = plugins ∧ d.plugins = c.plugins ∨ listed = d.plugins) := by
  cases changes with
  | null =>
    cases hd
    exact ⟨plugins, rfl, .inl ⟨rfl, rfl⟩⟩
  | array items =>
    obtain ⟨e, he, hd⟩ := exists_of_bind_eq_ok hd
    cases hd
    refine ⟨e.plugins, ?_, .inr rfl⟩
    show (shape.read (.array items) >>= _) = _
    have he : shape.read (.array items) = .ok e := he
    rw [he]
    rfl
  | object fields => exact layOver_object_again hchanges hd plugins
  | _ => cases hd

/-- Plugins that were changed have the profiles they had. -/
theorem any_contains_of_mapM {plugins changed : List PluginEntry}
    (h : plugins.mapM (·.underProfile profile) = .ok changed) :
    changed.any (·.profiles.contains profile) = plugins.any (·.profiles.contains profile) := by
  have hall := forall₂_of_mapM h
  clear h
  induction hall with
  | nil => rfl
  | cons hq _ ih => rw [List.any_cons, List.any_cons, ih, PluginEntry.profiles_of_underProfile hq]

/-- Plugins that were changed are changed again without effect. -/
theorem mapM_underProfile_again {plugins changed : List PluginEntry}
    (hdistinct : ∀ p ∈ plugins, ∀ v, p.profiles.get? profile = some v → v.DistinctKeys)
    (h : plugins.mapM (·.underProfile profile) = .ok changed) :
    changed.mapM (·.underProfile profile) = .ok changed := by
  have hall := forall₂_of_mapM h
  clear h
  induction hall with
  | nil => rfl
  | cons hq _ ih =>
    obtain ⟨hp, hplugins⟩ := List.forall_mem_cons.mp hdistinct
    rw [List.mapM_cons, PluginEntry.underProfile_again hp hq, ih hplugins]
    rfl

/-- What a profile changes is told by the profiles, of which those of the configuration stay, and
those of its plugins do unless there are changes that list others. -/
theorem changes?_again (hchanges : c.changes? profile = some changes)
    (h : c.changedBy profile changes = .ok d) : d.changes? profile = some changes := by
  obtain ⟨e, plugins, he, hplugins, rfl⟩ := changedBy_eq_ok.mp h
  unfold changes? at hchanges ⊢
  show (e.profiles.get? profile).or (if plugins.any _ then _ else _) = _
  rw [layOver_profiles he]
  cases hget : c.profiles.get? profile with
  | some v =>
    rw [hget] at hchanges
    exact hchanges
  | none =>
    rw [hget, Option.none_or] at hchanges
    rw [Option.none_or, any_contains_of_mapM hplugins]
    split at hchanges
    · cases hchanges
      cases he
      exact if_pos ‹_›
    · cases hchanges

theorem distinctKeys_of_changes? (hc : c.toJson.DistinctKeys)
    (hchanges : c.changes? profile = some changes) : changes.DistinctKeys := by
  have hprofiles : c.toJson.field? "profiles" =
      if c.profiles.isEmpty then none else some (.object c.profiles.toList) := by
    unfold toJson Json.field?
    cases c.context <;> cases c.plugins.isEmpty <;> cases c.profiles.isEmpty <;> rfl
  rcases Option.or_eq_some_iff.mp hchanges with hown | ⟨-, hplugins⟩
  · exact hc.of_profiles hprofiles hown
  · split at hplugins
    · exact Option.some.inj hplugins ▸ .null
    · cases hplugins

theorem distinctKeys_of_plugins (hc : c.toJson.DistinctKeys) :
    ∀ p ∈ c.plugins, ∀ v, p.profiles.get? profile = some v → v.DistinctKeys := by
  intro p hp v hv
  have hplugins : c.toJson.field? "plugins" = some (.array (c.plugins.map PluginEntry.toJson)) := by
    have hsome : c.plugins.isEmpty = false := List.isEmpty_eq_false_iff_exists_mem.mpr ⟨p, hp⟩
    unfold toJson Json.field?
    rw [hsome]
    cases c.context <;> rfl
  cases hc.field hplugins with
  | array hitems => exact (hitems _ (List.mem_map_of_mem hp)).of_profiles p.field?_profiles hv

/-- A profile that was chosen is chosen again without effect. -/
theorem materialize_again (hc : c.toJson.DistinctKeys)
    (h : c.materialize (some profile) = .ok d) : d.materialize (some profile) = .ok d := by
  obtain ⟨changes, hchanges, hd⟩ := materialize_eq_ok.mp h
  refine materialize_eq_ok.mpr ⟨changes, changes?_again hchanges hd, ?_⟩
  obtain ⟨e, plugins, he, hplugins, rfl⟩ := changedBy_eq_ok.mp hd
  obtain ⟨listed, hagain, hlisted⟩ :=
    layOver_again (distinctKeys_of_changes? hc hchanges) he plugins
  refine changedBy_eq_ok.mpr ⟨_, plugins, hagain, ?_, rfl⟩
  rcases hlisted with ⟨rfl, hbase⟩ | rfl
  · rw [hbase] at hplugins
    exact mapM_underProfile_again (distinctKeys_of_plugins hc) hplugins
  · exact hplugins

/-- A profile with one path for all entries, the output as an array, a limit that is taken away and
a key that means nothing. -/
def lightOverlay : Json := .object [
  ("entry", .string "./light.js"),
  ("output", .array [.string "out", .string "/light/"]),
  ("builtins", .object [("limitChunkCount", .null)]),
  ("comment", .bool true)]

/-- A plugin whose options are changed by a profile. -/
def banner : PluginEntry where
  name := "banner"
  options := .object [("text", .string "full"), ("raw", .bool true)]
  profiles := .ofList [("light", .object [
    ("options", .object [("text", .null)]), ("enabled", .bool false)])]

def heavy : Config where
  entry := .ofList [("main", "./main.js"), ("admin", "./admin.js")]
  builtins := { limitChunkCount := some { maxChunks := 5 } }
  plugins := [banner, { name := "define" }]
  profiles := .ofList [("light", lightOverlay)]

theorem heavy_materialize_again :
    heavy.toJson.DistinctKeys ∧ ∃ d, heavy.materialize (some "light") = .ok d ∧
      d.entry.toList = [("main", "./light.js")] ∧ d.output.path = "out" ∧
      d.builtins.limitChunkCount = none ∧ d.plugins.map (·.enabled) = [false, true] ∧
      d.materialize (some "light") = .ok d := by
  have hdistinct : heavy.toJson.DistinctKeys := by
    simp [heavy, banner, lightOverlay, toJson, Output.toJson, Builtins.toJson,
      LimitSettings.toJson, PluginEntry.toJson, OrderedMap.ofList, OrderedMap.insert,
      OrderedMap.keys, OrderedMap.isEmpty, NameMap.ofList, NameMap.insert, NameMap.insertAscending,
      NameMap.isEmpty, nat, distinctKeys_object_iff, distinctKeys_array_iff, DistinctKeys.string,
      DistinctKeys.null, DistinctKeys.bool, DistinctKeys.number]
  obtain ⟨d, hd⟩ := Option.isSome_iff_exists.mp
    (show (heavy.materialize (some "light")).toOption.isSome = true by decide +kernel)
  have hlight : ∀ d ∈ (heavy.materialize (some "light")).toOption,
      d.entry.toList = [("main", "./light.js")] ∧ d.output.path = "out" ∧
      d.builtins.limitChunkCount = none ∧ d.plugins.map (·.enabled) = [false, true] := by
    decide +kernel
  obtain ⟨hentry, houtput, hlimit, hplugins⟩ := hlight d hd
  exact ⟨hdistinct, d, eq_ok_of_toOption hd, hentry, houtput, hlimit, hplugins,
    materialize_again hdistinct (eq_ok_of_toOption hd)⟩

end Config

end Bundler
