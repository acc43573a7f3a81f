import Bundler.Command.Run
import Bundler.Proofs.Profiles
/-!
# Layers of settings

A setting is given by the base configuration, by the partial configuration of a profile, by the
environment and by the options of a command, each of which wins over those before it. What none of
them mentions stays as it is, although the profile is laid over the written form of the base, which
is then read again, while the other two change the configuration itself.
-/
namespace Bundler

open Json (Decoded asFields asList asOption asPath asString asUInt32 asUInt64)
open Json.RecordShape (Part takeIn_of_read)

variable {fields : List (String × Json)} {key profile : String}
variable {α : Type} {read : Json → Decoded α}

/-- A table of values that are read has the keys of the fields, and under each what is read
there. -/
theorem Json.lookup_of_asFields {es : List (String × α)}
    (h : asFields read (.object fields) = .ok es) :
    es.map Prod.fst = fields.map Prod.fst ∧ ∀ k,
      (fields.lookup k).elim (.ok none) (fun v => (read v).map some) = .ok (es.lookup k) := by
  have hall : List.Forall₂ (fun f e => e.1 = f.1 ∧ read f.2 = .ok e.2) fields es :=
    (forall₂_of_mapM h).imp fun f e hfe => by
      obtain ⟨a, ha, hfe⟩ := exists_of_bind_eq_ok hfe
      cases hfe
      exact ⟨rfl, ha⟩
  clear h
  induction hall with
  | nil => exact ⟨rfl, fun _ => rfl⟩
  | @cons f e fields es hfe _ ih =>
    obtain ⟨hkey, hread⟩ := hfe
    refine ⟨by rw [List.map_cons, List.map_cons, hkey, ih.1], fun k => ?_⟩
    rw [List.lookup_cons, List.lookup_cons, hkey]
    cases k == f.1 with
    | true => exact congrArg (Except.map some) hread
    | false => exact ih.2 k

/-- What entries read from a table have under a name. -/
theorem Entries.get?_of_read {entry : Entries} (hfields : (fields.map Prod.fst).Nodup)
    (hread : Entries.read (.object fields) = .ok entry) (name : String) :
    (fields.lookup name).elim (.ok none) (fun v => (asString v).map some) =
      .ok (entry.get? name) := by
  unfold Entries.read at hread
  split at hread
  · rename_i hshort
    cases hshort
  · split at hread
    · rename_i es hes
      cases hread
      obtain ⟨hkeys, hlookup⟩ := Json.lookup_of_asFields hes
      have hget := congrArg (OrderedMap.get? · name)
        (OrderedMap.ofList_toList ⟨es, hkeys ▸ hfields⟩)
      rw [hlookup]
      exact congrArg Except.ok hget.symm
    · cases hread

namespace Builtins

theorem nodup_keys_toJson (b : Builtins) : b.toJson.keys.Nodup := by
  unfold toJson Json.keys
  cases b.html.isEmpty <;> cases b.limitChunkCount <;> simp

theorem flatAt_html (b : Builtins) : b.toJson.FlatAt "html" := by
  unfold Json.FlatAt toJson Json.field?
  cases b.html.isEmpty <;> cases b.limitChunkCount <;> exact fun _ => Json.noConfusion

theorem written_limit (b : Builtins) : (b.toJson.field? "limitChunkCount").getD .null =
    b.limitChunkCount.elim .null LimitSettings.toJson := by
  unfold toJson Json.field?
  cases b.html.isEmpty <;> cases b.limitChunkCount <;> rfl

end Builtins

namespace LimitSettings
variable {old new : Option LimitSettings} {limit : List (String × Json)}

theorem nodup_keys_toJson (l : LimitSettings) : l.toJson.keys.Nodup := by
  unfold toJson Json.keys
  cases l.chunkOverhead <;> cases l.entryChunkMultiplicator <;> simp

theorem flatAt_maxChunks (l : LimitSettings) : l.toJson.FlatAt "maxChunks" :=
  fun _ => Json.noConfusion

theorem flatAt_chunkOverhead (l : LimitSettings) : l.toJson.FlatAt "chunkOverhead" := by
  unfold Json.FlatAt toJson Json.field?
  cases l.chunkOverhead <;> cases l.entryChunkMultiplicator <;> exact fun _ => Json.noConfusion

theorem flatAt_entryChunkMultiplicator (l : LimitSettings) :
    l.toJson.FlatAt "entryChunkMultiplicator" := by
  unfold Json.FlatAt toJson Json.field?
  cases l.chunkOverhead <;> cases l.entryChunkMultiplicator <;> exact fun _ => Json.noConfusion

/-- A part of the limit that is read from a table laid over the limit there was. With none there,
what a limit needs has to be in the table. -/
theorem overlaid_part {get : LimitSettings → Option α} (h : shape.Part key (asOption read) get)
    (hflat : ∀ l : LimitSettings, l.toJson.FlatAt key)
    (hstart : get shape.start = none ∨ key ∈ shape.needed) (hlimit : (limit.map Prod.fst).Nodup)
    (hread : asOption shape.read ((old.elim .null toJson).overlay (.object limit)) = .ok new) :
    (limit.lookup key).elim (.ok (old.bind get)) (asOption read) = .ok (new.bind get) := by
  have hkeys : (old.elim .null toJson).keys.Nodup := by
    cases old with
    | none => exact List.nodup_nil
    | some l => exact l.nodup_keys_toJson
  have hold : (old.elim .null toJson).FlatAt key := by
    cases old with
    | none => exact fun _ => Json.noConfusion
    | some l => exact hflat l
  have hbelow : ((old.elim .null toJson).field? key).elim (.ok (get shape.start))
      (asOption read) = .ok (get (old.getD shape.start)) := by
    cases old with
    | none => rfl
    | some l => exact h.of_read rfl l.nodup_keys_toJson (restores l)
  obtain ⟨merged, hmerged, hnodup, hlookup⟩ := Json.exists_overlay_object hkeys hlimit
  rw [hmerged] at hread
  obtain ⟨l, hl, rfl⟩ : ∃ l, shape.read (.object merged) = .ok l ∧ some l = new :=
    map_eq_ok.mp hread
  have hpart := h.of_merged hnodup (hlookup key) hbelow hl
  simp only [hold.overlay] at hpart
  cases old with
  | some l => exact hpart
  | none =>
    cases hkey : limit.lookup key with
    | some v =>
      rw [hkey] at hpart
      exact hpart
    | none =>
      rw [hkey] at hpart
      rcases hstart with hstart | hneeded
      · exact (congrArg Except.ok hstart.symm).trans hpart
      · have hthere := (takeIn_of_read hl).2 key hneeded
        rw [hlookup key, hkey] at hthere
        cases hthere

end LimitSettings

/-- What an overlay says about a part of the limit on chunks. Where it has `null` for the limit,
that stands for each part. -/
def limitWord (overlay : Json) (key : String) : Option Json :=
  (overlay.at? ["builtins", "limitChunkCount"]).bind fun
    | .null => some .null
    | limit => limit.field? key

namespace Config
variable {c d : Config}

theorem flatAt_context (c : Config) : c.written.FlatAt "context" := by
  unfold Json.FlatAt written toJson Json.field?
  cases c.context <;> cases c.plugins.isEmpty <;> exact fun _ => Json.noConfusion

theorem flatAt_mode (c : Config) : c.written.FlatAt "mode" := by
  unfold Json.FlatAt written toJson Json.field?
  cases c.context <;> exact fun _ => Json.noConfusion

theorem flatAt_plugins (c : Config) : c.written.FlatAt "plugins" := by
  unfold Json.FlatAt written toJson Json.field?
  cases c.context <;> cases c.plugins.isEmpty <;> exact fun _ => Json.noConfusion

theorem written_entry (c : Config) : c.written.field? "entry" =
    some (.object (c.entry.toList.map fun e => (e.1, .string e.2))) := by
  unfold written toJson Json.field?
  cases c.context <;> rfl

theorem written_output (c : Config) : c.written.field? "output" = some c.output.toJson := by
  unfold written toJson Json.field?
  cases c.context <;> rfl

theorem written_builtins (c : Config) : c.written.field? "builtins" = some c.builtins.toJson := by
  unfold written toJson Json.field?
  cases c.context <;> rfl

/-- Laying an object over a configuration reads fields that are settled one by one. -/
theorem exists_merged (hfields : (fields.map Prod.fst).Nodup)
    (hd : c.layOver (.object fields) = .ok d) :
    ∃ merged e, (merged.map Prod.fst).Nodup ∧
      (∀ k ≠ "profiles", merged.lookup k = (fields.lookup k).elim (c.written.field? k) fun v =>
        some (((c.written.field? k).getD .null).overlay v)) ∧
      shape.read (.object merged) = .ok e ∧ d = { e with profiles := c.profiles } := by
  obtain ⟨merged, e, hmerged, he, rfl⟩ := layOver_object_eq_ok.mp hd
  obtain ⟨hkeys, -, hlookup⟩ := lookup_merged hfields hmerged
  refine ⟨Json.removeField "profiles" merged, e, hkeys, fun k hk => ?_, he, rfl⟩
  rw [hlookup k hk, Json.field?_overlay hfields]

/-- A part of the configuration is read from what the overlay has in its field, laid over the base,
and is that of the base if the overlay has nothing there. -/
theorem layOver_part {get : Config → α} (h : shape.Part key read get) (hkey : key ≠ "profiles")
    (hget : ∀ (c : Config) profiles, get { c with profiles } = get c)
    (hfields : (fields.map Prod.fst).Nodup) (hd : c.layOver (.object fields) = .ok d) :
    (fields.lookup key).elim (.ok (get c))
      (fun v => read (((c.written.field? key).getD .null).overlay v)) = .ok (get d) := by
  obtain ⟨merged, e, hmerged, hlookup, he, rfl⟩ := exists_merged hfields hd
  have hbase := h.of_read rfl (nodup_keys_toJson { c with profiles := ∅ })
    (restores { c with profiles := ∅ })
  rw [hget c] at hbase
  rw [hget e]
  exact h.of_merged hmerged (hlookup key hkey) hbase he

/-- What the overlay says about a part of which the base has written no table. -/
theorem layOver_flat {get : Config → α} (h : shape.Part key read get) (hkey : key ≠ "profiles")
    (hget : ∀ (c : Config) profiles, get { c with profiles } = get c)
    (hflat : c.written.FlatAt key) (hfields : (fields.map Prod.fst).Nodup)
    (hd : c.layOver (.object fields) = .ok d) :
    ((Json.object fields).at? [key]).elim (.ok (get c)) read = .ok (get d) := by
  rw [Json.at?_object]
  simpa only [hflat.overlay] using layOver_part h hkey hget hfields hd

/-- What the overlay says about a part of the output. -/
theorem layOver_output {get : Output → α} (h : Output.shape.Part key read get)
    (hflat : c.output.toJson.FlatAt key) (hfields : (Json.object fields).DistinctKeys)
    (htable : ∀ items, (Json.object fields).at? ["output"] ≠ some (.array items))
    (hd : c.layOver (.object fields) = .ok d) :
    ((Json.object fields).at? ["output", key]).elim (.ok (get c.output)) read =
      .ok (get d.output) := by
  have houtput := layOver_part output_part (by decide) (fun _ _ => rfl) hfields.nodup_keys hd
  have hkeys : c.output.toJson.keys.Nodup := by simp [Output.toJson, Json.keys]
  have hbase := h.of_read rfl hkeys (Output.restores c.output)
  rw [written_output] at houtput
  rw [Json.at?_object] at htable
  rw [Json.at?_object_pair]
  have hpart := h.of_table hkeys hbase (fun v hv => hfields.field hv) htable houtput
  simp only [hflat.overlay] at hpart
  exact hpart

/-- What the overlay says about a part of the built-ins. -/
theorem layOver_builtins {get : Builtins → α} (h : Builtins.shape.Part key read get)
    (hfields : (Json.object fields).DistinctKeys)
    (htable : ∀ items, (Json.object fields).at? ["builtins"] ≠ some (.array items))
    (hd : c.layOver (.object fields) = .ok d) :
    ((Json.object fields).at? ["builtins", key]).elim (.ok (get c.builtins))
      (fun v => read (((c.builtins.toJson.field? key).getD .null).overlay v)) =
      .ok (get d.builtins) := by
  have hbuiltins := layOver_part builtins_part (by decide) (fun _ _ => rfl) hfields.nodup_keys hd
  have hkeys := c.builtins.nodup_keys_toJson
  have hbase := h.of_read rfl hkeys (Builtins.restores c.builtins)
  rw [written_builtins] at hbuiltins
  rw [Json.at?_object] at htable
  rw [Json.at?_object_pair]
  exact h.of_table hkeys hbase (fun v hv => hfields.field hv) htable hbuiltins

/-- What the overlay says about the pages. -/
theorem layOver_pages (hfields : (Json.object fields).DistinctKeys)
    (htable : ∀ items, (Json.object fields).at? ["builtins"] ≠ some (.array items))
    (hd : c.layOver (.object fields) = .ok d) :
    ((Json.object fields).at? ["builtins", "html"]).elim (.ok c.builtins.html)
      (asList HtmlPage.shape.read) = .ok d.builtins.html := by
  simpa only [c.builtins.flatAt_html.overlay] using
    layOver_builtins Builtins.html_part hfields htable hd

/-- What the overlay says about a part of the limit on chunks. -/
theorem layOver_limit {get : LimitSettings → Option α}
    (h : LimitSettings.shape.Part key (asOption read) get)
    (hflat : ∀ l : LimitSettings, l.toJson.FlatAt key)
    (hstart : get LimitSettings.shape.start = none ∨ key ∈ LimitSettings.shape.needed)
    (hfields : (Json.object fields).DistinctKeys)
    (hbuiltins : ∀ items, (Json.object fields).at? ["builtins"] ≠ some (.array items))
    (hlimit : ∀ items,
      (Json.object fields).at? ["builtins", "limitChunkCount"] ≠ some (.array items))
    (hd : c.layOver (.object fields) = .ok d) :
    (limitWord (.object fields) key).elim (.ok (c.builtins.limitChunkCount.bind get))
      (asOption read) = .ok (d.builtins.limitChunkCount.bind get) := by
  have hpart := layOver_builtins Builtins.limitChunkCount_part hfields hbuiltins hd
  rw [Builtins.written_limit] at hpart
  unfold limitWord
  cases hfound : (Json.object fields).at? ["builtins", "limitChunkCount"] with
  | none =>
    rw [hfound] at hpart
    rw [← Except.ok.inj hpart]
    rfl
  | some v =>
    rw [hfound] at hpart
    cases v with
    | null =>
      rw [← Except.ok.inj hpart]
      rfl
    | array items => exact absurd hfound (hlimit items)
    | object limit =>
      have hkeys : (limit.map Prod.fst).Nodup := (hfields.at? hfound).nodup_keys
      exact LimitSettings.overlaid_part h hflat hstart hkeys hpart
    | _ => cases hpart

/-- What the overlay says about an entry, unless it gives one path in place of all entries. -/
theorem layOver_entry (hfields : (Json.object fields).DistinctKeys)
    (hshort : ∀ path, (Json.object fields).at? ["entry"] ≠ some (.string path))
    (hd : c.layOver (.object fields) = .ok d) (name : String) :
    ((Json.object fields).at? ["entry", name]).elim (.ok (c.entry.get? name))
      (fun v => (asString v).map some) = .ok (d.entry.get? name) := by
  have hentry := layOver_part entry_part (by decide) (fun _ _ => rfl) hfields.nodup_keys hd
  rw [written_entry] at hentry
  rw [Json.at?_object] at hshort
  rw [Json.at?_object_pair]
  cases hfound : fields.lookup "entry" with
  | none =>
    rw [hfound] at hentry
    rw [← Except.ok.inj hentry]
    rfl
  | some v =>
    rw [hfound] at hentry
    cases v with
    | string path => exact absurd hfound (hshort path)
    | object entries =>
      have hentries : (entries.map Prod.fst).Nodup := (hfields.field hfound).nodup_keys
      -- The entries of the base as they are written, over which those of the overlay are laid.
      let below := c.entry.mapValues fun _ path => Json.string path
      have hbelow : (Json.object below.toList).field? name = (c.entry.get? name).map Json.string :=
        OrderedMap.get?_mapValues _ _ _
      have hkeys : (Json.object below.toList).keys.Nodup := below.nodup
      have hflat : (Json.object below.toList).FlatAt name := by
        unfold Json.FlatAt
        rw [hbelow]
        cases c.entry.get? name <;> exact fun _ => Json.noConfusion
      obtain ⟨merged, hmerged, hnodup, hlookup⟩ := Json.exists_overlay_object hkeys hentries
      have hread : Entries.read (.object merged) = .ok d.entry := hmerged ▸ hentry
      have hname := Entries.get?_of_read hnodup hread name
      simp only [hlookup name, hflat.overlay] at hname
      show (entries.lookup name).elim _ _ = _
      cases hkey : entries.lookup name with
      | none =>
        rw [hkey, Option.elim_none, hbelow] at hname
        cases hget : c.entry.get? name <;> rw [hget] at hname <;> exact hname
      | some v =>
        rw [hkey] at hname
        exact hname
    | _ => cases hentry

end Config

/-- The entry has changes of its own under the profile. -/
def PluginEntry.Changes (p : PluginEntry) (profile : String) : Prop :=
  ∃ changes, p.profiles.get? profile = some changes ∧ changes ≠ .null

theorem PluginEntry.eq_of_underProfile {p q : PluginEntry} (hq : p.underProfile profile = .ok q)
    (hown : ¬ p.Changes profile) : q = p := by
  unfold underProfile at hq
  split at hq
  · exact (Except.ok.inj hq).symm
  · exact (Except.ok.inj hq).symm
  · rename_i changes hnull hchanges
    exact absurd ⟨changes, hchanges, hnull⟩ hown

/-- How a setting is decided: by an option, else by the environment, else by what the overlay says,
and else by the base. -/
def topmost (flag env : Option α) (word : Option Json) (read : Json → Decoded α) (base : α) :
    Decoded α :=
  match flag.or env with
  | some a => .ok a
  | none => word.elim (.ok base) read

theorem topmost_eq {word : Option Json} {base a : α} (flag env : Option α)
    (h : word.elim (.ok base) read = .ok a) :
    topmost flag env word read base = .ok (flag.getD (env.getD a)) := by
  cases flag with
  | some b => rfl
  | none =>
    cases env with
    | some b => rfl
    | none => exact h

namespace Config
variable {c d : Config}

/-- What layers make of a base: each setting is decided by the highest layer that says something
about it, and where none does it is that of the base. -/
structure Layered (base : Config) (profile : String) (overlay : Json) (env : Overrides)
    (flags : BuildOptions) (cwd : String) (final : Config) : Prop where
  mode : topmost flags.mode env.mode (overlay.at? ["mode"]) Mode.read base.mode = .ok final.mode
  outputPath :
    topmost (flags.outDir.map (Path.join cwd)) env.outputPath (overlay.at? ["output", "path"]) asPath
      base.output.path = .ok final.output.path
  publicPath :
    topmost none env.publicPath (overlay.at? ["output", "publicPath"]) asString
      base.output.publicPath = .ok final.output.publicPath
  maxChunks :
    topmost (flags.maxChunks.map some) (env.maxChunks.map some) (limitWord overlay "maxChunks")
      (asOption asUInt32) (base.builtins.limitChunkCount.map (·.maxChunks)) =
      .ok (final.builtins.limitChunkCount.map (·.maxChunks))
  chunkOverhead :
    topmost none none (limitWord overlay "chunkOverhead") (asOption asUInt64)
      (base.builtins.limitChunkCount.bind (·.chunkOverhead)) =
      .ok (final.builtins.limitChunkCount.bind (·.chunkOverhead))
  entryChunkMultiplicator :
    topmost none none (limitWord overlay "entryChunkMultiplicator") (asOption asUInt64)
      (base.builtins.limitChunkCount.bind (·.entryChunkMultiplicator)) =
      .ok (final.builtins.limitChunkCount.bind (·.entryChunkMultiplicator))
  context :
    topmost none (env.context.map some) (overlay.at? ["context"]) (asOption asPath) base.context =
      .ok final.context
  entry : overlay.at? ["entry"] = none → final.entry = base.entry
  /-- Unless the overlay gives one path in place of all entries. -/
  entryOf : (∀ path, overlay.at? ["entry"] ≠ some (.string path)) → ∀ name,
    topmost none none (overlay.at? ["entry", name]) (fun v => (asString v).map some)
      (base.entry.get? name) = .ok (final.entry.get? name)
  pages :
    topmost none none (overlay.at? ["builtins", "html"]) (asList HtmlPage.shape.read)
      base.builtins.html = .ok final.builtins.html
  plugins : ∃ plugins,
    topmost none none (overlay.at? ["plugins"]) (asList PluginEntry.read) base.plugins =
      .ok plugins ∧
    List.Forall₂ (fun p q => ¬ p.Changes profile → q = p) plugins final.plugins
  profiles : final.profiles = base.profiles

theorem limitTo_maxChunks (c : Config) (n : Option UInt32) :
    (c.limitTo n).builtins.limitChunkCount.map (·.maxChunks) =
      (n.map some).getD (c.builtins.limitChunkCount.map (·.maxChunks)) := by
  cases n <;> rfl

/-- A part of the limit that does not depend on the number of chunks, and is absent from the limit
that is made where there is none. -/
theorem limitTo_bind {get : LimitSettings → Option α}
    (hget : ∀ l n, get { l with maxChunks := n } = get l)
    (hnone : ∀ n, get { maxChunks := n } = none) (c : Config) (n : Option UInt32) :
    (c.limitTo n).builtins.limitChunkCount.bind get = c.builtins.limitChunkCount.bind get := by
  cases n with
  | none => rfl
  | some n =>
    show get (.withMaxChunks c.builtins.limitChunkCount n) = _
    unfold LimitSettings.withMaxChunks
    cases c.builtins.limitChunkCount with
    | none => exact hnone n
    | some l => exact hget l n

/-- What options and environment do to a configuration. -/
theorem apply_apply (flags : BuildOptions) (env : Overrides) (cwd : String) (c : Config) :
    flags.apply cwd (env.apply c) =
      { c with
        context := (env.context.map some).getD c.context
        mode := flags.mode.getD (env.mode.getD c.mode)
        output :=
          { path := (flags.outDir.map (Path.join cwd)).getD (env.outputPath.getD c.output.path)
            publicPath := env.publicPath.getD c.output.publicPath }
        builtins := { c.builtins with
          limitChunkCount :=
            ((c.limitTo env.maxChunks).limitTo flags.maxChunks).builtins.limitChunkCount } } := by
  unfold BuildOptions.apply Overrides.apply
  cases flags.maxChunks <;> cases env.maxChunks <;> cases env.context <;> rfl

/-- Environment and options go over whatever lies below them. -/
theorem Layered.apply {overlay : Json} {cwd : String} (h : c.Layered profile overlay {} {} cwd d)
    (env : Overrides) (flags : BuildOptions) :
    c.Layered profile overlay env flags cwd (flags.apply cwd (env.apply d)) := by
  rw [apply_apply]
  exact {
    mode := topmost_eq _ _ h.mode
    outputPath := topmost_eq _ _ h.outputPath
    publicPath := topmost_eq _ _ h.publicPath
    maxChunks := by
      rw [limitTo_maxChunks, limitTo_maxChunks]
      exact topmost_eq _ _ h.maxChunks
    chunkOverhead := by
      rw [limitTo_bind (fun _ _ => rfl) fun _ => rfl, limitTo_bind (fun _ _ => rfl) fun _ => rfl]
      exact h.chunkOverhead
    entryChunkMultiplicator := by
      rw [limitTo_bind (fun _ _ => rfl) fun _ => rfl, limitTo_bind (fun _ _ => rfl) fun _ => rfl]
      exact h.entryChunkMultiplicator
    context := topmost_eq _ _ h.context
    entry := h.entry
    entryOf := h.entryOf
    pages := h.pages
    plugins := h.plugins
    profiles := h.profiles
  }

theorem exists_of_materialize {changes : Json} (hchanges : c.profiles.get? profile = some changes)
    (hd : c.materialize (some profile) = .ok d) :
    ∃ e plugins, c.layOver changes = .ok e ∧
      List.Forall₂ (fun p q => p.underProfile profile = .ok q) e.plugins plugins ∧
      d = { e with plugins } := by
  obtain ⟨found, hfound, hd⟩ := materialize_eq_ok.mp hd
  obtain ⟨e, plugins, he, hplugins, rfl⟩ := changedBy_eq_ok.mp hd
  rw [changes?, hchanges] at hfound
  cases hfound
  exact ⟨e, plugins, he, forall₂_of_mapM hplugins, rfl⟩

/-- The lowest layer, the profile, where it gives no record as an array. -/
theorem layered_of_materialize (hoverlay : c.profiles.get? profile = some (.object fields))
    (hdistinct : (Json.object fields).DistinctKeys)
    (htables : ∀ path ∈ [["output"], ["builtins"], ["builtins", "limitChunkCount"]], ∀ items,
      (Json.object fields).at? path ≠ some (.array items))
    (hd : c.materialize (some profile) = .ok d) (cwd : String) :
    c.Layered profile (.object fields) {} {} cwd d := by
  obtain ⟨e, plugins, he, hplugins, rfl⟩ := exists_of_materialize hoverlay hd
  have houtput := htables ["output"] (by simp)
  have hbuiltins := htables ["builtins"] (by simp)
  have hlimit := htables ["builtins", "limitChunkCount"] (by simp)
  have hkeys := hdistinct.nodup_keys
  have hmode := layOver_flat mode_part (by decide) (fun _ _ => rfl) (flatAt_mode c) hkeys he
  have hcontext :=
    layOver_flat context_part (by decide) (fun _ _ => rfl) (flatAt_context c) hkeys he
  have hlisted := layOver_flat plugins_part (by decide) (fun _ _ => rfl) (flatAt_plugins c) hkeys he
  have hentry := layOver_part entry_part (by decide) (fun _ _ => rfl) hkeys he
  have hnamed := fun hshort => layOver_entry hdistinct hshort he
  have hpath := layOver_output Output.path_part (fun _ => Json.noConfusion) hdistinct houtput he
  have hpublicPath :=
    layOver_output Output.publicPath_part (fun _ => Json.noConfusion) hdistinct houtput he
  have hpages := layOver_pages hdistinct hbuiltins he
  have hmaxChunks := layOver_limit LimitSettings.maxChunks_part LimitSettings.flatAt_maxChunks
    (.inr (by decide)) hdistinct hbuiltins hlimit he
  rw [← Function.comp_def some, ← Option.map_eq_bind, ← Option.map_eq_bind] at hmaxChunks
  have hoverhead := layOver_limit LimitSettings.chunkOverhead_part
    LimitSettings.flatAt_chunkOverhead (.inl rfl) hdistinct hbuiltins hlimit he
  have hweight := layOver_limit LimitSettings.entryChunkMultiplicator_part
    LimitSettings.flatAt_entryChunkMultiplicator (.inl rfl) hdistinct hbuiltins hlimit he
  have hprofiles := layOver_profiles he
  exact {
    mode := hmode
    outputPath := hpath
    publicPath := hpublicPath
    maxChunks := hmaxChunks
    chunkOverhead := hoverhead
    entryChunkMultiplicator := hweight
    context := hcontext
    entry := by
      intro hnone
      rw [Json.at?_object] at hnone
      rw [hnone] at hentry
      exact (Except.ok.inj hentry).symm
    entryOf := hnamed
    pages := hpages
    plugins := ⟨e.plugins, hlisted, hplugins.imp fun _ _ => PluginEntry.eq_of_underProfile⟩
    profiles := hprofiles
  }

/-- The profile, the environment and the options, laid in this order over a base whose context is
resolved, where the profile gives no record as an array. -/
theorem layered_settings {dir cwd : String} {env : Overrides} {flags : BuildOptions}
    (hoverlay : c.profiles.get? profile = some (.object fields))
    (hdistinct : (Json.object fields).DistinctKeys)
    (htables : ∀ path ∈ [["output"], ["builtins"], ["builtins", "limitChunkCount"]], ∀ items,
      (Json.object fields).at? path ≠ some (.array items))
    (hd : (c.resolveContext dir).materialize (some profile) = .ok d) :
    (c.resolveContext dir).Layered profile (.object fields) env flags cwd
      (flags.apply cwd (env.apply d)) := by
  have hprofile : (c.resolveContext dir).profiles.get? profile = some (.object fields) := hoverlay
  exact (layered_of_materialize hprofile hdistinct htables hd cwd).apply env flags

def stagedOverlay : List (String × Json) := [
  ("mode", .string "none"),
  ("output", .object [("publicPath", .string "/x/")]),
  ("builtins", .object [("limitChunkCount", .object [("chunkOverhead", .null)])])]

/-- A configuration whose profile takes away a constant of the limit. -/
def staged : Config where
  mode := .development
  builtins := { limitChunkCount := some { maxChunks := 5, chunkOverhead := some 100 } }
  profiles := .ofList [("ci", .object stagedOverlay)]

theorem staged_settings :
    staged.profiles.get? "ci" = some (.object stagedOverlay) ∧
      (Json.object stagedOverlay).DistinctKeys ∧
      (∀ path ∈ [["output"], ["builtins"], ["builtins", "limitChunkCount"]], ∀ items,
        (Json.object stagedOverlay).at? path ≠ some (.array items)) ∧
      ∃ d, (staged.resolveContext "/app").materialize (some "ci") = .ok d ∧
        (staged.resolveContext "/app").Layered "ci" (.object stagedOverlay)
          { outputPath := some "out" } { maxChunks := some 2 } "/work"
          (BuildOptions.apply { maxChunks := some 2 } "/work"
            (Overrides.apply { outputPath := some "out" } d)) := by
  have hdistinct : (Json.object stagedOverlay).DistinctKeys := by
    simp [stagedOverlay, Json.distinctKeys_object_iff, Json.DistinctKeys.string,
      Json.DistinctKeys.null]
  have htables : ∀ path ∈ [["output"], ["builtins"], ["builtins", "limitChunkCount"]], ∀ items,
      (Json.object stagedOverlay).at? path ≠ some (.array items) := by
    simp [stagedOverlay, Json.at?, Json.field?, List.lookup_cons]
  obtain ⟨d, hd⟩ := Option.isSome_iff_exists.mp
    (show ((staged.resolveContext "/app").materialize (some "ci")).toOption.isSome = true by
      decide +kernel)
  exact ⟨rfl, hdistinct, htables, d, eq_ok_of_toOption hd,
    layered_settings rfl hdistinct htables (eq_ok_of_toOption hd)⟩

end Config

end Bundler
