import Bundler.Proofs.DeepOverlay
import Bundler.Proofs.Layers
/-!
# Values that settle

A value that is laid over something, read, written and laid over what was written gives the same
again. This is so for whatever is written as no object, since nothing of it shines through; for JSON
values themselves; and for a record if it is so for each of its parts, because a record is read from
an object just as its parts are read from their fields.
-/
namespace Bundler

namespace Json
variable {α σ : Type} {read : Json → Decoded α} {write : α → Option Json}
variable {fields : List (String × Json)} {key : String} {t u v : Json} {a : α}

/-- What is read from a value laid over something written, or over nothing, is read again from the
value laid over its own written form. A part that is left out counts as `null`. -/
def Settles (read : Json → Decoded α) (write : α → Option Json) : Prop :=
  ∀ t v a, (t = .null ∨ ∃ b, write b = some t) → v.DistinctKeys → read (t.overlay v) = .ok a →
    read (((write a).getD .null).overlay v) = .ok a

/-- Nothing of what is written shines through an overlay. -/
theorem Settles.of_flat (hflat : ∀ a fields, write a ≠ some (.object fields)) :
    Settles read write := by
  intro t v a ht _ hread
  have hold : ∀ below, t ≠ .object below := by
    rintro below rfl
    rcases ht with hnull | ⟨b, hb⟩
    · cases hnull
    · exact hflat b below hb
  have hnew : ∀ below, (write a).getD .null ≠ .object below := by
    cases h : write a with
    | none => exact fun _ => Json.noConfusion
    | some w => exact fun below heq => hflat a below (h.trans (congrArg some heq))
  rw [overlay_of_base_not_object hold] at hread
  rw [overlay_of_base_not_object hnew]
  exact hread

theorem settles_string : Settles asString fun s => some (.string s) := .of_flat nofun

theorem settles_path : Settles asPath fun s => some (.string s) := .of_flat nofun

theorem settles_bool : Settles asBool fun b => some (.bool b) := .of_flat nofun

theorem settles_uint32 : Settles asUInt32 fun n => some (.nat n.toNat) := .of_flat nofun

/-- What is no object replaces all that lies below, whatever it is. -/
theorem Settles.of_object
    (h : ∀ t fields a, (t = .null ∨ ∃ b, write b = some t) → (Json.object fields).DistinctKeys →
      read (t.overlay (.object fields)) = .ok a →
      read (((write a).getD .null).overlay (.object fields)) = .ok a) : Settles read write := by
  intro t v a ht hv hread
  cases v with
  | object fields => exact h t fields a ht hv hread
  | _ => exact hread

theorem overlay_eq_null : overlay t v = .null ↔ v = .null := by
  cases v with
  | object fields => cases t <;> exact iff_of_false Json.noConfusion Json.noConfusion
  | _ => exact Iff.rfl

theorem asOption_of_ne_null (hv : v ≠ .null) : asOption read v = (read v).map some := by
  unfold asOption
  split
  · exact absurd rfl hv
  · rfl

theorem Settles.option (h : Settles read write) :
    Settles (asOption read) (·.bind write) := by
  intro t v o ht hv hread
  by_cases hnull : v = .null
  · subst hnull
    exact hread
  · have hover : ∀ t : Json, t.overlay v ≠ .null := fun t => mt overlay_eq_null.mp hnull
    rw [asOption_of_ne_null (hover _)] at hread ⊢
    obtain ⟨a, ha, rfl⟩ := map_eq_ok.mp hread
    have ht' : t = .null ∨ ∃ b, write b = some t := by
      rcases ht with ht | ⟨o, ho⟩
      · exact .inl ht
      · obtain ⟨b, -, hb⟩ := Option.bind_eq_some_iff.mp ho
        exact .inr ⟨b, hb⟩
    exact map_eq_ok.mpr ⟨a, h t v a ht' hv ha, rfl⟩

/-- A field of an object that is laid over a written record again. -/
theorem Settles.field {start : α} (h : Settles read write)
    (ht : t.field? key = none ∨ ∃ b, t.field? key = write b) (hu : u.field? key = write a)
    (hwritten : (u.field? key).elim (.ok start) read = .ok a)
    (hfields : (Json.object fields).DistinctKeys)
    (hread : ((t.overlay (.object fields)).field? key).elim (.ok start) read = .ok a) :
    ((u.overlay (.object fields)).field? key).elim (.ok start) read = .ok a := by
  rw [field?_overlay hfields.nodup_keys] at hread ⊢
  cases hkey : fields.lookup key with
  | none => exact hwritten
  | some v =>
    rw [hkey] at hread
    rw [Option.elim_some, hu]
    refine h _ v a ?_ (hfields.field hkey) hread
    rcases ht with hnone | ⟨b, hb⟩
    · exact .inl (congrArg (·.getD .null) hnone)
    · rw [hb]
      cases hwrite : write b with
      | none => exact .inl rfl
      | some w => exact .inr ⟨b, hwrite⟩

namespace RecordShape
variable {r : RecordShape σ} {toJson : σ → Json} {get : σ → α} {s : σ}
variable {again : List (String × Json)} {f : String × Json}

/-- A record is read from an object if each field is taken, whatever came before. -/
theorem exists_read (hstep : ∀ f ∈ fields, ∀ s, ∃ t, r.step s f.1 f.2 = .ok t)
    (hneeded : ∀ name ∈ r.needed, (fields.lookup name).isSome = true) :
    ∃ s, r.read (.object fields) = .ok s := by
  have htake : ∀ (es : List (String × Json)) (s : σ),
      (∀ f ∈ es, ∀ s, ∃ t, r.step s f.1 f.2 = .ok t) → ∃ t, r.takeIn s es = .ok t := by
    intro es
    induction es with
    | nil => exact fun s _ => ⟨s, rfl⟩
    | cons f es ih =>
      intro s hes
      obtain ⟨t, ht⟩ := hes f List.mem_cons_self s
      obtain ⟨u, hu⟩ := ih t fun e he => hes e (List.mem_cons_of_mem _ he)
      exact ⟨u, takeIn_cons ht hu⟩
  obtain ⟨s, hs⟩ := htake fields r.start hstep
  exact ⟨s, read_object hs hneeded⟩

theorem read_of_lookup {start : Decoded α} (hkeys : (fields.map Prod.fst).Nodup) (hf : f ∈ fields)
    (hread : (fields.lookup key).elim start read = .ok a) (hkey : f.1 = key) :
    read f.2 = .ok a := by
  subst hkey
  rw [(lookup_eq_some_iff hkeys).mpr hf] at hread
  exact hread

theorem Part.eq_of_read (h : r.Part key read get) (hkeys : (fields.map Prod.fst).Nodup)
    (hread : r.read (.object fields) = .ok s)
    (ha : (fields.lookup key).elim (.ok (get r.start)) read = .ok a) : get s = a :=
  Except.ok.inj ((h.of_read rfl hkeys hread).symm.trans ha)

/-- Records are written as objects, from which they are read. -/
structure Written (r : RecordShape σ) (toJson : σ → Json) : Prop where
  restores : Restores r.read toJson
  object : ∀ s, ∃ fields, toJson s = .object fields
  keys : ∀ s, (toJson s).keys.Nodup

theorem Written.part (w : r.Written toJson) (h : r.Part key read get) (s : σ) :
    ((toJson s).field? key).elim (.ok (get r.start)) read = .ok (get s) := by
  obtain ⟨fields, hfields⟩ := w.object s
  exact h.of_read hfields (w.keys s) (w.restores s)

/-- A record was read from fields laid over a written one, or over nothing, and `again` is what the
same fields give that are laid over its own written form. -/
structure Relaid (r : RecordShape σ) (toJson : σ → Json) (fields : List (String × Json)) (s : σ)
    (again : List (String × Json)) : Prop where
  exists_below : ∃ t, (t = .null ∨ ∃ b, toJson b = t) ∧
    r.read (t.overlay (.object fields)) = .ok s
  distinct : (Json.object fields).DistinctKeys
  overlay_eq : (toJson s).overlay (.object fields) = .object again

theorem Relaid.field (x : r.Relaid toJson fields s again) (key : String) :
    again.lookup key = (fields.lookup key).elim ((toJson s).field? key) fun v =>
      some (overlay (((toJson s).field? key).getD .null) v) := by
  rw [← field?_overlay x.distinct.nodup_keys, x.overlay_eq]
  rfl

theorem Relaid.keys (x : r.Relaid toJson fields s again) (w : r.Written toJson) :
    (again.map Prod.fst).Nodup := by
  obtain ⟨merged, hmerged, hkeys, -⟩ := exists_overlay_object (w.keys s) x.distinct.nodup_keys
  rw [x.overlay_eq] at hmerged
  exact Json.object.inj hmerged ▸ hkeys

/-- A part that settles is read again as it was. -/
theorem Relaid.part (x : r.Relaid toJson fields s again) (w : r.Written toJson)
    (h : r.Part key read get) (hsettles : Settles read write)
    (hwrite : ∀ s, (toJson s).field? key = write (get s)) :
    (again.lookup key).elim (.ok (get r.start)) read = .ok (get s) := by
  obtain ⟨t, ht, hread⟩ := x.exists_below
  have hbelow : t.field? key = none ∨ ∃ b, t.field? key = write b := by
    rcases ht with rfl | ⟨b, rfl⟩
    · exact .inl rfl
    · exact .inr ⟨get b, hwrite b⟩
  have hkeys : t.keys.Nodup := by
    rcases ht with rfl | ⟨b, rfl⟩
    · exact List.nodup_nil
    · exact w.keys b
  obtain ⟨merged, hmerged, hnodup, -⟩ := exists_overlay_object hkeys x.distinct.nodup_keys
  have hfirst := h.of_read hmerged (hmerged ▸ hnodup) hread
  have hagain := hsettles.field hbelow (hwrite s) (w.part h s) x.distinct hfirst
  rw [x.overlay_eq] at hagain
  exact hagain

/-- A record settles if it is read again from what its fields give. -/
theorem Written.settles (w : r.Written toJson)
    (h : ∀ fields s again, r.Relaid toJson fields s again → r.read (.object again) = .ok s) :
    Settles r.read fun s => some (toJson s) := by
  apply Settles.of_object
  intro t fields s ht hfields hread
  obtain ⟨again, hagain, -⟩ := exists_overlay_object (w.keys s) hfields.nodup_keys
  have ht' : t = .null ∨ ∃ b, toJson b = t := ht.imp_right fun ⟨b, hb⟩ => ⟨b, Option.some.inj hb⟩
  rw [Option.getD_some, hagain]
  exact h fields s again ⟨⟨t, ht', hread⟩, hfields, hagain⟩

end RecordShape

end Json

open Json Json.RecordShape

variable {fields : List (String × Json)}

namespace Output
variable {o : Output}

theorem written : Written shape toJson where
  restores := restores
  object _ := ⟨_, rfl⟩
  keys _ := by simp [toJson, Json.keys]

theorem read_of_parts (hkeys : (fields.map Prod.fst).Nodup)
    (hpath : (fields.lookup "path").elim (.ok shape.start.path) asPath = .ok o.path)
    (hpublicPath : (fields.lookup "publicPath").elim (.ok shape.start.publicPath) asString =
      .ok o.publicPath) : shape.read (.object fields) = .ok o := by
  have hstep : ∀ f ∈ fields, ∀ s, ∃ t, shape.step s f.1 f.2 = .ok t := by
    intro f hf s
    simp only [shape]
    split
    · exact ⟨_, put_eq_ok.mpr ⟨_, read_of_lookup hkeys hf hpath ‹_›, rfl⟩⟩
    · exact ⟨_, put_eq_ok.mpr ⟨_, read_of_lookup hkeys hf hpublicPath ‹_›, rfl⟩⟩
    · exact ⟨s, rfl⟩
  obtain ⟨u, hu⟩ := exists_read hstep fun _ hname => absurd hname List.not_mem_nil
  have h₁ := path_part.eq_of_read hkeys hu hpath
  have h₂ := publicPath_part.eq_of_read hkeys hu hpublicPath
  cases u
  cases o
  simp_all

theorem settles : Settles shape.read fun o => some o.toJson :=
  written.settles fun _ _ _ x => read_of_parts (x.keys written)
    (x.part written path_part settles_path fun _ => rfl)
    (x.part written publicPath_part settles_string fun _ => rfl)

end Output

namespace LimitSettings
variable {l : LimitSettings}

theorem written : Written shape toJson where
  restores := restores
  object _ := ⟨_, rfl⟩
  keys := nodup_keys_toJson

theorem read_of_parts (hkeys : (fields.map Prod.fst).Nodup)
    (hneeded : (fields.lookup "maxChunks").isSome = true)
    (hmaxChunks : (fields.lookup "maxChunks").elim (.ok shape.start.maxChunks) asUInt32 =
      .ok l.maxChunks)
    (hoverhead : (fields.lookup "chunkOverhead").elim (.ok shape.start.chunkOverhead)
      (asOption asUInt64) = .ok l.chunkOverhead)
    (hweight : (fields.lookup "entryChunkMultiplicator").elim
      (.ok shape.start.entryChunkMultiplicator) (asOption asUInt64) =
      .ok l.entryChunkMultiplicator) : shape.read (.object fields) = .ok l := by
  have hstep : ∀ f ∈ fields, ∀ s, ∃ t, shape.step s f.1 f.2 = .ok t := by
    intro f hf s
    simp only [shape]
    split
    · exact ⟨_, put_eq_ok.mpr ⟨_, read_of_lookup hkeys hf hmaxChunks ‹_›, rfl⟩⟩
    · exact ⟨_, put_eq_ok.mpr ⟨_, read_of_lookup hkeys hf hoverhead ‹_›, rfl⟩⟩
    · exact ⟨_, put_eq_ok.mpr ⟨_, read_of_lookup hkeys hf hweight ‹_›, rfl⟩⟩
    · exact ⟨s, rfl⟩
  obtain ⟨m, hm⟩ := exists_read hstep fun _ hname => List.mem_singleton.mp hname ▸ hneeded
  have h₁ := maxChunks_count.eq_of_read hkeys hm hmaxChunks
  have h₂ := chunkOverhead_part.eq_of_read hkeys hm hoverhead
  have h₃ := entryChunkMultiplicator_part.eq_of_read hkeys hm hweight
  cases m
  cases l
  simp_all

theorem settles : Settles shape.read fun l => some l.toJson := by
  apply written.settles
  intro fields l again x
  have hneeded : (again.lookup "maxChunks").isSome = true := by
    rw [x.field]
    cases fields.lookup "maxChunks" <;> rfl
  have hcount : ∀ l : LimitSettings, l.toJson.field? "chunkOverhead" =
      l.chunkOverhead.map fun n => .nat n.toNat := by
    intro l
    unfold toJson Json.field?
    cases l.chunkOverhead <;> cases l.entryChunkMultiplicator <;> rfl
  have hweight : ∀ l : LimitSettings, l.toJson.field? "entryChunkMultiplicator" =
      l.entryChunkMultiplicator.map fun n => .nat n.toNat := by
    intro l
    unfold toJson Json.field?
    cases l.chunkOverhead <;> cases l.entryChunkMultiplicator <;> rfl
  have hflat : ∀ (n : Option UInt64) fields,
      (n.map fun n => Json.nat n.toNat) ≠ some (.object fields) := by
    intro n fields
    cases n <;> exact nofun
  exact read_of_parts (x.keys written) hneeded
    (x.part written maxChunks_count settles_uint32 fun _ => rfl)
    (x.part written chunkOverhead_part (.of_flat hflat) hcount)
    (x.part written entryChunkMultiplicator_part (.of_flat hflat) hweight)

end LimitSettings

namespace Builtins
variable {b : Builtins}

theorem written : Written shape toJson where
  restores := restores
  object _ := ⟨_, rfl⟩
  keys := nodup_keys_toJson

theorem read_of_parts (hkeys : (fields.map Prod.fst).Nodup)
    (hhtml : (fields.lookup "html").elim (.ok shape.start.html) (asList HtmlPage.shape.read) =
      .ok b.html)
    (hlimit : (fields.lookup "limitChunkCount").elim (.ok shape.start.limitChunkCount)
      (asOption LimitSettings.shape.read) = .ok b.limitChunkCount) :
    shape.read (.object fields) = .ok b := by
  have hstep : ∀ f ∈ fields, ∀ s, ∃ t, shape.step s f.1 f.2 = .ok t := by
    intro f hf s
    simp only [shape]
    split
    · exact ⟨_, put_eq_ok.mpr ⟨_, read_of_lookup hkeys hf hhtml ‹_›, rfl⟩⟩
    · exact ⟨_, put_eq_ok.mpr ⟨_, read_of_lookup hkeys hf hlimit ‹_›, rfl⟩⟩
    · exact ⟨s, rfl⟩
  obtain ⟨d, hd⟩ := exists_read hstep fun _ hname => absurd hname List.not_mem_nil
  have h₁ := html_part.eq_of_read hkeys hd hhtml
  have h₂ := limitChunkCount_part.eq_of_read hkeys hd hlimit
  cases d
  cases b
  simp_all

theorem field?_html (b : Builtins) : b.toJson.field? "html" =
    if b.html.isEmpty then none else some (.array (b.html.map HtmlPage.toJson)) := by
  unfold toJson Json.field?
  cases b.html.isEmpty <;> cases b.limitChunkCount <;> rfl

theorem field?_limitChunkCount (b : Builtins) : b.toJson.field? "limitChunkCount" =
    b.limitChunkCount.map LimitSettings.toJson := by
  unfold toJson Json.field?
  cases b.html.isEmpty <;> cases b.limitChunkCount <;> rfl

theorem settles : Settles shape.read fun b => some b.toJson := by
  apply written.settles
  intro fields b again x
  have hflat : ∀ (pages : List HtmlPage) fields,
      (if pages.isEmpty then none else some (Json.array (pages.map HtmlPage.toJson))) ≠
        some (Json.object fields) := by
    intro pages fields
    cases pages.isEmpty <;> exact nofun
  have hlimit : ∀ b : Builtins, b.toJson.field? "limitChunkCount" =
      b.limitChunkCount.bind fun l => some l.toJson := by
    intro b
    rw [field?_limitChunkCount, Option.map_eq_bind]
    rfl
  exact read_of_parts (x.keys written)
    (x.part written html_part (.of_flat hflat) field?_html)
    (x.part written limitChunkCount_part LimitSettings.settles.option hlimit)

end Builtins

namespace Entries

theorem eq_strings_of_asFields {es : List (String × String)}
    (h : asFields asString (.object fields) = .ok es) :
    fields = es.map fun e => (e.1, .string e.2) := by
  have hall : List.Forall₂ (fun f e => f = (e.1, Json.string e.2)) fields es := by
    refine (forall₂_of_mapM h).imp fun f e hfe => ?_
    obtain ⟨path, hpath, hfe⟩ := exists_of_bind_eq_ok hfe
    cases hfe
    unfold asString asText at hpath
    split at hpath
    · rename_i hstring
      cases hpath
      exact Prod.ext rfl hstring
    · cases hpath
  clear h
  induction hall with
  | nil => rfl
  | cons hfe _ ih => rw [hfe, ih, List.map_cons]

/-- Entries that are read from a table have just its fields. -/
theorem fields_of_read {entry : Entries} (hkeys : (fields.map Prod.fst).Nodup)
    (hread : Entries.read (.object fields) = .ok entry) :
    fields = entry.toList.map fun e => (e.1, .string e.2) := by
  unfold Entries.read at hread
  split at hread
  · rename_i hshort
    cases hshort
  · split at hread
    · rename_i es hes
      have hfields := eq_strings_of_asFields hes
      have hnodup : (es.map Prod.fst).Nodup := by
        rw [hfields, List.map_map] at hkeys
        exact hkeys
      cases hread
      rw [OrderedMap.ofList_toList ⟨es, hnodup⟩]
      exact hfields
    · cases hread

theorem settles : Settles Entries.read fun entry =>
    some (.object (entry.toList.map fun e => (e.1, .string e.2))) := by
  apply Settles.of_object
  intro t fields entry ht hfields hread
  have hkeys : t.keys.Nodup := by
    rcases ht with rfl | ⟨below, hbelow⟩
    · exact List.nodup_nil
    · cases hbelow
      rw [Json.keys, List.map_map]
      exact below.nodup
  obtain ⟨merged, hmerged, hnodup, -⟩ := exists_overlay_object hkeys hfields.nodup_keys
  rw [hmerged] at hread
  have hwritten := fields_of_read hnodup hread
  -- What is written is what was read, and laying the same fields over that again keeps it.
  have hagain := overlay_overlay hfields t
  rw [hmerged] at hagain
  rw [Option.getD_some, ← hwritten, hagain]
  exact hread

end Entries

namespace PluginEntry
variable {p q : PluginEntry}

theorem nodup_keys_toJson (p : PluginEntry) : p.toJson.keys.Nodup := by
  unfold toJson Json.keys
  cases p.options <;> cases p.profiles.isEmpty <;> simp

theorem written : Written shape toJson where
  restores := shape_restores
  object _ := ⟨_, rfl⟩
  keys := nodup_keys_toJson

theorem read_of_parts (hkeys : (fields.map Prod.fst).Nodup)
    (hneeded : (fields.lookup "name").isSome = true)
    (hname : (fields.lookup "name").elim (.ok shape.start.name) asString = .ok p.name)
    (hoptions : (fields.lookup "options").elim (.ok shape.start.options : Decoded Json) .ok =
      .ok p.options)
    (henabled : (fields.lookup "enabled").elim (.ok shape.start.enabled) asBool = .ok p.enabled)
    (hprofiles : (fields.lookup "profiles").elim (.ok shape.start.profiles)
      (fun v => (asFields .ok v).map .ofList) = .ok p.profiles) :
    shape.read (.object fields) = .ok p := by
  have hstep : ∀ f ∈ fields, ∀ s, ∃ t, shape.step s f.1 f.2 = .ok t := by
    intro f hf s
    simp only [shape]
    split
    · exact ⟨_, put_eq_ok.mpr ⟨_, read_of_lookup hkeys hf hname ‹_›, rfl⟩⟩
    · exact ⟨_, rfl⟩
    · exact ⟨_, put_eq_ok.mpr ⟨_, read_of_lookup hkeys hf henabled ‹_›, rfl⟩⟩
    · obtain ⟨es, hes, -⟩ := map_eq_ok.mp (read_of_lookup hkeys hf hprofiles ‹_›)
      exact ⟨_, put_eq_ok.mpr ⟨es, hes, rfl⟩⟩
    · exact ⟨s, rfl⟩
  obtain ⟨q, hq⟩ := exists_read hstep fun _ hname => List.mem_singleton.mp hname ▸ hneeded
  have h₁ := name_part.eq_of_read hkeys hq hname
  have h₂ := options_part.eq_of_read hkeys hq hoptions
  have h₃ := enabled_part.eq_of_read hkeys hq henabled
  have h₄ := profiles_part.eq_of_read hkeys hq hprofiles
  cases q
  cases p
  simp_all

end PluginEntry

namespace Config
variable {c : Config}

theorem written_json : Written shape toJson where
  restores := restores
  object _ := ⟨_, rfl⟩
  keys := nodup_keys_toJson

theorem read_of_parts (hkeys : (fields.map Prod.fst).Nodup)
    (hcontext : (fields.lookup "context").elim (.ok shape.start.context) (asOption asPath) =
      .ok c.context)
    (hmode : (fields.lookup "mode").elim (.ok shape.start.mode) Mode.read = .ok c.mode)
    (hentry : (fields.lookup "entry").elim (.ok shape.start.entry) Entries.read = .ok c.entry)
    (houtput : (fields.lookup "output").elim (.ok shape.start.output) Output.shape.read =
      .ok c.output)
    (hbuiltins : (fields.lookup "builtins").elim (.ok shape.start.builtins) Builtins.shape.read =
      .ok c.builtins)
    (hplugins : (fields.lookup "plugins").elim (.ok shape.start.plugins)
      (asList PluginEntry.read) = .ok c.plugins)
    (hprofiles : (fields.lookup "profiles").elim (.ok shape.start.profiles)
      (fun v => (asFields .ok v).map .ofList) = .ok c.profiles) :
    shape.read (.object fields) = .ok c := by
  have hstep : ∀ f ∈ fields, ∀ s, ∃ t, shape.step s f.1 f.2 = .ok t := by
    intro f hf s
    simp only [shape]
    split
    · exact ⟨_, put_eq_ok.mpr ⟨_, read_of_lookup hkeys hf hcontext ‹_›, rfl⟩⟩
    · exact ⟨_, put_eq_ok.mpr ⟨_, read_of_lookup hkeys hf hmode ‹_›, rfl⟩⟩
    · exact ⟨_, put_eq_ok.mpr ⟨_, read_of_lookup hkeys hf hentry ‹_›, rfl⟩⟩
    · exact ⟨_, put_eq_ok.mpr ⟨_, read_of_lookup hkeys hf houtput ‹_›, rfl⟩⟩
    · exact ⟨_, put_eq_ok.mpr ⟨_, read_of_lookup hkeys hf hbuiltins ‹_›, rfl⟩⟩
    · exact ⟨_, put_eq_ok.mpr ⟨_, read_of_lookup hkeys hf hplugins ‹_›, rfl⟩⟩
    · obtain ⟨es, hes, -⟩ := map_eq_ok.mp (read_of_lookup hkeys hf hprofiles ‹_›)
      exact ⟨_, put_eq_ok.mpr ⟨es, hes, rfl⟩⟩
    · exact ⟨s, rfl⟩
  obtain ⟨d, hd⟩ := exists_read hstep fun _ hname => absurd hname List.not_mem_nil
  have h₁ := context_part.eq_of_read hkeys hd hcontext
  have h₂ := mode_part.eq_of_read hkeys hd hmode
  have h₃ := entry_part.eq_of_read hkeys hd hentry
  have h₄ := output_part.eq_of_read hkeys hd houtput
  have h₅ := builtins_part.eq_of_read hkeys hd hbuiltins
  have h₆ := plugins_part.eq_of_read hkeys hd hplugins
  have h₇ := profiles_part.eq_of_read hkeys hd hprofiles
  cases d
  cases c
  simp_all

end Config

end Bundler
