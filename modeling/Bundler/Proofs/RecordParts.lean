import Bundler.Proofs.Overlay
import Bundler.Proofs.RoundTrip
/-!
# Parts of records

A part of a record that is read from one field depends on no other field. So a record that is read
from an overlaid value has, part by part, what the overlay says, and else what it had before.
-/
namespace Bundler

namespace Json.RecordShape
variable {σ α : Type} {r : RecordShape σ} {key : String} {read : Json → Decoded α} {get : σ → α}
variable {fields merged : List (String × Json)} {below : Json} {s t base : σ}

/-- A part of a record that the field `key` sets and no other field changes. -/
structure Part (r : RecordShape σ) (key : String) (read : Json → Decoded α) (get : σ → α) :
    Prop where
  sets : ∀ {s t v}, r.step s key v = .ok t → read v = .ok (get t)
  keeps : ∀ {s t j v}, j ≠ key → r.step s j v = .ok t → get t = get s

theorem Part.takeIn_keeps (h : r.Part key read get) (hkey : key ∉ fields.map Prod.fst)
    (hread : r.takeIn s fields = .ok t) : get t = get s := by
  unfold takeIn at hread
  induction fields generalizing s with
  | nil =>
    cases hread
    rfl
  | cons f fields ih =>
    rw [List.foldlM_cons] at hread
    obtain ⟨u, hu, hread⟩ := exists_of_bind_eq_ok hread
    rw [List.map_cons, List.mem_cons, not_or] at hkey
    rw [ih hkey.2 hread, h.keeps (Ne.symm hkey.1) hu]

theorem Part.takeIn (h : r.Part key read get) (hkeys : (fields.map Prod.fst).Nodup)
    (hread : r.takeIn s fields = .ok t) :
    (fields.lookup key).elim (.ok (get s)) read = .ok (get t) := by
  unfold RecordShape.takeIn at hread
  induction fields generalizing s with
  | nil =>
    cases hread
    rfl
  | cons f fields ih =>
    obtain ⟨j, v⟩ := f
    rw [List.foldlM_cons] at hread
    obtain ⟨u, hu, hrest⟩ := exists_of_bind_eq_ok hread
    obtain ⟨hj, hfields⟩ := List.nodup_cons.mp hkeys
    rw [List.lookup_cons]
    by_cases hkey : key = j
    · subst hkey
      rw [beq_self_eq_true, h.takeIn_keeps hj hrest]
      exact h.sets hu
    · rw [beq_eq_false_iff_ne.mpr hkey, ← h.keeps (Ne.symm hkey) hu]
      exact ih hfields hrest

theorem takeIn_of_read (hread : r.read (.object fields) = .ok s) :
    r.takeIn r.start fields = .ok s ∧ ∀ name ∈ r.needed, (fields.lookup name).isSome = true := by
  obtain ⟨t, ht, hneeded⟩ := exists_of_bind_eq_ok hread
  cases hfind : r.needed.find? fun name => (fields.lookup name).isNone with
  | some name =>
    rw [hfind] at hneeded
    cases hneeded
  | none =>
    rw [hfind] at hneeded
    cases hneeded
    refine ⟨ht, fun name hname => ?_⟩
    have hsome := List.find?_eq_none.mp hfind name hname
    simpa using hsome

/-- What a record that was read has in a part is read from its field, or stands from the start. -/
theorem Part.of_read (h : r.Part key read get) (hobject : below = .object fields)
    (hkeys : below.keys.Nodup) (hread : r.read below = .ok s) :
    (below.field? key).elim (.ok (get r.start)) read = .ok (get s) := by
  subst hobject
  exact h.takeIn hkeys (takeIn_of_read hread).1

/-- What a record that was read from an array has in a part is read from the item that stands in
the place of its field. -/
theorem Part.of_items {items : List Json} (h : r.Part key read get) (hfields : r.fields.Nodup)
    (hread : r.read (.array items) = .ok s) :
    ((r.fields.zip items).lookup key).elim (.ok (get r.start)) read = .ok (get s) := by
  have hkeys : ((r.fields.zip items).map Prod.fst).Nodup := by
    rw [List.zip_eq_zip_take_min, List.map_fst_zip (by simp)]
    exact hfields.sublist (List.take_sublist _ _)
  obtain ⟨t, ht, hcomplete⟩ := exists_of_bind_eq_ok hread
  have hts : t = s := by
    split at hcomplete
    · cases hcomplete
    · split at hcomplete
      · cases hcomplete
      · exact Except.ok.inj hcomplete
  exact hts ▸ h.takeIn hkeys ht

/-- A part of a record that is read from fields laid over `below`, where `base` was read from
`below`. -/
theorem Part.of_merged (h : r.Part key read get) (hkeys : (merged.map Prod.fst).Nodup)
    (hmerged : merged.lookup key = (fields.lookup key).elim (below.field? key) fun v =>
      some (overlay ((below.field? key).getD .null) v))
    (hbelow : (below.field? key).elim (.ok (get r.start)) read = .ok (get base))
    (hread : r.read (.object merged) = .ok s) :
    (fields.lookup key).elim (.ok (get base))
      (fun v => read (overlay ((below.field? key).getD .null) v)) = .ok (get s) := by
  have hs := h.of_read rfl hkeys hread
  rw [show (Json.object merged).field? key = _ from hmerged] at hs
  cases hkey : fields.lookup key with
  | none =>
    rw [hkey] at hs
    exact hbelow.symm.trans hs
  | some v =>
    rw [hkey] at hs
    exact hs

/-- Reading gives a record only if the value is a table, or an array in its place. -/
theorem exists_fields (harray : ∀ items, v ≠ .array items)
    (hread : r.read (overlay below v) = .ok s) : ∃ fields, v = .object fields := by
  cases v with
  | object fields => exact ⟨fields, rfl⟩
  | array items => exact absurd rfl (harray items)
  | _ => cases hread

/-- A part of a record that is laid over the base as a table, if the overlay has it. -/
theorem Part.of_table (h : r.Part key read get) {found : Option Json} (hkeys : below.keys.Nodup)
    (hbelow : (below.field? key).elim (.ok (get r.start)) read = .ok (get base))
    (hfound : ∀ v, found = some v → v.DistinctKeys) (harray : ∀ items, found ≠ some (.array items))
    (hread : found.elim (.ok base) (fun v => r.read (below.overlay v)) = .ok s) :
    (found.bind (·.field? key)).elim (.ok (get base))
      (fun v => read (((below.field? key).getD .null).overlay v)) = .ok (get s) := by
  cases found with
  | none =>
    obtain rfl := Except.ok.inj hread
    rfl
  | some v =>
    obtain ⟨fields, rfl⟩ := exists_fields (fun items heq => harray items (heq ▸ rfl)) hread
    obtain ⟨merged, hmerged, hnodup, hlookup⟩ :=
      exists_overlay_object hkeys (hfound _ rfl).nodup_keys
    have hread : r.read (below.overlay (.object fields)) = .ok s := hread
    rw [hmerged] at hread
    exact h.of_merged hnodup (hlookup key) hbelow hread

/-- A record into which a value is put that was read. -/
theorem put_eq_ok {x : Decoded α} {put : α → σ} :
    (do return put (← x)) = .ok t ↔ ∃ a, x = .ok a ∧ put a = t := by
  have hmap : (do return put (← x)) = x.map put := by cases x <;> rfl
  rw [hmap]
  exact map_eq_ok

/-- A part that a field puts into the record as it was read. -/
theorem Part.of_put (put : σ → α → σ)
    (hput : ∀ s v, r.step s key v = do return put s (← read v)) (hget : ∀ s a, get (put s a) = a)
    (hkeeps : ∀ {s t j v}, j ≠ key → r.step s j v = .ok t → get t = get s) :
    r.Part key read get where
  sets h := by
    rw [hput] at h
    obtain ⟨a, ha, rfl⟩ := put_eq_ok.mp h
    rw [hget, ha]
  keeps := hkeeps

/-- A part that `null` cannot be, seen as one that is there. -/
theorem Part.option (h : r.Part key read get) (hnull : ∀ a, read .null ≠ .ok a) :
    r.Part key (asOption read) fun s => some (get s) where
  sets hstep := by
    have hread := h.sets hstep
    unfold asOption
    split
    · exact absurd hread (hnull _)
    · rw [hread]
      rfl
  keeps hj hstep := congrArg some (h.keeps hj hstep)

end Json.RecordShape

open Json Json.RecordShape

namespace Output
variable {o u : Output} {key : String} {v : Json}

theorem step_keeps (h : shape.step o key v = .ok u) :
    (key ≠ "path" → u.path = o.path) ∧ (key ≠ "publicPath" → u.publicPath = o.publicPath) := by
  simp only [shape] at h
  split at h
  case h_3 =>
    cases h
    simp
  all_goals
    obtain ⟨a, -, rfl⟩ := put_eq_ok.mp h
    simp

theorem path_part : shape.Part "path" asPath path :=
  .of_put (fun o path => { o with path }) (fun _ _ => rfl) (fun _ _ => rfl)
    fun hj h => (step_keeps h).1 hj

theorem publicPath_part : shape.Part "publicPath" asString publicPath :=
  .of_put (fun o publicPath => { o with publicPath }) (fun _ _ => rfl) (fun _ _ => rfl)
    fun hj h => (step_keeps h).2 hj

end Output

namespace LimitSettings
variable {l m : LimitSettings} {key : String} {v : Json}

theorem step_keeps (h : shape.step l key v = .ok m) :
    (key ≠ "maxChunks" → m.maxChunks = l.maxChunks) ∧
      (key ≠ "chunkOverhead" → m.chunkOverhead = l.chunkOverhead) ∧
      (key ≠ "entryChunkMultiplicator" →
        m.entryChunkMultiplicator = l.entryChunkMultiplicator) := by
  simp only [shape] at h
  split at h
  case h_4 =>
    cases h
    simp
  all_goals
    obtain ⟨a, -, rfl⟩ := put_eq_ok.mp h
    simp

theorem maxChunks_count : shape.Part "maxChunks" asUInt32 maxChunks :=
  .of_put (fun l maxChunks => { l with maxChunks }) (fun _ _ => rfl) (fun _ _ => rfl)
    fun hj h => (step_keeps h).1 hj

theorem maxChunks_part :
    shape.Part "maxChunks" (asOption asUInt32) fun l => some l.maxChunks :=
  maxChunks_count.option fun _ hnull => by cases hnull

theorem chunkOverhead_part : shape.Part "chunkOverhead" (asOption asUInt64) chunkOverhead :=
  .of_put (fun l chunkOverhead => { l with chunkOverhead }) (fun _ _ => rfl) (fun _ _ => rfl)
    fun hj h => (step_keeps h).2.1 hj

theorem entryChunkMultiplicator_part :
    shape.Part "entryChunkMultiplicator" (asOption asUInt64) entryChunkMultiplicator :=
  .of_put (fun l entryChunkMultiplicator => { l with entryChunkMultiplicator }) (fun _ _ => rfl)
    (fun _ _ => rfl) fun hj h => (step_keeps h).2.2 hj

end LimitSettings

namespace Builtins
variable {b d : Builtins} {key : String} {v : Json}

theorem step_keeps (h : shape.step b key v = .ok d) :
    (key ≠ "html" → d.html = b.html) ∧
      (key ≠ "limitChunkCount" → d.limitChunkCount = b.limitChunkCount) := by
  simp only [shape] at h
  split at h
  case h_3 =>
    cases h
    simp
  all_goals
    obtain ⟨a, -, rfl⟩ := put_eq_ok.mp h
    simp

theorem html_part : shape.Part "html" (asList HtmlPage.shape.read) html :=
  .of_put (fun b html => { b with html }) (fun _ _ => rfl) (fun _ _ => rfl)
    fun hj h => (step_keeps h).1 hj

theorem limitChunkCount_part :
    shape.Part "limitChunkCount" (asOption LimitSettings.shape.read) limitChunkCount :=
  .of_put (fun b limitChunkCount => { b with limitChunkCount }) (fun _ _ => rfl) (fun _ _ => rfl)
    fun hj h => (step_keeps h).2 hj

end Builtins

namespace PluginEntry
variable {p q : PluginEntry} {key : String} {v : Json}

theorem step_keeps (h : shape.step p key v = .ok q) :
    (key ≠ "name" → q.name = p.name) ∧ (key ≠ "options" → q.options = p.options) ∧
      (key ≠ "enabled" → q.enabled = p.enabled) ∧
      (key ≠ "profiles" → q.profiles = p.profiles) := by
  simp only [shape] at h
  split at h
  case h_2 =>
    cases h
    simp
  case h_5 =>
    cases h
    simp
  all_goals
    obtain ⟨a, -, rfl⟩ := put_eq_ok.mp h
    simp

theorem name_part : shape.Part "name" asString name :=
  .of_put (fun p name => { p with name }) (fun _ _ => rfl) (fun _ _ => rfl)
    fun hj h => (step_keeps h).1 hj

theorem options_part : shape.Part "options" .ok options :=
  .of_put (fun p options => { p with options }) (fun _ _ => rfl) (fun _ _ => rfl)
    fun hj h => (step_keeps h).2.1 hj

theorem enabled_part : shape.Part "enabled" asBool enabled :=
  .of_put (fun p enabled => { p with enabled }) (fun _ _ => rfl) (fun _ _ => rfl)
    fun hj h => (step_keeps h).2.2.1 hj

theorem profiles_part :
    shape.Part "profiles" (fun v => (asFields .ok v).map .ofList) profiles :=
  .of_put (fun p profiles => { p with profiles })
    (fun _ v => by
      show (asFields .ok v >>= _) = _
      cases asFields .ok v <;> rfl) (fun _ _ => rfl)
    fun hj h => (step_keeps h).2.2.2 hj

end PluginEntry

namespace Config
variable {c d : Config} {key : String} {v : Json}

theorem step_keeps (h : shape.step c key v = .ok d) :
    (key ≠ "context" → d.context = c.context) ∧ (key ≠ "mode" → d.mode = c.mode) ∧
      (key ≠ "entry" → d.entry = c.entry) ∧ (key ≠ "output" → d.output = c.output) ∧
      (key ≠ "builtins" → d.builtins = c.builtins) ∧
      (key ≠ "plugins" → d.plugins = c.plugins) ∧
      (key ≠ "profiles" → d.profiles = c.profiles) := by
  simp only [shape] at h
  split at h
  case h_8 =>
    cases h
    simp
  all_goals
    obtain ⟨a, -, rfl⟩ := put_eq_ok.mp h
    simp

theorem context_part : shape.Part "context" (asOption asPath) context :=
  .of_put (fun c context => { c with context }) (fun _ _ => rfl) (fun _ _ => rfl)
    fun hj h => (step_keeps h).1 hj

theorem mode_part : shape.Part "mode" Mode.read mode :=
  .of_put (fun c mode => { c with mode }) (fun _ _ => rfl) (fun _ _ => rfl)
    fun hj h => (step_keeps h).2.1 hj

theorem entry_part : shape.Part "entry" Entries.read entry :=
  .of_put (fun c entry => { c with entry }) (fun _ _ => rfl) (fun _ _ => rfl)
    fun hj h => (step_keeps h).2.2.1 hj

theorem output_part : shape.Part "output" Output.shape.read output :=
  .of_put (fun c output => { c with output }) (fun _ _ => rfl) (fun _ _ => rfl)
    fun hj h => (step_keeps h).2.2.2.1 hj

theorem builtins_part : shape.Part "builtins" Builtins.shape.read builtins :=
  .of_put (fun c builtins => { c with builtins }) (fun _ _ => rfl) (fun _ _ => rfl)
    fun hj h => (step_keeps h).2.2.2.2.1 hj

theorem plugins_part : shape.Part "plugins" (asList PluginEntry.read) plugins :=
  .of_put (fun c plugins => { c with plugins }) (fun _ _ => rfl) (fun _ _ => rfl)
    fun hj h => (step_keeps h).2.2.2.2.2.1 hj

theorem profiles_part :
    shape.Part "profiles" (fun v => (asFields .ok v).map .ofList) profiles :=
  .of_put (fun c profiles => { c with profiles })
    (fun _ v => by
      show (asFields .ok v >>= _) = _
      cases asFields .ok v <;> rfl) (fun _ _ => rfl)
    fun hj h => (step_keeps h).2.2.2.2.2.2 hj

end Config

end Bundler
