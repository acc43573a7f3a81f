import Bundler.Proofs.Overlay
/-!
# Overlays seen from their paths

Laying one value over another is a deep override. At every path where the upper value has something,
the result is that laid over what the lower value has there; where the upper value has an object
without the next key, the lower value shows through. So laying the same value over the result again
finds itself everywhere and changes nothing.
-/
namespace Bundler.Json
variable {fields below : List (String × Json)} {key k : String} {v w t u : Json}

theorem overlay_of_not_object (h : ∀ fields, v ≠ .object fields) (t : Json) : overlay t v = v := by
  cases v with
  | object fields => exact absurd rfl (h fields)
  | _ => rfl

theorem field?_of_not_object (h : ∀ fields, v ≠ .object fields) (k : String) :
    v.field? k = none := by
  cases v with
  | object fields => exact absurd rfl (h fields)
  | _ => rfl

theorem at?_append (v : Json) (path rest : List String) :
    v.at? (path ++ rest) = (v.at? path).bind (·.at? rest) := by
  induction path generalizing v with
  | nil => rfl
  | cons k path ih =>
    show (v.field? k).bind (·.at? (path ++ rest)) = ((v.field? k).bind (·.at? path)).bind _
    rw [Option.bind_assoc, funext ih]

theorem getD_at?_null (path : List String) : (Json.null.at? path).getD .null = .null := by
  cases path <;> rfl

/-- Where the upper value has something, the result is that laid over what the lower value has. -/
theorem at?_overlay {path : List String} (hu : u.DistinctKeys) (hw : u.at? path = some w)
    (t : Json) : (t.overlay u).at? path = some (((t.at? path).getD .null).overlay w) := by
  induction path generalizing t u with
  | nil =>
    obtain rfl := Option.some.inj hw
    rfl
  | cons k path ih =>
    obtain ⟨x, hx, hrest⟩ := Option.bind_eq_some_iff.mp hw
    cases u with
    | object fields =>
      have hfield := field?_overlay hu.nodup_keys t k
      rw [show fields.lookup k = some x from hx] at hfield
      show ((t.overlay (.object fields)).field? k).bind _ = _
      rw [hfield]
      show (overlay ((t.field? k).getD .null) x).at? path = _
      rw [ih (hu.field hx) hrest]
      show _ = some ((((t.field? k).bind (·.at? path)).getD .null).overlay w)
      cases t.field? k with
      | none => exact congrArg (fun v => some (overlay v w)) (getD_at?_null path)
      | some y => rfl
    | _ => cases hx

/-- Setting a key to what it has. -/
theorem setField_self (h : fields.lookup key = some v) : setField key v fields = fields := by
  induction fields with
  | nil => cases h
  | cons f fields ih =>
    obtain ⟨j, w⟩ := f
    rw [List.lookup_cons] at h
    unfold setField
    split
    · rename_i hj
      rw [hj, beq_self_eq_true] at h
      rw [hj, Option.some.inj h]
    · rename_i hj
      rw [beq_eq_false_iff_ne.mpr (Ne.symm hj)] at h
      rw [ih h]

theorem overlayFields_self
    (h : ∀ f ∈ fields, ∃ w, below.lookup f.1 = some w ∧ overlay w f.2 = w) :
    overlayFields below fields = below := by
  induction fields with
  | nil => rfl
  | cons f fields ih =>
    obtain ⟨⟨w, hw, hself⟩, hfields⟩ := List.forall_mem_cons.mp h
    rw [overlayFields, hw, Option.getD_some, hself, setField_self hw]
    exact ih hfields

/-- Laying a value over the result again changes nothing. -/
theorem overlay_overlay (hu : u.DistinctKeys) (t : Json) :
    (t.overlay u).overlay u = t.overlay u := by
  induction hu generalizing t with
  | @object fields hkeys _ ih =>
    obtain ⟨merged, hmerged, -⟩ := overlay_object hkeys t
    rw [hmerged]
    apply congrArg Json.object
    apply overlayFields_self
    intro f hf
    have hfield := field?_overlay hkeys t f.1
    rw [(lookup_eq_some_iff hkeys).mpr hf, hmerged] at hfield
    exact ⟨_, hfield, ih f hf _⟩
  | _ => rfl

/-- `merged` is `base` deeply overridden by `upper`. -/
structure DeepOverride (base upper merged : Json) : Prop where
  /-- What is no object takes its place, whatever was there. -/
  replaces : ∀ path v, upper.at? path = some v → (∀ fields, v ≠ .object fields) →
    merged.at? path = some v
  /-- Under a key that the upper object lacks, an object of the base keeps what it has. -/
  keeps : ∀ path fields below key rest, upper.at? path = some (.object fields) →
    key ∉ fields.map Prod.fst → base.at? path = some (.object below) →
    merged.at? (path ++ key :: rest) = base.at? (path ++ key :: rest)
  /-- Without an object in the base there is nothing under such a key. -/
  drops : ∀ path fields key rest, upper.at? path = some (.object fields) →
    key ∉ fields.map Prod.fst → (∀ below, base.at? path ≠ some (.object below)) →
    merged.at? (path ++ key :: rest) = none
  /-- The keys of the base come first, in their order, and then the new ones in theirs. -/
  ordered : ∀ path fields, upper.at? path = some (.object fields) →
    ∃ both, merged.at? path = some (.object both) ∧ both.map Prod.fst =
      (base.at? path).elim [] keys ++
        (fields.map Prod.fst).filter (· ∉ (base.at? path).elim [] keys)

/-- What an overlay has under a key that the upper object lacks. -/
theorem at?_overlay_of_not_mem {path rest : List String} (hu : u.DistinctKeys)
    (hfields : u.at? path = some (.object fields)) (hkey : key ∉ fields.map Prod.fst) (t : Json) :
    (t.overlay u).at? (path ++ key :: rest) =
      ((t.at? path).getD .null).at? (key :: rest) := by
  rw [at?_append, at?_overlay hu hfields]
  show ((overlay _ (.object fields)).field? key).bind _ = _
  rw [field?_overlay (hu.at? hfields).nodup_keys, lookup_eq_none_iff.mpr hkey]
  rfl

theorem deepOverride_overlay (hu : u.DistinctKeys) (t : Json) :
    DeepOverride t u (t.overlay u) where
  replaces path v hv hflat := by
    rw [at?_overlay hu hv, overlay_of_not_object hflat]
  keeps path fields below key rest hfields hkey hbelow := by
    rw [at?_overlay_of_not_mem hu hfields hkey, at?_append, hbelow]
    rfl
  drops path fields key rest hfields hkey hnone := by
    rw [at?_overlay_of_not_mem hu hfields hkey]
    have hflat : ∀ below, (t.at? path).getD .null ≠ .object below := by
      cases h : t.at? path with
      | none => exact fun _ => Json.noConfusion
      | some v => exact fun below heq => hnone below (h.trans (congrArg some heq))
    exact congrArg (·.bind (·.at? rest)) (field?_of_not_object hflat key)
  ordered path fields hfields := by
    obtain ⟨both, hboth, hkeys⟩ := overlay_object (hu.at? hfields).nodup_keys
      ((t.at? path).getD .null)
    have hbase : ((t.at? path).getD .null).keys = (t.at? path).elim [] keys := by
      cases t.at? path <;> rfl
    exact ⟨both, (at?_overlay hu hfields t).trans (congrArg some hboth), hbase ▸ hkeys⟩

/-- Laying a value over another is a deep override, which laying it over the result again does not
change; an empty object changes no object. -/
theorem overlay_overrides_deeply (hu : u.DistinctKeys) :
    DeepOverride t u (t.overlay u) ∧ (t.overlay u).overlay u = t.overlay u ∧
      ∀ fields, (Json.object fields).overlay (.object []) = .object fields :=
  ⟨deepOverride_overlay hu t, overlay_overlay hu t, fun _ => rfl⟩

def settingsBelow : Json := .object [
  ("limit", .object [("max", .nat 5), ("weight", .nat 10)]),
  ("pages", .array [.string "index.html"]),
  ("title", .object [("text", .string "Home")])]

def settingsAbove : Json := .object [
  ("title", .null),
  ("pages", .object [("first", .object [])]),
  ("limit", .object [("overhead", .nat 0), ("max", .object [("chunks", .nat 1)])])]

/-- Objects meet objects, an array and a number at two depths. -/
theorem settings_overlay_overrides_deeply :
    settingsBelow.overlay settingsAbove = .object [
      ("limit", .object [("max", .object [("chunks", .nat 1)]), ("weight", .nat 10),
        ("overhead", .nat 0)]),
      ("pages", .object [("first", .object [])]),
      ("title", .null)] ∧
    settingsAbove.DistinctKeys ∧
    DeepOverride settingsBelow settingsAbove (settingsBelow.overlay settingsAbove) ∧
    (settingsBelow.overlay settingsAbove).overlay settingsAbove =
      settingsBelow.overlay settingsAbove ∧
    ∀ fields, (Json.object fields).overlay (.object []) = .object fields := by
  have habove : settingsAbove.DistinctKeys := by
    simp [settingsAbove, distinctKeys_object_iff, nat, DistinctKeys.null, DistinctKeys.number]
  exact ⟨rfl, habove, overlay_overrides_deeply habove⟩

end Bundler.Json
