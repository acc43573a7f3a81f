import Bundler.Json.Parser
import Bundler.Proofs.OrderedMaps
import Mathlib.Data.List.Nodup
/-!
# Objects without repeated keys

An object is a list of fields, and it is looked into by key. A value that is read from a text has in
no object a key twice, since a field that comes again takes the place of the one before. So what is
under a key is what stands beside it among the fields.
-/
namespace Bundler.Json
variable {fields : List (String × Json)} {key k : String} {v base : Json}

/-- No object in the value, at any depth, has a key twice. -/
inductive DistinctKeys : Json → Prop
  | null : DistinctKeys .null
  | bool (b : Bool) : DistinctKeys (.bool b)
  | number (n : JsonNumber) : DistinctKeys (.number n)
  | string (s : String) : DistinctKeys (.string s)
  | array {items : List Json} : (∀ v ∈ items, DistinctKeys v) → DistinctKeys (.array items)
  | object {fields : List (String × Json)} : (fields.map Prod.fst).Nodup →
      (∀ f ∈ fields, DistinctKeys f.2) → DistinctKeys (.object fields)

/-- What a value has at a path of keys. -/
def at? (v : Json) : List String → Option Json
  | [] => some v
  | k :: ks => (v.field? k).bind (·.at? ks)

theorem at?_object (fields : List (String × Json)) (k : String) :
    (Json.object fields).at? [k] = fields.lookup k := Option.bind_fun_some _

theorem at?_object_pair (fields : List (String × Json)) (j k : String) :
    (Json.object fields).at? [j, k] = (fields.lookup j).bind (·.field? k) :=
  Option.bind_congr fun _ _ => Option.bind_fun_some _

def keys : Json → List String
  | .object fields => fields.map Prod.fst
  | _ => []

theorem distinctKeys_object_iff : (Json.object fields).DistinctKeys ↔
    (fields.map Prod.fst).Nodup ∧ ∀ f ∈ fields, DistinctKeys f.2 := by
  constructor
  · rintro (_ | _ | _ | _ | _ | ⟨hkeys, hfields⟩)
    exact ⟨hkeys, hfields⟩
  · exact fun h => .object h.1 h.2

theorem distinctKeys_array_iff {items : List Json} :
    (Json.array items).DistinctKeys ↔ ∀ v ∈ items, v.DistinctKeys := by
  constructor
  · rintro (_ | _ | _ | _ | hitems)
    exact hitems
  · exact .array

theorem DistinctKeys.nodup_keys (h : v.DistinctKeys) : v.keys.Nodup := by
  cases h with
  | object hkeys _ => exact hkeys
  | _ => exact List.nodup_nil

/-- Without repeated keys, a key has a value just if the two stand among the fields. -/
theorem lookup_eq_some_iff (h : (fields.map Prod.fst).Nodup) :
    fields.lookup k = some v ↔ (k, v) ∈ fields :=
  ⟨OrderedMap.mem_of_get? (m := ⟨fields, h⟩), OrderedMap.get?_of_mem (m := ⟨fields, h⟩)⟩

theorem lookup_eq_none_iff : fields.lookup k = none ↔ k ∉ fields.map Prod.fst := by
  rw [List.lookup_eq_none_iff, List.mem_map]
  grind

theorem DistinctKeys.field (h : base.DistinctKeys) (hv : base.field? k = some v) :
    v.DistinctKeys := by
  cases h with
  | object hkeys hfields => exact hfields (k, v) ((lookup_eq_some_iff hkeys).mp hv)
  | _ => cases hv

theorem DistinctKeys.at? {path : List String} (h : base.DistinctKeys)
    (hv : base.at? path = some v) : v.DistinctKeys := by
  induction path generalizing base with
  | nil => exact Option.some.inj hv ▸ h
  | cons k path ih =>
    obtain ⟨w, hw, hv⟩ := Option.bind_eq_some_iff.mp hv
    exact ih (h.field hw) hv

theorem lookup_setField : (setField key v fields).lookup k =
    if k = key then some v else fields.lookup k := by
  induction fields with
  | nil => simp [setField, List.lookup_cons]; grind
  | cons f fields ih =>
    obtain ⟨j, w⟩ := f
    unfold setField
    split
    · grind
    · rw [List.lookup_cons, List.lookup_cons, ih]
      grind

theorem keys_setField : (setField key v fields).map Prod.fst =
    if key ∈ fields.map Prod.fst then fields.map Prod.fst else fields.map Prod.fst ++ [key] := by
  induction fields with
  | nil => simp [setField]
  | cons f fields ih =>
    obtain ⟨j, w⟩ := f
    unfold setField
    by_cases hj : j = key
    · simp [hj]
    · simp only [hj, if_false, List.map_cons, ih]
      grind

theorem nodup_setField (h : (fields.map Prod.fst).Nodup) :
    ((setField key v fields).map Prod.fst).Nodup := by
  rw [keys_setField]
  split
  · exact h
  · rename_i hkey
    exact h.append (List.nodup_singleton key) (List.disjoint_singleton.mpr hkey)

theorem mem_setField {f : String × Json} (h : f ∈ setField key v fields) :
    f = (key, v) ∨ f ∈ fields := by
  induction fields with
  | nil => exact Or.inl (List.mem_singleton.mp h)
  | cons e fields ih =>
    obtain ⟨j, w⟩ := e
    unfold setField at h
    split at h
    · exact (List.mem_cons.mp h).imp_right (List.mem_cons_of_mem _)
    · rcases List.mem_cons.mp h with rfl | h
      · exact Or.inr List.mem_cons_self
      · exact (ih h).imp_right (List.mem_cons_of_mem _)

theorem distinctKeys_empty : (Json.object []).DistinctKeys :=
  .object List.nodup_nil fun _ hf => absurd hf List.not_mem_nil

theorem DistinctKeys.setField (h : (Json.object fields).DistinctKeys) (hv : v.DistinctKeys) :
    (Json.object (setField key v fields)).DistinctKeys := by
  obtain ⟨hkeys, hfields⟩ := distinctKeys_object_iff.mp h
  refine .object (nodup_setField hkeys) fun f hf => ?_
  rcases mem_setField hf with rfl | hf
  · exact hv
  · exact hfields f hf

/-- With as much fuel, what is read repeats no key. -/
structure ReadsDistinct (fuel : ℕ) : Prop where
  value : ∀ {depth cs v rest}, value? depth fuel cs = some (v, rest) → v.DistinctKeys
  items : ∀ {depth cs vs rest}, items? depth fuel cs = some (vs, rest) → ∀ v ∈ vs, v.DistinctKeys
  fields : ∀ {depth before cs fields rest}, (Json.object before).DistinctKeys →
    fields? depth fuel before cs = some (fields, rest) → (Json.object fields).DistinctKeys

variable {fuel depth : ℕ} {cs rest : List Char}

theorem readsDistinct_zero : ReadsDistinct 0 where
  value h := by
    rw [value?] at h
    cases h
  items h := by
    rw [items?] at h
    cases h
  fields _ h := by
    rw [fields?] at h
    cases h

theorem ReadsDistinct.value_succ (hreads : ReadsDistinct fuel)
    (h : value? depth (fuel + 1) cs = some (v, rest)) : v.DistinctKeys := by
  rw [value?] at h
  split at h
  · cases h
    exact .null
  · cases h
    exact .bool true
  · cases h
    exact .bool false
  · obtain ⟨⟨s, rest⟩, -, h⟩ := Option.bind_eq_some_iff.mp h
    cases h
    exact .string s
  · split at h
    · cases h
    · split at h
      · cases h
        exact .array fun _ hv => absurd hv List.not_mem_nil
      · obtain ⟨⟨vs, rest⟩, hvs, h⟩ := Option.bind_eq_some_iff.mp h
        cases h
        exact .array (hreads.items hvs)
  · split at h
    · cases h
    · split at h
      · cases h
        exact distinctKeys_empty
      · obtain ⟨⟨fields, rest⟩, hread, h⟩ := Option.bind_eq_some_iff.mp h
        cases h
        exact hreads.fields distinctKeys_empty hread
  · obtain ⟨⟨n, rest⟩, -, h⟩ := Option.bind_eq_some_iff.mp h
    cases h
    exact .number n

theorem ReadsDistinct.items_succ {vs : List Json} (hreads : ReadsDistinct fuel)
    (h : items? depth (fuel + 1) cs = some (vs, rest)) : ∀ v ∈ vs, v.DistinctKeys := by
  rw [items?] at h
  obtain ⟨⟨v, rest⟩, hv, h⟩ := Option.bind_eq_some_iff.mp h
  dsimp only at h
  split at h
  · cases h
    exact List.forall_mem_singleton.mpr (hreads.value hv)
  · obtain ⟨⟨vs, rest⟩, hvs, h⟩ := Option.bind_eq_some_iff.mp h
    cases h
    exact List.forall_mem_cons.mpr ⟨hreads.value hv, hreads.items hvs⟩
  · cases h

theorem ReadsDistinct.fields_succ {before : List (String × Json)} (hreads : ReadsDistinct fuel)
    (hbefore : (Json.object before).DistinctKeys)
    (h : fields? depth (fuel + 1) before cs = some (fields, rest)) :
    (Json.object fields).DistinctKeys := by
  rw [fields?] at h
  split at h
  · obtain ⟨⟨key, rest⟩, -, h⟩ := Option.bind_eq_some_iff.mp h
    dsimp only at h
    split at h
    · obtain ⟨⟨v, rest⟩, hv, h⟩ := Option.bind_eq_some_iff.mp h
      have hset : (Json.object (setField key v before)).DistinctKeys :=
        hbefore.setField (hreads.value hv)
      dsimp only at h
      split at h
      · cases h
        exact hset
      · exact hreads.fields hset h
      · cases h
    · cases h
  · cases h

theorem readsDistinct (fuel : ℕ) : ReadsDistinct fuel := by
  induction fuel with
  | zero => exact readsDistinct_zero
  | succ fuel ih => exact ⟨ih.value_succ, ih.items_succ, ih.fields_succ⟩

/-- No object in a value that is read from a text has a key twice. -/
theorem distinctKeys_of_parse? {text : String} (h : parse? text = some v) : v.DistinctKeys := by
  obtain ⟨⟨w, rest⟩, hw, h⟩ := Option.bind_eq_some_iff.mp h
  dsimp only at h
  split at h
  · cases h
    exact (readsDistinct _).value hw
  · cases h

end Bundler.Json
