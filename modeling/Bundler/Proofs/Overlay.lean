import Bundler.Config.Profile
import Bundler.Proofs.DistinctKeys
/-!
# Fields of overlaid values

Laying an object over a value settles it key by key. Where the object has a key, what it has there
is laid over what was there; where it has none, what was there stays. The operations on fields give
no key twice.
-/
namespace Bundler.Json
variable {fields below : List (String × Json)} {key k : String} {v base : Json}

theorem lookup_overlayFields (h : (fields.map Prod.fst).Nodup) :
    (overlayFields below fields).lookup k = (fields.lookup k).elim (below.lookup k) fun v =>
      some (overlay ((below.lookup k).getD .null) v) := by
  induction fields generalizing below with
  | nil => simp [overlayFields]
  | cons f fields ih =>
    obtain ⟨j, v⟩ := f
    obtain ⟨hj, hfields⟩ := List.nodup_cons.mp h
    rw [overlayFields, ih hfields, List.lookup_cons]
    by_cases hk : k = j
    · have hnone : fields.lookup k = none := lookup_eq_none_iff.mpr (hk ▸ hj)
      rw [hnone, beq_iff_eq.mpr hk]
      simp [lookup_setField, hk]
    · rw [beq_eq_false_iff_ne.mpr hk]
      simp [lookup_setField, hk]

theorem overlay_null (v : Json) : overlay .null v = v := by
  cases v <;> rfl

theorem overlay_of_base_not_object (h : ∀ fields, base ≠ .object fields) : overlay base v = v := by
  cases v with
  | object fields =>
    cases base with
    | object below => exact absurd rfl (h below)
    | _ => rfl
  | _ => rfl

/-- Under the key the value has no object, so what is laid over it there takes its place. -/
def FlatAt (v : Json) (key : String) : Prop :=
  ∀ below, (v.field? key).getD .null ≠ .object below

theorem FlatAt.overlay (h : base.FlatAt key) (v : Json) :
    ((base.field? key).getD .null).overlay v = v := overlay_of_base_not_object h

/-- An overlay leaves the keys that are there in their order and adds its own at the end. -/
theorem keys_overlayFields (h : (fields.map Prod.fst).Nodup) :
    (overlayFields below fields).map Prod.fst =
      below.map Prod.fst ++ (fields.map Prod.fst).filter (· ∉ below.map Prod.fst) := by
  induction fields generalizing below with
  | nil => simp [overlayFields]
  | cons f fields ih =>
    obtain ⟨j, v⟩ := f
    obtain ⟨hj, hfields⟩ := List.nodup_cons.mp h
    rw [overlayFields, ih hfields, keys_setField, List.map_cons, List.filter_cons]
    split
    · rename_i hin
      simp [hin]
    · rename_i hout
      have hrest : (fields.map Prod.fst).filter (· ∉ below.map Prod.fst ++ [j]) =
          (fields.map Prod.fst).filter (· ∉ below.map Prod.fst) := by
        apply List.filter_congr
        intro i hi
        have hne : i ≠ j := fun heq => hj (heq ▸ hi)
        simp [hne]
      rw [hrest]
      simp [hout]

/-- Whatever lies below, an object laid over it gives an object with these keys. -/
theorem overlay_object (h : (fields.map Prod.fst).Nodup) (t : Json) :
    ∃ merged, overlay t (.object fields) = .object merged ∧
      merged.map Prod.fst = t.keys ++ (fields.map Prod.fst).filter (· ∉ t.keys) := by
  cases t with
  | object below => exact ⟨_, rfl, keys_overlayFields h⟩
  | _ => exact ⟨fields, rfl, by simp [keys]⟩

theorem field?_overlay (h : (fields.map Prod.fst).Nodup) (t : Json) (k : String) :
    (overlay t (.object fields)).field? k = (fields.lookup k).elim (t.field? k) fun v =>
      some (overlay ((t.field? k).getD .null) v) := by
  cases t with
  | object below => exact lookup_overlayFields h
  | _ =>
    show fields.lookup k = _
    cases fields.lookup k <;> simp [field?, overlay_null]

/-- An object laid over a value gives an object, whose fields are settled one by one. -/
theorem exists_overlay_object (hbase : base.keys.Nodup) (h : (fields.map Prod.fst).Nodup) :
    ∃ merged, overlay base (.object fields) = .object merged ∧ (merged.map Prod.fst).Nodup ∧
      ∀ k, merged.lookup k = (fields.lookup k).elim (base.field? k) fun v =>
        some (overlay ((base.field? k).getD .null) v) := by
  obtain ⟨merged, hmerged, hkeys⟩ := overlay_object h base
  refine ⟨merged, hmerged, ?_, fun k => ?_⟩
  · rw [hkeys]
    refine hbase.append (h.filter _) ?_
    intro k hk hnew
    exact of_decide_eq_true (List.mem_filter.mp hnew).2 hk
  · have hfield := field?_overlay h base k
    rw [hmerged] at hfield
    exact hfield

theorem removeField_append (key : String) (fields : List (String × Json)) (last : String × Json) :
    removeField key (fields ++ [last]) =
      if last.1 = key then fields
      else if key ∉ fields.map Prod.fst then fields ++ [last]
      else fields.map fun f => if f.1 = key then last else f := by
  unfold removeField
  rw [List.getLast?_concat, List.dropLast_concat]
  by_cases hlast : last.1 = key
  · simp only [hlast, if_true]
  · have hnone : ((fields ++ [last]).lookup key).isNone = true ↔ key ∉ fields.map Prod.fst := by
      rw [Option.isNone_iff_eq_none, lookup_eq_none_iff]
      simp [Ne.symm hlast]
    simp only [hlast, if_false, hnone]

theorem nodup_keys_append {last : String × Json} :
    ((fields ++ [last]).map Prod.fst).Nodup ↔
      (fields.map Prod.fst).Nodup ∧ last.1 ∉ fields.map Prod.fst := by
  rw [List.map_append, List.map_singleton, List.nodup_append_comm, List.singleton_append,
    List.nodup_cons, and_comm]

theorem mem_removeField {f : String × Json} (h : (fields.map Prod.fst).Nodup) :
    f ∈ removeField key fields ↔ f ∈ fields ∧ f.1 ≠ key := by
  induction fields using List.reverseRecOn with
  | nil => simp [removeField]
  | append_singleton fields last _ =>
    obtain ⟨-, hlast⟩ := nodup_keys_append.mp h
    rw [removeField_append]
    split
    · rename_i hkey
      have hother : ∀ e ∈ fields, e.1 ≠ key := fun e he heq =>
        hlast (List.mem_map.mpr ⟨e, he, heq.trans hkey.symm⟩)
      rw [List.mem_append, List.mem_singleton]
      constructor
      · exact fun hf => ⟨.inl hf, hother f hf⟩
      · rintro ⟨hf | rfl, hne⟩
        · exact hf
        · exact absurd hkey hne
    · split
      · rename_i hkey hnone
        have hother : ∀ e ∈ fields, e.1 ≠ key := fun e he heq =>
          hnone (List.mem_map.mpr ⟨e, he, heq⟩)
        refine (and_iff_left_of_imp fun hf => ?_).symm
        rcases List.mem_append.mp hf with hf | hf
        · exact hother f hf
        · exact List.mem_singleton.mp hf ▸ hkey
      · rename_i hkey hsome
        obtain ⟨e, he, hekey⟩ := List.mem_map.mp (not_not.mp hsome)
        simp only [List.mem_map, List.mem_append, List.mem_singleton]
        constructor
        · rintro ⟨d, hd, rfl⟩
          split <;> simp_all
        · rintro ⟨hf | rfl, hne⟩
          · exact ⟨f, hf, if_neg hne⟩
          · exact ⟨e, he, if_pos hekey⟩

theorem nodup_removeField (h : (fields.map Prod.fst).Nodup) :
    ((removeField key fields).map Prod.fst).Nodup := by
  induction fields using List.reverseRecOn with
  | nil => exact h
  | append_singleton fields last _ =>
    obtain ⟨hfields, hlast⟩ := nodup_keys_append.mp h
    rw [removeField_append]
    split
    · exact hfields
    · split
      · exact h
      · have hmap : (fields.map fun f => if f.1 = key then last else f).map Prod.fst =
            (fields.map Prod.fst).map fun k => if k = key then last.1 else k := by
          rw [List.map_map, List.map_map]
          exact List.map_congr_left fun f _ => apply_ite Prod.fst _ _ _
        rw [hmap]
        refine List.Nodup.map_on (fun j hj k hk heq => ?_) hfields
        by_cases hjkey : j = key
        · by_cases hkkey : k = key
          · exact hjkey.trans hkkey.symm
          · rw [if_pos hjkey, if_neg hkkey] at heq
            exact absurd (heq ▸ hk) hlast
        · by_cases hkkey : k = key
          · rw [if_neg hjkey, if_pos hkkey] at heq
            exact absurd (heq ▸ hj) hlast
          · rw [if_neg hjkey, if_neg hkkey] at heq
            exact heq

/-- Removing a key leaves what is under all others. -/
theorem lookup_removeField (h : (fields.map Prod.fst).Nodup) (hk : k ≠ key) :
    (removeField key fields).lookup k = fields.lookup k := by
  apply Option.ext
  intro v
  rw [lookup_eq_some_iff (nodup_removeField h), lookup_eq_some_iff h, mem_removeField h]
  exact and_iff_left hk

end Bundler.Json
