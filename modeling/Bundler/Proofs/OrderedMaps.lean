import Bundler.Ordered.Map
import Bundler.Ordered.Set
import Mathlib.Data.List.Basic
import Mathlib.Data.List.Induction
import Mathlib.Data.List.Nodup
/-!
# Ordered maps and sets as lists

A map is given by the order of its keys and by its values, and what inserting does to both is known.
A set made from a list keeps each member where the list first has it.
-/
namespace Bundler

theorem lookup_mapValues {κ : Type u} {β : Type v} {γ : Type w} [DecidableEq κ] (f : κ → β → γ)
    (es : List (κ × β)) (k : κ) :
    (es.map fun e => (e.1, f e.1 e.2)).lookup k = (es.lookup k).map (f k) := by
  induction es with
  | nil => rfl
  | cons e es ih =>
    rw [List.map_cons, List.lookup_cons, List.lookup_cons, ih]
    by_cases hk : k = e.1
    · rw [← hk, beq_self_eq_true]
      rfl
    · rw [beq_eq_false_iff_ne.mpr hk]

namespace OrderedMap
variable {κ : Type u} {β : Type v} [DecidableEq κ]

theorem keys_insert_of_mem {m : OrderedMap κ β} {k : κ} (h : k ∈ m.keys) (b : β) :
    (m.insert k b).keys = m.keys := by rw [keys_insert, if_pos h]

theorem mem_keys_of_get? {m : OrderedMap κ β} {k : κ} {b : β} (h : m.get? k = some b) :
    k ∈ m.keys := mem_keys_iff.mpr (h ▸ rfl)

theorem get?_insert_cases {m : OrderedMap κ β} {k i : κ} {b c : β}
    (h : (m.insert k b).get? i = some c) : i = k ∧ c = b ∨ i ≠ k ∧ m.get? i = some c := by
  rw [get?_insert] at h
  split at h
  · rename_i hi
    exact .inl ⟨hi, (Option.some.inj h).symm⟩
  · rename_i hi
    exact .inr ⟨hi, h⟩

theorem get?_of_get?_erase {m : OrderedMap κ β} {k i : κ} {b : β}
    (h : (m.erase k).get? i = some b) : m.get? i = some b := by
  rw [get?_erase] at h
  split at h
  · cases h
  · exact h

theorem mem_keys_insert {m : OrderedMap κ β} {k j : κ} {b : β} :
    j ∈ (m.insert k b).keys ↔ j ∈ m.keys ∨ j = k := by
  rw [keys_insert]
  split
  · rename_i hk
    exact ⟨Or.inl, fun h => h.elim id fun heq => heq ▸ hk⟩
  · rw [List.mem_append, List.mem_singleton]

theorem mem_keys_foldl_insert {m : OrderedMap κ β} {es : List (κ × β)} {k : κ} :
    k ∈ (es.foldl (fun t e => t.insert e.1 e.2) m).keys ↔ k ∈ m.keys ∨ k ∈ es.map Prod.fst := by
  induction es generalizing m with
  | nil => simp
  | cons e es ih =>
    rw [List.foldl_cons, ih, mem_keys_insert, List.map_cons, List.mem_cons, or_assoc]

theorem get?_of_mem {m : OrderedMap κ β} {e : κ × β} (h : e ∈ m.toList) :
    m.get? e.1 = some e.2 := by
  have hlookup : ∀ es : List (κ × β), (es.map Prod.fst).Nodup → e ∈ es →
      es.lookup e.1 = some e.2 := by
    intro es
    induction es with
    | nil =>
      intro _ he
      cases he
    | cons d es ih =>
      intro hnodup he
      obtain ⟨hd, hes⟩ := List.nodup_cons.mp hnodup
      rw [List.lookup_cons]
      rcases List.mem_cons.mp he with rfl | he
      · rw [beq_self_eq_true]
      · have hne : (e.1 == d.1) = false := by
          rw [beq_eq_false_iff_ne]
          intro heq
          exact hd (heq ▸ List.mem_map_of_mem he)
        rw [hne]
        exact ih hes he
  exact hlookup m.toList m.nodup h

theorem exists_of_mem_values {m : OrderedMap κ β} {b : β} (h : b ∈ m.values) :
    ∃ k, m.get? k = some b := by
  obtain ⟨e, he, rfl⟩ := List.mem_map.mp h
  exact ⟨e.1, get?_of_mem he⟩

theorem toList_eq_filterMap (m : OrderedMap κ β) :
    m.toList = m.keys.filterMap fun k => (m.get? k).map (k, ·) := by
  have hentry : ∀ e ∈ m.toList, (m.get? e.1).map (e.1, ·) = some e := by
    intro e he
    rw [get?_of_mem he]
    rfl
  rw [keys, List.filterMap_map]
  conv_lhs => rw [← List.filterMap_some (l := m.toList)]
  exact List.filterMap_congr fun e he => (hentry e he).symm

/-- A map is given by the order of its keys and what it has for each of them. -/
theorem ext_get? {m n : OrderedMap κ β} (hkeys : m.keys = n.keys)
    (hget : ∀ k, m.get? k = n.get? k) : m = n := by
  apply ext
  rw [toList_eq_filterMap, toList_eq_filterMap, hkeys]
  simp only [hget]

theorem get?_foldl_insert {m : OrderedMap κ β} {es : List (κ × β)} {k : κ}
    (h : k ∉ es.map Prod.fst) :
    (es.foldl (fun t e => t.insert e.1 e.2) m).get? k = m.get? k := by
  induction es generalizing m with
  | nil => rfl
  | cons e es ih =>
    obtain ⟨hne, hes⟩ := not_or.mp (mt List.mem_cons.mpr h)
    rw [List.foldl_cons, ih hes, get?_insert, if_neg hne]

/-- A key has the one value that all entries of the key bring. -/
theorem get?_foldl_insert_of_unique {m : OrderedMap κ β} {es : List (κ × β)} {e : κ × β}
    (he : e ∈ es) (hone : ∀ d ∈ es, d.1 = e.1 → d.2 = e.2) :
    (es.foldl (fun t e => t.insert e.1 e.2) m).get? e.1 = some e.2 := by
  induction es generalizing m with
  | nil => cases he
  | cons d es ih =>
    obtain ⟨hd, hes⟩ := List.forall_mem_cons.mp hone
    by_cases hlater : e.1 ∈ es.map Prod.fst
    · obtain ⟨d', hd', hkey⟩ := List.mem_map.mp hlater
      have hvalue : d' = e := Prod.ext hkey (hes d' hd' hkey)
      exact ih (hvalue ▸ hd') hes
    · rcases List.mem_cons.mp he with rfl | he
      · rw [List.foldl_cons, get?_foldl_insert hlater, get?_insert_self]
      · exact absurd (List.mem_map_of_mem he) hlater

theorem get?_foldl_insert_of_mem {m : OrderedMap κ β} {es : List (κ × β)} {e : κ × β}
    (hnodup : (es.map Prod.fst).Nodup) (h : e ∈ es) :
    (es.foldl (fun t e => t.insert e.1 e.2) m).get? e.1 = some e.2 := by
  apply get?_foldl_insert_of_unique h
  intro d hd hkey
  exact congrArg Prod.snd (List.inj_on_of_nodup_map hnodup hd h hkey)

omit [DecidableEq κ] in
theorem isEmpty_eq_false {m : OrderedMap κ β} :
    m.isEmpty = false ↔ ∃ k, k ∈ m.keys := by
  rw [isEmpty, ← Bool.not_eq_true, List.isEmpty_iff, keys]
  cases m.toList with
  | nil => simp
  | cons e es => simp

theorem mem_of_get? {m : OrderedMap κ β} {k : κ} {b : β} (h : m.get? k = some b) :
    (k, b) ∈ m.toList := by
  obtain ⟨es, ds, hes, -⟩ := List.lookup_eq_some_iff.mp h
  rw [hes]
  exact List.mem_append_right _ List.mem_cons_self

/-- With all entries of `n` inserted a map has what `n` has, and else what it had before. -/
theorem get?_foldl_insert_toList (m n : OrderedMap κ β) (k : κ) :
    (n.toList.foldl (fun t e => t.insert e.1 e.2) m).get? k = (n.get? k).or (m.get? k) := by
  cases hk : n.get? k with
  | none =>
    rw [get?_foldl_insert (get?_eq_none.mp hk)]
    rfl
  | some b => exact get?_foldl_insert_of_mem n.nodup (mem_of_get? hk)

theorem toList_insert_of_not_mem {m : OrderedMap κ β} {k : κ} (h : k ∉ m.keys) (b : β) :
    (m.insert k b).toList = m.toList ++ [(k, b)] := by
  unfold insert
  rw [dif_neg h]

theorem toList_foldl_insert {m : OrderedMap κ β} {es : List (κ × β)}
    (h : (m.keys ++ es.map Prod.fst).Nodup) :
    (es.foldl (fun t e => t.insert e.1 e.2) m).toList = m.toList ++ es := by
  induction es generalizing m with
  | nil => exact (List.append_nil _).symm
  | cons e es ih =>
    have hfree : e.1 ∉ m.keys := by
      rw [List.nodup_append] at h
      exact fun hin => h.2.2 _ hin _ List.mem_cons_self rfl
    have hrest : ((m.insert e.1 e.2).keys ++ es.map Prod.fst).Nodup := by
      rwa [keys_insert, if_neg hfree, List.append_assoc]
    rw [List.foldl_cons, ih hrest, toList_insert_of_not_mem hfree, List.append_assoc]
    rfl

theorem values_insert_of_not_mem {m : OrderedMap κ β} {k : κ} (h : k ∉ m.keys) (b : β) :
    (m.insert k b).values = m.values ++ [b] := by
  rw [values, toList_insert_of_not_mem h, List.map_append]
  rfl

theorem get?_mapValues {γ : Type w} (f : κ → β → γ) (m : OrderedMap κ β) (k : κ) :
    (m.mapValues f).get? k = (m.get? k).map (f k) := lookup_mapValues f m.toList k

end OrderedMap

theorem eraseDups_concat {α : Type u} [DecidableEq α] (as : List α) (a : α) :
    (as ++ [a]).eraseDups = if a ∈ as then as.eraseDups else as.eraseDups ++ [a] := by
  rw [List.eraseDups_append]
  split
  · rename_i ha
    have hnone : [a].removeAll as = [] := by simp [List.removeAll, ha]
    rw [hnone, List.eraseDups_nil, List.append_nil]
  · rename_i ha
    have hself : [a].removeAll as = [a] := by simp [List.removeAll, ha]
    rw [hself]
    rfl

theorem eraseDups_map {α : Type u} {β : Type v} [DecidableEq α] [DecidableEq β] {f : α → β}
    (hf : f.Injective) (as : List α) : (as.map f).eraseDups = as.eraseDups.map f := by
  induction as using List.reverseRecOn with
  | nil => rfl
  | append_singleton as a ih =>
    rw [List.map_append, List.map_singleton, eraseDups_concat, eraseDups_concat, ih]
    simp only [List.mem_map_of_injective hf]
    split
    · rfl
    · rw [List.map_append, List.map_singleton]

theorem OrderedSet.toList_ofList {α : Type u} [DecidableEq α] (as : List α) :
    (ofList as).toList = as.eraseDups := by
  induction as using List.reverseRecOn with
  | nil => rfl
  | append_singleton as a ih =>
    have hinsert : ofList (as ++ [a]) = (ofList as).insert a := List.foldl_append
    have hmem : a ∈ (ofList as).toList ↔ a ∈ as := mem_ofList
    rw [hinsert, toList_insert, eraseDups_concat, ih]
    simp only [← ih, hmem]

end Bundler
