/-!
# Maps that keep insertion order

A finite map whose entries are listed in the order in which their keys were first given a value.
A new value for a key keeps the key's place, and erasing a key keeps the order of the rest. The
view is `get?`; `keys` shows the order.
-/
namespace Bundler

/-- A finite map listed in the order in which its keys were first given a value. -/
structure OrderedMap (κ : Type u) (β : Type v) where
  toList : List (κ × β)
  nodup : (toList.map Prod.fst).Nodup

namespace OrderedMap

variable {κ : Type u} {β : Type v}

theorem ext {m n : OrderedMap κ β} (h : m.toList = n.toList) : m = n := by
  cases m; cases n; cases h; rfl

instance [DecidableEq κ] [DecidableEq β] : DecidableEq (OrderedMap κ β) := fun m n =>
  if h : m.toList = n.toList then isTrue (ext h) else isFalse fun e => h (e ▸ rfl)

def empty : OrderedMap κ β := ⟨[], .nil⟩

instance : EmptyCollection (OrderedMap κ β) := ⟨empty⟩

instance : Inhabited (OrderedMap κ β) := ⟨empty⟩

@[simp] theorem toList_empty : (∅ : OrderedMap κ β).toList = [] := rfl

def keys (m : OrderedMap κ β) : List κ := m.toList.map Prod.fst

def values (m : OrderedMap κ β) : List β := m.toList.map Prod.snd

def size (m : OrderedMap κ β) : Nat := m.toList.length

def isEmpty (m : OrderedMap κ β) : Bool := m.toList.isEmpty

theorem nodup_keys (m : OrderedMap κ β) : m.keys.Nodup := m.nodup

@[simp] theorem keys_empty : (∅ : OrderedMap κ β).keys = [] := rfl

@[simp] theorem length_keys (m : OrderedMap κ β) : m.keys.length = m.size := by
  simp [keys, size]

variable [DecidableEq κ]

def get? (m : OrderedMap κ β) (k : κ) : Option β := m.toList.lookup k

def contains (m : OrderedMap κ β) (k : κ) : Bool := (m.get? k).isSome

@[simp] theorem get?_empty (k : κ) : (∅ : OrderedMap κ β).get? k = none := rfl

private theorem lookup_eq_none {l : List (κ × β)} {k : κ} :
    l.lookup k = none ↔ k ∉ l.map Prod.fst := by
  induction l with
  | nil => simp
  | cons p l ih =>
    obtain ⟨j, b⟩ := p
    rw [List.lookup_cons]
    by_cases hk : k = j
    · simp [hk]
    · have hne : (k == j) = false := by simpa using hk
      simp [hne, hk, ih]

private theorem lookup_append {l r : List (κ × β)} {k : κ} :
    (l ++ r).lookup k = (l.lookup k).or (r.lookup k) := by
  induction l with
  | nil => simp
  | cons p l ih =>
    obtain ⟨j, b⟩ := p
    simp only [List.cons_append, List.lookup_cons]
    split <;> simp [ih]

theorem get?_eq_none {m : OrderedMap κ β} {k : κ} : m.get? k = none ↔ k ∉ m.keys :=
  lookup_eq_none

theorem mem_keys_iff {m : OrderedMap κ β} {k : κ} : k ∈ m.keys ↔ (m.get? k).isSome := by
  have h := get?_eq_none (m := m) (k := k)
  cases hk : m.get? k <;> simp_all

theorem exists_of_mem_keys {m : OrderedMap κ β} {k : κ} (h : k ∈ m.keys) :
    ∃ b, m.get? k = some b :=
  Option.isSome_iff_exists.1 (mem_keys_iff.1 h)

theorem contains_iff {m : OrderedMap κ β} {k : κ} : m.contains k = true ↔ k ∈ m.keys :=
  mem_keys_iff.symm

/-- Gives a key a value: in its place if it has one already, else at the end. -/
def insert (m : OrderedMap κ β) (k : κ) (b : β) : OrderedMap κ β :=
  if h : k ∈ m.keys then
    ⟨m.toList.map fun p => if p.1 = k then (k, b) else p, by
      have : (m.toList.map fun p => if p.1 = k then (k, b) else p).map Prod.fst
          = m.toList.map Prod.fst := by
        simp only [List.map_map]; apply List.map_congr_left; intro p _
        simp only [Function.comp]; split <;> simp_all
      rw [this]; exact m.nodup⟩
  else
    ⟨m.toList ++ [(k, b)], by
      rw [List.map_append]
      refine List.nodup_append.2 ⟨m.nodup, by simp, ?_⟩
      intro a ha c hc; simp at hc; subst hc; intro e; exact h (e ▸ ha)⟩

theorem keys_insert (m : OrderedMap κ β) (k : κ) (b : β) :
    (m.insert k b).keys = if k ∈ m.keys then m.keys else m.keys ++ [k] := by
  unfold insert
  split
  · simp only [keys, List.map_map]; apply List.map_congr_left; intro p _
    simp only [Function.comp]; split <;> simp_all
  · simp [keys]

private theorem lookup_map_value {l : List (κ × β)} {k j : κ} {b : β} :
    (l.map fun p => if p.1 = k then (k, b) else p).lookup j =
      if j = k then (l.lookup j).map fun _ => b else l.lookup j := by
  induction l with
  | nil => simp
  | cons p l ih =>
    obtain ⟨i, c⟩ := p
    rw [List.map_cons, List.lookup_cons]
    by_cases hi : i = k
    · subst hi
      rw [if_pos rfl, List.lookup_cons, ih]
      by_cases hj : j = i
      · simp [hj]
      · have hne : (j == i) = false := by simpa using hj
        simp [hne, hj]
    · rw [if_neg hi, List.lookup_cons, ih]
      by_cases hj : j = i
      · simp [hj, hi]
      · have hne : (j == i) = false := by simpa using hj
        simp [hne]

theorem get?_insert (m : OrderedMap κ β) (k j : κ) (b : β) :
    (m.insert k b).get? j = if j = k then some b else m.get? j := by
  unfold insert get?
  split
  · rename_i h
    simp only [lookup_map_value]
    obtain ⟨c, hc⟩ := exists_of_mem_keys h
    unfold get? at hc
    by_cases hj : j = k
    · subst hj; simp [hc]
    · simp [hj]
  · rename_i h
    have hk : m.toList.lookup k = none := lookup_eq_none.2 h
    simp only [lookup_append, List.lookup_cons, List.lookup_nil]
    by_cases hj : j = k
    · subst hj; simp [hk]
    · simp [hj]; have : (j == k) = false := by simpa using hj
      simp [this]

@[simp] theorem get?_insert_self (m : OrderedMap κ β) (k : κ) (b : β) :
    (m.insert k b).get? k = some b := by simp [get?_insert]

/-- Takes a key out and keeps the order of the rest. -/
def erase (m : OrderedMap κ β) (k : κ) : OrderedMap κ β :=
  ⟨m.toList.filter (·.1 ≠ k), m.nodup.sublist (List.filter_sublist.map _)⟩

theorem keys_erase (m : OrderedMap κ β) (k : κ) : (m.erase k).keys = m.keys.filter (· ≠ k) := by
  simp only [keys, erase, List.filter_map]; rfl

theorem get?_erase (m : OrderedMap κ β) (k j : κ) :
    (m.erase k).get? j = if j = k then none else m.get? j := by
  unfold erase get?
  show (m.toList.filter (·.1 ≠ k)).lookup j = _
  induction m.toList with
  | nil => simp
  | cons p l ih =>
    obtain ⟨i, c⟩ := p
    by_cases hi : i = k
    · rw [List.filter_cons_of_neg (by simpa using hi), ih, List.lookup_cons, hi]
      by_cases hj : j = k
      · rw [if_pos hj, if_pos hj]
      · have hne : (j == k) = false := by simpa using hj
        rw [if_neg hj, if_neg hj, hne]
    · rw [List.filter_cons_of_pos (by simpa using hi), List.lookup_cons, List.lookup_cons, ih]
      by_cases hj : j = k
      · have hne : (j == i) = false := by simpa [hj] using Ne.symm hi
        rw [if_pos hj, hne, if_pos hj]
      · rw [if_neg hj, if_neg hj]

/-- Changes the value of a key in its place. A key without a value does not get one. -/
def modify (m : OrderedMap κ β) (k : κ) (f : β → β) : OrderedMap κ β :=
  match m.get? k with
  | some b => m.insert k (f b)
  | none => m

theorem keys_modify (m : OrderedMap κ β) (k : κ) (f : β → β) : (m.modify k f).keys = m.keys := by
  unfold modify
  split
  · rename_i b h
    have : k ∈ m.keys := mem_keys_iff.2 (by simp [h])
    simp [keys_insert, this]
  · rfl

theorem get?_modify (m : OrderedMap κ β) (k j : κ) (f : β → β) :
    (m.modify k f).get? j = if j = k then (m.get? j).map f else m.get? j := by
  unfold modify
  split
  · rename_i b h
    simp only [get?_insert]; grind
  · rename_i h; grind

def mapValues {γ : Type w} (f : κ → β → γ) (m : OrderedMap κ β) : OrderedMap κ γ :=
  ⟨m.toList.map fun p => (p.1, f p.1 p.2), by
    have : (m.toList.map fun p => (p.1, f p.1 p.2)).map Prod.fst = m.toList.map Prod.fst := by
      simp
    rw [this]; exact m.nodup⟩

omit [DecidableEq κ] in
@[simp] theorem keys_mapValues {γ : Type w} (f : κ → β → γ) (m : OrderedMap κ β) :
    (m.mapValues f).keys = m.keys := by
  simp [keys, mapValues]

/-- The map that a list of entries builds, later entries changing earlier ones. -/
def ofList (l : List (κ × β)) : OrderedMap κ β :=
  l.foldl (fun m p => m.insert p.1 p.2) ∅

end OrderedMap

end Bundler
