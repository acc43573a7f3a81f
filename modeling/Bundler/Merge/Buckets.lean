/-!
# Layered buckets

A sorted container with a fixed number of bucket layers above sorted leaves. An item's place is
given by one key per layer and a leaf key; inside a leaf items are ordered by leaf key and then by
themselves. A layer counts the insertions and removals that passed through it, and a bucket is
dropped when its count, or the list of a leaf, reaches zero.

The number of cells is how many items are really there; taking an item out makes it smaller, which
is what ends every loop over such a container.
-/
namespace Bundler

/-- Where an item is sorted: one key per layer, a missing one being 0, and the leaf key. -/
structure Place where
  path : List Int
  leaf : Int
  deriving DecidableEq, Repr

/-- The keys that items have at one time. -/
structure SortKeys (α : Type u) where
  path : α → List Int
  leaf : α → Int

def SortKeys.place {α : Type u} (keys : SortKeys α) (a : α) : Place := ⟨keys.path a, keys.leaf a⟩

/-- A counted list of buckets in ascending order of their keys. -/
structure Layer (β : Type u) where
  count : Nat
  buckets : List (Int × β)

/-- A leaf below `n` layers. Without layers it is a list in ascending order. -/
@[reducible] def Buckets (α : Type u) : Nat → Type u
  | 0 => List (Int × α)
  | n + 1 => Layer (Buckets α n)

namespace Buckets

variable {α : Type u}

def empty : (n : Nat) → Buckets α n
  | 0 => ([] : List (Int × α))
  | _ + 1 => Layer.mk 0 []

/-- Whether buckets count as empty, by their count or, in a leaf, by their list. -/
def isEmpty : (n : Nat) → Buckets α n → Bool
  | 0, items => List.isEmpty items
  | _ + 1, layer => layer.count == 0

/-- The sum of a measure over all buckets of a layer. -/
def total {β : Type u} (f : β → Nat) : List (Int × β) → Nat
  | [] => 0
  | (_, b) :: rest => f b + total f rest

/-- The number of items that are really there. -/
def cells : (n : Nat) → Buckets α n → Nat
  | 0, items => List.length items
  | n + 1, layer => total (cells n) layer.buckets

/-- Changes the bucket of a key, or puts a new one where the key belongs. -/
def upsert {β : Type u} (key : Int) (fresh : β) (f : β → β) : List (Int × β) → List (Int × β)
  | [] => [(key, f fresh)]
  | (k, b) :: rest =>
    if key < k then (key, f fresh) :: (k, b) :: rest
    else if key = k then (k, f b) :: rest
    else (k, b) :: upsert key fresh f rest

/-- Changes or drops the bucket of a key. The function tells what becomes of the bucket, or that
there is nothing to change. -/
def alter {β : Type u} (key : Int) (f : β → Option (Option β)) :
    List (Int × β) → Option (List (Int × β))
  | [] => none
  | (k, b) :: rest =>
    if key = k then (f b).map fun
      | some b => (k, b) :: rest
      | none => rest
    else (alter key f rest).map ((k, b) :: ·)

variable [Ord α]

/-- Puts an item into an ascending leaf, once. -/
def insertLeaf (leaf : Int) (a : α) : List (Int × α) → List (Int × α)
  | [] => [(leaf, a)]
  | (k, b) :: rest =>
    match (compare leaf k).then (compare a b) with
    | .lt => (leaf, a) :: (k, b) :: rest
    | .eq => (k, b) :: rest
    | .gt => (k, b) :: insertLeaf leaf a rest

/-- Puts an item into its place. Each layer counts it, also if the leaf has it already. -/
def insert : (n : Nat) → Place → α → Buckets α n → Buckets α n
  | 0, place, a, items => insertLeaf place.leaf a items
  | n + 1, place, a, layer =>
    Layer.mk (layer.count + 1)
      (upsert (place.path.headD 0) (empty n) (insert n ⟨place.path.tail, place.leaf⟩ a)
        layer.buckets)

/-- Takes an item out of a leaf; fails if it is not there under this key. -/
def eraseLeaf (leaf : Int) (a : α) : List (Int × α) → Option (List (Int × α))
  | [] => none
  | (k, b) :: rest =>
    match (compare leaf k).then (compare a b) with
    | .eq => some rest
    | _ => (eraseLeaf leaf a rest).map ((k, b) :: ·)

/-- What is kept of a bucket: nothing if it counts as empty. -/
def keep (n : Nat) (b : Buckets α n) : Option (Buckets α n) := if isEmpty n b then none else some b

/-- Takes an item out of its place; fails, and then counts nothing, if it is not there. -/
def erase? : (n : Nat) → Place → α → Buckets α n → Option (Buckets α n)
  | 0, place, a, items => eraseLeaf place.leaf a items
  | n + 1, place, a, layer =>
    (alter (place.path.headD 0)
      (fun b => (erase? n ⟨place.path.tail, place.leaf⟩ a b).map (keep n)) layer.buckets).map
      (Layer.mk (layer.count - 1))

/-- Takes out the first item. Only the first bucket of each layer is looked at. -/
def popFirst : (n : Nat) → Buckets α n → Option α × Buckets α n
  | 0, [] => (none, ([] : List (Int × α)))
  | 0, (_, a) :: rest => (some a, rest)
  | _ + 1, ⟨count, []⟩ => (none, Layer.mk count [])
  | n + 1, ⟨count, (k, b) :: rest⟩ =>
    match popFirst n b with
    | (item, b) =>
      (item, Layer.mk (if item.isSome then count - 1 else count)
        (match keep n b with
          | some b => (k, b) :: rest
          | none => rest))

theorem total_upsert_le {β : Type u} {w : β → Nat} {f : β → β} {fresh : β} (key : Int)
    (hf : ∀ b, w (f b) ≤ w b + 1) (h0 : w fresh = 0) (bs : List (Int × β)) :
    total w (upsert key fresh f bs) ≤ total w bs + 1 := by
  induction bs with
  | nil => simpa [upsert, total, h0] using hf fresh
  | cons p bs ih =>
    obtain ⟨k, b⟩ := p
    have hb := hf b
    have h1 := hf fresh
    rw [h0] at h1
    unfold upsert
    split
    · simp [total] at *; omega
    · split
      · simp [total] at *; omega
      · simp [total] at *; omega

theorem total_alter_lt {β : Type u} {w : β → Nat} {f : β → Option (Option β)} {key : Int}
    (hf : ∀ b r, f b = some r → (r.elim 0 w) < w b) {bs cs : List (Int × β)}
    (h : alter key f bs = some cs) : total w cs < total w bs := by
  induction bs generalizing cs with
  | nil => simp [alter] at h
  | cons p bs ih =>
    obtain ⟨k, b⟩ := p
    unfold alter at h
    split at h
    · cases hb : f b with
      | none => simp [hb] at h
      | some r =>
        have := hf b r hb
        cases r <;> simp [hb] at h <;> subst h <;> simp [total] at * <;> omega
    · cases hr : alter key f bs with
      | none => simp [hr] at h
      | some ds =>
        have := ih hr
        simp [hr] at h
        subst h
        simp [total] at *
        omega

omit [Ord α] in
theorem cells_empty (n : Nat) : cells n (empty (α := α) n) = 0 := by
  cases n <;> rfl

theorem length_insertLeaf_le (leaf : Int) (a : α) (items : List (Int × α)) :
    (insertLeaf leaf a items).length ≤ items.length + 1 := by
  induction items with
  | nil => simp [insertLeaf]
  | cons p items ih =>
    unfold insertLeaf
    split
    · exact Nat.le_refl _
    · exact Nat.le_succ _
    · simp only [List.length_cons]
      omega

theorem cells_insert_le (n : Nat) (place : Place) (a : α) (b : Buckets α n) :
    cells n (insert n place a b) ≤ cells n b + 1 := by
  induction n generalizing place with
  | zero => exact length_insertLeaf_le place.leaf a b
  | succ n ih => exact total_upsert_le _ (fun c => ih _ c) (cells_empty n) _

theorem length_eraseLeaf {leaf : Int} {a : α} {items rest : List (Int × α)}
    (h : eraseLeaf leaf a items = some rest) : rest.length < items.length := by
  induction items generalizing rest with
  | nil => simp [eraseLeaf] at h
  | cons p items ih =>
    unfold eraseLeaf at h
    split at h
    · simp at h; subst h; simp
    · simp only [Option.map_eq_some_iff] at h
      obtain ⟨r, hr, rfl⟩ := h
      have := ih hr
      simp; omega

omit [Ord α] in
theorem elim_keep_le (n : Nat) (b : Buckets α n) : (keep n b).elim 0 (cells n) ≤ cells n b := by
  unfold keep; split <;> simp

theorem cells_erase? {n : Nat} {place : Place} {a : α} {b c : Buckets α n}
    (h : erase? n place a b = some c) : cells n c < cells n b := by
  induction n generalizing place with
  | zero => exact length_eraseLeaf h
  | succ n ih =>
    obtain ⟨bs, hbs, rfl⟩ := Option.map_eq_some_iff.1 h
    refine total_alter_lt (fun d r hr => ?_) hbs
    obtain ⟨e, he, rfl⟩ := Option.map_eq_some_iff.1 hr
    exact Nat.lt_of_le_of_lt (elim_keep_le n e) (ih he)

omit [Ord α] in
theorem cells_popFirst {n : Nat} {a : α} {b c : Buckets α n}
    (h : popFirst n b = (some a, c)) : cells n c < cells n b := by
  induction n with
  | zero =>
    match b, h with
    | (_, _) :: rest, h =>
      have hc : rest = c := congrArg Prod.snd h
      rw [← hc]
      exact Nat.lt_succ_self rest.length
  | succ n ih =>
    match b, h with
    | ⟨count, (k, b) :: rest⟩, h =>
      have h1 : (popFirst n b).1 = some a := congrArg Prod.fst h
      have h2 : (popFirst (n + 1) (Layer.mk count ((k, b) :: rest))).2 = c := congrArg Prod.snd h
      have hlt := ih (b := b) (c := (popFirst n b).2) (Prod.ext h1 rfl)
      have hle := elim_keep_le n (popFirst n b).2
      rw [← h2]
      simp only [popFirst, cells, total]
      cases hk : keep n (popFirst n b).2 <;> rw [hk] at hle <;>
        simp only [Option.elim, total] at * <;> omega

end Buckets

end Bundler
