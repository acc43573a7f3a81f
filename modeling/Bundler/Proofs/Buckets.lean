import Bundler.Merge.Buckets
/-!
# What layered buckets hold

The entries of a bucket structure, read from left to right, are a strictly ascending list: an
insertion adds one entry to it, a removal takes one out of it, and taking the first item out drops
its head. The structure is in order when every layer's keys ascend, every count is the number of
items below it, and no bucket is empty. The last two are what makes it safe to look at the first
bucket only.
-/
namespace Bundler.Buckets

variable {α : Type u}

structure Entry (α : Type u) where
  path : List Int
  leaf : Int
  item : α

def Entry.below (k : Int) (e : Entry α) : Entry α := { e with path := k :: e.path }

/-- The first keys of a path, a missing one being 0. -/
def keysIn : Nat → List Int → List Int
  | 0, _ => []
  | n + 1, path => path.headD 0 :: keysIn n path.tail

def entryAt (n : Nat) (place : Place) (a : α) : Entry α := ⟨keysIn n place.path, place.leaf, a⟩

def entries : (n : Nat) → Buckets α n → List (Entry α)
  | 0, items => List.map (fun p => ⟨[], p.1, p.2⟩) items
  | n + 1, layer => layer.buckets.flatMap fun b => (entries n b.2).map (Entry.below b.1)

theorem length_entries (n : Nat) (b : Buckets α n) : (entries n b).length = cells n b := by
  induction n with
  | zero => exact List.length_map _
  | succ n ih =>
    show (b.buckets.flatMap fun c => (entries n c.2).map (Entry.below c.1)).length =
      total (cells n) b.buckets
    induction b.buckets with
    | nil => rfl
    | cons c cs ihs =>
      rw [List.flatMap_cons, List.length_append, List.length_map, ih, ihs, total]

theorem entries_empty (n : Nat) : entries n (empty (α := α) n) = [] := by
  cases n <;> rfl

section Order
variable [Ord α]

def LeafBefore (x y : Int × α) : Prop := (compare x.1 y.1).then (compare x.2 y.2) = .lt

/-- The order of entries: by the layer keys from above, then by the leaf key, then by the item. -/
def Entry.Before (x y : Entry α) : Prop :=
  x.path < y.path ∨ x.path = y.path ∧ LeafBefore (x.leaf, x.item) (y.leaf, y.item)

/-- Every layer is sorted and counted rightly, and no bucket is empty. -/
def Ordered : (n : Nat) → Buckets α n → Prop
  | 0, items => List.Pairwise LeafBefore items
  | n + 1, layer =>
    layer.buckets.Pairwise (fun b c => b.1 < c.1) ∧ layer.count = cells (n + 1) layer ∧
      ∀ b ∈ layer.buckets, Ordered n b.2 ∧ cells n b.2 ≠ 0

theorem ordered_empty (n : Nat) : Ordered n (empty (α := α) n) := by
  cases n with
  | zero => exact List.Pairwise.nil
  | succ n => exact ⟨List.Pairwise.nil, rfl, by simp [empty]⟩

theorem isEmpty_eq {n : Nat} {b : Buckets α n} (h : Ordered n b) :
    isEmpty n b = (cells n b == 0) := by
  cases n with
  | zero => cases b <;> rfl
  | succ n => rw [isEmpty, h.2.1]

theorem keep_eq {n : Nat} {b : Buckets α n} (h : Ordered n b) :
    keep n b = if cells n b = 0 then none else some b := by
  rw [keep, isEmpty_eq h]
  by_cases h0 : cells n b = 0 <;> simp [h0]

theorem below_before {k : Int} {x y : Entry α} (h : x.Before y) :
    (x.below k).Before (y.below k) := by
  rcases h with h | ⟨h, hleaf⟩
  · exact Or.inl (List.cons_lt_cons_iff.mpr (Or.inr ⟨rfl, h⟩))
  · exact Or.inr ⟨congrArg (k :: ·) h, hleaf⟩

theorem before_of_lt {j k : Int} (h : j < k) (x y : Entry α) : (x.below j).Before (y.below k) :=
  Or.inl (List.cons_lt_cons_iff.mpr (Or.inl h))

theorem pairwise_entries {n : Nat} {b : Buckets α n} (h : Ordered n b) :
    (entries n b).Pairwise Entry.Before := by
  induction n with
  | zero => exact List.pairwise_map.mpr (List.Pairwise.imp (fun hlt => Or.inr ⟨rfl, hlt⟩) h)
  | succ n ih =>
    obtain ⟨hkeys, -, hbuckets⟩ := h
    rw [entries, List.pairwise_flatMap]
    constructor
    · intro c hc
      exact List.pairwise_map.mpr (List.Pairwise.imp below_before (ih (hbuckets c hc).1))
    · refine List.Pairwise.imp ?_ hkeys
      intro c d hlt x hx y hy
      obtain ⟨x, -, rfl⟩ := List.mem_map.mp hx
      obtain ⟨y, -, rfl⟩ := List.mem_map.mp hy
      exact before_of_lt hlt x y

end Order

theorem entries_layer_append (n c : Nat) (l r : List (Int × Buckets α n)) :
    entries (n + 1) (Layer.mk c (l ++ r)) =
      entries (n + 1) (Layer.mk c l) ++ entries (n + 1) (Layer.mk c r) :=
  List.flatMap_append

theorem entries_layer_cons (n c : Nat) (k : Int) (b : Buckets α n) (r : List (Int × Buckets α n)) :
    entries (n + 1) (Layer.mk c ((k, b) :: r)) =
      (entries n b).map (Entry.below k) ++ entries (n + 1) (Layer.mk c r) :=
  List.flatMap_cons

section Leaves
variable [Ord α]

theorem leafBefore_iff {x y : Int × α} :
    LeafBefore x y ↔ x.1 < y.1 ∨ x.1 = y.1 ∧ compare x.2 y.2 = .lt := by
  unfold LeafBefore
  rw [Ordering.then_eq_lt, Int.compare_eq_lt, Int.compare_eq_eq]

theorem leafBefore_trans [Std.TransOrd α] {x y z : Int × α} (hxy : LeafBefore x y) (hyz : LeafBefore y z) :
    LeafBefore x z := by
  rw [leafBefore_iff] at *
  rcases hxy with hxy | ⟨hxy, hitem⟩
  · rcases hyz with hyz | ⟨hyz, -⟩
    · exact Or.inl (Int.lt_trans hxy hyz)
    · exact Or.inl (hyz ▸ hxy)
  · rcases hyz with hyz | ⟨hyz, hitem'⟩
    · exact Or.inl (hxy ▸ hyz)
    · exact Or.inr ⟨hxy.trans hyz, Std.TransCmp.lt_trans hitem hitem'⟩

theorem not_leafBefore_self [Std.TransOrd α] (x : Int × α) : ¬ LeafBefore x x := by
  have heq : compare x.2 x.2 = .eq := Std.ReflCmp.compare_self
  rw [leafBefore_iff, heq]
  simp

theorem nodup_entries [Std.TransOrd α] {n : Nat} {b : Buckets α n} (h : Ordered n b) :
    (entries n b).Nodup := by
  refine List.Pairwise.imp ?_ (pairwise_entries h)
  intro x y hxy heq
  subst heq
  rcases hxy with hlt | ⟨-, hlt⟩
  · exact List.lt_irrefl _ hlt
  · exact not_leafBefore_self _ hlt

theorem eq_of_compare_leaf [Std.LawfulEqOrd α] {x y : Int × α}
    (h : (compare x.1 y.1).then (compare x.2 y.2) = .eq) : x = y := by
  rw [Ordering.then_eq_eq, Int.compare_eq_eq] at h
  exact Prod.ext h.1 (Std.LawfulEqCmp.eq_of_compare h.2)

theorem leafBefore_of_compare_gt [Std.TransOrd α] {x y : Int × α}
    (h : (compare x.1 y.1).then (compare x.2 y.2) = .gt) : LeafBefore y x := by
  rw [Ordering.then_eq_gt, Int.compare_eq_gt, Int.compare_eq_eq] at h
  rw [leafBefore_iff]
  rcases h with h | ⟨h, hitem⟩
  · exact Or.inl h
  · exact Or.inr ⟨h.symm, Std.OrientedCmp.lt_of_gt hitem⟩

theorem perm_insertLeaf [Std.LawfulEqOrd α] {leaf : Int} {a : α} {items : List (Int × α)}
    (hfresh : (leaf, a) ∉ items) :
    (insertLeaf leaf a items).Perm ((leaf, a) :: items) := by
  induction items with
  | nil => exact List.Perm.refl _
  | cons x items ih =>
    obtain ⟨k, b⟩ := x
    unfold insertLeaf
    split
    · exact List.Perm.refl _
    · rename_i heq
      have hx : (leaf, a) = (k, b) := eq_of_compare_leaf heq
      exact absurd (hx ▸ List.mem_cons_self) hfresh
    · have hrest := ih fun h => hfresh (List.mem_cons_of_mem _ h)
      exact (hrest.cons (k, b)).trans (List.Perm.swap ..)

theorem pairwise_insertLeaf [Std.TransOrd α] [Std.LawfulEqOrd α] {leaf : Int} {a : α}
    {items : List (Int × α)}
    (hitems : items.Pairwise LeafBefore) (hfresh : (leaf, a) ∉ items) :
    (insertLeaf leaf a items).Pairwise LeafBefore := by
  induction items with
  | nil => exact List.pairwise_singleton _ _
  | cons x items ih =>
    obtain ⟨k, b⟩ := x
    obtain ⟨hhead, hrest⟩ := List.pairwise_cons.mp hitems
    have hfresh' : (leaf, a) ∉ items := fun h => hfresh (List.mem_cons_of_mem _ h)
    unfold insertLeaf
    split
    · rename_i hlt
      refine List.pairwise_cons.mpr ⟨?_, hitems⟩
      intro y hy
      rcases List.mem_cons.mp hy with rfl | hy
      · exact hlt
      · exact leafBefore_trans (show LeafBefore (leaf, a) (k, b) from hlt) (hhead y hy)
    · exact hitems
    · rename_i hgt
      refine List.pairwise_cons.mpr ⟨?_, ih hrest hfresh'⟩
      intro y hy
      rcases List.mem_cons.mp ((perm_insertLeaf hfresh').mem_iff.mp hy) with rfl | hy
      · exact leafBefore_of_compare_gt hgt
      · exact hhead y hy

theorem eraseLeaf_of_mem [Std.LawfulEqOrd α] {leaf : Int} {a : α} {items : List (Int × α)}
    (h : (leaf, a) ∈ items) :
    ∃ l r, items = l ++ (leaf, a) :: r ∧ eraseLeaf leaf a items = some (l ++ r) := by
  induction items with
  | nil => exact absurd h List.not_mem_nil
  | cons x items ih =>
    obtain ⟨k, b⟩ := x
    by_cases heq : (compare leaf k).then (compare a b) = .eq
    · have hx : (leaf, a) = (k, b) := eq_of_compare_leaf heq
      exact ⟨[], items, by rw [hx]; rfl, by simp [eraseLeaf, heq]⟩
    · have hmem : (leaf, a) ∈ items := by
        rcases List.mem_cons.mp h with hx | hmem
        · cases hx
          exact absurd (by simp) heq
        · exact hmem
      obtain ⟨l, r, hitems, herase⟩ := ih hmem
      refine ⟨(k, b) :: l, r, by rw [hitems]; rfl, ?_⟩
      unfold eraseLeaf
      rw [herase]
      split
      · contradiction
      · rfl

end Leaves

section Layers

/-- Where the bucket of a key stands, or would stand, in a list of ascending keys. -/
theorem upsert_cases {β : Type u} (key : Int) (fresh : β) (f : β → β) {bs : List (Int × β)}
    (hkeys : bs.Pairwise fun b c => b.1 < c.1) :
    (∃ l b r, bs = l ++ (key, b) :: r ∧ upsert key fresh f bs = l ++ (key, f b) :: r) ∨
      ∃ l r, bs = l ++ r ∧ (∀ b ∈ l, b.1 < key) ∧ (∀ b ∈ r, key < b.1) ∧
        upsert key fresh f bs = l ++ (key, f fresh) :: r := by
  induction bs with
  | nil => exact Or.inr ⟨[], [], rfl, by simp, by simp, rfl⟩
  | cons x bs ih =>
    obtain ⟨k, b⟩ := x
    obtain ⟨hhead, hrest⟩ := List.pairwise_cons.mp hkeys
    unfold upsert
    split
    · rename_i hlt
      refine Or.inr ⟨[], (k, b) :: bs, rfl, by simp, ?_, rfl⟩
      intro c hc
      rcases List.mem_cons.mp hc with rfl | hc
      · exact hlt
      · exact Int.lt_trans hlt (hhead c hc)
    · split
      · rename_i heq
        exact Or.inl ⟨[], b, bs, by rw [heq]; rfl, by rw [heq]; rfl⟩
      · rename_i hlt hne
        rcases ih hrest with ⟨l, c, r, hbs, hup⟩ | ⟨l, r, hbs, hl, hr, hup⟩
        · exact Or.inl ⟨(k, b) :: l, c, r, by rw [hbs]; rfl, by rw [hup]; rfl⟩
        · refine Or.inr ⟨(k, b) :: l, r, by rw [hbs]; rfl, ?_, hr, by rw [hup]; rfl⟩
          intro c hc
          rcases List.mem_cons.mp hc with rfl | hc
          · show k < key
            omega
          · exact hl c hc

theorem alter_middle {β : Type u} {key : Int} {f : β → Option (Option β)} {l r : List (Int × β)}
    {b : β} (hl : ∀ c ∈ l, c.1 < key) :
    alter key f (l ++ (key, b) :: r) =
      (f b).map fun x => l ++ (x.elim r fun c => (key, c) :: r) := by
  induction l with
  | nil =>
    simp only [List.nil_append, alter, if_true]
    congr 1
    funext x
    cases x <;> rfl
  | cons x l ih =>
    obtain ⟨k, c⟩ := x
    have hk : k < key := hl (k, c) List.mem_cons_self
    have hrest := ih fun d hd => hl d (List.mem_cons_of_mem _ hd)
    rw [List.cons_append, alter, if_neg (by omega), hrest, Option.map_map]
    rfl

theorem alter_eq_none {β : Type u} {key : Int} {f : β → Option (Option β)} {bs : List (Int × β)}
    (h : ∀ b, (key, b) ∈ bs → f b = none) : alter key f bs = none := by
  induction bs with
  | nil => rfl
  | cons x bs ih =>
    obtain ⟨k, b⟩ := x
    unfold alter
    split
    · rename_i heq
      rw [h b (heq ▸ List.mem_cons_self), Option.map_none]
    · rw [ih fun c hc => h c (List.mem_cons_of_mem _ hc), Option.map_none]

@[simp] theorem total_append {β : Type u} (w : β → Nat) (l r : List (Int × β)) :
    total w (l ++ r) = total w l + total w r := by
  induction l with
  | nil => simp [total]
  | cons p l ih =>
    rw [List.cons_append, total, total, ih]
    omega

@[simp] theorem total_cons {β : Type u} (w : β → Nat) (k : Int) (b : β) (r : List (Int × β)) :
    total w ((k, b) :: r) = w b + total w r := rfl

theorem pairwise_replace {β : Type u} {k : Int} {b c : β} {l r : List (Int × β)}
    (h : (l ++ (k, b) :: r).Pairwise fun x y => x.1 < y.1) :
    (l ++ (k, c) :: r).Pairwise fun x y => x.1 < y.1 := by
  rw [← List.pairwise_map (f := Prod.fst) (R := (· < ·))] at *
  simpa using h

variable [Ord α]

theorem ordered_layer_iff {n count : Nat} {bs : List (Int × Buckets α n)} :
    Ordered (n + 1) (Layer.mk count bs) ↔
      bs.Pairwise (fun b c => b.1 < c.1) ∧ count = total (cells n) bs ∧
        ∀ b ∈ bs, Ordered n b.2 ∧ cells n b.2 ≠ 0 := Iff.rfl

theorem ordered_replace {n count : Nat} {k : Int} {b c : Buckets α n}
    {l r : List (Int × Buckets α n)} (h : Ordered (n + 1) (Layer.mk count (l ++ (k, b) :: r)))
    (hc : Ordered n c) (hc0 : cells n c ≠ 0) {count' : Nat}
    (hcount : count' + cells n b = count + cells n c) :
    Ordered (n + 1) (Layer.mk count' (l ++ (k, c) :: r)) := by
  obtain ⟨hkeys, htotal, hbuckets⟩ := ordered_layer_iff.mp h
  refine ordered_layer_iff.mpr ⟨pairwise_replace hkeys, ?_, ?_⟩
  · simp only [total_append, total_cons] at *
    omega
  · intro x hx
    rcases List.mem_append.mp hx with hx | hx
    · exact hbuckets x (List.mem_append_left _ hx)
    · rcases List.mem_cons.mp hx with rfl | hx
      · exact ⟨hc, hc0⟩
      · exact hbuckets x (List.mem_append_right _ (List.mem_cons_of_mem _ hx))

theorem ordered_drop {n count : Nat} {k : Int} {b : Buckets α n}
    {l r : List (Int × Buckets α n)} (h : Ordered (n + 1) (Layer.mk count (l ++ (k, b) :: r)))
    {count' : Nat} (hcount : count' + cells n b = count) :
    Ordered (n + 1) (Layer.mk count' (l ++ r)) := by
  obtain ⟨hkeys, htotal, hbuckets⟩ := ordered_layer_iff.mp h
  have hsub : (l ++ r).Sublist (l ++ (k, b) :: r) :=
    (List.sublist_cons_self (k, b) r).append_left l
  refine ordered_layer_iff.mpr ⟨hkeys.sublist hsub, ?_, fun x hx => hbuckets x (hsub.subset hx)⟩
  simp only [total_append, total_cons] at *
  omega

/-- A layer stays ordered with one more bucket at the place of its key. -/
theorem ordered_add {n count : Nat} {k : Int} {c : Buckets α n} {l r : List (Int × Buckets α n)}
    (h : Ordered (n + 1) (Layer.mk count (l ++ r))) (hl : ∀ x ∈ l, x.1 < k)
    (hr : ∀ x ∈ r, k < x.1) (hc : Ordered n c) (hc0 : cells n c ≠ 0) :
    Ordered (n + 1) (Layer.mk (count + cells n c) (l ++ (k, c) :: r)) := by
  obtain ⟨hkeys, htotal, hbuckets⟩ := ordered_layer_iff.mp h
  refine ordered_layer_iff.mpr ⟨?_, ?_, ?_⟩
  · obtain ⟨hkl, hkr, hlr⟩ := List.pairwise_append.mp hkeys
    refine List.pairwise_append.mpr ⟨hkl, List.pairwise_cons.mpr ⟨hr, hkr⟩, ?_⟩
    intro x hx y hy
    rcases List.mem_cons.mp hy with rfl | hy
    · exact hl x hx
    · exact hlr x hx y hy
  · simp only [total_append, total_cons] at *
    omega
  · intro x hx
    rcases List.mem_append.mp hx with hx | hx
    · exact hbuckets x (List.mem_append_left _ hx)
    · rcases List.mem_cons.mp hx with rfl | hx
      · exact ⟨hc, hc0⟩
      · exact hbuckets x (List.mem_append_right _ hx)

end Layers

section Operations

theorem entryAt_succ (n : Nat) (place : Place) (a : α) :
    entryAt (n + 1) place a =
      (entryAt n ⟨place.path.tail, place.leaf⟩ a).below (place.path.headD 0) := rfl

theorem below_injective (k : Int) : Function.Injective (Entry.below (α := α) k) := by
  intro x y h
  cases x
  cases y
  simp only [Entry.below, Entry.mk.injEq, List.cons.injEq] at h
  simp [h]

variable [Ord α]

theorem perm_insert [Std.LawfulEqOrd α] {n : Nat} {place : Place} {a : α} {b : Buckets α n}
    (h : Ordered n b) (hfresh : entryAt n place a ∉ entries n b) :
    (entries n (insert n place a b)).Perm (entryAt n place a :: entries n b) := by
  induction n generalizing place with
  | zero =>
    have hleaf : (place.leaf, a) ∉ b := fun hm => hfresh (List.mem_map.mpr ⟨_, hm, rfl⟩)
    exact (perm_insertLeaf hleaf).map _
  | succ n ih =>
    obtain ⟨count, bs⟩ := b
    obtain ⟨hkeys, -, hbuckets⟩ := ordered_layer_iff.mp h
    rw [insert]
    rcases upsert_cases (place.path.headD 0) (empty n)
      (insert n ⟨place.path.tail, place.leaf⟩ a) hkeys with
      ⟨l, c, r, rfl, hup⟩ | ⟨l, r, rfl, -, -, hup⟩
    · have hc : Ordered n c := (hbuckets _ (List.mem_append_right _ List.mem_cons_self)).1
      rw [hup, entries_layer_append, entries_layer_cons, entries_layer_append,
        entries_layer_cons]
      have hfresh' : entryAt n ⟨place.path.tail, place.leaf⟩ a ∉ entries n c := by
        intro hm
        apply hfresh
        rw [entryAt_succ, entries_layer_append, entries_layer_cons]
        exact List.mem_append_right _ (List.mem_append_left _ (List.mem_map_of_mem hm))
      have hrest := ((ih hc hfresh').map (Entry.below (place.path.headD 0))).append_right
        (entries (n + 1) (Layer.mk count r))
      exact (hrest.append_left _).trans List.perm_middle
    · have hfresh' : entryAt n ⟨place.path.tail, place.leaf⟩ a ∉ entries n (empty n) := by
        simp [entries_empty]
      have hrest := ((ih (ordered_empty n) hfresh').map
        (Entry.below (place.path.headD 0))).append_right (entries (n + 1) (Layer.mk count r))
      rw [entries_empty] at hrest
      rw [hup, entries_layer_append, entries_layer_cons, entries_layer_append]
      exact (hrest.append_left _).trans List.perm_middle

theorem cells_insert [Std.LawfulEqOrd α] {n : Nat} {place : Place} {a : α} {b : Buckets α n}
    (h : Ordered n b) (hfresh : entryAt n place a ∉ entries n b) :
    cells n (insert n place a b) = cells n b + 1 := by
  have hlen := (perm_insert h hfresh).length_eq
  rwa [List.length_cons, length_entries, length_entries] at hlen

theorem ordered_insert [Std.TransOrd α] [Std.LawfulEqOrd α] {n : Nat} {place : Place} {a : α}
    {b : Buckets α n} (h : Ordered n b) (hfresh : entryAt n place a ∉ entries n b) :
    Ordered n (insert n place a b) := by
  induction n generalizing place with
  | zero =>
    have hleaf : (place.leaf, a) ∉ b := fun hm => hfresh (List.mem_map.mpr ⟨_, hm, rfl⟩)
    exact pairwise_insertLeaf h hleaf
  | succ n ih =>
    obtain ⟨count, bs⟩ := b
    obtain ⟨hkeys, -, hbuckets⟩ := ordered_layer_iff.mp h
    rw [insert]
    rcases upsert_cases (place.path.headD 0) (empty n)
      (insert n ⟨place.path.tail, place.leaf⟩ a) hkeys with
      ⟨l, c, r, rfl, hup⟩ | ⟨l, r, rfl, hl, hr, hup⟩
    · have hc : Ordered n c := (hbuckets _ (List.mem_append_right _ List.mem_cons_self)).1
      have hfresh' : entryAt n ⟨place.path.tail, place.leaf⟩ a ∉ entries n c := by
        intro hm
        apply hfresh
        rw [entryAt_succ, entries_layer_append, entries_layer_cons]
        exact List.mem_append_right _ (List.mem_append_left _ (List.mem_map_of_mem hm))
      have hcells := cells_insert hc hfresh'
      rw [hup]
      show Ordered (n + 1) (Layer.mk (count + 1) _)
      exact ordered_replace h (ih hc hfresh') (by omega) (by omega)
    · have hfresh' : entryAt n ⟨place.path.tail, place.leaf⟩ a ∉ entries n (empty n) := by
        simp [entries_empty]
      have hcells := cells_insert (ordered_empty n) hfresh'
      rw [cells_empty] at hcells
      have hadd := ordered_add h hl hr (ih (ordered_empty n) hfresh') (by omega)
      rw [hup]
      rwa [hcells] at hadd

theorem erase?_of_mem [Std.LawfulEqOrd α] {n : Nat} {place : Place} {a : α} {b : Buckets α n}
    (h : Ordered n b) (hmem : entryAt n place a ∈ entries n b) :
    ∃ c, erase? n place a b = some c ∧ Ordered n c ∧
      (entries n b).Perm (entryAt n place a :: entries n c) := by
  induction n generalizing place with
  | zero =>
    obtain ⟨⟨k, i⟩, hx, heq⟩ := List.mem_map.mp hmem
    simp only [entryAt, keysIn, Entry.mk.injEq, true_and] at heq
    obtain ⟨rfl, rfl⟩ := heq
    obtain ⟨l, r, rfl, herase⟩ := eraseLeaf_of_mem hx
    have hsub := (List.sublist_cons_self (place.leaf, i) r).append_left l
    refine ⟨l ++ r, herase, List.Pairwise.sublist hsub h, ?_⟩
    exact List.perm_middle.map _
  | succ n ih =>
    obtain ⟨count, bs⟩ := b
    obtain ⟨hkeys, hcount, hbuckets⟩ := ordered_layer_iff.mp h
    obtain ⟨⟨k, c⟩, hc, hin⟩ := List.mem_flatMap.mp hmem
    obtain ⟨e, he, hbelow⟩ := List.mem_map.mp hin
    have hk : k = place.path.headD 0 := (List.cons.inj (congrArg Entry.path hbelow)).1
    subst hk
    have heq : e = entryAt n ⟨place.path.tail, place.leaf⟩ a := below_injective _ hbelow
    subst heq
    have hordered : Ordered n c := (hbuckets _ hc).1
    obtain ⟨d, herase, hd, hperm⟩ := ih hordered he
    have hlen := hperm.length_eq
    rw [List.length_cons, length_entries, length_entries] at hlen
    obtain ⟨l, r, rfl⟩ := List.append_of_mem hc
    have hl : ∀ x ∈ l, x.1 < place.path.headD 0 := fun x hx =>
      (List.pairwise_append.mp hkeys).2.2 x hx _ List.mem_cons_self
    simp only [total_append, total_cons] at hcount
    have hup := alter_middle (f := fun b =>
      (erase? n ⟨place.path.tail, place.leaf⟩ a b).map (keep n)) (r := r) (b := c) hl
    rw [herase, Option.map_some, keep_eq hd] at hup
    rw [erase?, hup]
    have hentries := (hperm.map (Entry.below (place.path.headD 0))).append_right
      (entries (n + 1) (Layer.mk count r))
    by_cases h0 : cells n d = 0
    · rw [if_pos h0]
      refine ⟨Layer.mk (count - 1) (l ++ r), rfl, ordered_drop h (by omega), ?_⟩
      have hnil : entries n d = [] := List.length_eq_zero_iff.mp (by rw [length_entries, h0])
      rw [entries_layer_append, entries_layer_cons, entries_layer_append]
      rw [hnil] at hentries
      exact (hentries.append_left _).trans List.perm_middle
    · rw [if_neg h0]
      refine ⟨Layer.mk (count - 1) (l ++ (place.path.headD 0, d) :: r), rfl,
        ordered_replace h hd h0 (by omega), ?_⟩
      rw [entries_layer_append, entries_layer_cons, entries_layer_append, entries_layer_cons]
      exact (hentries.append_left _).trans List.perm_middle

theorem eraseLeaf_of_not_mem [Std.LawfulEqOrd α] {leaf : Int} {a : α} {items : List (Int × α)}
    (h : (leaf, a) ∉ items) : eraseLeaf leaf a items = none := by
  induction items with
  | nil => rfl
  | cons x items ih =>
    obtain ⟨k, b⟩ := x
    have hrest := ih fun hin => h (List.mem_cons_of_mem _ hin)
    unfold eraseLeaf
    rw [hrest]
    split
    · rename_i heq
      have hx : (leaf, a) = (k, b) := eq_of_compare_leaf heq
      exact absurd (hx ▸ List.mem_cons_self) h
    · rfl

theorem erase?_of_not_mem [Std.LawfulEqOrd α] {n : Nat} {place : Place} {a : α} {b : Buckets α n}
    (h : entryAt n place a ∉ entries n b) : erase? n place a b = none := by
  induction n generalizing place with
  | zero => exact eraseLeaf_of_not_mem fun hin => h (List.mem_map.mpr ⟨_, hin, rfl⟩)
  | succ n ih =>
    obtain ⟨count, bs⟩ := b
    rw [erase?, Option.map_eq_none_iff]
    apply alter_eq_none
    intro c hc
    rw [ih, Option.map_none]
    intro hin
    apply h
    rw [entryAt_succ]
    exact List.mem_flatMap.mpr ⟨_, hc, List.mem_map_of_mem hin⟩

/-- The first item is that of the first entry, and the other entries stay. -/
theorem popFirst_of_entries {n : Nat} {b : Buckets α n} {e : Entry α} {es : List (Entry α)}
    (h : Ordered n b) (he : entries n b = e :: es) :
    ∃ c, popFirst n b = (some e.item, c) ∧ Ordered n c ∧ entries n c = es := by
  induction n generalizing e es with
  | zero =>
    cases b with
    | nil => simp [entries] at he
    | cons x items =>
      obtain ⟨rfl, rfl⟩ := List.cons.inj he
      exact ⟨items, rfl, (List.pairwise_cons.mp h).2, rfl⟩
  | succ n ih =>
    obtain ⟨count, bs⟩ := b
    cases bs with
    | nil => simp [entries] at he
    | cons x bs =>
      obtain ⟨k, b⟩ := x
      obtain ⟨hkeys, hcount, hbuckets⟩ := ordered_layer_iff.mp h
      obtain ⟨hb, hb0⟩ := hbuckets (k, b) List.mem_cons_self
      rw [← length_entries] at hb0
      cases hes : entries n b with
      | nil => simp [hes] at hb0
      | cons e' es' =>
        obtain ⟨c, hpop, hc, hrest⟩ := ih hb hes
        have hlen : cells n b = cells n c + 1 := by
          rw [← length_entries, ← length_entries, hes, hrest, List.length_cons]
        rw [entries_layer_cons, hes] at he
        obtain ⟨rfl, rfl⟩ := List.cons.inj he
        simp only [popFirst, hpop, keep_eq hc]
        refine ⟨_, rfl, ?_⟩
        by_cases h0 : cells n c = 0
        · rw [if_pos h0]
          have hnil : es' = [] := by
            rw [← hrest]
            exact List.length_eq_zero_iff.mp (by rw [length_entries, h0])
          refine ⟨ordered_drop (l := []) h ?_, ?_⟩
          · simp only [total_cons] at hcount
            simp only [Option.isSome_some, if_true]
            omega
          · rw [hnil]
            rfl
        · rw [if_neg h0]
          refine ⟨ordered_replace (l := []) h hc h0 ?_, ?_⟩
          · simp only [total_cons] at hcount
            simp only [Option.isSome_some, if_true]
            omega
          · show entries (n + 1) (Layer.mk _ ((k, c) :: bs)) = _
            rw [entries_layer_cons, hrest]
            rfl

theorem popFirst_of_entries_nil {n : Nat} {b : Buckets α n} (h : Ordered n b)
    (he : entries n b = []) : popFirst n b = (none, b) := by
  cases n with
  | zero =>
    cases b with
    | nil => rfl
    | cons x items => simp [entries] at he
  | succ n =>
    obtain ⟨count, bs⟩ := b
    cases bs with
    | nil => rfl
    | cons x bs =>
      obtain ⟨-, -, hbuckets⟩ := ordered_layer_iff.mp h
      have hx := (hbuckets x List.mem_cons_self).2
      rw [entries_layer_cons, List.append_eq_nil_iff, List.map_eq_nil_iff] at he
      rw [← length_entries, he.1] at hx
      exact absurd rfl hx

end Operations

end Bundler.Buckets
