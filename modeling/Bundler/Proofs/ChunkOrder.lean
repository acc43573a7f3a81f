import Bundler.Proofs.Dependencies
import Bundler.Proofs.LimitStart
import Bundler.Proofs.Reordered
/-!
# The order of chunks

Chunks are compared by the names of their modules in small letters, which are put in order first. So
the comparison sees how often each name is there and nothing else: not capital letters, and not the
order in which modules came into a chunk. On lists of names it is an order, which makes it a total
preorder of chunks, and sorting by it is stable.
-/
namespace Bundler

/-- The sorted names of the modules, in small letters as they are compared. -/
def ChunkRecord.sortedNames (r : ChunkRecord) : List String :=
  (Placement.sortedIds r).map Text.lowerCase

namespace Placement
variable {p q : Placement} {a b c : ChunkKey} {r s : ChunkRecord} {o : Ordering}

instance : Std.TransCmp longerFirst :=
  inferInstanceAs (Std.TransCmp (compareLex
    (fun xs ys : List String => compareOn List.length ys xs) (List.compareLex compare)))

instance : Std.LawfulEqCmp longerFirst where
  eq_of_compare h := Std.LawfulEqCmp.eq_of_compare (Ordering.then_eq_eq.mp h).2

/-- The names of a chunk as they are compared; none if it is not placed. -/
def namesOf (p : Placement) (c : ChunkKey) : List String :=
  (p.chunks.get? c).elim [] ChunkRecord.sortedNames

/-- The comparison of names by which chunks are sorted. -/
def namesLe (p : Placement) (a b : ChunkKey) : Bool :=
  (longerFirst (p.namesOf a) (p.namesOf b)).isLE

theorem namesLe_trans (p : Placement) (a b c : ChunkKey) (hab : p.namesLe a b = true)
    (hbc : p.namesLe b c = true) : p.namesLe a c = true :=
  Std.TransCmp.isLE_trans hab hbc

theorem namesLe_total (p : Placement) (a b : ChunkKey) :
    (p.namesLe a b || p.namesLe b a) = true := by
  have hswap : longerFirst (p.namesOf b) (p.namesOf a) =
      (longerFirst (p.namesOf a) (p.namesOf b)).swap := Std.OrientedCmp.eq_swap
  unfold namesLe
  rw [hswap]
  cases longerFirst (p.namesOf a) (p.namesOf b) <;> rfl

theorem compareChunks_of_get? (hr : p.chunks.get? a = some r) (hs : p.chunks.get? b = some s) :
    p.compareChunks a b = .ok (longerFirst (p.namesOf a) (p.namesOf b)) := by
  unfold compareChunks namesOf
  rw [require_eq_ok.mpr hr, require_eq_ok.mpr hs, hr, hs]
  exact congrArg Except.ok (compareSorted_eq_longerFirst _ _)

/-- The comparison answers on placed chunks, and on no others. -/
theorem compareChunks_eq_ok : p.compareChunks a b = .ok o ↔
    a ∈ p.chunks.keys ∧ b ∈ p.chunks.keys ∧ longerFirst (p.namesOf a) (p.namesOf b) = o := by
  constructor
  · intro h
    obtain ⟨r, hr, hrest⟩ := exists_of_bind_eq_ok h
    obtain ⟨s, hs, -⟩ := exists_of_bind_eq_ok hrest
    rw [require_eq_ok] at hr hs
    rw [compareChunks_of_get? hr hs] at h
    exact ⟨OrderedMap.mem_keys_of_get? hr, OrderedMap.mem_keys_of_get? hs, Except.ok.inj h⟩
  · rintro ⟨ha, hb, rfl⟩
    obtain ⟨r, hr⟩ := OrderedMap.exists_of_mem_keys ha
    obtain ⟨s, hs⟩ := OrderedMap.exists_of_mem_keys hb
    exact compareChunks_of_get? hr hs

/-- Placed chunks are sorted by their names. -/
theorem sortChunks_eq_mergeSort {cs : List ChunkKey} (h : ∀ c ∈ cs, c ∈ p.chunks.keys) :
    p.sortChunks cs = .ok (cs.mergeSort p.namesLe) := by
  obtain ⟨xs, hsort, hfst, hall⟩ := exists_sorted h
  have hnames : ∀ x ∈ xs, x.2.map Text.lowerCase = p.namesOf x.1 := by
    intro x hx
    obtain ⟨r, hr, hids⟩ := hall x hx
    rw [hids, namesOf, hr]
    rfl
  have hle : ∀ x ∈ xs, ∀ y ∈ xs, (compareSorted x.2 y.2 != .gt) = p.namesLe x.1 y.1 := by
    intro x hx y hy
    rw [compareSorted_eq_longerFirst, hnames x hx, hnames y hy, namesLe]
    cases longerFirst (p.namesOf x.1) (p.namesOf y.1) <;> rfl
  rw [hsort, List.map_mergeSort hle, hfst]

/-- The chunks `sorted` are the chunks `cs` in their order. -/
structure StablySorted (p : Placement) (cs sorted : List ChunkKey) : Prop where
  perm : sorted.Perm cs
  /-- No chunk is followed by one that comes strictly before it. -/
  ordered : sorted.Pairwise fun a b => p.compareChunks b a ≠ .ok .lt
  /-- Those that compare equal to a chunk are in the order in which they were. -/
  stable : ∀ c, sorted.filter (fun d => p.compareChunks c d = .ok .eq) =
    cs.filter fun d => p.compareChunks c d = .ok .eq

theorem stablySorted_mergeSort (p : Placement) (cs : List ChunkKey) :
    p.StablySorted cs (cs.mergeSort p.namesLe) where
  perm := List.mergeSort_perm cs p.namesLe
  ordered := by
    refine (List.pairwise_mergeSort p.namesLe_trans p.namesLe_total cs).imp ?_
    intro a b hle hlt
    obtain ⟨-, -, hlt⟩ := compareChunks_eq_ok.mp hlt
    have hgt := Std.OrientedCmp.gt_of_lt hlt
    rw [namesLe, hgt] at hle
    cases hle
  stable c := by
    let alike := fun d => decide (p.compareChunks c d = .ok .eq)
    have hnames : ∀ d ∈ cs.filter alike, longerFirst (p.namesOf c) (p.namesOf d) = .eq := by
      intro d hd
      exact (compareChunks_eq_ok.mp (of_decide_eq_true (List.mem_filter.mp hd).2)).2.2
    -- Those that compare equal are in order as they stand, so sorting leaves them so.
    have hordered : (cs.filter alike).Pairwise fun a b => p.namesLe a b = true := by
      apply List.pairwise_of_forall_mem_list
      intro a ha b hb
      have heq := Std.TransCmp.eq_trans (Std.OrientedCmp.eq_symm (hnames a ha)) (hnames b hb)
      rw [namesLe, heq]
      rfl
    exact filter_mergeSort p.namesLe_trans p.namesLe_total hordered

/-- The comparison is a total preorder of the placed chunks. -/
structure Preordered (p : Placement) : Prop where
  answers : ∀ a ∈ p.chunks.keys, ∀ b ∈ p.chunks.keys, ∃ o, p.compareChunks a b = .ok o
  refl : ∀ a ∈ p.chunks.keys, p.compareChunks a a = .ok .eq
  swap : ∀ a b o, p.compareChunks a b = .ok o → p.compareChunks b a = .ok o.swap
  trans : ∀ a b c o o', p.compareChunks a b = .ok o → p.compareChunks b c = .ok o' →
    o.isLE → o'.isLE → ∃ o'', p.compareChunks a c = .ok o'' ∧ o''.isLE

theorem preordered (p : Placement) : p.Preordered where
  answers a ha b hb := ⟨_, compareChunks_eq_ok.mpr ⟨ha, hb, rfl⟩⟩
  refl a ha := compareChunks_eq_ok.mpr ⟨ha, ha, Std.ReflCmp.compare_self⟩
  swap a b o h := by
    obtain ⟨ha, hb, rfl⟩ := compareChunks_eq_ok.mp h
    exact compareChunks_eq_ok.mpr ⟨hb, ha, Std.OrientedCmp.eq_swap⟩
  trans a b c o o' hab hbc hle hle' := by
    obtain ⟨ha, -, rfl⟩ := compareChunks_eq_ok.mp hab
    obtain ⟨-, hc, rfl⟩ := compareChunks_eq_ok.mp hbc
    exact ⟨_, compareChunks_eq_ok.mpr ⟨ha, hc, rfl⟩, Std.TransCmp.isLE_trans hle hle'⟩

end Placement

/-- The names of the modules in small letters, each as often as modules have it. -/
def ChunkRecord.names (r : ChunkRecord) : Multiset String :=
  (r.modules.toList.map Text.lowerCase : List String)

theorem ChunkRecord.sortedNames_eq_iff {r s : ChunkRecord} :
    r.sortedNames = s.sortedNames ↔ r.names = s.names := by
  rw [sortedNames, sortedNames, Placement.map_lowerCase_sortedIds,
    Placement.map_lowerCase_sortedIds, names, names, Multiset.coe_eq_coe]
  constructor
  · intro h
    have hsorted := (List.mergeSort_perm (r.modules.toList.map Text.lowerCase)
      fun a b => (compare a b).isLE).symm
    exact hsorted.trans (h ▸ List.mergeSort_perm _ _)
  · exact mergeSort_perm_eq

namespace Placement
variable {p q : Placement} {a b c : ChunkKey} {r s : ChunkRecord}

/-- Chunks compare equal if they have the same names, each as often. -/
theorem compareChunks_eq_iff (hr : p.chunks.get? a = some r) (hs : p.chunks.get? b = some s) :
    p.compareChunks a b = .ok .eq ↔ r.names = s.names := by
  rw [compareChunks_of_get? hr hs, Except.ok.injEq, Std.LawfulEqCmp.compare_eq_iff_eq, namesOf,
    namesOf, hr, hs]
  exact ChunkRecord.sortedNames_eq_iff

/-- Two placements of the same modules in the same chunks, in whatever orders. -/
structure SameModules (p q : Placement) : Prop where
  placed : ∀ c, c ∈ p.chunks.keys ↔ c ∈ q.chunks.keys
  holds : ∀ c m, p.Holds c m ↔ q.Holds c m

theorem SameModules.names_eq (h : p.SameModules q) (hr : p.chunks.get? c = some r)
    (hs : q.chunks.get? c = some s) : r.names = s.names := by
  have hmem : ∀ m, m ∈ r.modules.toList ↔ m ∈ s.modules.toList := by
    intro m
    have hholds := h.holds c m
    simp only [Holds, hr, hs, Option.some.injEq, exists_eq_left'] at hholds
    exact hholds
  have hperm := (List.perm_ext_iff_of_nodup r.modules.nodup s.modules.nodup).mpr hmem
  exact Multiset.coe_eq_coe.mpr (hperm.map _)

theorem compareChunks_eq (p : Placement) (a b : ChunkKey) : p.compareChunks a b = (do
    let xs ← (p.require a).map ChunkRecord.sortedNames
    let ys ← (p.require b).map ChunkRecord.sortedNames
    return longerFirst xs ys) := by
  unfold compareChunks
  cases p.require a with
  | error e => rfl
  | ok r =>
    cases p.require b with
    | error e => rfl
    | ok s => exact congrArg Except.ok (compareSorted_eq_longerFirst _ _)

/-- The comparison depends on which modules are in which chunks, and not on how they came there. -/
theorem SameModules.compareChunks (h : p.SameModules q) (a b : ChunkKey) :
    p.compareChunks a b = q.compareChunks a b := by
  have hrequire : ∀ c, (p.require c).map ChunkRecord.sortedNames =
      (q.require c).map ChunkRecord.sortedNames := by
    intro c
    have hplaced := h.placed c
    rw [OrderedMap.mem_keys_iff, OrderedMap.mem_keys_iff] at hplaced
    unfold require
    cases hr : p.chunks.get? c with
    | none =>
      cases hs : q.chunks.get? c with
      | none => rfl
      | some s => simp [hr, hs] at hplaced
    | some r =>
      cases hs : q.chunks.get? c with
      | none => simp [hr, hs] at hplaced
      | some s => exact congrArg Except.ok (ChunkRecord.sortedNames_eq_iff.mpr (h.names_eq hr hs))
  rw [compareChunks_eq, compareChunks_eq, hrequire, hrequire]

/-- Connects chunks and modules, one pair after the other. -/
def connectAll (p : Placement) (links : List (ChunkKey × ModuleId)) :
    Except GraphError Placement :=
  links.foldlM (fun q l => q.connect l.1 l.2) p

variable {links links' : List (ChunkKey × ModuleId)}

theorem keys_connect {m : ModuleId} (h : p.connect c m = .ok q) :
    c ∈ p.chunks.keys ∧ q.chunks.keys = p.chunks.keys := by
  obtain ⟨r, hr, -⟩ := update_eq_ok h
  have hc := OrderedMap.mem_keys_of_get? hr
  obtain ⟨t, ht, hkeys⟩ := connect_ok m hc
  rw [h] at ht
  cases ht
  exact ⟨hc, hkeys⟩

/-- All pairs are connected just if their chunks are placed. -/
theorem connectAll_returns :
    (∃ q, p.connectAll links = .ok q) ↔ ∀ l ∈ links, l.1 ∈ p.chunks.keys := by
  unfold connectAll
  induction links generalizing p with
  | nil => exact iff_of_true ⟨p, rfl⟩ fun _ h => absurd h List.not_mem_nil
  | cons l links ih =>
    rw [List.foldlM_cons, List.forall_mem_cons]
    constructor
    · rintro ⟨q, hq⟩
      obtain ⟨t, ht, hrest⟩ := exists_of_bind_eq_ok hq
      obtain ⟨hl, hkeys⟩ := keys_connect ht
      exact ⟨hl, hkeys ▸ ih.mp ⟨q, hrest⟩⟩
    · rintro ⟨hl, hlinks⟩
      obtain ⟨t, ht, hkeys⟩ := connect_ok l.2 hl
      obtain ⟨q, hq⟩ := ih.mpr (hkeys ▸ hlinks)
      refine ⟨q, ?_⟩
      rw [ht]
      exact hq

theorem keys_connectAll (h : p.connectAll links = .ok q) : q.chunks.keys = p.chunks.keys :=
  foldlM_keeps (P := fun t => t.chunks.keys = p.chunks.keys)
    (fun _ _ _ ht hu => (keys_connect hu).2.trans ht) rfl h

theorem holds_connectAll {k : ChunkKey} {m : ModuleId} (h : p.connectAll links = .ok q) :
    q.Holds k m ↔ p.Holds k m ∨ (k, m) ∈ links := by
  unfold connectAll at h
  induction links generalizing p with
  | nil =>
    cases h
    simp
  | cons l links ih =>
    rw [List.foldlM_cons] at h
    obtain ⟨t, ht, h⟩ := exists_of_bind_eq_ok h
    rw [ih h, holds_connect ht, List.mem_cons, or_assoc, Prod.ext_iff]

/-- Connecting the same pairs in another order gives the same modules to each chunk. -/
theorem connectAll_perm (hlinks : links.Perm links') (hq : p.connectAll links = .ok q) :
    ∃ q', p.connectAll links' = .ok q' ∧ q.SameModules q' := by
  have hplaced := connectAll_returns.mp ⟨q, hq⟩
  obtain ⟨q', hq'⟩ := connectAll_returns.mpr fun l hl => hplaced l (hlinks.mem_iff.mpr hl)
  refine ⟨q', hq', ⟨fun c => ?_, fun c m => ?_⟩⟩
  · rw [keys_connectAll hq, keys_connectAll hq']
  · rw [holds_connectAll hq, holds_connectAll hq', hlinks.mem_iff]

/-- Placed chunks are sorted stably by a comparison that is a total preorder, sees only the names in
small letters, and does not depend on the order in which modules were connected. -/
theorem sortChunks_stable (p : Placement) :
    (∀ cs : List ChunkKey, (∀ c ∈ cs, c ∈ p.chunks.keys) →
      ∃ sorted, p.sortChunks cs = .ok sorted ∧ p.StablySorted cs sorted) ∧
    p.Preordered ∧
    (∀ a b r s, p.chunks.get? a = some r → p.chunks.get? b = some s →
      (p.compareChunks a b = .ok .eq ↔ r.names = s.names)) ∧
    (∀ q, p.SameModules q → ∀ a b, p.compareChunks a b = q.compareChunks a b) ∧
    (∀ links links' q, links.Perm links' → p.connectAll links = .ok q →
      ∃ q', p.connectAll links' = .ok q' ∧ ∀ a b, q.compareChunks a b = q'.compareChunks a b) := by
  refine ⟨fun cs hcs => ?_, p.preordered, fun a b r s => compareChunks_eq_iff,
    fun q hsame => hsame.compareChunks, fun links links' q hlinks hq => ?_⟩
  · exact ⟨_, sortChunks_eq_mergeSort hcs, p.stablySorted_mergeSort cs⟩
  · obtain ⟨q', hq', hsame⟩ := connectAll_perm hlinks hq
    exact ⟨q', hq', hsame.compareChunks⟩

/-- Two of these chunks have the same names, apart from capital letters. -/
def cased : Placement where
  chunks := .ofList [
    (⟨1⟩, { modules := .ofList ["b.js", "A.js"] }),
    (⟨2⟩, { modules := .ofList ["c.js"] }),
    (⟨3⟩, { modules := .ofList ["a.js", "B.js"] })]

theorem cased_sortChunks_stable :
    cased.compareChunks ⟨3⟩ ⟨1⟩ = .ok .eq ∧
      ∃ sorted, cased.sortChunks [⟨3⟩, ⟨2⟩, ⟨1⟩] = .ok sorted ∧
        cased.StablySorted [⟨3⟩, ⟨2⟩, ⟨1⟩] sorted := by
  obtain ⟨hsorts, -, hequal, -⟩ := sortChunks_stable cased
  exact ⟨(hequal ⟨3⟩ ⟨1⟩ _ _ rfl rfl).mpr (by decide +kernel), hsorts _ (by decide)⟩

end Placement

end Bundler
