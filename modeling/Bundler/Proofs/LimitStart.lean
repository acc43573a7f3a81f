import Bundler.Proofs.Candidates
import Mathlib.Data.List.Induction
/-!
# The candidates at the start of a pass

A pass over a consistent plan starts with the stored chunks in chunk order, each with its place and
its size. Its candidates are just the pairs that may be merged, one for each, the chunk of the lower
place first.
-/
namespace Bundler

/-- A map whose results tell what they are made of keeps the order of its items. -/
theorem mapM_ok {ε α β : Type} {f : α → Except ε β} {P : β → Prop} (g : β → α) {xs : List α}
    (h : ∀ x ∈ xs, ∃ y, f x = .ok y ∧ g y = x ∧ P y) :
    ∃ ys, xs.mapM f = .ok ys ∧ ys.map g = xs ∧ ∀ y ∈ ys, P y := by
  induction xs with
  | nil => exact ⟨[], rfl, rfl, by simp⟩
  | cons x xs ih =>
    obtain ⟨y, hy, hyx, hP⟩ := h x List.mem_cons_self
    obtain ⟨ys, hys, hmap, hall⟩ := ih fun z hz => h z (List.mem_cons_of_mem _ hz)
    refine ⟨y :: ys, ?_, by rw [List.map_cons, hyx, hmap], List.forall_mem_cons.mpr ⟨hP, hall⟩⟩
    rw [List.mapM_cons, hy, hys]
    rfl

/-- Sorting placed chunks sorts them with their modules beside them. -/
theorem Placement.exists_sorted {p : Placement} {ks : List ChunkKey}
    (h : ∀ k ∈ ks, k ∈ p.chunks.keys) : ∃ xs : List (ChunkKey × List ModuleId),
      p.sortChunks ks =
        .ok ((xs.mergeSort fun x y => compareSorted x.2 y.2 != .gt).map Prod.fst) ∧
      xs.map Prod.fst = ks ∧
      ∀ x ∈ xs, ∃ r, p.chunks.get? x.1 = some r ∧ x.2 = sortedIds r := by
  have hkeyed : ∀ k ∈ ks, ∃ x : ChunkKey × List ModuleId,
      (do return (k, sortedIds (← p.require k)) : Except GraphError _) = .ok x ∧ x.1 = k ∧
        ∃ r, p.chunks.get? x.1 = some r ∧ x.2 = sortedIds r := by
    intro k hk
    obtain ⟨r, hr⟩ := OrderedMap.exists_of_mem_keys (h k hk)
    rw [require_eq_ok.mpr hr]
    exact ⟨(k, sortedIds r), rfl, rfl, r, hr, rfl⟩
  obtain ⟨xs, hmap, hfst, hall⟩ := mapM_ok Prod.fst hkeyed
  refine ⟨xs, ?_, hfst, hall⟩
  unfold sortChunks
  rw [hmap]
  rfl

theorem Placement.sortChunks_ok {p : Placement} {ks : List ChunkKey}
    (h : ∀ k ∈ ks, k ∈ p.chunks.keys) : ∃ sorted, p.sortChunks ks = .ok sorted ∧
      sorted.Perm ks := by
  obtain ⟨xs, hsort, hfst, -⟩ := exists_sorted h
  exact ⟨_, hsort, hfst ▸ (List.mergeSort_perm _ _).map Prod.fst⟩

namespace Limiting

section Pairs
variable {α : Type} {x y : α}

theorem pairs_concat (xs : List α) (b : α) : pairs (xs ++ [b]) = pairs xs ++ xs.map (·, b) := by
  unfold pairs
  rw [List.zipIdx_append, List.flatMap_append]
  congr 1
  · rw [List.flatMap_def, List.flatMap_def]
    congr 1
    apply List.map_congr_left
    intro e he
    have hlt := (List.mem_zipIdx' he).1
    show ((xs ++ [b]).take e.2).map (·, e.1) = (xs.take e.2).map (·, e.1)
    rw [List.take_append_of_le_length (Nat.le_of_lt hlt)]
  · simp

variable {xs : List α}

/-- The pairs of a list are its sublists of two members. -/
theorem mem_pairs : (x, y) ∈ pairs xs ↔ [x, y].Sublist xs := by
  induction xs using List.reverseRecOn with
  | nil => simp [pairs]
  | append_singleton xs b ih =>
    rw [pairs_concat, List.mem_append, ih, List.sublist_append_iff]
    constructor
    · intro hor
      rcases hor with h | h
      · exact ⟨[x, y], [], by simp, h, List.nil_sublist _⟩
      · obtain ⟨z, hz, heq⟩ := List.mem_map.mp h
        cases heq
        exact ⟨[_], [_], rfl, List.singleton_sublist.mpr hz, List.Sublist.refl _⟩
    · intro hex
      rcases hex with ⟨l, r, heq, hl, hr⟩
      rcases List.sublist_cons_iff.mp hr with hnil | ⟨rest, rfl, hnil⟩
      · rw [List.sublist_nil.mp hnil, List.append_nil] at heq
        exact Or.inl (heq ▸ hl)
      · rw [List.sublist_nil.mp hnil] at heq
        obtain ⟨hx, hy⟩ := List.append_inj' (show [x] ++ [y] = l ++ [b] from heq) rfl
        cases hy
        subst hx
        exact Or.inr (List.mem_map.mpr ⟨x, List.singleton_sublist.mp hl, rfl⟩)

theorem mem_of_mem_pairs (h : (x, y) ∈ pairs xs) : x ∈ xs ∧ y ∈ xs := by
  have hsub := (mem_pairs.mp h).subset
  exact ⟨hsub (by simp), hsub (by simp)⟩

theorem mem_pairs_or (hx : x ∈ xs) (hy : y ∈ xs) (hne : x ≠ y) :
    (x, y) ∈ pairs xs ∨ (y, x) ∈ pairs xs := by
  rw [mem_pairs, mem_pairs]
  obtain ⟨l, r, rfl⟩ := List.append_of_mem hx
  rcases List.mem_append.mp hy with hy | hy
  · apply Or.inr
    exact (List.singleton_sublist.mpr hy).append (List.singleton_sublist.mpr List.mem_cons_self)
  · rcases List.mem_cons.mp hy with rfl | hy
    · exact absurd rfl hne
    · apply Or.inl
      exact ((List.singleton_sublist.mpr hy).cons_cons x).trans (List.sublist_append_right l _)

/-- No two pairs of a list of different keys have the same keys, in whichever order. -/
theorem pairwise_pairs {κ : Type} {f : α → κ} (h : (xs.map f).Nodup) :
    (pairs xs).Pairwise fun u v =>
      ¬ ∀ k, (f u.1 = k ∨ f u.2 = k) ↔ (f v.1 = k ∨ f v.2 = k) := by
  induction xs using List.reverseRecOn with
  | nil => simp [pairs]
  | append_singleton xs b ih =>
    rw [List.map_append, List.map_singleton] at h
    obtain ⟨hxs, -, hb⟩ := List.nodup_append.mp h
    have hfresh : ∀ z ∈ xs, f z ≠ f b :=
      fun z hz => hb _ (List.mem_map_of_mem hz) _ List.mem_cons_self
    rw [pairs_concat, List.pairwise_append]
    refine ⟨ih hxs, ?_, ?_⟩
    · rw [List.pairwise_map]
      apply (List.pairwise_map.mp hxs).imp_of_mem
      intro x z hx hz hne hsame
      rcases (hsame (f x)).mp (Or.inl rfl) with heq | heq
      · exact hne heq.symm
      · exact hfresh x hx heq.symm
    · intro e hxy v hv hsame
      rcases e with ⟨x, y⟩
      obtain ⟨z, hz, rfl⟩ := List.mem_map.mp hv
      obtain ⟨hx, hy⟩ := mem_of_mem_pairs hxy
      rcases (hsame (f b)).mpr (Or.inr rfl) with heq | heq
      · exact hfresh x hx heq
      · exact hfresh y hy heq

end Pairs

/-- The list `xs` holds the chunks with the keys `ks`, each with its place in `ks` and its size. -/
structure Sided (p : Plan) (model : SizeModel) (ks : List ChunkKey)
    (xs : List (Chunk × CandidateSide)) : Prop where
  places : xs.map (fun x => (x.2.chunk, x.2.index)) = ks.zipIdx
  chunk : ∀ x ∈ xs, p.chunks.get? x.2.chunk = some x.1
  size : ∀ x ∈ xs, p.sizeOf model x.2.chunk = .ok x.2.size

variable {p : Plan} {model : SizeModel} {ks : List ChunkKey} {xs : List (Chunk × CandidateSide)}

theorem sides_ok (h : p.Consistent) (model : SizeModel) : ∃ ks xs,
    p.placement.sortChunks p.chunks.keys = .ok ks ∧ ks.Perm p.chunks.keys ∧
      sides model p = .ok xs ∧ Sided p model ks xs := by
  obtain ⟨ks, hks, hperm⟩ := Placement.sortChunks_ok fun k hk => (h.record k).mpr hk
  have hside : ∀ e ∈ ks.zipIdx, ∃ x : Chunk × CandidateSide, (do
      let c ← p.chunks.require e.1
      return (c, ⟨e.1, e.2, ← p.placement.chunkSize p.modules p.groups model c⟩) :
        Except GraphError _) = .ok x ∧ (x.2.chunk, x.2.index) = e ∧
        p.chunks.get? x.2.chunk = some x.1 ∧ p.sizeOf model x.2.chunk = .ok x.2.size := by
    intro u he
    rcases u with ⟨k, i⟩
    have hk : k ∈ p.chunks.keys := hperm.mem_iff.mp (List.fst_mem_of_mem_zipIdx he)
    obtain ⟨c, hc⟩ := OrderedMap.exists_of_mem_keys hk
    obtain ⟨n, hn⟩ := h.sizeOf_ok model hc
    refine ⟨(c, ⟨k, i, n⟩), ?_, rfl, hc, hn⟩
    rw [Plan.sizeOf_eq hc] at hn
    rw [Chunks.require_eq_ok.mpr hc]
    show (p.placement.chunkSize p.modules p.groups model c >>= _) = _
    rw [hn]
    rfl
  obtain ⟨xs, hxs, hplaces, hall⟩ :=
    mapM_ok (fun x : Chunk × CandidateSide => (x.2.chunk, x.2.index)) hside
  refine ⟨ks, xs, hks, hperm, ?_, hplaces, fun x hx => (hall x hx).1, fun x hx => (hall x hx).2⟩
  unfold sides
  rw [hks]
  exact hxs

namespace Sided

theorem chunks (hx : Sided p model ks xs) : xs.map (·.2.chunk) = ks := by
  have heq := congrArg (List.map Prod.fst) hx.places
  rw [List.map_map, List.zipIdx_map_fst] at heq
  exact heq

theorem place (hx : Sided p model ks xs) {x : Chunk × CandidateSide} (hin : x ∈ xs) :
    ks[x.2.index]? = some x.2.chunk := by
  have hmem : (x.2.chunk, x.2.index) ∈ ks.zipIdx := hx.places ▸ List.mem_map_of_mem hin
  exact List.mem_zipIdx_iff_getElem?.mp hmem

theorem pairwise_index (hx : Sided p model ks xs) :
    xs.Pairwise fun x y => x.2.index < y.2.index := by
  have heq := congrArg (List.map Prod.snd) hx.places
  rw [List.map_map, List.zipIdx_map_snd] at heq
  have hlt : (List.range' 0 ks.length).Pairwise (· < ·) := List.pairwise_lt_range'
  rw [← heq] at hlt
  exact List.pairwise_map.mp hlt

theorem ne_of_mem_pairs (hx : Sided p model ks xs) (hks : ks.Nodup)
    {x y : Chunk × CandidateSide} (hxy : (x, y) ∈ pairs xs) : x.2.chunk ≠ y.2.chunk := by
  rw [← hx.chunks] at hks
  exact (List.pairwise_map.mp hks).forall_sublist (mem_pairs.mp hxy)

end Sided

theorem mem_enlist {byChunk : OrderedMap ChunkKey (OrderedSet Nat)} {c k : ChunkKey} {n i : Nat} :
    i ∈ ((enlist byChunk c n).get? k).getD ∅ ↔
      i ∈ (byChunk.get? k).getD ∅ ∨ k = c ∧ i = n := by
  unfold enlist
  rw [OrderedMap.get?_insert]
  by_cases hk : k = c
  · simp [hk]
  · simp [hk]

/-- The candidates of the state are the pairs of `done` that may be merged, each once, and each is
listed under its two chunks. -/
structure Filled (p : Plan) (model : SizeModel)
    (done : List ((Chunk × CandidateSide) × Chunk × CandidateSide)) (s : Limiting) : Prop where
  from_pair : ∀ {n c}, s.candidates.get? n = some c → ∃ x y, (x, y) ∈ done ∧
    p.placement.canMerge p.groups x.1 y.1 = .ok true ∧
    p.placement.mergedSize p.modules p.groups model x.1 y.1 = .ok c.mergedSize ∧
    c = .ofSides x.2 y.2 c.mergedSize
  of_pair : ∀ {x y}, (x, y) ∈ done → p.placement.canMerge p.groups x.1 y.1 = .ok true →
    ∃ n c, s.candidates.get? n = some c ∧ c.a = x.2 ∧ c.b = y.2
  unique : ∀ {n m c d}, s.candidates.get? n = some c → s.candidates.get? m = some d →
    (∀ k, c.Touches k ↔ d.Touches k) → n = m
  listed : ∀ k n, s.Listed k n ↔ ∃ c, s.candidates.get? n = some c ∧ c.Touches k

variable {done todo : List ((Chunk × CandidateSide) × Chunk × CandidateSide)} {s : Limiting}

theorem consider_eq {x y : Chunk × CandidateSide} {may : Bool} {size : Nat}
    (hmay : s.plan.placement.canMerge s.plan.groups x.1 y.1 = .ok may)
    (hsize : s.plan.placement.mergedSize s.plan.modules s.plan.groups model x.1 y.1 = .ok size) :
    consider model s (x, y) = .ok (if may then { s with
      candidates := s.candidates.push (.ofSides x.2 y.2 size)
      byChunk := enlist (enlist s.byChunk x.2.chunk s.candidates.size) y.2.chunk
        s.candidates.size } else s) := by
  unfold consider
  simp only [hmay, hsize]
  cases may <;> rfl

theorem Filled.skip (h : Filled p model done s) {x y : Chunk × CandidateSide}
    (hmay : p.placement.canMerge p.groups x.1 y.1 = .ok false) :
    Filled p model (done ++ [(x, y)]) s where
  from_pair := by
    intro n c hc
    obtain ⟨u, v, huv, hrest⟩ := h.from_pair hc
    exact ⟨u, v, List.mem_append_left _ huv, hrest⟩
  of_pair := by
    intro u v huv hmay'
    rcases List.mem_append.mp huv with huv | huv
    · exact h.of_pair huv hmay'
    · cases List.mem_singleton.mp huv
      rw [hmay] at hmay'
      cases hmay'
  unique := h.unique
  listed := h.listed

theorem Filled.push (h : Filled p model done s) {x y : Chunk × CandidateSide} {size : Nat}
    (hmay : p.placement.canMerge p.groups x.1 y.1 = .ok true)
    (hsize : p.placement.mergedSize p.modules p.groups model x.1 y.1 = .ok size)
    (hnew : ∀ u ∈ done, ¬ ∀ k, (u.1.2.chunk = k ∨ u.2.2.chunk = k) ↔
      (x.2.chunk = k ∨ y.2.chunk = k)) :
    Filled p model (done ++ [(x, y)]) { s with
      candidates := s.candidates.push (.ofSides x.2 y.2 size)
      byChunk := enlist (enlist s.byChunk x.2.chunk s.candidates.size) y.2.chunk
        s.candidates.size } := by
  have hlast := Candidates.get?_push_size s.candidates (.ofSides x.2 y.2 size)
  -- An earlier candidate stems from an earlier pair, and that joins other chunks.
  have hdiffer : ∀ {n c}, s.candidates.get? n = some c →
      ¬ ∀ k, c.Touches k ↔ (Candidate.ofSides x.2 y.2 size).Touches k := by
    intro n c hc hsame
    obtain ⟨u, v, huv, -, -, heq⟩ := h.from_pair hc
    rw [heq] at hsame
    exact hnew _ huv hsame
  refine { from_pair := ?_, of_pair := ?_, unique := ?_, listed := ?_ }
  · intro n c hc
    rcases Candidates.get?_push_cases hc with ⟨-, rfl⟩ | hc
    · exact ⟨x, y, List.mem_append_right _ List.mem_cons_self, hmay, hsize, rfl⟩
    · obtain ⟨u, v, huv, hrest⟩ := h.from_pair hc
      exact ⟨u, v, List.mem_append_left _ huv, hrest⟩
  · intro u v huv hmay'
    rcases List.mem_append.mp huv with huv | huv
    · obtain ⟨n, c, hc, hrest⟩ := h.of_pair huv hmay'
      exact ⟨n, c, Candidates.get?_push_of_get? hc, hrest⟩
    · cases List.mem_singleton.mp huv
      exact ⟨_, _, hlast, rfl, rfl⟩
  · intro n m c d hc hd hsame
    rcases Candidates.get?_push_cases hc with ⟨hn, rfl⟩ | hc
    · rcases Candidates.get?_push_cases hd with ⟨hm, -⟩ | hd
      · rw [hn, hm]
      · exact absurd (fun k => (hsame k).symm) (hdiffer hd)
    · rcases Candidates.get?_push_cases hd with ⟨-, rfl⟩ | hd
      · exact absurd hsame (hdiffer hc)
      · exact h.unique hc hd hsame
  · intro k n
    unfold Listed
    rw [mem_enlist, mem_enlist]
    constructor
    · intro hor
      rcases hor with (hin | ⟨rfl, rfl⟩) | ⟨rfl, rfl⟩
      · obtain ⟨c, hc, htouch⟩ := (h.listed k n).mp hin
        exact ⟨c, Candidates.get?_push_of_get? hc, htouch⟩
      · exact ⟨_, hlast, Or.inl rfl⟩
      · exact ⟨_, hlast, Or.inr rfl⟩
    · intro hex
      rcases hex with ⟨c, hc, htouch⟩
      rcases Candidates.get?_push_cases hc with ⟨rfl, rfl⟩ | hc
      · rcases htouch with htouch | htouch
        · exact Or.inl (Or.inr ⟨htouch.symm, rfl⟩)
        · exact Or.inr ⟨htouch.symm, rfl⟩
      · exact Or.inl (Or.inl ((h.listed k n).mpr ⟨c, hc, htouch⟩))

theorem Filled.consider (h : Filled p model done s) (hplan : s.plan = p)
    {x y : Chunk × CandidateSide} {may : Bool} {size : Nat}
    (hmay : p.placement.canMerge p.groups x.1 y.1 = .ok may)
    (hsize : p.placement.mergedSize p.modules p.groups model x.1 y.1 = .ok size)
    (hnew : ∀ u ∈ done, ¬ ∀ k, (u.1.2.chunk = k ∨ u.2.2.chunk = k) ↔
      (x.2.chunk = k ∨ y.2.chunk = k)) :
    ∃ t, Limiting.consider model s (x, y) = .ok t ∧ Filled p model (done ++ [(x, y)]) t ∧
      t = { s with candidates := t.candidates, byChunk := t.byChunk } := by
  subst hplan
  refine ⟨_, consider_eq hmay hsize, ?_⟩
  cases may with
  | false => exact ⟨h.skip hmay, rfl⟩
  | true => exact ⟨h.push hmay hsize hnew, rfl⟩

theorem Filled.foldlM (h : Filled p model done s) (hplan : s.plan = p)
    (hask : ∀ u ∈ todo, ∃ may size, p.placement.canMerge p.groups u.1.1 u.2.1 = .ok may ∧
      p.placement.mergedSize p.modules p.groups model u.1.1 u.2.1 = .ok size)
    (hdiffer : (done ++ todo).Pairwise fun u v => ¬ ∀ k,
      (u.1.2.chunk = k ∨ u.2.2.chunk = k) ↔ (v.1.2.chunk = k ∨ v.2.2.chunk = k)) :
    ∃ t, todo.foldlM (Limiting.consider model) s = .ok t ∧ Filled p model (done ++ todo) t ∧
      t = { s with candidates := t.candidates, byChunk := t.byChunk } := by
  induction todo generalizing done s with
  | nil => exact ⟨s, rfl, by rwa [List.append_nil], rfl⟩
  | cons u todo ih =>
    obtain ⟨x, y⟩ := u
    obtain ⟨may, size, hmay, hsize⟩ := hask _ List.mem_cons_self
    have hnew := fun v hv =>
      (List.pairwise_append.mp hdiffer).2.2 v hv (x, y) List.mem_cons_self
    obtain ⟨t, ht, hfilled, hframe⟩ := h.consider hplan hmay hsize hnew
    rw [List.append_cons] at hdiffer
    obtain ⟨u, hu, hdone, hrest⟩ := ih hfilled (by rw [hframe]; exact hplan)
      (fun v hv => hask v (List.mem_cons_of_mem _ hv)) hdiffer
    refine ⟨u, ?_, by rw [List.append_cons]; exact hdone, ?_⟩
    · rw [List.foldlM_cons, ht]
      exact hu
    · rw [hrest, hframe]

/-- The state `s` starts a pass over the plan `p`, whose chunks have the order `ks`. -/
structure Started (p : Plan) (model : SizeModel) (budget : Nat) (ks : List ChunkKey)
    (s : Limiting) : Prop where
  plan : s.plan = p
  budget : s.budget = budget
  modified : s.modified = ∅
  changed : s.changed = false
  queue : s.queue = .ofList (List.range s.candidates.size)
  fresh : ∀ {n c}, s.candidates.get? n = some c → c.gone = false
  rated : ∀ {n c}, s.candidates.get? n = some c → p.Rates model c
  mergeable : ∀ {n c}, s.candidates.get? n = some c →
    p.canMergeKeys c.a.chunk c.b.chunk = .ok true
  placed : ∀ {n c}, s.candidates.get? n = some c → c.a.index < c.b.index ∧
    ks[c.a.index]? = some c.a.chunk ∧ ks[c.b.index]? = some c.b.chunk
  complete : ∀ {k l}, k ∈ p.chunks.keys → l ∈ p.chunks.keys → k ≠ l →
    p.canMergeKeys k l = .ok true → ∃ n c, s.candidates.get? n = some c ∧ c.Touches k ∧ c.Touches l
  unique : ∀ {n m c d}, s.candidates.get? n = some c → s.candidates.get? m = some d →
    (∀ k, c.Touches k ↔ d.Touches k) → n = m
  listed : ∀ k n, s.Listed k n ↔ ∃ c, s.candidates.get? n = some c ∧ c.Touches k

namespace Filled

theorem origin (h : Filled p model (pairs xs) s) {n : Nat} {c : Candidate}
    (hc : s.candidates.get? n = some c) : ∃ x y, (x, y) ∈ pairs xs ∧ x ∈ xs ∧ y ∈ xs ∧
      p.placement.canMerge p.groups x.1 y.1 = .ok true ∧
      p.placement.mergedSize p.modules p.groups model x.1 y.1 = .ok c.mergedSize ∧
      c = .ofSides x.2 y.2 c.mergedSize := by
  obtain ⟨x, y, hxy, hrest⟩ := h.from_pair hc
  exact ⟨x, y, hxy, (mem_of_mem_pairs hxy).1, (mem_of_mem_pairs hxy).2, hrest⟩

theorem rated (h : Filled p model (pairs xs) s) (hx : Sided p model ks xs) (hks : ks.Nodup)
    {n : Nat} {c : Candidate} (hc : s.candidates.get? n = some c) : p.Rates model c := by
  obtain ⟨x, y, hxy, hinx, hiny, -, hsize, heq⟩ := h.origin hc
  rw [heq]
  exact {
    ne := hx.ne_of_mem_pairs hks hxy
    sizeA := hx.size x hinx
    sizeB := hx.size y hiny
    merged := (Plan.mergedSizeOf_eq (hx.chunk x hinx) (hx.chunk y hiny)).trans hsize
    saving := rfl }

theorem mergeable (h : Filled p model (pairs xs) s) (hx : Sided p model ks xs) {n : Nat}
    {c : Candidate} (hc : s.candidates.get? n = some c) :
    p.canMergeKeys c.a.chunk c.b.chunk = .ok true := by
  obtain ⟨x, y, -, hinx, hiny, hmay, -, heq⟩ := h.origin hc
  rw [heq]
  exact (Plan.canMergeKeys_eq (hx.chunk x hinx) (hx.chunk y hiny)).trans hmay

theorem placed (h : Filled p model (pairs xs) s) (hx : Sided p model ks xs) {n : Nat}
    {c : Candidate} (hc : s.candidates.get? n = some c) : c.a.index < c.b.index ∧
      ks[c.a.index]? = some c.a.chunk ∧ ks[c.b.index]? = some c.b.chunk := by
  obtain ⟨x, y, hxy, hinx, hiny, -, -, heq⟩ := h.origin hc
  rw [heq]
  exact ⟨hx.pairwise_index.forall_sublist (mem_pairs.mp hxy), hx.place hinx, hx.place hiny⟩

/-- Two chunks that may be merged have a candidate, whichever of them stands first. -/
theorem complete (h : Filled p model (pairs xs) s) (hx : Sided p model ks xs) (hp : p.Consistent)
    {k l : ChunkKey} (hk : k ∈ ks) (hl : l ∈ ks) (hne : k ≠ l)
    (hmay : p.canMergeKeys k l = .ok true) :
    ∃ n c, s.candidates.get? n = some c ∧ c.Touches k ∧ c.Touches l := by
  rw [← hx.chunks] at hk hl
  obtain ⟨x, hinx, rfl⟩ := List.mem_map.mp hk
  obtain ⟨y, hiny, rfl⟩ := List.mem_map.mp hl
  have hcx := hx.chunk x hinx
  have hcy := hx.chunk y hiny
  obtain ⟨may, hmay', hmay''⟩ := hp.canMergeKeys_ok hcx hcy
  rw [hmay] at hmay'
  cases hmay'
  rcases mem_pairs_or hinx hiny fun heq => hne (heq ▸ rfl) with hxy | hyx
  · obtain ⟨n, c, hc, ha, hb⟩ := h.of_pair hxy ((Plan.canMergeKeys_eq hcx hcy).symm.trans hmay)
    exact ⟨n, c, hc, Or.inl (ha ▸ rfl), Or.inr (hb ▸ rfl)⟩
  · obtain ⟨n, c, hc, ha, hb⟩ := h.of_pair hyx ((Plan.canMergeKeys_eq hcy hcx).symm.trans hmay'')
    exact ⟨n, c, hc, Or.inr (hb ▸ rfl), Or.inl (ha ▸ rfl)⟩

end Filled

theorem start_ok (h : p.Consistent) (model : SizeModel) (budget : Nat) : ∃ ks s,
    p.placement.sortChunks p.chunks.keys = .ok ks ∧ ks.Perm p.chunks.keys ∧
      start model budget p = .ok s ∧ Started p model budget ks s := by
  obtain ⟨ks, xs, hks, hperm, hxs, hsided⟩ := sides_ok h model
  have hnodup : ks.Nodup := hperm.nodup_iff.mpr p.chunks.nodup_keys
  have hask : ∀ u ∈ pairs xs, ∃ may size, p.placement.canMerge p.groups u.1.1 u.2.1 = .ok may ∧
      p.placement.mergedSize p.modules p.groups model u.1.1 u.2.1 = .ok size := by
    intro e hxy
    rcases e with ⟨x, y⟩
    obtain ⟨hx, hy⟩ := mem_of_mem_pairs hxy
    obtain ⟨may, hmay, -⟩ := h.canMergeKeys_ok (hsided.chunk x hx) (hsided.chunk y hy)
    obtain ⟨size, hsize⟩ := h.mergedSizeOf_ok model (hsided.chunk x hx) (hsided.chunk y hy)
    rw [Plan.canMergeKeys_eq (hsided.chunk x hx) (hsided.chunk y hy)] at hmay
    rw [Plan.mergedSizeOf_eq (hsided.chunk x hx) (hsided.chunk y hy)] at hsize
    exact ⟨may, size, hmay, hsize⟩
  have hempty : Filled p model [] { plan := p, budget } := by
    constructor <;> simp [Candidates.get?, Listed]
  have hchunks : (xs.map fun x => x.2.chunk).Nodup := by
    rw [hsided.chunks]
    exact hnodup
  obtain ⟨t, ht, hfilled, hframe⟩ := hempty.foldlM rfl hask (pairwise_pairs hchunks)
  have hstart : start model budget p =
      .ok { t with queue := .ofList (List.range t.candidates.size) } := by
    unfold start
    rw [hxs]
    show ((pairs xs).foldlM (Limiting.consider model) { plan := p, budget } >>= _) = _
    rw [ht]
    rfl
  refine ⟨ks, _, hks, hperm, hstart, ?_⟩
  exact {
    plan := by rw [hframe]
    budget := by rw [hframe]
    modified := by rw [hframe]
    changed := by rw [hframe]
    queue := rfl
    fresh := by
      intro n c hc
      obtain ⟨x, y, -, -, -, -, -, heq⟩ := hfilled.origin hc
      rw [heq]
      rfl
    rated := fun hc => hfilled.rated hsided hnodup hc
    mergeable := fun hc => hfilled.mergeable hsided hc
    placed := fun hc => hfilled.placed hsided hc
    complete := fun hk hl => hfilled.complete hsided h (hperm.mem_iff.mpr hk) (hperm.mem_iff.mpr hl)
    unique := hfilled.unique
    listed := hfilled.listed }

theorem Started.inv {budget : Nat} (hs : Started p model budget ks s) (h : p.Consistent)
    (hbudget : 1 ≤ budget) : Inv model s where
  plan := hs.plan ▸ h
  budget := hs.budget ▸ hbudget
  queued := by
    have hlive : ∀ n, s.IsLive n ↔ n ∈ List.range s.candidates.size := by
      intro n
      rw [List.mem_range]
      constructor
      · intro hex
        rcases hex with ⟨c, hc, -⟩
        exact Candidates.lt_size hc
      · intro hn
        obtain ⟨c, hc⟩ := Candidates.exists_of_lt hn
        exact ⟨c, hc, hs.fresh hc⟩
    unfold Queued
    rw [hs.queue]
    exact (BucketQueue.holds_ofList List.nodup_range _).congr hlive
  rated hc _ := hs.plan ▸ hs.rated hc
  unique hc hd _ _ hsame := hs.unique hc hd hsame
  listed := by
    intro n c hc _ k
    rw [hs.listed]
    constructor
    · intro hex
      rcases hex with ⟨d, hd, htouch⟩
      rw [hc] at hd
      cases hd
      exact htouch
    · exact fun htouch => ⟨c, hc, htouch⟩
  numbered := by
    intro k n hin
    obtain ⟨c, hc, -⟩ := (hs.listed k n).mp hin
    exact Candidates.lt_size hc

end Limiting

end Bundler
