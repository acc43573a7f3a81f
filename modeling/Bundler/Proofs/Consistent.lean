import Bundler.Proofs.Joined
/-!
# Consistent plans

In a consistent plan the stored chunks are those with a record, a chunk names just the groups that
list it, parents and children mirror each other, and every entrypoint has a stored initial group.
Two chunks of a consistent plan can always be merged, and the plan stays consistent.
-/
namespace Bundler
open ChunkGroup (redirect renamed mem_redirect)

/-- The chunks of a group differ, there is one, and one that carries the runtime is among them and
holds the entry module. -/
structure ChunkGroup.Sound (g : ChunkGroup) : Prop where
  nodup : g.chunks.Nodup
  nonempty : g.chunks ≠ []
  listed : ∀ k, g.runtimeChunk = some k → k ∈ g.chunks
  roles : g.entryChunk = g.runtimeChunk
  started : g.isInitial = true → g.runtimeChunk.isSome = true

theorem ChunkGroup.Sound.redirect {g : ChunkGroup} (h : g.Sound) (f : ChunkKey → ChunkKey) :
    (g.redirect f).Sound where
  nodup := nodup_eraseDups _
  nonempty := by
    obtain ⟨k, ks, hk⟩ := List.exists_cons_of_ne_nil h.nonempty
    have hin : f k ∈ (g.redirect f).chunks := mem_redirect.mpr ⟨k, hk ▸ List.mem_cons_self, rfl⟩
    exact List.ne_nil_of_mem hin
  listed := by
    intro k hk
    obtain ⟨j, hj, rfl⟩ := Option.map_eq_some_iff.mp hk
    exact mem_redirect.mpr ⟨j, h.listed j hj, rfl⟩
  roles := congrArg (Option.map f) h.roles
  started hg := (Option.isSome_map ..).trans (h.started hg)

theorem ChunkGroup.Sound.tidy {g : ChunkGroup} (h : g.Sound) : g.Tidy where
  nodup := h.nodup
  runtime := h.listed
  entry k hk := h.listed k (h.roles ▸ hk)

/-- The stored chunks name just the stored groups that list them. -/
def Chunks.Linked (cs : Chunks) (gs : Groups) : Prop := ∀ k g,
  (∃ c, cs.get? k = some c ∧ g ∈ c.groups) ↔ ∃ G, gs.get? g = some G ∧ k ∈ G.chunks

namespace Chunks.Linked
variable {cs : Chunks} {gs : Groups} {k : ChunkKey} {C : Chunk} {g : GroupKey} {G : ChunkGroup}

theorem stored (h : cs.Linked gs) (hC : cs.get? k = some C) (hg : g ∈ C.groups) :
    g ∈ gs.keys := by
  obtain ⟨G, hG, -⟩ := (h k g).mp ⟨C, hC, hg⟩
  exact OrderedMap.mem_keys_of_get? hG

theorem mem_groups_iff (h : cs.Linked gs) (hC : cs.get? k = some C) (hG : gs.get? g = some G) :
    g ∈ C.groups ↔ k ∈ G.chunks := by
  constructor
  · intro hg
    obtain ⟨G', hG', hk⟩ := (h k g).mp ⟨C, hC, hg⟩
    rw [hG] at hG'
    cases hG'
    exact hk
  · intro hk
    obtain ⟨C', hC', hg⟩ := (h k g).mpr ⟨G, hG, hk⟩
    rw [hC] at hC'
    cases hC'
    exact hg

theorem iff_entries : cs.Linked gs ↔
    (∀ e ∈ cs.toList, ∀ g ∈ e.2.groups.toList, ∃ G ∈ gs.get? g, e.1 ∈ G.chunks) ∧
      ∀ e ∈ gs.toList, ∀ k ∈ e.2.chunks, ∃ c ∈ cs.get? k, e.1 ∈ c.groups := by
  constructor
  · intro h
    refine ⟨fun e he g hg => ?_, fun e he k hk => ?_⟩
    · exact (h e.1 g).mp ⟨e.2, OrderedMap.get?_of_mem he, hg⟩
    · exact (h k e.1).mpr ⟨e.2, OrderedMap.get?_of_mem he, hk⟩
  · intro h k g
    obtain ⟨hchunks, hgroups⟩ := h
    constructor
    · intro hex
      rcases hex with ⟨c, hc, hg⟩
      exact hchunks (k, c) (OrderedMap.mem_of_get? hc) g hg
    · intro hex
      rcases hex with ⟨G, hG, hk⟩
      exact hgroups (g, G) (OrderedMap.mem_of_get? hG) k hk

instance (cs : Chunks) (gs : Groups) : Decidable (cs.Linked gs) :=
  decidable_of_iff _ iff_entries.symm

end Chunks.Linked

namespace Plan

def Names (p : Plan) (k : ChunkKey) (g : GroupKey) : Prop :=
  ∃ c, p.chunks.get? k = some c ∧ g ∈ c.groups

def Lists (p : Plan) (g : GroupKey) (k : ChunkKey) : Prop :=
  ∃ G, p.groups.get? g = some G ∧ k ∈ G.chunks

def Child (p : Plan) (g h : GroupKey) : Prop := ∃ G, p.groups.get? g = some G ∧ h ∈ G.children

def Parent (p : Plan) (h g : GroupKey) : Prop := ∃ H, p.groups.get? h = some H ∧ g ∈ H.parents

/-- The two sides of every link of a plan agree, and unused numbers are free. -/
structure Consistent (p : Plan) : Prop where
  key : ∀ {k c}, p.chunks.get? k = some c → c.key = k
  groupKey : ∀ {g G}, p.groups.get? g = some G → G.key = g
  record : ∀ k, k ∈ p.placement.chunks.keys ↔ k ∈ p.chunks.keys
  link : ∀ k g, p.Names k g ↔ p.Lists g k
  sound : ∀ {g G}, p.groups.get? g = some G → G.Sound
  mirror : ∀ g h, p.Child g h ↔ p.Parent h g
  entry : ∀ {name g}, p.entrypoints.get? name = some g →
    ∃ G, p.groups.get? g = some G ∧ G.isInitial = true
  chunkFree : ∀ k ∈ p.chunks.keys, k.number < p.supply.next
  groupFree : ∀ g ∈ p.groups.keys, g.number < p.supply.next

variable {p q : Plan} {A B : Chunk} {r s : ChunkRecord}

theorem consistent_empty (modules : ModuleGraph) (supply : KeySupply) :
    Consistent { modules, supply } := by
  constructor <;> simp [Names, Lists, Child, Parent]

theorem Consistent.linked (h : p.Consistent) : p.chunks.Linked p.groups := h.link

theorem Consistent.groups_stored (h : p.Consistent) {k : ChunkKey} {c : Chunk} {g : GroupKey}
    (hc : p.chunks.get? k = some c) (hg : g ∈ c.groups) : g ∈ p.groups.keys :=
  h.linked.stored hc hg

theorem Consistent.record_of_chunk (h : p.Consistent) {k : ChunkKey} {c : Chunk}
    (hc : p.chunks.get? k = some c) : ∃ r, p.placement.chunks.get? k = some r :=
  OrderedMap.exists_of_mem_keys ((h.record k).mpr (OrderedMap.mem_keys_of_get? hc))

theorem Consistent.merge_ok (h : p.Consistent) {a b : ChunkKey} (hne : a ≠ b)
    (hA : p.chunks.get? a = some A) (hB : p.chunks.get? b = some B) :
    ∃ q r s, p.merge a b = (q, .ok ()) ∧ p.Joined q A B r s := by
  obtain ⟨r, hr⟩ := h.record_of_chunk hA
  obtain ⟨s, hs⟩ := h.record_of_chunk hB
  obtain rfl := h.key hA
  obtain rfl := h.key hB
  obtain ⟨q, hq, hj⟩ := Plan.merge_ok hne hA hB hr hs fun g hg => h.groups_stored hB hg
  exact ⟨q, r, s, hq, hj⟩

namespace Joined

theorem group_redirect (j : p.Joined q A B r s) (h : p.Consistent) (g : GroupKey) :
    q.groups.get? g = (p.groups.get? g).map (redirect (renamed B.key A.key)) := by
  rw [j.group]
  cases hG : p.groups.get? g with
  | none => rfl
  | some G =>
    have hlisted : g ∈ B.groups ↔ B.key ∈ G.chunks :=
      h.linked.mem_groups_iff j.source hG
    exact congrArg some ((h.sound hG).tidy.ite_replace hlisted)

theorem get?_group (j : p.Joined q A B r s) (h : p.Consistent) {g : GroupKey} {G : ChunkGroup} :
    q.groups.get? g = some G ↔
      ∃ G₀, p.groups.get? g = some G₀ ∧ G₀.redirect (renamed B.key A.key) = G := by
  rw [j.group_redirect h, Option.map_eq_some_iff]

theorem chunk_target (j : p.Joined q A B r s) :
    q.chunks.get? A.key = some (A.absorb B r s) := by
  rw [j.chunk, if_neg j.ne, if_pos rfl]

theorem chunk_other (j : p.Joined q A B r s) {k : ChunkKey} (ha : k ≠ A.key) (hb : k ≠ B.key) :
    q.chunks.get? k = p.chunks.get? k := by
  rw [j.chunk, if_neg hb, if_neg ha]

theorem mem_keys (j : p.Joined q A B r s) {k : ChunkKey} :
    k ∈ q.chunks.keys ↔ k ∈ p.chunks.keys ∧ k ≠ B.key := by
  rw [j.chunkKeys]
  simp

theorem chunkCount (j : p.Joined q A B r s) : q.chunkCount + 1 = p.chunkCount := by
  have hmem := OrderedMap.mem_keys_of_get? j.source
  have hlen : q.chunks.keys.length + 1 = p.chunks.keys.length := by
    have herase : p.chunks.keys.erase B.key = p.chunks.keys.filter (· ≠ B.key) := by
      rw [p.chunks.nodup_keys.erase_eq_filter]
      simp only [ne_eq, decide_not]
      rfl
    have hpos := List.length_pos_of_mem hmem
    rw [j.chunkKeys, ← herase, List.length_erase_of_mem hmem]
    omega
  simpa [Plan.chunkCount] using hlen

/-- The survivor names the groups of both, the other chunks what they named. -/
theorem names_iff (j : p.Joined q A B r s) {k : ChunkKey} {g : GroupKey} :
    q.Names k g ↔ ∃ i, p.Names i g ∧ renamed B.key A.key i = k :=
  OrderedMap.exists_absorbed j.ne j.target j.source j.chunk OrderedSet.mem_insertAll

theorem lists_iff (j : p.Joined q A B r s) (h : p.Consistent) {g : GroupKey} {k : ChunkKey} :
    q.Lists g k ↔ ∃ i, p.Lists g i ∧ renamed B.key A.key i = k := by
  constructor
  · intro hex
    rcases hex with ⟨G, hG, hk⟩
    obtain ⟨G₀, hG₀, rfl⟩ := (j.get?_group h).mp hG
    obtain ⟨i, hi, hik⟩ := mem_redirect.mp hk
    exact ⟨i, ⟨G₀, hG₀, hi⟩, hik⟩
  · intro hex
    rcases hex with ⟨i, ⟨G₀, hG₀, hi⟩, hik⟩
    exact ⟨_, (j.get?_group h).mpr ⟨G₀, hG₀, rfl⟩, mem_redirect.mpr ⟨i, hi, hik⟩⟩

theorem child_iff (j : p.Joined q A B r s) (h : p.Consistent) {g c : GroupKey} :
    q.Child g c ↔ p.Child g c := by
  constructor
  · intro hex
    rcases hex with ⟨G, hG, hc⟩
    obtain ⟨G₀, hG₀, rfl⟩ := (j.get?_group h).mp hG
    exact ⟨G₀, hG₀, hc⟩
  · intro hex
    rcases hex with ⟨G₀, hG₀, hc⟩
    exact ⟨_, (j.get?_group h).mpr ⟨G₀, hG₀, rfl⟩, hc⟩

theorem parent_iff (j : p.Joined q A B r s) (h : p.Consistent) {g c : GroupKey} :
    q.Parent c g ↔ p.Parent c g := by
  constructor
  · intro hex
    rcases hex with ⟨G, hG, hc⟩
    obtain ⟨G₀, hG₀, rfl⟩ := (j.get?_group h).mp hG
    exact ⟨G₀, hG₀, hc⟩
  · intro hex
    rcases hex with ⟨G₀, hG₀, hc⟩
    exact ⟨_, (j.get?_group h).mpr ⟨G₀, hG₀, rfl⟩, hc⟩

theorem consistent (j : p.Joined q A B r s) (h : p.Consistent) : q.Consistent where
  key := by
    intro k c hc
    by_cases hb : k = B.key
    · rw [j.chunk, if_pos hb] at hc
      cases hc
    · by_cases ha : k = A.key
      · rw [ha, j.chunk_target] at hc
        cases hc
        exact ha.symm
      · rw [j.chunk_other ha hb] at hc
        exact h.key hc
  groupKey := by
    intro g G hG
    obtain ⟨G₀, hG₀, rfl⟩ := (j.get?_group h).mp hG
    exact (h.groupKey hG₀ :)
  record k := by
    rw [j.recordKeys, j.chunkKeys, List.mem_filter, List.mem_filter, h.record]
  link k g := by
    rw [j.names_iff, j.lists_iff h]
    simp only [h.link]
  sound := by
    intro g G hG
    obtain ⟨G₀, hG₀, rfl⟩ := (j.get?_group h).mp hG
    exact (h.sound hG₀).redirect _
  mirror g c := by rw [j.child_iff h, j.parent_iff h, h.mirror]
  entry := by
    intro name g hg
    rw [j.entrypoints] at hg
    obtain ⟨G, hG, hinitial⟩ := h.entry hg
    exact ⟨_, (j.get?_group h).mpr ⟨G, hG, rfl⟩, hinitial⟩
  chunkFree k hk := by
    rw [j.supply]
    exact h.chunkFree k (j.mem_keys.mp hk).1
  groupFree g hg := by
    rw [j.supply]
    exact h.groupFree g (j.groupKeys ▸ hg)

end Joined

end Plan

end Bundler
