import Bundler.Proofs.LimitRun
import Mathlib.Algebra.Group.Nat.Defs
/-!
# In which order a pass merges

At every head of a round the structures that a pass keeps agree with each other, and the candidate
that is taken next is the best ranked one of those that are left, by sizes found anew on the plan at
hand and by places in the chunk order of the start.
-/
namespace Bundler

namespace Limiting

/-- The queue, the candidates, the lists of candidates by chunk and the stored chunks agree. -/
structure Coherent (s : Limiting) : Prop where
  items : ∀ n, n ∈ s.queue.items ↔ ∃ c, s.candidates.get? n = some c ∧ c.gone = false
  once : s.queue.items.Nodup
  stored : ∀ {n c}, s.candidates.get? n = some c → c.gone = false → c.a.chunk ≠ c.b.chunk ∧
    c.a.chunk ∈ s.plan.chunks.keys ∧ c.b.chunk ∈ s.plan.chunks.keys
  unique : ∀ {n m c d}, s.candidates.get? n = some c → s.candidates.get? m = some d →
    c.gone = false → d.gone = false →
    c.a.chunk = d.a.chunk ∧ c.b.chunk = d.b.chunk ∨ c.a.chunk = d.b.chunk ∧ c.b.chunk = d.a.chunk →
    n = m
  listed : ∀ {n c}, s.candidates.get? n = some c → c.gone = false →
    s.Listed c.a.chunk n ∧ s.Listed c.b.chunk n
  numbered : ∀ {k n}, s.Listed k n → ∃ c, s.candidates.get? n = some c
  budget : 1 ≤ s.budget

variable {model : SizeModel} {s s₀ : Limiting} {n m : Nat} {c d c₀ d₀ : Candidate}

theorem Inv.coherent (h : Inv model s) : s.Coherent where
  items _ := BucketQueue.Holds.mem_items h.queued
  once := BucketQueue.Holds.nodup_items h.queued
  stored hc hlive := by
    have hrated := h.rated hc hlive
    exact ⟨hrated.ne, hrated.stored (Or.inl rfl), hrated.stored (Or.inr rfl)⟩
  unique := by
    intro n m c d hc hd hlive hlive' hsame
    apply h.unique hc hd hlive hlive'
    intro k
    unfold Candidate.Touches
    rcases hsame with ⟨ha, hb⟩ | ⟨ha, hb⟩
    · rw [ha, hb]
    · rw [ha, hb]
      exact or_comm
  listed hc hlive := ⟨(h.listed hc hlive _).mpr (Or.inl rfl), (h.listed hc hlive _).mpr (Or.inr rfl)⟩
  numbered hin := Candidates.exists_of_lt (h.numbered hin)
  budget := h.budget

/-- By what a candidate is ranked: the larger saving first, then the smaller merged chunk, then the
pair that stood closer together in chunk order at the start, then the one that stood first, then the
earlier candidate. The candidate `c₀` is what the candidate `c` with the number `n` was then. -/
def rank (c₀ c : Candidate) (n : Nat) : List Int :=
  [-c.saving, Size.signed c.mergedSize, c₀.b.index - c₀.a.index, c₀.b.index, n]

/-- Places that are cut off at the ends of their range do not change the order. -/
theorem rank_lt_of_before {bound : Nat} (hbound : bound ≤ 2 ^ 32) {cs : Candidates}
    (hc : cs.get? n = some c) (hd : cs.get? m = some d)
    (hca : c.a.index = c₀.a.index) (hcb : c.b.index = c₀.b.index) (hda : d.a.index = d₀.a.index)
    (hdb : d.b.index = d₀.b.index) (hc₀ : c₀.a.index < c₀.b.index ∧ c₀.b.index < bound)
    (hd₀ : d₀.a.index < d₀.b.index ∧ d₀.b.index < bound)
    (h : (BucketQueue.entryOf 2 cs.keys n).Before (BucketQueue.entryOf 2 cs.keys m)) :
    rank c₀ c n < rank d₀ d m := by
  have hsigned : ∀ i : Nat, i < bound → Size.signed i = i := by
    intro i hi
    have hlargest : Size.largestSigned = 9223372036854775807 := rfl
    unfold Size.signed
    omega
  have hpath : ∀ {i : Nat} {e : Candidate}, cs.get? i = some e →
      (BucketQueue.entryOf 2 cs.keys i).path = e.path := by
    intro i e he
    show Buckets.keysIn 3 ((cs.get? i).elim [0, 0, 0] Candidate.path) = e.path
    rw [he]
    rfl
  have hleaf : ∀ {i : Nat} {e : Candidate}, cs.get? i = some e →
      (BucketQueue.entryOf 2 cs.keys i).leaf = e.leaf := by
    intro i e he
    show (cs.get? i).elim 0 Candidate.leaf = e.leaf
    rw [he]
    rfl
  unfold Buckets.Entry.Before at h
  rw [hpath hc, hpath hd, Buckets.leafBefore_iff, hleaf hc, hleaf hd] at h
  have hitem : compare (BucketQueue.entryOf 2 cs.keys n).item
      (BucketQueue.entryOf 2 cs.keys m).item = .lt ↔ n < m := Nat.compare_eq_lt
  rw [hitem, Candidate.path, Candidate.path, Candidate.leaf, Candidate.leaf, hca, hcb, hda, hdb,
    hsigned _ hc₀.2, hsigned _ hd₀.2, hsigned (c₀.b.index - c₀.a.index) (by omega),
    hsigned (d₀.b.index - d₀.a.index) (by omega)] at h
  have hnil : ¬ ([] : List Int) < [] := List.not_lt_nil []
  simp only [List.cons_lt_cons_iff, List.cons.injEq, and_true, hnil, and_false, or_false] at h
  simp only [rank, List.cons_lt_cons_iff, hnil, and_false, or_false]
  omega

/-- The candidates at the start of a pass over the plan `p`: the pairs of its chunks that may be
merged, each pair once, with the places of both chunks in the chunk order `ks`. -/
structure Candidacy (p : Plan) (ks : List ChunkKey) (s₀ : Limiting) : Prop where
  live : ∀ {n c₀}, s₀.candidates.get? n = some c₀ → c₀.gone = false
  mergeable : ∀ {n c₀}, s₀.candidates.get? n = some c₀ →
    p.canMergeKeys c₀.a.chunk c₀.b.chunk = .ok true
  placed : ∀ {n c₀}, s₀.candidates.get? n = some c₀ → c₀.a.index < c₀.b.index ∧
    ks[c₀.a.index]? = some c₀.a.chunk ∧ ks[c₀.b.index]? = some c₀.b.chunk
  complete : ∀ {k i}, k ∈ p.chunks.keys → i ∈ p.chunks.keys → k ≠ i →
    p.canMergeKeys k i = .ok true →
      ∃ n c₀, s₀.candidates.get? n = some c₀ ∧ c₀.Touches k ∧ c₀.Touches i
  once : ∀ {n m c₀ d₀}, s₀.candidates.get? n = some c₀ → s₀.candidates.get? m = some d₀ →
    (∀ k, c₀.Touches k ↔ d₀.Touches k) → n = m

theorem Started.candidacy {p : Plan} {budget : Nat} {ks : List ChunkKey}
    (h : Started p model budget ks s₀) : Candidacy p ks s₀ where
  live := h.fresh
  mergeable := h.mergeable
  placed := h.placed
  complete := h.complete
  once := h.unique

/-- The live candidates of `s` are rated as its plan rates them, and the one that is taken next is
the best ranked of them. -/
structure BestFirst (model : SizeModel) (s₀ s : Limiting) : Prop where
  rated : ∀ {n c}, s.candidates.get? n = some c → c.gone = false → s.plan.Rates model c
  taken : ∀ {n queue}, s.queue.popFirst s.candidates.keys = (some n, queue) →
    ∃ c c₀, s.candidates.get? n = some c ∧ c.gone = false ∧ s₀.candidates.get? n = some c₀ ∧
      ∀ m d, s.candidates.get? m = some d → d.gone = false → m ≠ n →
        ∃ d₀, s₀.candidates.get? m = some d₀ ∧ rank c₀ c n < rank d₀ d m
  exhausted : ∀ {queue}, s.queue.popFirst s.candidates.keys = (none, queue) →
    ∀ n c, s.candidates.get? n = some c → c.gone = true

theorem Inv.bestFirst (h : Inv model s) (hstems : Stems s₀ s) {bound : Nat} (hbound : bound ≤ 2 ^ 32)
    (hplaced : ∀ {n c₀}, s₀.candidates.get? n = some c₀ →
      c₀.a.index < c₀.b.index ∧ c₀.b.index < bound) : BestFirst model s₀ s where
  rated := h.rated
  taken := by
    intro n queue hpop
    obtain ⟨⟨c, hc, hlive⟩, hbefore, -⟩ := BucketQueue.Holds.popFirst_some h.queued hpop
    obtain ⟨c₀, hc₀, hca, hcb⟩ := hstems hc
    refine ⟨c, c₀, hc, hlive, hc₀, fun m d hd hdlive hne => ?_⟩
    obtain ⟨d₀, hd₀, hda, hdb⟩ := hstems hd
    exact ⟨d₀, hd₀, rank_lt_of_before hbound hc hd hca hcb hda hdb (hplaced hc₀) (hplaced hd₀)
      (hbefore m ⟨d, hd, hdlive⟩ hne)⟩
  exhausted := by
    intro queue hpop n c hc
    have hnone := BucketQueue.Holds.popFirst_none h.queued hpop n
    cases hgone : c.gone with
    | true => rfl
    | false => exact absurd ⟨c, hc, hgone⟩ hnone

end Limiting

namespace Plan
variable {p : Plan}

theorem Consistent.chunkCount_le (h : p.Consistent) : p.chunkCount ≤ p.supply.next := by
  have hnodup : (p.chunks.keys.map ChunkKey.number).Nodup := by
    refine List.pairwise_map.mpr (p.chunks.nodup_keys.imp fun hne heq => hne ?_)
    exact congrArg ChunkKey.mk heq
  have hsub : p.chunks.keys.map ChunkKey.number ⊆ List.range p.supply.next := by
    intro i hi
    obtain ⟨k, hk, rfl⟩ := List.mem_map.mp hi
    exact List.mem_range.mpr (h.chunkFree k hk)
  have hlen := hnodup.length_le_of_subset hsub
  rw [List.length_map, List.length_range, OrderedMap.length_keys] at hlen
  exact hlen

/-- At the head of every round of a pass all that the pass keeps agrees, no round fails, and neither
does the pass. -/
theorem Reached.pass_coherent (hp : p.Reached) (l : ChunkLimit) :
    (∃ q changed, l.pass p = (q, .ok changed)) ∧
      (l.maxChunks < p.chunkCount → ∃ s₀,
        Limiting.start l.model (p.chunkCount - l.maxChunks) p = .ok s₀ ∧
        ∀ s, Limiting.Head l.model s₀ s → s.Coherent ∧
          ∀ n queue t r, s.queue.popFirst s.candidates.keys = (some n, queue) →
            Limiting.round l.model { s with queue } n = .stop t r → r = .ok ()) := by
  have h := hp.consistent
  constructor
  · obtain ⟨q, changed, hpass, -⟩ := l.pass_ok h
    exact ⟨q, changed, hpass⟩
  · intro hcount
    obtain ⟨ks, s₀, -, -, hstart, hstarted⟩ :=
      Limiting.start_ok h l.model (p.chunkCount - l.maxChunks)
    have hinv₀ := hstarted.inv h (by omega)
    refine ⟨s₀, hstart, fun s hs => ?_⟩
    obtain ⟨hinv, -⟩ := hs.inv hinv₀
    refine ⟨hinv.coherent, fun n queue t r hpop hround => ?_⟩
    obtain ⟨c, u, -, -, -, hstop | ⟨hnext, -⟩⟩ := Limiting.round_ok hinv hpop
    · rw [hround] at hstop
      cases hstop
      rfl
    · rw [hround] at hnext
      cases hnext

theorem threeChunks_pass_coherent : threeChunks.Reached ∧ 1 < threeChunks.chunkCount ∧
    ∃ s₀, Limiting.start {} (threeChunks.chunkCount - 1) threeChunks = .ok s₀ ∧
      ∀ s, Limiting.Head {} s₀ s → s.Coherent := by
  obtain ⟨-, hstart⟩ := Reached.pass_coherent reached_threeChunks ⟨1, {}, by decide⟩
  obtain ⟨s₀, hs₀, hheads⟩ := hstart (by decide)
  exact ⟨reached_threeChunks, by decide, s₀, hs₀, fun s hs => (hheads s hs).1⟩

/-- A pass starts with all pairs of chunks that may be merged and takes candidates as the plain
greedy rule would, which finds all sizes anew. -/
theorem Reached.pass_bestFirst (hp : p.Reached) (hkeys : p.supply.next ≤ 2 ^ 32) (l : ChunkLimit)
    (hcount : l.maxChunks < p.chunkCount) :
    ∃ ks s₀, p.placement.sortChunks p.chunks.keys = .ok ks ∧
      Limiting.start l.model (p.chunkCount - l.maxChunks) p = .ok s₀ ∧
      Limiting.Candidacy p ks s₀ ∧
      ∀ s, Limiting.Head l.model s₀ s → Limiting.BestFirst l.model s₀ s := by
  have h := hp.consistent
  obtain ⟨ks, s₀, hks, hperm, hstart, hstarted⟩ :=
    Limiting.start_ok h l.model (p.chunkCount - l.maxChunks)
  refine ⟨ks, s₀, hks, hstart, hstarted.candidacy, fun s hs => ?_⟩
  obtain ⟨hinv, hstems⟩ := hs.inv (hstarted.inv h (by omega))
  have hbound : p.chunkCount ≤ 2 ^ 32 := Nat.le_trans h.chunkCount_le hkeys
  apply hinv.bestFirst hstems hbound
  intro n c₀ hc₀
  obtain ⟨hlt, -, hb⟩ := hstarted.placed hc₀
  have hlen : ks.length = p.chunkCount := hperm.length_eq.trans p.chunks.length_keys
  exact ⟨hlt, hlen ▸ (List.getElem?_eq_some_iff.mp hb).choose⟩

theorem threeChunks_pass_bestFirst : threeChunks.Reached ∧ threeChunks.supply.next ≤ 2 ^ 32 ∧
    1 < threeChunks.chunkCount ∧ ∃ ks s₀,
      Limiting.start {} (threeChunks.chunkCount - 1) threeChunks = .ok s₀ ∧
      Limiting.Candidacy threeChunks ks s₀ ∧
      ∀ s, Limiting.Head {} s₀ s → Limiting.BestFirst {} s₀ s := by
  obtain ⟨ks, s₀, -, hs₀, hpairs, hheads⟩ := Reached.pass_bestFirst reached_threeChunks (by decide)
    ⟨1, {}, by decide⟩ (by decide)
  exact ⟨reached_threeChunks, by decide, by decide, ks, s₀, hs₀, hpairs, hheads⟩

end Plan

end Bundler
