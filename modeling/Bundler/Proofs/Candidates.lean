import Bundler.Proofs.BucketQueue
import Bundler.Proofs.Sizes
/-!
# The candidates of a pass

A candidate is live until it is taken or dropped. At the head of every round of a pass the queue
holds just the live candidates, which are rated as the plan at hand rates them, join different
pairs, and are listed under both of their chunks. What the pass does to candidates between two heads
is changes of single ones, the queue following each of them.
-/
namespace Bundler

def Candidate.Touches (c : Candidate) (k : ChunkKey) : Prop := c.a.chunk = k ∨ c.b.chunk = k

/-- The candidate joins two different stored chunks and carries their sizes, the size that they
merge to and the saving, all as the plan has them. -/
structure Plan.Rates (p : Plan) (model : SizeModel) (c : Candidate) : Prop where
  ne : c.a.chunk ≠ c.b.chunk
  sizeA : p.sizeOf model c.a.chunk = .ok c.a.size
  sizeB : p.sizeOf model c.b.chunk = .ok c.b.size
  merged : p.mergedSizeOf model c.a.chunk c.b.chunk = .ok c.mergedSize
  saving : c.saving = sizeDiff c.a.size c.b.size c.mergedSize

namespace Plan.Rates
variable {p : Plan} {model : SizeModel} {c : Candidate}

theorem stored (h : p.Rates model c) {k : ChunkKey} (hk : c.Touches k) : k ∈ p.chunks.keys := by
  rcases hk with rfl | rfl
  · obtain ⟨C, hC⟩ := stored_of_sizeOf h.sizeA
    exact OrderedMap.mem_keys_of_get? hC
  · obtain ⟨C, hC⟩ := stored_of_sizeOf h.sizeB
    exact OrderedMap.mem_keys_of_get? hC

end Plan.Rates

namespace Candidates

theorem lt_size {cs : Candidates} {n : Nat} {c : Candidate} (h : cs.get? n = some c) :
    n < cs.size := (Array.getElem?_eq_some_iff.mp h).choose

theorem exists_of_lt {cs : Candidates} {n : Nat} (h : n < cs.size) : ∃ c, cs.get? n = some c :=
  ⟨cs.toArray[n], Array.getElem?_eq_getElem h⟩

theorem get?_push_size (cs : Candidates) (c : Candidate) :
    (cs.push c).get? cs.size = some c := by
  rw [get?_push, if_pos rfl]

theorem get?_push_of_get? {cs : Candidates} {n : Nat} {c d : Candidate}
    (h : cs.get? n = some d) : (cs.push c).get? n = some d := by
  rw [get?_push, if_neg (Nat.ne_of_lt (lt_size h)), h]

theorem get?_push_cases {cs : Candidates} {n : Nat} {c d : Candidate}
    (h : (cs.push c).get? n = some d) : n = cs.size ∧ d = c ∨ cs.get? n = some d := by
  rw [get?_push] at h
  split at h
  · rename_i hn
    exact Or.inl ⟨hn, (Option.some.inj h).symm⟩
  · exact Or.inr h

theorem get?_modify_cases {cs : Candidates} {n i : Nat} {f : Candidate → Candidate} {d : Candidate}
    (h : (cs.modify n f).get? i = some d) :
    ∃ c, cs.get? i = some c ∧ (i = n ∧ d = f c ∨ i ≠ n ∧ d = c) := by
  rw [get?_modify] at h
  by_cases hi : i = n
  · rw [if_pos hi] at h
    obtain ⟨c, hc, heq⟩ := Option.map_eq_some_iff.mp h
    exact ⟨c, hc, Or.inl ⟨hi, heq.symm⟩⟩
  · rw [if_neg hi] at h
    exact ⟨d, h, Or.inr ⟨hi, rfl⟩⟩

theorem place_modify_of_ne {cs : Candidates} {n i : Nat} (f : Candidate → Candidate) (h : i ≠ n) :
    (cs.modify n f).keys.place i = cs.keys.place i := by
  simp only [SortKeys.place, keys, get?_modify, if_neg h]

end Candidates

namespace Limiting

def IsLive (s : Limiting) (n : Nat) : Prop := ∃ c, s.candidates.get? n = some c ∧ c.gone = false

def Queued (s : Limiting) : Prop := s.queue.Holds s.candidates.keys s.IsLive

def Listed (s : Limiting) (k : ChunkKey) (n : Nat) : Prop := n ∈ (s.byChunk.get? k).getD ∅

/-- What holds at the head of every round. -/
structure Inv (model : SizeModel) (s : Limiting) : Prop where
  plan : s.plan.Consistent
  budget : 1 ≤ s.budget
  queued : s.Queued
  rated : ∀ {n c}, s.candidates.get? n = some c → c.gone = false → s.plan.Rates model c
  unique : ∀ {n m c d}, s.candidates.get? n = some c → s.candidates.get? m = some d →
    c.gone = false → d.gone = false → (∀ k, c.Touches k ↔ d.Touches k) → n = m
  listed : ∀ {n c}, s.candidates.get? n = some c → c.gone = false →
    ∀ k, s.Listed k n ↔ c.Touches k
  numbered : ∀ {k n}, s.Listed k n → n < s.candidates.size

/-- The state `t` is the state `s` with some candidates changed in a given way. -/
structure Changed (R : Candidate → Candidate → Prop) (ns : List Nat) (s t : Limiting) : Prop where
  plan : t.plan = s.plan
  byChunk : t.byChunk = s.byChunk
  modified : t.modified = s.modified
  budget : t.budget = s.budget
  changed : t.changed = s.changed
  size : t.candidates.size = s.candidates.size
  queued : t.Queued
  cases : ∀ {i d}, t.candidates.get? i = some d → ∃ c, s.candidates.get? i = some c ∧
    (i ∈ ns ∧ R c d ∨ i ∉ ns ∧ d = c)

def Gone (c d : Candidate) : Prop := d = { c with gone := true }

variable {R : Candidate → Candidate → Prop} {ns : List Nat} {s t u : Limiting} {n : Nat}

theorem Changed.nil (h : s.Queued) : Changed R [] s s where
  plan := rfl
  byChunk := rfl
  modified := rfl
  budget := rfl
  changed := rfl
  size := rfl
  queued := h
  cases hd := ⟨_, hd, Or.inr ⟨List.not_mem_nil, rfl⟩⟩

/-- Nothing has to happen where what there is already counts as changed. -/
theorem Changed.same (h : s.Queued) (hR : ∀ c, s.candidates.get? n = some c → R c c) :
    Changed R [n] s s := by
  refine { Changed.nil (R := R) h with cases := ?_ }
  intro i d hd
  refine ⟨d, hd, ?_⟩
  by_cases hi : i = n
  · subst hi
    exact Or.inl ⟨List.mem_cons_self, hR d hd⟩
  · exact Or.inr ⟨fun hin => hi (List.mem_singleton.mp hin), rfl⟩

theorem Changed.cons (h : Changed R [n] s t) (h' : Changed R ns t u) (hn : n ∉ ns) :
    Changed R (n :: ns) s u where
  plan := h'.plan.trans h.plan
  byChunk := h'.byChunk.trans h.byChunk
  modified := h'.modified.trans h.modified
  budget := h'.budget.trans h.budget
  changed := h'.changed.trans h.changed
  size := h'.size.trans h.size
  queued := h'.queued
  cases := by
    intro i e he
    obtain ⟨d, hd, hde⟩ := h'.cases he
    obtain ⟨c, hc, hcd⟩ := h.cases hd
    refine ⟨c, hc, ?_⟩
    rw [List.mem_singleton] at hcd
    rcases hcd with ⟨rfl, hR⟩ | ⟨hin, rfl⟩
    · rcases hde with ⟨hmem, -⟩ | ⟨-, rfl⟩
      · exact absurd hmem hn
      · exact Or.inl ⟨List.mem_cons_self, hR⟩
    · rcases hde with ⟨hmem, hR⟩ | ⟨hmem, rfl⟩
      · exact Or.inl ⟨List.mem_cons_of_mem _ hmem, hR⟩
      · exact Or.inr ⟨fun h => (List.mem_cons.mp h).elim hin hmem, rfl⟩

theorem isLive_markGone {i : Nat} : (s.markGone n).IsLive i ↔ s.IsLive i ∧ i ≠ n := by
  unfold IsLive markGone
  simp only [Candidates.get?_modify]
  by_cases hi : i = n
  · simp [hi]
  · simp [hi]

theorem markGone_cases {i : Nat} {d : Candidate} (h : (s.markGone n).candidates.get? i = some d) :
    ∃ c, s.candidates.get? i = some c ∧ (i ∈ [n] ∧ Gone c d ∨ i ∉ [n] ∧ d = c) := by
  obtain ⟨c, hc, hcd⟩ := Candidates.get?_modify_cases h
  rw [List.mem_singleton]
  exact ⟨c, hc, hcd⟩

/-- A queue that has lost just the candidate that is marked holds the live ones. -/
theorem queued_markGone (h : s.queue.Holds s.candidates.keys fun i => t.IsLive i ∧ i ≠ n)
    (hc : s.candidates = t.candidates) : (s.markGone n).Queued := by
  have hlive : ∀ i, (s.markGone n).IsLive i ↔ t.IsLive i ∧ i ≠ n := by
    intro i
    rw [isLive_markGone]
    unfold IsLive
    rw [hc]
  refine BucketQueue.Holds.congr ?_ hlive
  exact h.congr_keys fun i hi _ => Candidates.place_modify_of_ne _ hi.2

theorem changed_drop (h : s.Queued) (n : Nat) : Changed Gone [n] s (s.drop n) := by
  unfold drop
  split
  · rename_i hnone
    apply Changed.same h
    intro c hc
    rw [hnone] at hc
    cases hc
  · rename_i c hc
    split
    · rename_i hgone
      apply Changed.same h
      intro d hd
      rw [hc] at hd
      cases hd
      rw [Gone, ← hgone]
    · rename_i hlive
      obtain ⟨-, hdelete⟩ := BucketQueue.Holds.delete h ⟨c, hc, Bool.not_eq_true _ ▸ hlive⟩
      exact {
        plan := rfl, byChunk := rfl, modified := rfl, budget := rfl, changed := rfl
        size := Candidates.size_modify ..
        queued := queued_markGone (t := s) hdelete rfl
        cases := fun hd => markGone_cases (s := { s with queue := _ }) hd }

theorem changed_foldl_drop (h : s.Queued) (hns : ns.Nodup) :
    Changed Gone ns s (ns.foldl drop s) := by
  induction ns generalizing s with
  | nil => exact Changed.nil h
  | cons n ns ih =>
    obtain ⟨hn, hns⟩ := List.nodup_cons.mp hns
    have hdrop := changed_drop h n
    exact hdrop.cons (ih hdrop.queued hns) hn

theorem changed_dropAll (h : s.Queued) (k : ChunkKey) :
    Changed Gone ((s.byChunk.get? k).getD ∅).toList { s with byChunk := s.byChunk.erase k }
      (s.dropAll k) :=
  changed_foldl_drop (s := { s with byChunk := s.byChunk.erase k }) h (OrderedSet.nodup _)

end Limiting

end Bundler
