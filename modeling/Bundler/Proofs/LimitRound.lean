import Bundler.Proofs.LimitStart
/-!
# One round of a pass

A round settles the candidate that was taken out of the queue. After a merge the other candidates of
the survivor are dropped and those of the absorbed chunk handed over, which restores the invariant
for the plan at hand: the sizes that are written down are those that would be found anew.
-/
namespace Bundler
open ChunkGroup (renamed)

theorem sizeDiff_comm (a b merged : Nat) : sizeDiff a b merged = sizeDiff b a merged := by
  rw [sizeDiff, sizeDiff, Int.add_comm]

def Candidate.other (c : Candidate) (b : ChunkKey) : ChunkKey :=
  if c.a.chunk = b then c.b.chunk else c.a.chunk

namespace Plan.Rates
variable {p q : Plan} {A B : Chunk} {r s : ChunkRecord} {model : SizeModel} {c : Candidate}

/-- A merge does not change how a candidate of other chunks is rated. -/
theorem joined (hc : p.Rates model c) (h : p.Consistent) (j : p.Joined q A B r s)
    (ha : ¬ c.Touches A.key) (hb : ¬ c.Touches B.key) : q.Rates model c where
  ne := hc.ne
  sizeA := by
    rw [j.sizeOf_other h model (fun heq => ha (Or.inl heq)) fun heq => hb (Or.inl heq)]
    exact hc.sizeA
  sizeB := by
    rw [j.sizeOf_other h model (fun heq => ha (Or.inr heq)) fun heq => hb (Or.inr heq)]
    exact hc.sizeB
  merged := by
    rw [j.mergedSizeOf_other h model (fun heq => ha (Or.inl heq)) (fun heq => hb (Or.inl heq))
      (fun heq => ha (Or.inr heq)) fun heq => hb (Or.inr heq)]
    exact hc.merged
  saving := hc.saving

/-- The size that was foretold for the pair is the right one for the survivor, so that a candidate
of the absorbed chunk is rightly rated as one of the survivor. -/
theorem retarget (hc : p.Rates model c) (h : p.Consistent) (j : p.Joined q A B r s) {size : Nat}
    (hsize : p.mergedSizeOf model A.key B.key = .ok size) (ha : ¬ c.Touches A.key) {merged : Nat}
    (hmerged : (if c.a.chunk = B.key then q.mergedSizeOf model A.key c.b.chunk
      else q.mergedSizeOf model c.a.chunk A.key) = .ok merged) :
    q.Rates model (Limiting.Candidate.retarget c (c.a.chunk = B.key) A.key size merged) := by
  have hsurvivor : q.sizeOf model A.key = .ok size := (j.sizeOf_target h model).trans hsize
  unfold Limiting.Candidate.retarget
  by_cases hwas : c.a.chunk = B.key
  · rw [if_pos hwas] at hmerged
    rw [if_pos (decide_eq_true hwas)]
    have hother : q.sizeOf model c.b.chunk = .ok c.b.size := by
      rw [j.sizeOf_other h model (fun heq => ha (Or.inr heq)) fun heq => hc.ne (hwas.trans heq.symm)]
      exact hc.sizeB
    exact {
      ne := fun heq => ha (Or.inr heq.symm)
      sizeA := hsurvivor
      sizeB := hother
      merged := hmerged
      saving := sizeDiff_comm .. }
  · rw [if_neg hwas] at hmerged
    rw [if_neg (by simpa using hwas)]
    have hother : q.sizeOf model c.a.chunk = .ok c.a.size := by
      rw [j.sizeOf_other h model (fun heq => ha (Or.inl heq)) hwas]
      exact hc.sizeA
    exact {
      ne := fun heq => ha (Or.inl heq)
      sizeA := hother
      sizeB := hsurvivor
      merged := hmerged
      saving := rfl }

end Plan.Rates

namespace Limiting
variable {model : SizeModel} {s t : Limiting} {a b : ChunkKey} {size n : Nat} {ns : List Nat}

/-- What becomes of a candidate of the absorbed chunk `b` in the plan `q`: one that is gone stays
so, any other goes or is rated anew as one of the survivor `a`, whose size is `size`. -/
def Handed (q : Plan) (model : SizeModel) (a b : ChunkKey) (size : Nat) (c d : Candidate) : Prop :=
  c.gone = true ∧ d = c ∨ c.gone = false ∧ (Gone c d ∨ ∃ merged,
    (if c.a.chunk = b then q.mergedSizeOf model a c.b.chunk
      else q.mergedSizeOf model c.a.chunk a) = .ok merged ∧
    d = Candidate.retarget c (c.a.chunk = b) a size merged)

theorem changed_retarget (h : s.Queued) {c : Candidate} (hc : s.candidates.get? n = some c)
    {wasFirst : Bool} {merged : Nat} :
    Changed (fun c d => d = Candidate.retarget c wasFirst a size merged) [n] s { s with
      candidates := s.candidates.modify n (Candidate.retarget · wasFirst a size merged)
      queue := s.queue.finishUpdate (s.queue.startUpdate s.candidates.keys n) } where
  plan := rfl
  byChunk := rfl
  modified := rfl
  budget := rfl
  changed := rfl
  size := Candidates.size_modify ..
  queued := by
    have hplace : ∀ i, s.IsLive i → i ≠ n →
        (s.candidates.modify n (Candidate.retarget · wasFirst a size merged)).keys.place i =
          s.candidates.keys.place i :=
      fun i _ hi => Candidates.place_modify_of_ne _ hi
    have hupdate := BucketQueue.Holds.update h fun i hi hne _ => hplace i hi hne
    apply BucketQueue.Holds.congr hupdate
    intro i
    unfold IsLive
    simp only [Candidates.get?_modify]
    by_cases hi : i = n
    · subst hi
      simp only [if_pos, hc, Option.map_some, Option.some.injEq, exists_eq_left']
      unfold Candidate.retarget
      split <;> rfl
    · rw [if_neg hi]
  cases := by
    intro i d hd
    obtain ⟨c', hc', hcd⟩ := Candidates.get?_modify_cases hd
    rw [List.mem_singleton]
    exact ⟨c', hc', hcd⟩

theorem Changed.imp {R R' : Candidate → Candidate → Prop} (h : Changed R ns s t)
    (hR : ∀ {i c d}, i ∈ ns → s.candidates.get? i = some c → R c d → R' c d) :
    Changed R' ns s t :=
  { h with
    cases := by
      intro i d hd
      obtain ⟨c, hc, hcd⟩ := h.cases hd
      exact ⟨c, hc, hcd.imp_left fun hin => ⟨hin.1, hR hin.1 hc hin.2⟩⟩ }

theorem handOver_eq {c : Candidate} {A O : Chunk} {may : Bool} {merged : Nat}
    (hc : s.candidates.get? n = some c) (hlive : c.gone = false)
    (hA : s.plan.chunks.get? a = some A) (hO : s.plan.chunks.get? (c.other b) = some O)
    (hmay : s.plan.placement.canMerge s.plan.groups A O = .ok may)
    (hmay' : s.plan.placement.canMerge s.plan.groups O A = .ok may)
    (hmerged : (if c.a.chunk = b then s.plan.mergedSizeOf model a c.b.chunk
      else s.plan.mergedSizeOf model c.a.chunk a) = .ok merged) :
    handOver model a b size s n = .ok (if may then { s with
      candidates := s.candidates.modify n (Candidate.retarget · (c.a.chunk = b) a size merged)
      queue := s.queue.finishUpdate (s.queue.startUpdate s.candidates.keys n) } else s.drop n) := by
  have hrequire := Chunks.require_eq_ok.mpr hA
  unfold Candidate.other at hO
  by_cases hwas : c.a.chunk = b
  · rw [if_pos hwas] at hO hmerged
    rw [Plan.mergedSizeOf_eq hA hO] at hmerged
    simp only [handOver, hc, hlive, hwas, hrequire, Chunks.require_eq_ok.mpr hO, hmay, hmerged,
      bind, Except.bind, pure, Except.pure, Bool.false_eq_true, ↓reduceIte]
    cases may with
    | false => rfl
    | true => rfl
  · rw [if_neg hwas] at hO hmerged
    rw [Plan.mergedSizeOf_eq hO hA] at hmerged
    simp only [handOver, hc, hlive, hwas, hrequire, Chunks.require_eq_ok.mpr hO, hmay', hmerged,
      bind, Except.bind, pure, Except.pure, Bool.false_eq_true, ↓reduceIte]
    cases may with
    | false => rfl
    | true => rfl

theorem changed_handOver (model : SizeModel) (size : Nat) (h : s.Queued)
    (hplan : s.plan.Consistent) (ha : a ∈ s.plan.chunks.keys)
    (hother : ∀ c, s.candidates.get? n = some c → c.gone = false →
      c.other b ∈ s.plan.chunks.keys) :
    ∃ t, handOver model a b size s n = .ok t ∧
      Changed (Handed s.plan model a b size) [n] s t := by
  cases hc : s.candidates.get? n with
  | none =>
    refine ⟨s, by simp only [handOver, hc], Changed.same h fun c hc' => ?_⟩
    rw [hc] at hc'
    cases hc'
  | some c =>
    cases hgone : c.gone with
    | true =>
      refine ⟨s, by simp only [handOver, hc, hgone, if_true], Changed.same h fun d hd => ?_⟩
      rw [hc] at hd
      cases hd
      exact Or.inl ⟨hgone, rfl⟩
    | false =>
      obtain ⟨A, hA⟩ := OrderedMap.exists_of_mem_keys ha
      obtain ⟨O, hO⟩ := OrderedMap.exists_of_mem_keys (hother c hc hgone)
      obtain ⟨may, hmay, hmay'⟩ := hplan.canMergeKeys_ok hA hO
      rw [Plan.canMergeKeys_eq hA hO] at hmay
      rw [Plan.canMergeKeys_eq hO hA] at hmay'
      have hsize : ∃ merged, (if c.a.chunk = b then s.plan.mergedSizeOf model a c.b.chunk
          else s.plan.mergedSizeOf model c.a.chunk a) = .ok merged := by
        unfold Candidate.other at hO
        split
        · rename_i hwas
          rw [if_pos hwas] at hO
          exact hplan.mergedSizeOf_ok model hA hO
        · rename_i hwas
          rw [if_neg hwas] at hO
          exact hplan.mergedSizeOf_ok model hO hA
      obtain ⟨merged, hmerged⟩ := hsize
      -- Of the candidates concerned there is but `c`.
      have honly : ∀ {i d}, i ∈ [n] → s.candidates.get? i = some d → d = c := by
        intro i d hin hd
        rw [List.mem_singleton.mp hin, hc] at hd
        cases hd
        rfl
      refine ⟨_, handOver_eq hc hgone hA hO hmay hmay' hmerged, ?_⟩
      cases may with
      | false =>
        refine (changed_drop h n).imp fun hin hi hR => Or.inr ⟨?_, Or.inl hR⟩
        rw [honly hin hi]
        exact hgone
      | true =>
        refine (changed_retarget h hc).imp fun hin hi hR => Or.inr ?_
        rw [honly hin hi] at hR ⊢
        exact ⟨hgone, Or.inr ⟨merged, hmerged, hR⟩⟩

theorem changed_foldlM_handOver (model : SizeModel) (size : Nat) (h : s.Queued)
    (hplan : s.plan.Consistent) (ha : a ∈ s.plan.chunks.keys) (hns : ns.Nodup)
    (hother : ∀ n ∈ ns, ∀ c, s.candidates.get? n = some c → c.gone = false →
      c.other b ∈ s.plan.chunks.keys) :
    ∃ t, ns.foldlM (handOver model a b size) s = .ok t ∧
      Changed (Handed s.plan model a b size) ns s t := by
  induction ns generalizing s with
  | nil => exact ⟨s, rfl, Changed.nil h⟩
  | cons n ns ih =>
    obtain ⟨hn, hns⟩ := List.nodup_cons.mp hns
    obtain ⟨t, ht, hst⟩ := changed_handOver model size h hplan ha
      (hother n List.mem_cons_self)
    -- The candidates that are still to come have not been touched yet.
    have hlater : ∀ m ∈ ns, ∀ c, t.candidates.get? m = some c → c.gone = false →
        c.other b ∈ t.plan.chunks.keys := by
      intro m hm d hd hlive
      obtain ⟨c, hc, hcd⟩ := hst.cases hd
      rcases hcd with ⟨hin, -⟩ | ⟨-, rfl⟩
      · exact absurd (List.mem_singleton.mp hin ▸ hm) hn
      · rw [hst.plan]
        exact hother m (List.mem_cons_of_mem _ hm) d hc hlive
    obtain ⟨u, hu, htu⟩ := ih hst.queued (hst.plan ▸ hplan) (hst.plan ▸ ha) hns hlater
    rw [hst.plan] at htu
    refine ⟨u, ?_, hst.cons htu hn⟩
    rw [List.foldlM_cons, ht]
    exact hu

/-- The candidate `d` joins what the candidate `c` joined, with `a` in the place of `b`. -/
structure Moved (a b : ChunkKey) (c d : Candidate) : Prop where
  not_target : ¬ c.Touches a
  moved : d.Touches a ↔ c.Touches b
  not_source : ¬ d.Touches b
  kept : ∀ k, k ≠ a → k ≠ b → (d.Touches k ↔ c.Touches k)

theorem Moved.same {c d c' d' : Candidate} (h : Moved a b c d) (h' : Moved a b c' d')
    (hsame : ∀ k, d.Touches k ↔ d'.Touches k) (k : ChunkKey) : c.Touches k ↔ c'.Touches k := by
  by_cases ha : k = a
  · subst ha
    exact iff_of_false h.not_target h'.not_target
  · by_cases hb : k = b
    · subst hb
      rw [← h.moved, ← h'.moved, hsame]
    · rw [← h.kept k ha hb, ← h'.kept k ha hb, hsame]

theorem Moved.refl {c : Candidate} (ha : ¬ c.Touches a) (hb : ¬ c.Touches b) : Moved a b c c :=
  ⟨ha, iff_of_false ha hb, hb, fun _ _ _ => Iff.rfl⟩

theorem moved_retarget {c : Candidate} {merged : Nat} (hab : a ≠ b) (hne : c.a.chunk ≠ c.b.chunk)
    (ha : ¬ c.Touches a) (hb : c.Touches b) :
    Moved a b c (Candidate.retarget c (c.a.chunk = b) a size merged) := by
  unfold Candidate.Touches at ha hb
  push Not at ha
  unfold Candidate.retarget
  by_cases hwas : c.a.chunk = b
  · subst hwas
    rw [if_pos (decide_eq_true rfl)]
    constructor
    · simpa [Candidate.Touches] using ha
    · simp [Candidate.Touches]
    · simp only [Candidate.Touches]
      intro hor
      rcases hor with h | h
      · exact hab h
      · exact hne h.symm
    · intro k hka hkb
      simp [Candidate.Touches, hka.symm, hkb.symm]
  · have hb' := hb.resolve_left hwas
    subst hb'
    rw [if_neg (by simpa using hwas)]
    constructor
    · simpa [Candidate.Touches] using ha
    · simp [Candidate.Touches]
    · simp only [Candidate.Touches]
      intro hor
      rcases hor with h | h
      · exact hwas h
      · exact hab h
    · intro k hka hkb
      simp [Candidate.Touches, hka.symm, hkb.symm]

/-- The candidates of `t` are those of `s`, each with the places in chunk order that it had. -/
def Stems (s t : Limiting) : Prop := ∀ {i d}, t.candidates.get? i = some d →
  ∃ c, s.candidates.get? i = some c ∧ d.a.index = c.a.index ∧ d.b.index = c.b.index

theorem Changed.stems {R : Candidate → Candidate → Prop} (h : Changed R ns s t)
    (hR : ∀ {c d}, R c d → d.a.index = c.a.index ∧ d.b.index = c.b.index) : Stems s t := by
  intro i d hd
  obtain ⟨c, hc, ⟨-, hcd⟩ | ⟨-, rfl⟩⟩ := h.cases hd
  · exact ⟨c, hc, hR hcd⟩
  · exact ⟨d, hc, rfl, rfl⟩

theorem Stems.trans {u : Limiting} (h : Stems s t) (h' : Stems t u) : Stems s u := by
  intro i e he
  obtain ⟨d, hd, hda, hdb⟩ := h' he
  obtain ⟨c, hc, hca, hcb⟩ := h hd
  exact ⟨c, hc, hda.trans hca, hdb.trans hcb⟩

theorem index_gone {c d : Candidate} (h : Gone c d) :
    d.a.index = c.a.index ∧ d.b.index = c.b.index := by
  subst h
  exact ⟨rfl, rfl⟩

theorem index_handed {q : Plan} {c d : Candidate} (h : Handed q model a b size c d) :
    d.a.index = c.a.index ∧ d.b.index = c.b.index := by
  rcases h with ⟨-, rfl⟩ | ⟨-, hgone | ⟨merged, -, rfl⟩⟩
  · exact ⟨rfl, rfl⟩
  · exact index_gone hgone
  · unfold Candidate.retarget
    split
    · exact ⟨rfl, rfl⟩
    · exact ⟨rfl, rfl⟩

section Refresh
variable {q : Plan} {A B : Chunk} {r r' : ChunkRecord}

theorem getD_handed (byChunk : OrderedMap ChunkKey (OrderedSet Nat)) (handed : OrderedSet Nat)
    (k : ChunkKey) : ((((byChunk.erase a).erase b).insert a handed).get? k).getD ∅ =
      if k = a then handed else if k = b then ∅ else (byChunk.get? k).getD ∅ := by
  rw [OrderedMap.get?_insert]
  by_cases ha : k = a
  · rw [if_pos ha, if_pos ha]
    rfl
  · rw [if_neg ha, if_neg ha, OrderedMap.get?_erase, OrderedMap.get?_erase, if_neg ha]
    split
    · rfl
    · rfl

/-- What a refresh makes of the candidates when a merge of `b` into `a` has left the plan `q`. -/
structure Refreshed (model : SizeModel) (q : Plan) (a b : ChunkKey) (s u : Limiting) : Prop where
  plan : u.plan = q
  queued : u.Queued
  size : u.candidates.size = s.candidates.size
  live : ∀ {n d}, u.candidates.get? n = some d → d.gone = false →
    ∃ c, s.candidates.get? n = some c ∧ c.gone = false ∧ Moved a b c d ∧ q.Rates model d
  lists : ∀ k, (u.byChunk.get? k).getD ∅ = if k = a then (s.byChunk.get? b).getD ∅ else
    if k = b then ∅ else (s.byChunk.get? k).getD ∅

theorem Refreshed.inv {u : Limiting} (h : Refreshed model q a b s u) (hs : Inv model s)
    (hq : q.Consistent) (hbudget : 1 ≤ u.budget) : Inv model u where
  plan := h.plan ▸ hq
  budget := hbudget
  queued := h.queued
  rated hd hgone := by
    obtain ⟨-, -, -, -, hrated⟩ := h.live hd hgone
    rw [h.plan]
    exact hrated
  unique := by
    intro i i' d d' hd hd' hgone hgone' hsame
    obtain ⟨c, hc, hclive, hmoved, -⟩ := h.live hd hgone
    obtain ⟨c', hc', hclive', hmoved', -⟩ := h.live hd' hgone'
    exact hs.unique hc hc' hclive hclive' (hmoved.same hmoved' hsame)
  listed := by
    intro i d hd hgone k
    obtain ⟨c, hc, hclive, hmoved, -⟩ := h.live hd hgone
    unfold Listed
    rw [h.lists]
    by_cases ha : k = a
    · rw [if_pos ha, ha, hmoved.moved]
      exact hs.listed hc hclive b
    · by_cases hb : k = b
      · rw [if_neg ha, if_pos hb, hb]
        exact iff_of_false (OrderedSet.not_mem_empty i) hmoved.not_source
      · rw [if_neg ha, if_neg hb, hmoved.kept k ha hb]
        exact hs.listed hc hclive k
  numbered := by
    intro k i hin
    unfold Listed at hin
    rw [h.lists] at hin
    rw [h.size]
    split at hin
    · exact hs.numbered hin
    · split at hin
      · exact absurd hin (OrderedSet.not_mem_empty i)
      · exact hs.numbered hin

theorem Inv.other_stored (hs : Inv model s) (j : s.plan.Joined q A B r r') {c : Candidate}
    (hc : s.candidates.get? n = some c) (hlive : c.gone = false) :
    c.other B.key ∈ q.chunks.keys := by
  have hrated := hs.rated hc hlive
  unfold Candidate.other
  split
  · rename_i hwas
    exact j.mem_keys.mpr ⟨hrated.stored (Or.inr rfl), fun heq => hrated.ne (hwas.trans heq.symm)⟩
  · rename_i hwas
    exact j.mem_keys.mpr ⟨hrated.stored (Or.inl rfl), hwas⟩

/-- The candidates of a chunk are dropped, so that those that are still live do not touch it. -/
theorem Inv.live_of_dropped (hs : Inv model s) {u v : Limiting} {k : ChunkKey}
    (hv : Changed Gone ((s.byChunk.get? k).getD ∅).toList u v) (hu : u.candidates = s.candidates)
    {d : Candidate} (hd : v.candidates.get? n = some d) (hlive : d.gone = false) :
    s.candidates.get? n = some d ∧ ¬ d.Touches k := by
  obtain ⟨c, hc, ⟨-, hgone⟩ | ⟨hout, rfl⟩⟩ := hv.cases hd
  · rw [hgone] at hlive
    cases hlive
  · rw [hu] at hc
    exact ⟨hc, fun htouch => hout ((hs.listed hc hlive k).mpr htouch)⟩

/-- A candidate that is live after those of the absorbed chunk were handed over was live before,
joins the survivor where it joined the absorbed chunk, and is rated as the plan after the merge
rates it. -/
theorem Inv.live_of_handed (hs : Inv model s) (j : s.plan.Joined q A B r r')
    (hsize : s.plan.mergedSizeOf model A.key B.key = .ok size) {c d : Candidate}
    (hc : c.gone = false → s.candidates.get? n = some c ∧ ¬ c.Touches A.key)
    (hcd : n ∈ ((s.byChunk.get? B.key).getD ∅).toList ∧ Handed q model A.key B.key size c d ∨
      n ∉ ((s.byChunk.get? B.key).getD ∅).toList ∧ d = c) (hlive : d.gone = false) :
    s.candidates.get? n = some c ∧ c.gone = false ∧ Moved A.key B.key c d ∧ q.Rates model d := by
  rcases hcd with ⟨hin, ⟨hcgone, rfl⟩ | ⟨hclive, rfl | ⟨merged, hmerged, rfl⟩⟩⟩ | ⟨hout, rfl⟩
  · rw [hcgone] at hlive
    cases hlive
  · cases hlive
  · obtain ⟨hc, ha⟩ := hc hclive
    have hb : c.Touches B.key := (hs.listed hc hclive B.key).mp hin
    have hrated := hs.rated hc hclive
    exact ⟨hc, hclive, moved_retarget j.ne hrated.ne ha hb,
      hrated.retarget hs.plan j hsize ha hmerged⟩
  · obtain ⟨hc, ha⟩ := hc hlive
    have hb : ¬ d.Touches B.key := fun htouch => hout ((hs.listed hc hlive B.key).mpr htouch)
    exact ⟨hc, hlive, Moved.refl ha hb, (hs.rated hc hlive).joined hs.plan j ha hb⟩

/-- After a merge the refresh restores the invariant, for the plan that the merge has left. -/
theorem refresh_ok (modified : OrderedSet ChunkKey) (changed : Bool) (budget : Nat)
    (hs : Inv model s) (j : s.plan.Joined q A B r r')
    (hsize : s.plan.mergedSizeOf model A.key B.key = .ok size) (hbudget : 1 ≤ budget) :
    ∃ u, { s with plan := q, modified, changed, budget }.refresh model A.key B.key size = .next u ∧
      Inv model u ∧ u.plan = q ∧ u.budget = budget ∧ u.changed = changed ∧ Stems s u := by
  have hq : q.Consistent := j.consistent hs.plan
  let t : Limiting := { s with plan := q, modified, changed, budget }
  have hv := changed_dropAll (s := t) hs.queued A.key
  let v : Limiting := t.dropAll A.key
  let handed : OrderedSet Nat := (s.byChunk.get? B.key).getD ∅
  have hvlive : ∀ {i d}, v.candidates.get? i = some d → d.gone = false →
      s.candidates.get? i = some d ∧ ¬ d.Touches A.key := hs.live_of_dropped hv rfl
  have hother : ∀ n ∈ handed.toList, ∀ c, v.candidates.get? n = some c → c.gone = false →
      c.other B.key ∈ v.plan.chunks.keys := by
    intro n _ c hc hlive
    rw [hv.plan]
    exact hs.other_stored j (hvlive hc hlive).1 hlive
  have htarget : A.key ∈ v.plan.chunks.keys :=
    hv.plan ▸ OrderedMap.mem_keys_of_get? j.chunk_target
  obtain ⟨w, hw, hvw⟩ := changed_foldlM_handOver model size
    (s := { v with byChunk := v.byChunk.erase B.key }) (a := A.key) (b := B.key)
    hv.queued (hv.plan ▸ hq) htarget handed.nodup hother
  let u : Limiting := { w with byChunk := w.byChunk.insert A.key handed }
  have hrefresh : t.refresh model A.key B.key size = .next u := by
    have hlist : (v.byChunk.get? B.key).getD ∅ = handed := by
      rw [hv.byChunk]
      show ((s.byChunk.erase A.key).get? B.key).getD ∅ = handed
      rw [OrderedMap.get?_erase, if_neg j.ne.symm]
    have hall : v.handOverAll model A.key B.key size = .ok u := by
      unfold handOverAll
      rw [hlist]
      show (handed.toList.foldlM (handOver model A.key B.key size) _ >>= _) = _
      rw [hw]
      rfl
    unfold refresh
    rw [show (t.dropAll A.key).handOverAll model A.key B.key size = .ok u from hall]
  have hrefreshed : Refreshed model q A.key B.key s u := {
    plan := hvw.plan.trans hv.plan
    queued := hvw.queued
    size := hvw.size.trans hv.size
    live := by
      intro i d hd hlive
      obtain ⟨c, hc, hcd⟩ := hvw.cases hd
      have hplan : v.plan = q := hv.plan
      rw [hplan] at hcd
      exact ⟨c, hs.live_of_handed j hsize (hvlive hc) hcd hlive⟩
    lists := by
      intro k
      show ((w.byChunk.insert A.key handed).get? k).getD ∅ = _
      rw [hvw.byChunk, ← getD_handed]
      show (((v.byChunk.erase B.key).insert A.key handed).get? k).getD ∅ = _
      rw [hv.byChunk] }
  have hubudget : u.budget = budget := hvw.budget.trans hv.budget
  have hstems : Stems s v := fun hd => hv.stems index_gone hd
  exact ⟨u, hrefresh, hrefreshed.inv hs hq (hubudget ▸ hbudget), hrefreshed.plan, hubudget,
    hvw.changed.trans hv.changed, hstems.trans fun hd => hvw.stems index_handed hd⟩

end Refresh

/-- What settling a candidate does to the plan: nothing, which has a reason, or the merge of its two
chunks. -/
inductive Settled (s : Limiting) (c : Candidate) (t : Limiting) : Prop where
  | kept (plan : t.plan = s.plan) (changed : t.changed = s.changed) (budget : t.budget ≤ s.budget)
      (reason : s.modified ≠ ∅ ∨ s.plan.canMergeKeys c.a.chunk c.b.chunk = .ok false)
  | merged (plan : s.plan.MergeStep t.plan)
      (made : s.plan.merge c.a.chunk c.b.chunk = (t.plan, .ok ())) (changed : t.changed = true)
      (budget : t.budget + 1 = s.budget)

theorem Settled.changed {c : Candidate} (h : Settled s c t) (hs : s.changed = true) :
    t.changed = true := by
  cases h with
  | kept _ hchanged _ _ => rw [hchanged, hs]
  | merged _ _ hchanged _ => exact hchanged

theorem modified_of_isBlocked {A B : Chunk} (h : s.isBlocked A B = true) : s.modified ≠ ∅ := by
  intro hnone
  unfold isBlocked at h
  rw [hnone] at h
  obtain ⟨g, -, hg⟩ := List.any_eq_true.mp h
  cases hg

/-- The invariant does not depend on the chunks that were changed before, nor on the exact
budget. -/
theorem Inv.passOver (h : Inv model s) {modified : OrderedSet ChunkKey} {budget : Nat}
    (hbudget : 1 ≤ budget) : Inv model { s with modified, budget } where
  plan := h.plan
  budget := hbudget
  queued := h.queued
  rated := h.rated
  unique := h.unique
  listed := h.listed
  numbered := h.numbered

/-- A candidate that has been taken is settled without failure, and unless that ends the pass the
invariant holds again. -/
theorem settle_ok (h : Inv model s) {c : Candidate} (hc : s.plan.Rates model c) {A B : Chunk}
    (hA : s.plan.chunks.get? c.a.chunk = some A) (hB : s.plan.chunks.get? c.b.chunk = some B) :
    ∃ t, Settled s c t ∧ (s.settle model c A B = .stop t (.ok ()) ∨
      s.settle model c A B = .next t ∧ Inv model t ∧ Stems s t) := by
  have hsame : Stems s s := fun hd => ⟨_, hd, rfl, rfl⟩
  have hbudget := h.budget
  unfold settle
  by_cases hblocked : s.isBlocked A B = true
  · rw [if_pos hblocked, passOver]
    have hreason : s.modified ≠ ∅ ∨ s.plan.canMergeKeys c.a.chunk c.b.chunk = .ok false :=
      Or.inl (modified_of_isBlocked hblocked)
    split
    · refine ⟨_, ?_, Or.inl rfl⟩
      exact .kept rfl rfl (Nat.sub_le ..) hreason
    · rename_i hleft
      refine ⟨_, ?_, Or.inr ⟨rfl, h.passOver (Nat.one_le_iff_ne_zero.mpr hleft), hsame⟩⟩
      exact .kept rfl rfl (Nat.sub_le ..) hreason
  · rw [if_neg hblocked]
    obtain ⟨may, hmay, -⟩ := h.plan.canMergeKeys_ok hA hB
    have hmay' := hmay
    rw [Plan.canMergeKeys_eq hA hB] at hmay'
    rw [hmay']
    cases may with
    | false => exact ⟨s, .kept rfl rfl (Nat.le_refl _) (Or.inr hmay), Or.inr ⟨rfl, h, hsame⟩⟩
    | true =>
      obtain ⟨q, r, r', hmerge, j⟩ := h.plan.merge_ok hc.ne hA hB
      have hstep : s.plan.MergeStep q := ⟨A, B, r, r', hmay', j⟩
      simp only [mergePair, hmerge]
      split
      · refine ⟨_, ?_, Or.inl rfl⟩
        exact .merged hstep hmerge rfl (Nat.sub_add_cancel hbudget)
      · rename_i hleft
        have hkeyA := h.plan.key hA
        have hkeyB := h.plan.key hB
        obtain ⟨u, hu, hinv, hplan, hubudget, huchanged, hstems⟩ := refresh_ok
          (s.modified.insert c.a.chunk) true (s.budget - 1) h j
          (by rw [hkeyA, hkeyB]; exact hc.merged) (Nat.one_le_iff_ne_zero.mpr hleft)
        rw [hkeyA, hkeyB] at hu
        refine ⟨u, .merged (hplan ▸ hstep) (hplan ▸ hmerge) huchanged ?_, Or.inr ⟨hu, hinv, hstems⟩⟩
        rw [hubudget]
        exact Nat.sub_add_cancel hbudget

theorem Inv.take (h : Inv model s) {queue : CandidateQueue}
    (hpop : s.queue.popFirst s.candidates.keys = (some n, queue)) :
    ∃ c, s.candidates.get? n = some c ∧ c.gone = false ∧
      Inv model ({ s with queue }.markGone n) ∧ Stems s ({ s with queue }.markGone n) := by
  obtain ⟨⟨c, hc, hlive⟩, -, hrest⟩ := BucketQueue.Holds.popFirst_some h.queued hpop
  have hcases : ∀ {i d}, ({ s with queue }.markGone n).candidates.get? i = some d →
      d.gone = false → s.candidates.get? i = some d := by
    intro i d hd hgone
    obtain ⟨c', hc', ⟨-, hmark⟩ | ⟨-, rfl⟩⟩ := markGone_cases hd
    · rw [hmark] at hgone
      cases hgone
    · exact hc'
  have hcount : ({ s with queue }.markGone n).candidates.size = s.candidates.size :=
    Candidates.size_modify ..
  refine ⟨c, hc, hlive, ?_, ?_⟩
  · exact {
      plan := h.plan
      budget := h.budget
      queued := queued_markGone (s := { s with queue }) (t := s) hrest rfl
      rated := fun hd hgone => h.rated (hcases hd hgone) hgone
      unique := fun hd hd' hgone hgone' hsame =>
        h.unique (hcases hd hgone) (hcases hd' hgone') hgone hgone' hsame
      listed := fun hd hgone => h.listed (hcases hd hgone) hgone
      numbered := fun hin => hcount ▸ h.numbered hin }
  · intro i d hd
    obtain ⟨c', hc', ⟨-, hmark⟩ | ⟨-, rfl⟩⟩ := markGone_cases hd
    · exact ⟨c', hc', index_gone hmark⟩
    · exact ⟨d, hc', rfl, rfl⟩

theorem round_ok (h : Inv model s) {queue : CandidateQueue}
    (hpop : s.queue.popFirst s.candidates.keys = (some n, queue)) :
    ∃ c t, s.candidates.get? n = some c ∧ c.gone = false ∧ Settled s c t ∧
      (round model { s with queue } n = .stop t (.ok ()) ∨
        round model { s with queue } n = .next t ∧ Inv model t ∧ Stems s t) := by
  obtain ⟨c, hc, hlive, htaken, hstems⟩ := h.take hpop
  have hrated := h.rated hc hlive
  obtain ⟨A, hA⟩ := Plan.stored_of_sizeOf hrated.sizeA
  obtain ⟨B, hB⟩ := Plan.stored_of_sizeOf hrated.sizeB
  have hround : round model { s with queue } n = ({ s with queue }.markGone n).settle model c A B := by
    simp only [round, hc, Chunks.require_eq_ok.mpr hA, Chunks.require_eq_ok.mpr hB]
  obtain ⟨t, hsettled, hend⟩ := settle_ok htaken hrated hA hB
  rw [hround]
  have hs : Settled s c t := by
    cases hsettled with
    | kept hplan hchanged hbudget hreason => exact .kept hplan hchanged hbudget hreason
    | merged hplan hmade hchanged hbudget => exact .merged hplan hmade hchanged hbudget
  refine ⟨c, t, hc, hlive, hs, hend.imp id ?_⟩
  intro hex
  rcases hex with ⟨hnext, hinv, hstems'⟩
  exact ⟨hnext, hinv, hstems.trans hstems'⟩

end Limiting

end Bundler
