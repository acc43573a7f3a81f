import Bundler.Proofs.Additions
import Bundler.Proofs.PassKeeps
/-!
# Plans from which chunks can be taken out

A chunk can be taken out of a plan without a trace in lists and records if it names every group that
lists it, if no group lists it twice, and if the records of chunks and modules agree. Additions keep
this, and so do merges at whatever point they fail, and with them whole passes under a limit.
Nothing more is asked of the plan: groups may have lost chunks before.
-/
namespace Bundler
open ChunkGroup (redirect renamed)

namespace MergeState
variable {s t : MergeState}

theorem target_key_moveGroups (gs : List GroupKey) :
    (s.moveGroups gs).1.target.key = s.target.key := by
  induction gs generalizing s with
  | nil => rfl
  | cons g gs ih =>
    unfold moveGroups moveGroup
    cases s.groups.get? g with
    | none => rfl
    | some G => exact ih

theorem moveModules_eq_ok (h : s.moveModules = .ok t) :
    t = { s with placement := t.placement } := by
  obtain ⟨r, -, h⟩ := exists_of_bind_eq_ok h
  obtain ⟨u, -, h⟩ := exists_of_bind_eq_ok h
  obtain ⟨v, -, h⟩ := exists_of_bind_eq_ok h
  cases h
  rfl

theorem target_key_run (s : MergeState) : s.run.1.target.key = s.target.key := by
  unfold run
  dsimp only
  split
  · rfl
  · split
    · rfl
    · rename_i t ht
      have hkey : t.target.key = s.target.key := by
        rw [moveModules_eq_ok ht]
        rfl
      have hgroups := target_key_moveGroups (s := t) t.source.groups.toList
      split
      · rename_i u e hu
        rw [hu] at hgroups
        exact hgroups.trans hkey
      · rename_i u hu
        rw [hu] at hgroups
        exact hgroups.trans hkey

end MergeState

namespace Plan

/-- A chunk names every group that lists it, and no group lists it twice. -/
structure Detachable (p : Plan) : Prop where
  key : ∀ k c, p.chunks.get? k = some c → c.key = k
  names : ∀ g G, p.groups.get? g = some G → ∀ k ∈ G.chunks, ∀ c, p.chunks.get? k = some c →
    g ∈ c.groups
  nodup : ∀ g G, p.groups.get? g = some G → G.chunks.Nodup
  paired : p.placement.Paired
  stored : ∀ k ∈ p.chunks.keys, k.number < p.supply.next
  listed : ∀ g G, p.groups.get? g = some G → ∀ k ∈ G.chunks, k.number < p.supply.next

variable {p q : Plan}

theorem detachable_empty (modules : ModuleGraph) (supply : KeySupply) :
    Detachable { modules, supply } where
  key k c hc := by cases hc
  names g G hG := by cases hG
  nodup g G hG := by cases hG
  paired := Placement.paired_empty
  stored k hk := absurd hk List.not_mem_nil
  listed g G hG := by cases hG

namespace Detachable

/-- Chunks and their places in lists may be lost, and chunks may change as long as they keep their
keys and name their groups. -/
theorem narrow (h : p.Detachable)
    (hchunk : ∀ k c, q.chunks.get? k = some c → ∃ c₀, p.chunks.get? k = some c₀ ∧
      c.key = c₀.key ∧ ∀ g ∈ c₀.groups, g ∈ c.groups)
    (hgroup : ∀ g H, q.groups.get? g = some H →
      ∃ G, p.groups.get? g = some G ∧ H.chunks.Sublist G.chunks)
    (hpaired : q.placement.Paired) (hsupply : q.supply = p.supply) : q.Detachable where
  key k c hc := by
    obtain ⟨c₀, hc₀, hkey, -⟩ := hchunk k c hc
    exact hkey.trans (h.key k c₀ hc₀)
  names g H hH k hk c hc := by
    obtain ⟨G, hG, hsub⟩ := hgroup g H hH
    obtain ⟨c₀, hc₀, -, hgroups⟩ := hchunk k c hc
    exact hgroups g (h.names g G hG k (hsub.subset hk) c₀ hc₀)
  nodup g H hH := by
    obtain ⟨G, hG, hsub⟩ := hgroup g H hH
    exact (h.nodup g G hG).sublist hsub
  paired := hpaired
  stored k hk := by
    obtain ⟨c, hc⟩ := OrderedMap.exists_of_mem_keys hk
    obtain ⟨c₀, hc₀, -⟩ := hchunk k c hc
    exact hsupply ▸ h.stored k (OrderedMap.mem_keys_of_get? hc₀)
  listed g H hH k hk := by
    obtain ⟨G, hG, hsub⟩ := hgroup g H hH
    exact hsupply ▸ h.listed g G hG k (hsub.subset hk)

theorem relabel {chunks : Chunks} (h : p.Detachable)
    (hchunk : ∀ k c, chunks.get? k = some c → ∃ c₀, p.chunks.get? k = some c₀ ∧
      c.key = c₀.key ∧ ∀ g ∈ c₀.groups, g ∈ c.groups) : Detachable { p with chunks } :=
  h.narrow hchunk (fun _ G hG => ⟨G, hG, .refl _⟩) h.paired rfl

theorem erase (h : p.Detachable) (k : ChunkKey) :
    Detachable { p with chunks := p.chunks.erase k } :=
  h.relabel fun _ c hc => ⟨c, OrderedMap.get?_of_get?_erase hc, rfl, fun _ hg => hg⟩

theorem pin (h : p.Detachable) (k : ChunkKey) : (p.pin k).Detachable := by
  refine h.relabel fun i c hc => ?_
  obtain ⟨c₀, hc₀, hkey, hgroups⟩ := get?_pin_cases hc
  exact ⟨c₀, hc₀, hkey, fun g hg => hgroups ▸ hg⟩

end Detachable

/-- The plan as it stands during a merge, before or after which the rest of it is `p`. -/
def during (p : Plan) (s : MergeState) : Plan :=
  { p with
    chunks := p.chunks.insert s.target.key s.target
    placement := s.placement
    groups := s.groups }

section Merge
variable {s t : MergeState}

theorem Detachable.relabelTarget (h : (p.during s).Detachable) (target source : Chunk)
    (hkey : target.key = s.target.key) (hgroups : ∀ g ∈ s.target.groups, g ∈ target.groups) :
    (p.during { s with target, source }).Detachable := by
  refine Detachable.relabel (p := p.during s) h fun k c hc => ?_
  show ∃ c₀, (p.chunks.insert s.target.key s.target).get? k = some c₀ ∧ _
  change (p.chunks.insert target.key target).get? k = some c at hc
  rw [hkey] at hc
  rw [OrderedMap.get?_insert]
  rcases OrderedMap.get?_insert_cases hc with ⟨hk, rfl⟩ | ⟨hk, hold⟩
  · exact ⟨s.target, if_pos hk, hkey, hgroups⟩
  · exact ⟨c, (if_neg hk).trans hold, rfl, fun g hg => hg⟩

/-- Where the target takes the place of the source in a group, it names that group. -/
theorem Detachable.moveGroup (h : (p.during s).Detachable) (g : GroupKey) :
    (p.during (s.moveGroup g).1).Detachable := by
  unfold MergeState.moveGroup
  split
  · exact h
  · rename_i G hG
    have htarget : (p.during { s with
        target := s.target.addGroup g, source := s.source.removeGroup g }).Detachable :=
      h.relabelTarget (s.target.addGroup g) _ rfl
        fun i hi => OrderedSet.mem_insert.mpr (.inl hi)
    have hself : (p.chunks.insert s.target.key (s.target.addGroup g)).get? s.target.key =
        some (s.target.addGroup g) := OrderedMap.get?_insert_self ..
    have hredirect : (G.replace s.source.key s.target.key).1 =
        G.redirect (renamed s.source.key s.target.key) :=
      ChunkGroup.replace_eq_redirect (h.nodup g G hG)
    have hgroup : ∀ i H,
        (s.groups.insert g (G.replace s.source.key s.target.key).1).get? i = some H →
        i = g ∧ H = G.redirect (renamed s.source.key s.target.key) ∨ s.groups.get? i = some H := by
      intro i H hH
      rcases OrderedMap.get?_insert_cases hH with ⟨hi, rfl⟩ | ⟨-, hold⟩
      · exact .inl ⟨hi, hredirect⟩
      · exact .inr hold
    -- A chunk that the changed group lists is the target or was listed before.
    have hmem : ∀ k ∈ (G.redirect (renamed s.source.key s.target.key)).chunks,
        k = s.target.key ∨ k ∈ G.chunks := by
      intro k hk
      obtain ⟨j, hj, rfl⟩ := ChunkGroup.mem_redirect.mp hk
      unfold renamed
      split
      · exact .inl rfl
      · exact .inr hj
    exact { htarget with
      names := by
        intro i H hH k hk c hc
        rcases hgroup i H hH with ⟨rfl, rfl⟩ | hold
        · rcases hmem k hk with rfl | hk
          · have hsame : s.target.addGroup i = c := Option.some.inj (hself.symm.trans hc)
            subst hsame
            exact OrderedSet.mem_insert.mpr (.inr rfl)
          · exact htarget.names i G hG k hk c hc
        · exact htarget.names i H hold k hk c hc
      nodup := by
        intro i H hH
        rcases hgroup i H hH with ⟨rfl, rfl⟩ | hold
        · exact nodup_eraseDups _
        · exact htarget.nodup i H hold
      listed := by
        intro i H hH k hk
        rcases hgroup i H hH with ⟨rfl, rfl⟩ | hold
        · rcases hmem k hk with rfl | hk
          · exact htarget.stored _ (OrderedMap.mem_keys_of_get? hself)
          · exact htarget.listed i G hG k hk
        · exact htarget.listed i H hold k hk }

theorem Detachable.moveGroups (gs : List GroupKey) (h : (p.during s).Detachable) :
    (p.during (s.moveGroups gs).1).Detachable := by
  induction gs generalizing s with
  | nil => exact h
  | cons g gs ih =>
    have hmoved := h.moveGroup g
    unfold MergeState.moveGroups
    split
    · rename_i t ht
      rw [ht] at hmoved
      exact ih hmoved
    · rename_i t e ht
      rw [ht] at hmoved
      exact hmoved

/-- A merge of two chunks leaves all chunks detachable, at whatever point it fails. -/
theorem Detachable.run (h : (p.during s).Detachable) : (p.during s.run.1).Detachable := by
  have hpaired := MergeState.paired_run (s := s) h.paired
  suffices hrest : ∃ placement, (p.during { s.run.1 with placement }).Detachable by
    obtain ⟨placement, hrest⟩ := hrest
    exact { hrest with paired := hpaired }
  unfold MergeState.run
  dsimp only
  split
  · exact ⟨_, h⟩
  · rename_i a b _
    have hjoined : (p.during (s.joinLabels a b)).Detachable :=
      h.relabelTarget (s.joinLabels a b).target _ rfl fun g hg => hg
    split
    · exact ⟨_, hjoined⟩
    · rename_i t ht
      have hmoved : (p.during t).Detachable := by
        have hsides := MergeState.paired_moveModules hjoined.paired ht
        rw [MergeState.moveModules_eq_ok ht]
        exact { hjoined with paired := hsides }
      have hgroups := hmoved.moveGroups t.source.groups.toList
      split
      · rename_i u e hu
        rw [hu] at hgroups
        exact ⟨_, hgroups⟩
      · rename_i u hu
        rw [hu] at hgroups
        exact ⟨u.placement, hgroups⟩

end Merge

theorem Detachable.merge (h : p.Detachable) (a b : ChunkKey) : (p.merge a b).1.Detachable := by
  unfold Plan.merge
  split
  · exact h
  · rename_i source hsource
    have herased := h.erase b
    dsimp only
    split
    · exact herased
    · rename_i target htarget
      have hbefore : (({ p with chunks := p.chunks.erase b } : Plan).during
          ⟨target, source, p.placement, p.groups⟩).Detachable := by
        refine herased.relabel fun k c hc => ?_
        rw [herased.key a target htarget] at hc
        rcases OrderedMap.get?_insert_cases hc with ⟨rfl, rfl⟩ | ⟨-, hold⟩
        · exact ⟨c, htarget, rfl, fun g hg => hg⟩
        · exact ⟨c, hold, rfl, fun g hg => hg⟩
      have hafter := hbefore.run
      rw [during, MergeState.target_key_run, herased.key a target htarget] at hafter
      exact hafter

theorem Detachable.pass (h : p.Detachable) (l : ChunkLimit) : (l.pass p).1.Detachable :=
  l.pass_keeps (fun _ a b h => h.merge a b) h

section Growth
variable {C : Chunk} {G : ChunkGroup} {root : ModuleId}

/-- A new chunk has a number of its own, so that no older group lists it. -/
theorem Detachable.grow (h : p.Detachable) (hkey : C.key = p.supply.group.2.chunk.1)
    (hsupply : q.supply = p.supply.group.2.chunk.2) (hchunks : q.chunks = p.chunks.insert C.key C)
    (hnames : G.key ∈ C.groups) (hlisted : G.chunks = [C.key])
    (hgroup : ∀ g H, q.groups.get? g = some H → g = G.key ∧ H.chunks = G.chunks ∨
      ∃ H₀, p.groups.get? g = some H₀ ∧ H.chunks = H₀.chunks)
    (hpaired : q.placement.Paired) : q.Detachable := by
  have hnumber : C.key.number = p.supply.next + 1 := by
    rw [hkey]
    rfl
  have hnext : q.supply.next = p.supply.next + 2 := by
    rw [hsupply]
    rfl
  have hchunk : ∀ k c, q.chunks.get? k = some c → k = C.key ∧ c = C ∨
      k ≠ C.key ∧ p.chunks.get? k = some c := by
    intro k c hc
    rw [hchunks] at hc
    exact OrderedMap.get?_insert_cases hc
  refine { key := ?_, names := ?_, nodup := ?_, paired := hpaired, stored := ?_, listed := ?_ }
  · intro k c hc
    rcases hchunk k c hc with ⟨rfl, rfl⟩ | ⟨-, hold⟩
    · rfl
    · exact h.key k c hold
  · intro g H hH k hk c hc
    rcases hgroup g H hH with ⟨rfl, hnew⟩ | ⟨H₀, hH₀, hsame⟩
    · rw [hnew, hlisted, List.mem_singleton] at hk
      subst hk
      rcases hchunk _ c hc with ⟨-, rfl⟩ | ⟨hne, -⟩
      · exact hnames
      · exact absurd rfl hne
    · rw [hsame] at hk
      have hlt := h.listed g H₀ hH₀ k hk
      rcases hchunk k c hc with ⟨rfl, -⟩ | ⟨-, hold⟩
      · omega
      · exact h.names g H₀ hH₀ k hk c hold
  · intro g H hH
    rcases hgroup g H hH with ⟨-, hnew⟩ | ⟨H₀, hH₀, hsame⟩
    · rw [hnew, hlisted]
      exact List.pairwise_singleton ..
    · rw [hsame]
      exact h.nodup g H₀ hH₀
  · intro k hk
    obtain ⟨c, hc⟩ := OrderedMap.exists_of_mem_keys hk
    rcases hchunk k c hc with ⟨rfl, -⟩ | ⟨-, hold⟩
    · omega
    · have hlt := h.stored k (OrderedMap.mem_keys_of_get? hold)
      omega
  · intro g H hH k hk
    rcases hgroup g H hH with ⟨-, hnew⟩ | ⟨H₀, hH₀, hsame⟩
    · rw [hnew, hlisted, List.mem_singleton] at hk
      subst hk
      omega
    · rw [hsame] at hk
      have hlt := h.listed g H₀ hH₀ k hk
      omega

theorem paired_connectEach {t u : Placement} {c : ChunkKey} {ids : List ModuleId}
    (h : t.Paired) (hu : t.connectEach c ids = (u, .ok ())) : u.Paired :=
  Placement.connectEach_keeps (fun _ _ _ h hv => h.connect hv) h hu

theorem paired_placeReachable {c : ChunkKey} (h : p.placement.Paired)
    (hq : p.placeReachable c root = (q, .ok ())) : q.placement.Paired := by
  obtain ⟨ids, placement, -, hplace, rfl⟩ := placeReachable_eq_ok hq
  exact paired_connectEach h hplace

theorem Detachable.addEntrypoint {name : String} {entry : ModuleId} {g : GroupKey} {c : ChunkKey}
    (h : p.Detachable) (hadd : p.addEntrypoint name entry = (q, .ok (g, c))) : q.Detachable := by
  obtain ⟨rfl, rfl, ids, t, placement, ht, -, hplace, rfl⟩ := addEntrypoint_eq_ok hadd
  refine h.grow (C := p.entryChunk name) (G := p.entryGroup name) rfl rfl rfl
    (OrderedSet.mem_ofList.mpr List.mem_cons_self) rfl ?_
    (paired_connectEach ((h.paired.addChunk _).connectEntry ht) hplace)
  intro i H hH
  rcases OrderedMap.get?_insert_cases hH with ⟨hi, rfl⟩ | ⟨-, hold⟩
  · exact .inl ⟨hi, rfl⟩
  · exact .inr ⟨H, hold, rfl⟩

theorem Detachable.addAsyncChunk {parent g : GroupKey} {label : Option String}
    {ms : List ModuleId} {c : ChunkKey} (h : p.Detachable)
    (hadd : p.addAsyncChunk parent label ms = (q, .ok (g, c))) : q.Detachable := by
  obtain ⟨above, -, rfl, rfl, hplace⟩ := addAsyncChunk_eq_ok hadd
  have hpaired : q.placement.Paired :=
    placeEach_keeps (P := fun u => u.placement.Paired)
      (fun _ _ _ hu hv => paired_placeReachable hu hv) (h.paired.addChunk _) hplace
  obtain ⟨placement, rfl⟩ := placeEach_eq_ok hplace
  refine h.grow (C := p.asyncChunk above label) (G := p.asyncGroup parent label) rfl rfl rfl
    (OrderedSet.mem_ofList.mpr List.mem_cons_self) rfl ?_ hpaired
  -- The new group comes below its parent, which changes no list of chunks.
  have hinsert : ∀ i H, (p.groups.insert (p.asyncGroup parent label).key
      (p.asyncGroup parent label)).get? i = some H →
      i = (p.asyncGroup parent label).key ∧ H.chunks = (p.asyncGroup parent label).chunks ∨
        ∃ H₀, p.groups.get? i = some H₀ ∧ H.chunks = H₀.chunks := by
    intro i H hH
    rcases OrderedMap.get?_insert_cases hH with ⟨hi, rfl⟩ | ⟨-, hold⟩
    · exact .inl ⟨hi, rfl⟩
    · exact .inr ⟨H, hold, rfl⟩
  intro i H hH
  rw [OrderedMap.get?_modify] at hH
  split at hH
  · obtain ⟨H₁, hH₁, rfl⟩ := Option.map_eq_some_iff.mp hH
    exact hinsert i H₁ hH₁
  · exact hinsert i H hH

end Growth

end Plan

end Bundler
