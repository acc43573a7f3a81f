import Bundler.Proofs.Consistent
/-!
# How a plan grows

Both ways of adding to a plan store one new chunk and one new group that list each other, the group
below its parents if it has any. This module says so once, as a relation between the plans before
and after, shows that both additions stand in it, and that consistent plans stay consistent.
-/
namespace Bundler

namespace Placement

theorem connect_ok {p : Placement} {c : ChunkKey} (m : ModuleId) (hc : c ∈ p.chunks.keys) :
    ∃ q, p.connect c m = .ok q ∧ q.chunks.keys = p.chunks.keys := by
  obtain ⟨r, hr⟩ := OrderedMap.exists_of_mem_keys hc
  obtain ⟨q, hq, hchunks⟩ := update_ok m
    (fun r => { r with modules := r.modules.insert m })
    (fun r => { r with chunks := r.chunks.insert c }) hr
  exact ⟨q, hq, by rw [hchunks, OrderedMap.keys_insert_of_mem hc]⟩

theorem connectEntry_ok {p : Placement} {c : ChunkKey} (m : ModuleId) (g : GroupKey)
    (hc : c ∈ p.chunks.keys) :
    ∃ q, p.connectEntry c m g = .ok q ∧ q.chunks.keys = p.chunks.keys := by
  obtain ⟨r, hr⟩ := OrderedMap.exists_of_mem_keys hc
  obtain ⟨q, hq, hchunks⟩ := update_ok m
    (fun r => { r with entryModules := r.entryModules.insert m g })
    (fun r => { r with entryIn := r.entryIn.insert c }) hr
  exact ⟨q, hq, by rw [hchunks, OrderedMap.keys_insert_of_mem hc]⟩

theorem connectEach_ok {p : Placement} {c : ChunkKey} (ms : List ModuleId)
    (hc : c ∈ p.chunks.keys) :
    ∃ q, p.connectEach c ms = (q, .ok ()) ∧ q.chunks.keys = p.chunks.keys := by
  induction ms generalizing p with
  | nil => exact ⟨p, rfl, rfl⟩
  | cons m ms ih =>
    obtain ⟨t, ht, htkeys⟩ := connect_ok m hc
    obtain ⟨q, hq, hqkeys⟩ := ih (p := t) (htkeys ▸ hc)
    refine ⟨q, ?_, hqkeys.trans htkeys⟩
    rw [connectEach, ht]
    exact hq

theorem keys_addChunk {p : Placement} {c : ChunkKey} (hc : c ∉ p.chunks.keys) :
    (p.addChunk c).chunks.keys = p.chunks.keys ++ [c] := by
  have hcontains : ¬ p.contains c = true := fun hin => hc (OrderedMap.contains_iff.mp hin)
  rw [addChunk, if_neg hcontains, OrderedMap.keys_insert, if_neg hc]

theorem mem_keys_addChunk (p : Placement) (c : ChunkKey) : c ∈ (p.addChunk c).chunks.keys := by
  by_cases hc : c ∈ p.chunks.keys
  · rw [addChunk, if_pos (show p.contains c = true from OrderedMap.contains_iff.mpr hc)]
    exact hc
  · rw [keys_addChunk hc]
    exact List.mem_append_right _ List.mem_cons_self

end Placement

namespace Plan

theorem broughtBy_ok (p : Plan) (root : ModuleId) : ∃ ids, p.broughtBy root = .ok ids := by
  unfold broughtBy
  split
  · rename_i hroot
    exact ⟨_, if_pos hroot⟩
  · exact ⟨_, rfl⟩

theorem placeReachable_ok {p : Plan} {c : ChunkKey} (root : ModuleId)
    (hc : c ∈ p.placement.chunks.keys) :
    ∃ placement, p.placeReachable c root = ({ p with placement }, .ok ()) ∧
      placement.chunks.keys = p.placement.chunks.keys := by
  obtain ⟨ids, hids⟩ := p.broughtBy_ok root
  obtain ⟨q, hq, hkeys⟩ := Placement.connectEach_ok ids hc
  refine ⟨q, ?_, hkeys⟩
  simp only [placeReachable, hids, hq]

theorem placeEach_ok {p : Plan} {c : ChunkKey} (ms : List ModuleId)
    (hc : c ∈ p.placement.chunks.keys) :
    ∃ placement, p.placeEach c ms = ({ p with placement }, .ok ()) ∧
      placement.chunks.keys = p.placement.chunks.keys := by
  induction ms generalizing p with
  | nil => exact ⟨p.placement, rfl, rfl⟩
  | cons m ms ih =>
    obtain ⟨t, ht, htkeys⟩ := placeReachable_ok m hc
    obtain ⟨q, hq, hqkeys⟩ := ih (p := { p with placement := t }) (htkeys ▸ hc)
    refine ⟨q, ?_, hqkeys.trans htkeys⟩
    simp only [placeEach, ht, hq]

theorem not_mem_entryGroup_parents (p : Plan) (name : String) (h : GroupKey) :
    h ∉ (p.entryGroup name).parents := OrderedSet.not_mem_empty h

theorem mem_asyncGroup_parents {p : Plan} {parent h : GroupKey} {label : Option String} :
    h ∈ (p.asyncGroup parent label).parents ↔ h = parent :=
  OrderedSet.mem_ofList.trans List.mem_singleton

/-- The plan `q` is the plan `p` with the new chunk `C` and the new group `G`. -/
structure Grown (p q : Plan) (C : Chunk) (G : ChunkGroup) : Prop where
  groupKey : G.key = p.supply.group.1
  chunkKey : C.key = p.supply.group.2.chunk.1
  supply : q.supply = p.supply.group.2.chunk.2
  groups : C.groups = .ofList [G.key]
  listed : G.chunks = [C.key]
  sound : G.Sound
  leaf : G.children = ∅
  above : ∀ h ∈ G.parents, h ∈ p.groups.keys
  modules : q.modules = p.modules
  chunks : q.chunks = p.chunks.insert C.key C
  records : q.placement.chunks.keys = p.placement.chunks.keys ++ [C.key]
  groupKeys : q.groups.keys = p.groups.keys ++ [G.key]
  group : ∀ h, q.groups.get? h = if h = G.key then some G else
    (p.groups.get? h).map fun H => if h ∈ G.parents then H.addChild G.key else H
  entrypoints : ∀ {name g}, q.entrypoints.get? name = some g →
    g = G.key ∧ G.isInitial = true ∨ p.entrypoints.get? name = some g

variable {p q : Plan} {C : Chunk} {G : ChunkGroup}

theorem Consistent.free_group (h : p.Consistent) : p.supply.group.1 ∉ p.groups.keys :=
  fun hin => Nat.lt_irrefl _ (h.groupFree _ hin)

theorem Consistent.free_chunk (h : p.Consistent) : p.supply.group.2.chunk.1 ∉ p.chunks.keys := by
  intro hin
  have hlt : p.supply.next + 1 < p.supply.next := h.chunkFree _ hin
  omega

theorem mem_keys_takeIn (p : Plan) (C : Chunk) (G : ChunkGroup) :
    C.key ∈ (p.takeIn C G).placement.chunks.keys :=
  p.placement.mem_keys_addChunk C.key

theorem Consistent.keys_takeIn (h : p.Consistent) (hC : C.key = p.supply.group.2.chunk.1) :
    (p.takeIn C G).placement.chunks.keys = p.placement.chunks.keys ++ [C.key] := by
  apply Placement.keys_addChunk
  rw [hC]
  exact fun hin => h.free_chunk ((h.record _).mp hin)

/-- An entrypoint can be added to any plan. -/
theorem addEntrypoint_ok (p : Plan) (name : String) (entry : ModuleId) : ∃ placement,
    p.addEntrypoint name entry = ({ p.takeIn (p.entryChunk name) (p.entryGroup name) with
      placement, entrypoints := p.entrypoints.insert name (p.entryGroup name).key },
      .ok ((p.entryGroup name).key, (p.entryChunk name).key)) ∧
    placement.chunks.keys =
      (p.takeIn (p.entryChunk name) (p.entryGroup name)).placement.chunks.keys := by
  let t := p.takeIn (p.entryChunk name) (p.entryGroup name)
  have hnew : (p.entryChunk name).key ∈ t.placement.chunks.keys := p.mem_keys_takeIn ..
  obtain ⟨u, hu, hukeys⟩ := Placement.connectEntry_ok entry (p.entryGroup name).key hnew
  obtain ⟨w, hw, hwkeys⟩ := placeReachable_ok (p := { t with placement := u }) entry
    (hukeys ▸ hnew)
  refine ⟨w, ?_, hwkeys.trans hukeys⟩
  simp only [addEntrypoint]
  rw [hu]
  dsimp only
  rw [hw]
  rfl

/-- A chunk can be added below any group that is there. -/
theorem addAsyncChunk_ok {parent : GroupKey} {above : ChunkGroup}
    (habove : p.groups.get? parent = some above) (label : Option String) (ms : List ModuleId) :
    ∃ placement, p.addAsyncChunk parent label ms =
      ({ p.takeIn (p.asyncChunk above label) (p.asyncGroup parent label) with
          placement
          groups := (p.takeIn (p.asyncChunk above label) (p.asyncGroup parent label)).groups.modify
            parent (·.addChild (p.asyncGroup parent label).key) },
        .ok ((p.asyncGroup parent label).key, (p.asyncChunk above label).key)) ∧
      placement.chunks.keys =
        (p.takeIn (p.asyncChunk above label) (p.asyncGroup parent label)).placement.chunks.keys := by
  let C := p.asyncChunk above label
  let G := p.asyncGroup parent label
  let t : Plan :=
    { p.takeIn C G with groups := (p.takeIn C G).groups.modify parent (·.addChild G.key) }
  obtain ⟨w, hw, hwkeys⟩ := placeEach_ok (p := t) (c := C.key) ms (p.mem_keys_takeIn C G)
  refine ⟨w, ?_, hwkeys⟩
  rw [addAsyncChunk, Groups.require, habove]
  show ((t.placeEach C.key ms).1, (t.placeEach C.key ms).2.map _) = _
  rw [hw]
  rfl

/-- A chunk below a group that is not there is refused, and nothing is changed then. -/
theorem addAsyncChunk_orphan {parent : GroupKey} (hparent : parent ∉ p.groups.keys)
    (label : Option String) (ms : List ModuleId) :
    p.addAsyncChunk parent label ms = (p, .error (.groupNotFound parent)) := by
  rw [addAsyncChunk, Groups.require, OrderedMap.get?_eq_none.mpr hparent]

theorem exists_addEntrypoint (p : Plan) (name : String) (entry : ModuleId) :
    ∃ q g c, p.addEntrypoint name entry = (q, .ok (g, c)) := by
  obtain ⟨placement, hadd, -⟩ := p.addEntrypoint_ok name entry
  exact ⟨_, _, _, hadd⟩

theorem addAsyncChunk_cases (p : Plan) (parent : GroupKey) (label : Option String)
    (ms : List ModuleId) :
    p.addAsyncChunk parent label ms = (p, .error (.groupNotFound parent)) ∨
      ∃ q g c, p.addAsyncChunk parent label ms = (q, .ok (g, c)) := by
  cases habove : p.groups.get? parent with
  | none => exact .inl (addAsyncChunk_orphan (OrderedMap.get?_eq_none.mp habove) label ms)
  | some above =>
    obtain ⟨placement, hadd, -⟩ := addAsyncChunk_ok habove label ms
    exact .inr ⟨_, _, _, hadd⟩

theorem Consistent.addEntrypoint_ok (h : p.Consistent) (name : String) (entry : ModuleId) :
    ∃ q, p.addEntrypoint name entry =
        (q, .ok ((p.entryGroup name).key, (p.entryChunk name).key)) ∧
      p.Grown q (p.entryChunk name) (p.entryGroup name) := by
  obtain ⟨placement, hadd, hrecords⟩ := p.addEntrypoint_ok name entry
  refine ⟨_, hadd, ?_⟩
  refine { groupKey := rfl, chunkKey := rfl, supply := rfl, groups := rfl, listed := rfl,
           sound := ?_, leaf := rfl, above := ?_, modules := rfl, chunks := rfl,
           records := hrecords.trans (h.keys_takeIn rfl), groupKeys := ?_, group := ?_,
           entrypoints := ?_ }
  · constructor <;> simp [entryGroup]
  · intro g hg
    exact absurd hg (not_mem_entryGroup_parents p name g)
  · exact (OrderedMap.keys_insert ..).trans (if_neg h.free_group)
  · intro g
    show (p.groups.insert (p.entryGroup name).key (p.entryGroup name)).get? g = _
    rw [OrderedMap.get?_insert]
    simp [not_mem_entryGroup_parents]
  · intro name' g hg
    have hg' : (p.entrypoints.insert name (p.entryGroup name).key).get? name' = some g := hg
    rcases OrderedMap.get?_insert_cases hg' with ⟨-, rfl⟩ | ⟨-, hold⟩
    · exact Or.inl ⟨rfl, rfl⟩
    · exact Or.inr hold

theorem Consistent.addAsyncChunk_ok (h : p.Consistent) {parent : GroupKey} {above : ChunkGroup}
    (habove : p.groups.get? parent = some above) (label : Option String) (ms : List ModuleId) :
    ∃ q, p.addAsyncChunk parent label ms =
        (q, .ok ((p.asyncGroup parent label).key, (p.asyncChunk above label).key)) ∧
      p.Grown q (p.asyncChunk above label) (p.asyncGroup parent label) := by
  have hparent : parent ∈ p.groups.keys := OrderedMap.mem_keys_of_get? habove
  obtain ⟨placement, hadd, hrecords⟩ := Plan.addAsyncChunk_ok habove label ms
  let G := p.asyncGroup parent label
  refine ⟨_, hadd, ?_⟩
  refine { groupKey := rfl, chunkKey := rfl, supply := rfl, groups := rfl, listed := rfl,
           sound := ?_, leaf := rfl, above := ?_, modules := rfl, chunks := rfl,
           records := hrecords.trans (h.keys_takeIn rfl), groupKeys := ?_, group := ?_,
           entrypoints := Or.inr }
  · constructor <;> simp [asyncGroup, ChunkGroup.isInitial]
  · intro g hg
    exact mem_asyncGroup_parents.mp hg ▸ hparent
  · show ((p.groups.insert G.key G).modify parent (·.addChild G.key)).keys = _
    rw [OrderedMap.keys_modify, OrderedMap.keys_insert]
    exact if_neg h.free_group
  · intro g
    show ((p.groups.insert G.key G).modify parent (·.addChild G.key)).get? g = _
    rw [OrderedMap.get?_modify, OrderedMap.get?_insert]
    have hne : G.key ≠ parent := by
      intro heq
      have hin : G.key ∈ p.groups.keys := by rw [heq]; exact hparent
      exact h.free_group hin
    by_cases hg : g = G.key
    · rw [if_neg (hg ▸ hne), if_pos hg]
      exact (if_pos hg).symm
    · by_cases hgp : g = parent
      · simp [hgp, hne.symm, G, mem_asyncGroup_parents]
      · simp [hg, hgp, G, mem_asyncGroup_parents]

theorem Consistent.grown_of_addEntrypoint {name : String} {entry : ModuleId} {g : GroupKey}
    {c : ChunkKey} (h : p.Consistent) (hadd : p.addEntrypoint name entry = (q, .ok (g, c))) :
    g = (p.entryGroup name).key ∧ c = (p.entryChunk name).key ∧
      p.Grown q (p.entryChunk name) (p.entryGroup name) := by
  obtain ⟨q', hadd', hgrown⟩ := h.addEntrypoint_ok name entry
  rw [hadd] at hadd'
  cases hadd'
  exact ⟨rfl, rfl, hgrown⟩

theorem Consistent.grown_of_addAsyncChunk {parent g : GroupKey} {label : Option String}
    {ms : List ModuleId} {c : ChunkKey} (h : p.Consistent)
    (hadd : p.addAsyncChunk parent label ms = (q, .ok (g, c))) : ∃ above,
      p.groups.get? parent = some above ∧ g = (p.asyncGroup parent label).key ∧
      c = (p.asyncChunk above label).key ∧
      p.Grown q (p.asyncChunk above label) (p.asyncGroup parent label) := by
  cases habove : p.groups.get? parent with
  | none =>
    rw [addAsyncChunk_orphan (OrderedMap.get?_eq_none.mp habove)] at hadd
    cases hadd
  | some above =>
    obtain ⟨q', hadd', hgrown⟩ := h.addAsyncChunk_ok habove label ms
    rw [hadd] at hadd'
    cases hadd'
    exact ⟨above, rfl, rfl, rfl, hgrown⟩

namespace Grown

theorem groupKey_free (j : p.Grown q C G) (h : p.Consistent) : G.key ∉ p.groups.keys :=
  j.groupKey ▸ h.free_group

theorem chunkKey_free (j : p.Grown q C G) (h : p.Consistent) : C.key ∉ p.chunks.keys :=
  j.chunkKey ▸ h.free_chunk

theorem keys (j : p.Grown q C G) (h : p.Consistent) : q.chunks.keys = p.chunks.keys ++ [C.key] := by
  rw [j.chunks, OrderedMap.keys_insert, if_neg (j.chunkKey_free h)]

theorem next (j : p.Grown q C G) : q.supply.next = p.supply.next + 2 := by rw [j.supply]; rfl

theorem group_old (j : p.Grown q C G) (h : p.Consistent) {g : GroupKey} {H : ChunkGroup}
    (hH : p.groups.get? g = some H) :
    q.groups.get? g = some (if g ∈ G.parents then H.addChild G.key else H) := by
  have hne : g ≠ G.key := by
    intro heq
    subst heq
    exact j.groupKey_free h (OrderedMap.mem_keys_of_get? hH)
  rw [j.group, if_neg hne, hH]
  rfl

/-- Every group of a grown plan is the new one or an old one, perhaps with the new one below it. -/
theorem group_cases (j : p.Grown q C G) {g : GroupKey} {H : ChunkGroup}
    (hH : q.groups.get? g = some H) :
    (g = G.key ∧ H = G) ∨ ∃ H₀, p.groups.get? g = some H₀ ∧
      H = if g ∈ G.parents then H₀.addChild G.key else H₀ := by
  rw [j.group] at hH
  split at hH
  · rename_i hg
    exact Or.inl ⟨hg, (Option.some.inj hH).symm⟩
  · obtain ⟨H₀, hH₀, heq⟩ := Option.map_eq_some_iff.mp hH
    exact Or.inr ⟨H₀, hH₀, heq.symm⟩

theorem lists_iff (j : p.Grown q C G) (h : p.Consistent) {g : GroupKey} {k : ChunkKey} :
    q.Lists g k ↔ p.Lists g k ∨ g = G.key ∧ k = C.key := by
  constructor
  · intro hex
    rcases hex with ⟨H, hH, hk⟩
    rcases j.group_cases hH with ⟨hg, rfl⟩ | ⟨H₀, hH₀, rfl⟩
    · rw [j.listed, List.mem_singleton] at hk
      exact Or.inr ⟨hg, hk⟩
    · refine Or.inl ⟨H₀, hH₀, ?_⟩
      split at hk
      · exact hk
      · exact hk
  · intro hor
    rcases hor with ⟨H₀, hH₀, hk⟩ | ⟨rfl, rfl⟩
    · refine ⟨_, j.group_old h hH₀, ?_⟩
      split
      · exact hk
      · exact hk
    · exact ⟨G, by rw [j.group, if_pos rfl], j.listed ▸ List.mem_cons_self⟩

theorem names_iff (j : p.Grown q C G) (h : p.Consistent) {k : ChunkKey} {g : GroupKey} :
    q.Names k g ↔ p.Names k g ∨ g = G.key ∧ k = C.key := by
  constructor
  · intro hex
    rcases hex with ⟨c, hc, hg⟩
    rw [j.chunks] at hc
    rcases OrderedMap.get?_insert_cases hc with ⟨hk, rfl⟩ | ⟨-, hold⟩
    · rw [j.groups, OrderedSet.mem_ofList, List.mem_singleton] at hg
      exact Or.inr ⟨hg, hk⟩
    · exact Or.inl ⟨c, hold, hg⟩
  · intro hor
    rcases hor with ⟨c, hc, hg⟩ | ⟨rfl, rfl⟩
    · refine ⟨c, ?_, hg⟩
      have hne : k ≠ C.key := by
        intro heq
        subst heq
        exact j.chunkKey_free h (OrderedMap.mem_keys_of_get? hc)
      rw [j.chunks, OrderedMap.get?_insert, if_neg hne, hc]
    · refine ⟨C, by rw [j.chunks, OrderedMap.get?_insert_self], ?_⟩
      rw [j.groups, OrderedSet.mem_ofList]
      exact List.mem_cons_self

theorem child_iff (j : p.Grown q C G) (h : p.Consistent) {g c : GroupKey} :
    q.Child g c ↔ p.Child g c ∨ g ∈ G.parents ∧ c = G.key := by
  constructor
  · intro hex
    rcases hex with ⟨H, hH, hc⟩
    rcases j.group_cases hH with ⟨-, rfl⟩ | ⟨H₀, hH₀, rfl⟩
    · rw [j.leaf] at hc
      exact absurd hc (OrderedSet.not_mem_empty c)
    · split at hc
      · rename_i hg
        rcases OrderedSet.mem_insert.mp hc with hc | hc
        · exact Or.inl ⟨H₀, hH₀, hc⟩
        · exact Or.inr ⟨hg, hc⟩
      · exact Or.inl ⟨H₀, hH₀, hc⟩
  · intro hor
    rcases hor with ⟨H₀, hH₀, hc⟩ | ⟨hg, rfl⟩
    · refine ⟨_, j.group_old h hH₀, ?_⟩
      split
      · exact OrderedSet.mem_insert.mpr (Or.inl hc)
      · exact hc
    · obtain ⟨H₀, hH₀⟩ := OrderedMap.exists_of_mem_keys (j.above g hg)
      refine ⟨_, j.group_old h hH₀, ?_⟩
      rw [if_pos hg]
      exact OrderedSet.mem_insert.mpr (Or.inr rfl)

theorem parent_iff (j : p.Grown q C G) (h : p.Consistent) {g c : GroupKey} :
    q.Parent c g ↔ p.Parent c g ∨ g ∈ G.parents ∧ c = G.key := by
  constructor
  · intro hex
    rcases hex with ⟨H, hH, hg⟩
    rcases j.group_cases hH with ⟨hc, rfl⟩ | ⟨H₀, hH₀, rfl⟩
    · exact Or.inr ⟨hg, hc⟩
    · refine Or.inl ⟨H₀, hH₀, ?_⟩
      split at hg
      · exact hg
      · exact hg
  · intro hor
    rcases hor with ⟨H₀, hH₀, hg⟩ | ⟨hg, rfl⟩
    · refine ⟨_, j.group_old h hH₀, ?_⟩
      split
      · exact hg
      · exact hg
    · exact ⟨G, by rw [j.group, if_pos rfl], hg⟩

theorem consistent (j : p.Grown q C G) (h : p.Consistent) : q.Consistent where
  key := by
    intro k c hc
    rw [j.chunks] at hc
    rcases OrderedMap.get?_insert_cases hc with ⟨hk, rfl⟩ | ⟨-, hold⟩
    · exact hk.symm
    · exact h.key hold
  groupKey := by
    intro g H hH
    rcases j.group_cases hH with ⟨hg, rfl⟩ | ⟨H₀, hH₀, rfl⟩
    · exact hg.symm
    · split
      · exact (h.groupKey hH₀ :)
      · exact h.groupKey hH₀
  record k := by
    rw [j.records, j.keys h, List.mem_append, List.mem_append, h.record]
  link k g := by
    rw [j.names_iff h, j.lists_iff h, h.link]
  sound := by
    intro g H hH
    rcases j.group_cases hH with ⟨-, rfl⟩ | ⟨H₀, hH₀, rfl⟩
    · exact j.sound
    · have hsound := h.sound hH₀
      split
      · exact ⟨hsound.nodup, hsound.nonempty, hsound.listed, hsound.roles, hsound.started⟩
      · exact hsound
  mirror g c := by
    rw [j.child_iff h, j.parent_iff h, h.mirror]
  entry := by
    intro name g hg
    rcases j.entrypoints hg with ⟨rfl, hinitial⟩ | hg
    · exact ⟨G, by rw [j.group, if_pos rfl], hinitial⟩
    · obtain ⟨H₀, hH₀, hinitial⟩ := h.entry hg
      refine ⟨_, j.group_old h hH₀, ?_⟩
      split
      · exact hinitial
      · exact hinitial
  chunkFree k hk := by
    rw [j.keys h, List.mem_append, List.mem_singleton] at hk
    have hnext := j.next
    rcases hk with hk | hk
    · have hlt := h.chunkFree k hk
      omega
    · have hnew : k.number = p.supply.next + 1 := by rw [hk, j.chunkKey]; rfl
      omega
  groupFree g hg := by
    rw [j.groupKeys, List.mem_append, List.mem_singleton] at hg
    have hnext := j.next
    rcases hg with hg | hg
    · have hlt := h.groupFree g hg
      omega
    · have hnew : g.number = p.supply.next := by rw [hg, j.groupKey]; rfl
      omega

end Grown

def pin (p : Plan) (k : ChunkKey) : Plan :=
  { p with chunks := p.chunks.modify k fun c => { c with pinned := true } }

theorem get?_pin (p : Plan) (k i : ChunkKey) : (p.pin k).chunks.get? i =
    if i = k then (p.chunks.get? i).map fun c => { c with pinned := true } else p.chunks.get? i :=
  OrderedMap.get?_modify ..

theorem keys_pin (p : Plan) (k : ChunkKey) : (p.pin k).chunks.keys = p.chunks.keys :=
  OrderedMap.keys_modify ..

theorem get?_pin_cases {k i : ChunkKey} {c : Chunk} (hc : (p.pin k).chunks.get? i = some c) :
    ∃ c₀, p.chunks.get? i = some c₀ ∧ c.key = c₀.key ∧ c.groups = c₀.groups := by
  rw [get?_pin] at hc
  split at hc
  · obtain ⟨c₀, hc₀, rfl⟩ := Option.map_eq_some_iff.mp hc
    exact ⟨c₀, hc₀, rfl, rfl⟩
  · exact ⟨c, hc, rfl, rfl⟩

/-- Chunks may change as long as they keep their keys and groups. -/
theorem Consistent.relabel {chunks : Chunks} (h : p.Consistent)
    (hkeys : chunks.keys = p.chunks.keys)
    (hchunk : ∀ {k c}, chunks.get? k = some c → ∃ c₀, p.chunks.get? k = some c₀ ∧
      c.key = c₀.key ∧ c.groups = c₀.groups) : Consistent { p with chunks } := by
  have hnames : ∀ k g, Names { p with chunks } k g ↔ p.Names k g := by
    intro k g
    constructor
    · intro hex
      rcases hex with ⟨c, hc, hg⟩
      obtain ⟨c₀, hc₀, -, hgroups⟩ := hchunk hc
      exact ⟨c₀, hc₀, hgroups ▸ hg⟩
    · intro hex
      rcases hex with ⟨c₀, hc₀, hg⟩
      have hk : k ∈ chunks.keys := hkeys ▸ OrderedMap.mem_keys_of_get? hc₀
      obtain ⟨c, hc⟩ := OrderedMap.exists_of_mem_keys hk
      obtain ⟨c₁, hc₁, -, hgroups⟩ := hchunk hc
      rw [hc₀] at hc₁
      cases hc₁
      exact ⟨c, hc, hgroups ▸ hg⟩
  exact { h with
    key := by
      intro k c hc
      obtain ⟨c₀, hc₀, hkey, -⟩ := hchunk hc
      exact hkey.trans (h.key hc₀)
    record := fun k => by
      rw [hkeys]
      exact h.record k
    link := fun k g => (hnames k g).trans (h.link k g)
    chunkFree := fun k hk => h.chunkFree k (hkeys ▸ hk) }

theorem Consistent.pin (h : p.Consistent) (k : ChunkKey) : (p.pin k).Consistent :=
  h.relabel (keys_pin p k) get?_pin_cases

end Plan

end Bundler
