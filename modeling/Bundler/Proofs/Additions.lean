import Bundler.Proofs.BothSides
import Bundler.Proofs.Growth
/-!
# What an addition consists of

Adding an entrypoint or an on-demand chunk that succeeds has stored one chunk and one group whose
fields are known beforehand, and has placed modules in the new chunk in known steps. What a property
needs to know of an addition is read off here, so that no other proof opens the two operations.
-/
namespace Bundler

/-- What connecting a chunk to one module keeps, connecting it to several keeps. -/
theorem Placement.connectEach_keeps {P : Placement → Prop} {p q : Placement} {c : ChunkKey}
    {ms : List ModuleId} (hstep : ∀ t m u, P t → t.connect c m = .ok u → P u) (hp : P p)
    (h : p.connectEach c ms = (q, .ok ())) : P q := by
  induction ms generalizing p with
  | nil =>
    cases h
    exact hp
  | cons m ms ih =>
    unfold connectEach at h
    split at h
    · rename_i t ht
      exact ih (hstep p m t hp ht) h
    · cases h

namespace Plan
variable {p q : Plan} {c : ChunkKey} {g parent : GroupKey} {name : String} {entry root : ModuleId}

/-- The modules that come into a chunk with `root`: all it reaches, or itself alone if it is not in
the module graph. -/
def Brings (modules : ModuleGraph) (root : ModuleId) (ids : List ModuleId) : Prop :=
  modules.reachable root = .ok ids ∨ modules.contains root = false ∧ ids = [root]

theorem brings_of_broughtBy {ids : List ModuleId} (h : p.broughtBy root = .ok ids) :
    Brings p.modules root ids := by
  unfold broughtBy at h
  split at h
  · exact Or.inl h
  · rename_i hroot
    exact Or.inr ⟨Bool.not_eq_true _ ▸ hroot, (Except.ok.inj h).symm⟩

theorem placeReachable_eq_ok (h : p.placeReachable c root = (q, .ok ())) : ∃ ids placement,
    Brings p.modules root ids ∧ p.placement.connectEach c ids = (placement, .ok ()) ∧
      q = { p with placement } := by
  unfold placeReachable at h
  split at h
  · cases h
  · rename_i ids hids
    obtain ⟨hq, hdone⟩ := Prod.mk.inj h
    exact ⟨ids, _, brings_of_broughtBy hids, Prod.ext rfl hdone, hq.symm⟩

/-- What placing one module keeps, placing several keeps. -/
theorem placeEach_keeps {P : Plan → Prop} {ms : List ModuleId}
    (hstep : ∀ t m u, P t → t.placeReachable c m = (u, .ok ()) → P u) (hp : P p)
    (h : p.placeEach c ms = (q, .ok ())) : P q := by
  induction ms generalizing p with
  | nil =>
    cases h
    exact hp
  | cons m ms ih =>
    unfold placeEach at h
    split at h
    · rename_i t ht
      exact ih (hstep p m t hp ht) h
    · cases h

/-- Placing modules changes the placement of a plan and nothing else. -/
theorem placeEach_eq_ok {ms : List ModuleId} (h : p.placeEach c ms = (q, .ok ())) :
    ∃ placement, q = { p with placement } := by
  refine placeEach_keeps (P := fun t => ∃ placement, t = { p with placement }) ?_ ⟨_, rfl⟩ h
  intro t m u ht hu
  obtain ⟨v, rfl⟩ := ht
  obtain ⟨-, w, -, -, rfl⟩ := placeReachable_eq_ok hu
  exact ⟨w, rfl⟩

theorem addEntrypoint_eq_ok (h : p.addEntrypoint name entry = (q, .ok (g, c))) :
    g = (p.entryGroup name).key ∧ c = (p.entryChunk name).key ∧ ∃ ids t placement,
      (p.placement.addChunk c).connectEntry c entry g = .ok t ∧ Brings p.modules entry ids ∧
      t.connectEach c ids = (placement, .ok ()) ∧
      q = { p with
        placement
        supply := p.supply.group.2.chunk.2
        chunks := p.chunks.insert c (p.entryChunk name)
        groups := p.groups.insert g (p.entryGroup name)
        entrypoints := p.entrypoints.insert name g } := by
  dsimp only [addEntrypoint] at h
  split at h
  · cases h
  · rename_i t ht
    split at h
    · cases h
    · rename_i u hu
      obtain ⟨ids, placement, hids, hplace, rfl⟩ := placeReachable_eq_ok hu
      cases h
      exact ⟨rfl, rfl, ids, t, placement, ht, hids, hplace, rfl⟩

theorem addAsyncChunk_eq_ok {label : Option String} {ms : List ModuleId}
    (h : p.addAsyncChunk parent label ms = (q, .ok (g, c))) : ∃ above,
      p.groups.get? parent = some above ∧ g = (p.asyncGroup parent label).key ∧
      c = (p.asyncChunk above label).key ∧
      placeEach { p with
        placement := p.placement.addChunk c
        supply := p.supply.group.2.chunk.2
        chunks := p.chunks.insert c (p.asyncChunk above label)
        groups := (p.groups.insert g (p.asyncGroup parent label)).modify parent (·.addChild g) }
        c ms = (q, .ok ()) := by
  cases habove : p.groups.get? parent with
  | none =>
    rw [addAsyncChunk_orphan (OrderedMap.get?_eq_none.mp habove)] at h
    cases h
  | some above =>
    rw [addAsyncChunk, Groups.require, habove] at h
    obtain ⟨hq, hdone⟩ := Prod.mk.inj h
    obtain ⟨⟨⟩, hplaced, hkeys⟩ := map_eq_ok.mp hdone
    cases hkeys
    exact ⟨above, rfl, rfl, rfl, Prod.ext hq hplaced⟩

end Plan

end Bundler
