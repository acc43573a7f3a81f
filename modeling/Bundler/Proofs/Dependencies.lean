import Bundler.Proofs.Actions
import Bundler.Proofs.Additions
import Bundler.Proofs.Walks
import Mathlib
/-!
# Chunks hold what their modules need

As long as the module graph stays as it is, every chunk holds with a module also what the module
depends on, so far as this is in the graph. A walk over the graph collects all that is reached, in
whatever way it is reached, and what is merged of closed sets is closed.
-/
namespace Bundler

namespace ModuleGraph
variable {g : ModuleGraph} {m n root : ModuleId} {ids : List ModuleId}

/-- Both modules are in the graph, and the first depends on the second. -/
def Depends (g : ModuleGraph) (m n : ModuleId) : Prop :=
  ∃ M, g.get? m = some M ∧ n ∈ M.dependencies ∧ g.contains n = true

theorem reachable_closed (h : g.reachable root = .ok ids) (hm : m ∈ ids) (hd : g.Depends m n) :
    n ∈ ids := by
  unfold reachable at h
  split at h
  · cases h
    obtain ⟨M, hM, hn, hcontains⟩ := hd
    obtain ⟨k, hk, hreach⟩ := OrderedMap.mem_walk_iff.mp (List.mem_filter.mp hm).1
    have hstep : g.modules.Leads (fun _ m => m.dependencies.toList) m n := ⟨M, hM, hn⟩
    have hwalk := OrderedMap.mem_walk_iff.mpr ⟨k, hk, hreach.tail hstep⟩
    exact List.mem_filter.mpr ⟨hwalk, hcontains⟩
  · cases h

end ModuleGraph

namespace Placement
variable {p q : Placement} {c k : ChunkKey} {m n : ModuleId}

def Holds (p : Placement) (k : ChunkKey) (m : ModuleId) : Prop :=
  ∃ r, p.chunks.get? k = some r ∧ m ∈ r.modules

theorem holds_insert {r : ChunkRecord} {modules : OrderedMap ModuleId ModuleRecord} :
    Holds { chunks := p.chunks.insert c r, modules } k m ↔
      if k = c then m ∈ r.modules else p.Holds k m := by
  unfold Holds
  rw [OrderedMap.get?_insert]
  split
  · simp
  · rfl

theorem holds_addChunk : (p.addChunk c).Holds k m ↔ p.Holds k m := by
  unfold addChunk
  split
  · rfl
  · rename_i hc
    rw [holds_insert]
    split
    · rename_i hk
      have hnone : p.chunks.get? k = none := by
        rw [hk, OrderedMap.get?_eq_none]
        exact fun hin => hc (OrderedMap.contains_iff.mpr hin)
      simp [Holds, hnone]
    · rfl

/-- A record that changes in other ways than in its modules leaves what is held. -/
theorem holds_insert_same {r s : ChunkRecord} {modules : OrderedMap ModuleId ModuleRecord}
    (hr : p.chunks.get? c = some r) (hs : s.modules = r.modules) :
    Holds { chunks := p.chunks.insert c s, modules } k m ↔ p.Holds k m := by
  rw [holds_insert, hs]
  split
  · rename_i hk
    simp [Holds, hk, hr]
  · rfl

theorem holds_connectEntry {g : GroupKey} (h : p.connectEntry c n g = .ok q) :
    q.Holds k m ↔ p.Holds k m := by
  obtain ⟨r, hr, rfl⟩ := update_eq_ok h
  exact holds_insert_same hr rfl

theorem holds_connect (h : p.connect c n = .ok q) :
    q.Holds k m ↔ p.Holds k m ∨ k = c ∧ m = n := by
  obtain ⟨r, hr, rfl⟩ := update_eq_ok h
  rw [holds_insert]
  split
  · rename_i hk
    simp [Holds, hk, hr]
  · rename_i hk
    simp [hk]

theorem holds_connectEach {ids : List ModuleId} (h : p.connectEach c ids = (q, .ok ())) :
    q.Holds k m ↔ p.Holds k m ∨ k = c ∧ m ∈ ids := by
  induction ids generalizing p with
  | nil =>
    cases h
    simp
  | cons n ids ih =>
    unfold connectEach at h
    split at h
    · rename_i t ht
      rw [ih h, holds_connect ht, List.mem_cons, and_or_left, or_assoc]
    · cases h

/-- Every chunk holds what its modules depend on within the graph. -/
def Closed (p : Placement) (g : ModuleGraph) : Prop :=
  ∀ k m n, p.Holds k m → g.Depends m n → p.Holds k n

theorem Closed.of_holds {g : ModuleGraph} (h : p.Closed g)
    (hq : ∀ k m, q.Holds k m ↔ p.Holds k m) : q.Closed g := by
  intro k m n hm hd
  exact (hq k n).mpr (h k m n ((hq k m).mp hm) hd)

end Placement

namespace Plan
variable {p q : Plan} {c k : ChunkKey} {m n root : ModuleId}

theorem Brings.closed {modules : ModuleGraph} {ids : List ModuleId} (h : Brings modules root ids)
    (hm : m ∈ ids) (hd : modules.Depends m n) : n ∈ ids := by
  rcases h with hreach | ⟨habsent, rfl⟩
  · exact ModuleGraph.reachable_closed hreach hm hd
  · obtain ⟨M, hM, -⟩ := hd
    obtain rfl := List.mem_singleton.mp hm
    rw [ModuleGraph.contains, OrderedMap.contains] at habsent
    rw [ModuleGraph.get?] at hM
    rw [hM] at habsent
    cases habsent

/-- Every chunk of the plan holds what its modules depend on within the module graph. -/
def Closed (p : Plan) : Prop := p.placement.Closed p.modules

theorem Brings.place {t u : Placement} {modules : ModuleGraph} {ids : List ModuleId}
    (h : Brings modules root ids) (ht : t.Closed modules)
    (hplace : t.connectEach c ids = (u, .ok ())) : u.Closed modules := by
  intro k m n hm hd
  rw [Placement.holds_connectEach hplace] at hm ⊢
  rcases hm with hold | ⟨hk, hnew⟩
  · exact Or.inl (ht k m n hold hd)
  · exact Or.inr ⟨hk, h.closed hnew hd⟩

theorem Closed.placeReachable (h : p.Closed) (hq : p.placeReachable c root = (q, .ok ())) :
    q.Closed := by
  obtain ⟨ids, placement, hids, hplace, rfl⟩ := placeReachable_eq_ok hq
  exact hids.place h hplace

theorem Closed.addEntrypoint {name : String} {entry : ModuleId} {g : GroupKey} (h : p.Closed)
    (hadd : p.addEntrypoint name entry = (q, .ok (g, c))) : q.Closed := by
  obtain ⟨-, -, ids, t, placement, ht, hids, hplace, rfl⟩ := addEntrypoint_eq_ok hadd
  have hstart : t.Closed p.modules := by
    apply Placement.Closed.of_holds h
    intro k m
    rw [Placement.holds_connectEntry ht, Placement.holds_addChunk]
  exact hids.place hstart hplace

theorem Closed.addAsyncChunk {parent g : GroupKey} {label : Option String} {ms : List ModuleId}
    (h : p.Closed) (hadd : p.addAsyncChunk parent label ms = (q, .ok (g, c))) : q.Closed := by
  obtain ⟨above, -, -, -, hplace⟩ := addAsyncChunk_eq_ok hadd
  refine placeEach_keeps (P := Closed) (fun _ _ _ => Closed.placeReachable) ?_ hplace
  exact Placement.Closed.of_holds h fun _ _ => Placement.holds_addChunk

theorem Closed.mergedBy {f : ChunkKey → ChunkKey} (h : p.Closed) (hm : p.MergedBy f q) :
    q.Closed := by
  intro k m n hmod hd
  obtain ⟨i, hik, hold⟩ := (hm.has k (.module m)).mp hmod
  rw [hm.modules] at hd
  exact (hm.has k (.module n)).mpr ⟨i, hik, h i m n hold hd⟩

/-- The action leaves the module graph as it is. -/
def Action.KeepsGraph : Action → Prop
  | .setModules _ => False
  | _ => True

theorem Closed.perform (h : p.Closed) (hp : p.Consistent) {a : Action} (ha : a.KeepsGraph) :
    (p.perform a).1.Closed ∧ (p.perform a).1.modules = p.modules := by
  cases a with
  | setModules modules => exact absurd ha id
  | addEntrypoint name entry =>
    obtain ⟨q, hadd, j⟩ := hp.addEntrypoint_ok name entry
    rw [Plan.perform, hadd]
    exact ⟨h.addEntrypoint hadd, j.modules⟩
  | addAsyncChunk parent label ms =>
    rw [Plan.perform]
    rcases p.addAsyncChunk_cases parent label ms with hrefused | ⟨q, g, c, hadd⟩
    · rw [hrefused]
      exact ⟨h, rfl⟩
    · obtain ⟨above, -, -, -, j⟩ := hp.grown_of_addAsyncChunk hadd
      rw [hadd]
      exact ⟨h.addAsyncChunk hadd, j.modules⟩
  | pin k => exact ⟨h, rfl⟩
  | pass l =>
    obtain ⟨q, changed, hpass, hpassed⟩ := l.pass_ok hp
    obtain ⟨f, hf⟩ := hpassed.merges.mergedBy hp
    rw [Plan.perform, hpass]
    exact ⟨h.mergedBy hf, hf.modules⟩

theorem Closed.performAll (h : p.Closed) (hp : p.Reached) {actions : List Action}
    (hactions : ∀ a ∈ actions, a.KeepsGraph) :
    (p.performAll actions).Closed ∧ (p.performAll actions).modules = p.modules := by
  induction actions generalizing p with
  | nil => exact ⟨h, rfl⟩
  | cons a actions ih =>
    obtain ⟨ha, hrest⟩ := List.forall_mem_cons.mp hactions
    obtain ⟨hclosed, hmodules⟩ := h.perform hp.consistent ha
    obtain ⟨hall, hsame⟩ := ih hclosed (hp.perform a) hrest
    exact ⟨hall, hsame.trans hmodules⟩

/-- Over a module graph that stays as it is, every chunk holds what its modules depend on within the
graph, whatever is added and merged. -/
theorem performAll_dependencies (modules : ModuleGraph) (supply : KeySupply)
    (actions : List Action) (hactions : ∀ a ∈ actions, a.KeepsGraph) {r : ChunkRecord} {M : Module}
    (hr : (performAll { modules, supply } actions).placement.chunks.get? k = some r)
    (hm : m ∈ r.modules) (hM : modules.get? m = some M) (hn : n ∈ M.dependencies)
    (hcontains : modules.contains n = true) : n ∈ r.modules := by
  have hempty : Closed { modules, supply } := by
    intro k m n hex
    obtain ⟨r, hr, -⟩ := hex
    cases hr
  obtain ⟨hclosed, hsame⟩ := hempty.performAll (.start modules supply) hactions
  have hd : (performAll { modules, supply } actions).modules.Depends m n :=
    hsame ▸ ⟨M, hM, hn, hcontains⟩
  obtain ⟨s, hs, hin⟩ := hclosed k m n ⟨r, hr, hm⟩ hd
  rw [hr] at hs
  cases hs
  exact hin

/-- Two modules that depend on each other, one of them also on a module that is not there, and a
third that depends on them. -/
def cyclicGraph : ModuleGraph :=
  .ofList [{ id := "a", dependencies := .ofList ["b", "gone"] },
    { id := "b", dependencies := .ofList ["a"] }, { id := "c", dependencies := .ofList ["a"] }]

def cyclicActions : List Action := [.addEntrypoint "main" "b", .addAsyncChunk ⟨1⟩ none ["c"]]

/-- The chunk that holds `c` after a pass holds what `c` depends on, directly or not. -/
theorem cyclicGraph_dependencies : ∃ k r,
    (performAll { modules := cyclicGraph, supply := {} }
      (cyclicActions ++ [.pass ⟨1, {}, by decide⟩])).placement.chunks.get? k = some r ∧
    "c" ∈ r.modules ∧ "a" ∈ r.modules ∧ "b" ∈ r.modules := by
  have hmodules : ((performAll { modules := cyclicGraph, supply := {} }
      cyclicActions).placement.chunks.get? ⟨4⟩).map (·.modules.toList) =
      some ["c", "a", "b"] := by cbv
  let p := performAll { modules := cyclicGraph, supply := {} } cyclicActions
  let l : ChunkLimit := ⟨1, {}, by decide⟩
  have hp : p.Consistent := ((Reached.start cyclicGraph {}).performAll _).consistent
  obtain ⟨q, changed, hpass, hpassed⟩ := l.pass_ok hp
  obtain ⟨f, hf⟩ := hpassed.merges.mergedBy hp
  have hq : performAll { modules := cyclicGraph, supply := {} } (cyclicActions ++ [.pass l]) = q :=
    congrArg Prod.fst hpass
  have hc : p.Has ⟨4⟩ (.module "c") := by
    obtain ⟨r, hr, hlist⟩ := Option.map_eq_some_iff.mp hmodules
    exact ⟨r, hr, OrderedSet.mem_iff.mpr (hlist ▸ List.mem_cons_self)⟩
  obtain ⟨r, hr, hin⟩ := (hf.has (f ⟨4⟩) (.module "c")).mpr ⟨⟨4⟩, rfl, hc⟩
  have hall : ∀ a ∈ cyclicActions ++ [.pass l], a.KeepsGraph := by
    simp [cyclicActions, Action.KeepsGraph]
  have hina : "a" ∈ r.modules :=
    performAll_dependencies cyclicGraph {} _ hall (hq ▸ hr) hin rfl (by decide) rfl
  have hinb : "b" ∈ r.modules :=
    performAll_dependencies cyclicGraph {} _ hall (hq ▸ hr) hina rfl (by decide) rfl
  exact ⟨_, r, hq ▸ hr, hin, hina, hinb⟩

end Plan

end Bundler
