import Bundler.Proofs.Dependencies
import Bundler.Proofs.Walks
import Mathlib.Order.Lattice.Nat
/-!
# The order of walks

A walk visits what is near before what is far. Its queue holds keys at the present distance from the
root, some of them more than once, and behind them keys that are one step further. What is collected
from a module graph is therefore ordered by the least number of dependencies that lead to it.
-/
namespace Bundler

section Steps
variable {α : Type u} {r s : α → α → Prop} {a b c : α} {n : ℕ}

/-- So many steps of `r` lead from one item to another. -/
def StepsTo (r : α → α → Prop) : ℕ → α → α → Prop
  | 0, a, b => a = b
  | n + 1, a, b => ∃ c, StepsTo r n a c ∧ r c b

theorem exists_stepsTo_iff : (∃ n, StepsTo r n a b) ↔ Relation.ReflTransGen r a b := by
  constructor
  · intro h
    obtain ⟨n, h⟩ := h
    induction n generalizing b with
    | zero => exact h ▸ .refl
    | succ n ih =>
      obtain ⟨c, hc, hstep⟩ := h
      exact (ih hc).tail hstep
  · intro h
    induction h with
    | refl => exact ⟨0, rfl⟩
    | tail _ hstep ih =>
      obtain ⟨n, hn⟩ := ih
      exact ⟨n + 1, _, hn, hstep⟩

/-- The least number of steps of `r` that lead from one item to another. -/
noncomputable def distance (r : α → α → Prop) (a b : α) : ℕ := sInf {n | StepsTo r n a b}

theorem distance_le (h : StepsTo r n a b) : distance r a b ≤ n := Nat.sInf_le h

theorem le_distance (hreach : ∃ m, StepsTo r m a b) (h : ∀ m, StepsTo r m a b → n ≤ m) :
    n ≤ distance r a b := h _ (Nat.sInf_mem hreach)

end Steps

namespace OrderedMap
variable {κ : Type u} {β : Type v} [DecidableEq κ]
variable {step : κ → κ → Prop} {root k : κ} {d : ℕ} {seen near far cs : List κ}

/-- A walk that is at distance `d` from its root: `near` is what is before it at this distance, and
`far` what is one step further. -/
structure Frontier (step : κ → κ → Prop) (root : κ) (d : ℕ) (seen near far : List κ) : Prop where
  near_at : ∀ k ∈ near, StepsTo step d root k
  far_at : ∀ k ∈ far, StepsTo step (d + 1) root k
  seen_at : ∀ k ∈ seen, ∃ n ≤ d, StepsTo step n root k
  complete : ∀ n ≤ d, ∀ k, StepsTo step n root k → k ∈ seen ∨ n = d ∧ k ∈ near
  closed : ∀ k ∈ seen, ∀ j, step k j → j ∈ seen ∨ j ∈ near ∨ j ∈ far
  ordered : seen.Pairwise fun i j => distance step root i ≤ distance step root j

namespace Frontier

omit [DecidableEq κ] in
theorem start (step : κ → κ → Prop) (root : κ) : Frontier step root 0 [] [root] [] where
  near_at k hk := (List.mem_singleton.mp hk).symm
  far_at k hk := absurd hk List.not_mem_nil
  seen_at k hk := absurd hk List.not_mem_nil
  complete n hn k hk := by
    obtain rfl := Nat.le_zero.mp hn
    exact Or.inr ⟨rfl, List.mem_singleton.mpr hk.symm⟩
  closed k hk := absurd hk List.not_mem_nil
  ordered := .nil

omit [DecidableEq κ] in
/-- When nothing is left at this distance, what is one step further is next. -/
theorem advance (h : Frontier step root d seen [] far) :
    Frontier step root (d + 1) seen far [] where
  near_at := h.far_at
  far_at k hk := absurd hk List.not_mem_nil
  seen_at k hk := by
    obtain ⟨n, hn, hstep⟩ := h.seen_at k hk
    exact ⟨n, by omega, hstep⟩
  complete n hn k hk := by
    rcases Nat.lt_or_eq_of_le hn with hlt | rfl
    · exact Or.inl (by simpa using h.complete n (by omega) k hk)
    · obtain ⟨c, hc, hstep⟩ := hk
      have hseen : c ∈ seen := by simpa using h.complete d le_rfl c hc
      have hnext := h.closed c hseen k hstep
      simpa using hnext
  closed k hk j hj := by simpa using h.closed k hk j hj
  ordered := h.ordered

omit [DecidableEq κ] in
/-- A key that was visited before is passed over. -/
theorem skip (h : Frontier step root d seen (k :: near) far) (hk : k ∈ seen) :
    Frontier step root d seen near far where
  near_at j hj := h.near_at j (List.mem_cons_of_mem _ hj)
  far_at := h.far_at
  seen_at := h.seen_at
  complete n hn j hj := by
    have hj := h.complete n hn j hj
    grind
  closed i hi j hj := by
    have hj := h.closed i hi j hj
    grind
  ordered := h.ordered

omit [DecidableEq κ] in
/-- A key that is visited now is as far away as the walk has come, since whatever is nearer has been
visited. -/
theorem visit (h : Frontier step root d seen (k :: near) far) (hk : k ∉ seen)
    (hcs : ∀ j, step k j ↔ j ∈ cs) : Frontier step root d (seen ++ [k]) near (far ++ cs) where
  near_at j hj := h.near_at j (List.mem_cons_of_mem _ hj)
  far_at j hj := by
    rcases List.mem_append.mp hj with hj | hj
    · exact h.far_at j hj
    · exact ⟨k, h.near_at k List.mem_cons_self, (hcs j).mpr hj⟩
  seen_at j hj := by
    rcases List.mem_append.mp hj with hj | hj
    · exact h.seen_at j hj
    · obtain rfl := List.mem_singleton.mp hj
      exact ⟨d, le_rfl, h.near_at j List.mem_cons_self⟩
  complete n hn j hj := by
    have hj := h.complete n hn j hj
    grind
  closed i hi j hj := by
    rcases List.mem_append.mp hi with hi | hi
    · have hj := h.closed i hi j hj
      grind
    · obtain rfl := List.mem_singleton.mp hi
      simp [(hcs j).mp hj]
  ordered := by
    have hfar : d ≤ distance step root k := by
      apply le_distance ⟨d, h.near_at k List.mem_cons_self⟩
      intro n hn
      by_contra hlt
      have hseen := h.complete n (by omega) k hn
      grind
    rw [List.pairwise_append]
    refine ⟨h.ordered, List.pairwise_singleton _ _, ?_⟩
    intro i hi j hj
    obtain rfl := List.mem_singleton.mp hj
    obtain ⟨n, hn, hstep⟩ := h.seen_at i hi
    have hnear := distance_le hstep
    omega

omit [DecidableEq κ] in
/-- The head of the queue can be taken to be at the distance of the walk. -/
theorem turn {queue : List κ} (h : Frontier step root d seen near far)
    (hqueue : near ++ far = k :: queue) :
    ∃ d near far, near ++ far = queue ∧ Frontier step root d seen (k :: near) far := by
  cases near with
  | nil =>
    obtain rfl : far = k :: queue := hqueue
    exact ⟨d + 1, queue, [], List.append_nil _, h.advance⟩
  | cons i near =>
    obtain ⟨rfl, rfl⟩ := List.cons.inj hqueue
    exact ⟨d, near, far, rfl, h⟩

end Frontier

variable {m : OrderedMap κ β} {next : κ → β → List κ} {queue : List κ}

theorem walkFrom_ordered (h : Frontier (m.Leads next) root d seen near far)
    (hqueue : near ++ far = queue) :
    (m.walkFrom next seen queue).Pairwise fun i j =>
      distance (m.Leads next) root i ≤ distance (m.Leads next) root j := by
  fun_induction walkFrom m next seen queue generalizing d near far with
  | case1 seen => exact h.ordered
  | case2 seen i queue hs ih =>
    obtain ⟨d, near, far, hrest, h⟩ := h.turn hqueue
    exact ih (h.skip hs) hrest
  | case3 seen i queue hs hnone ih =>
    obtain ⟨d, near, far, hrest, h⟩ := h.turn hqueue
    have hnext : ∀ j, m.Leads next i j ↔ j ∈ [] := by simp [Leads, hnone]
    exact ih (h.visit hs hnext) (by rw [List.append_nil, hrest])
  | case4 seen i queue hs b hb ih =>
    obtain ⟨d, near, far, hrest, h⟩ := h.turn hqueue
    have hnext : ∀ j, m.Leads next i j ↔ j ∈ next i b := by simp [Leads, hb]
    exact ih (h.visit hs hnext) (by rw [← List.append_assoc, hrest])

/-- A walk visits keys in the order of their distance from where it starts. -/
theorem walk_ordered : (m.walk next [root]).Pairwise fun i j =>
    distance (m.Leads next) root i ≤ distance (m.Leads next) root j :=
  walkFrom_ordered (Frontier.start _ root) rfl

end OrderedMap

namespace ModuleGraph
variable {g : ModuleGraph} {entry m n : ModuleId} {k : ℕ}

/-- The steps of a walk over the graph, which may lead out of it. -/
abbrev Leads (g : ModuleGraph) : ModuleId → ModuleId → Prop :=
  g.modules.Leads fun _ m => m.dependencies.toList

theorem depends_iff : g.Depends m n ↔ g.Leads m n ∧ g.contains n = true := by
  unfold Depends
  constructor
  · intro h
    obtain ⟨M, hM, hn, hcontains⟩ := h
    exact ⟨⟨M, hM, hn⟩, hcontains⟩
  · intro h
    obtain ⟨⟨M, hM, hn⟩, hcontains⟩ := h
    exact ⟨M, hM, hn, hcontains⟩

theorem contains_of_leads (h : g.Leads m n) : g.contains m = true := by
  obtain ⟨M, hM, -⟩ := h
  exact Option.isSome_iff_exists.mpr ⟨M, hM⟩

/-- A way out of the graph does not lead back into it. -/
theorem stepsTo_depends_iff (hentry : g.contains entry = true) :
    StepsTo g.Depends k entry m ↔ StepsTo g.Leads k entry m ∧ g.contains m = true := by
  induction k generalizing m with
  | zero =>
    constructor
    · intro h
      exact ⟨h, (show entry = m from h) ▸ hentry⟩
    · exact And.left
  | succ k ih =>
    constructor
    · intro h
      obtain ⟨c, hc, hstep⟩ := h
      obtain ⟨hleads, hm⟩ := depends_iff.mp hstep
      exact ⟨⟨c, (ih.mp hc).1, hleads⟩, hm⟩
    · intro h
      obtain ⟨⟨c, hc, hleads⟩, hm⟩ := h
      exact ⟨c, ih.mpr ⟨hc, contains_of_leads hleads⟩, depends_iff.mpr ⟨hleads, hm⟩⟩

theorem reaches_iff (hentry : g.contains entry = true) :
    Relation.ReflTransGen g.Depends entry m ↔
      Relation.ReflTransGen g.Leads entry m ∧ g.contains m = true := by
  rw [← exists_stepsTo_iff, ← exists_stepsTo_iff]
  simp only [stepsTo_depends_iff hentry, exists_and_right]

theorem distance_depends (hentry : g.contains entry = true) (hm : g.contains m = true) :
    distance g.Depends entry m = distance g.Leads entry m := by
  unfold distance
  simp only [stepsTo_depends_iff hentry, hm, and_true]

theorem head_eq_of_prefix {ids : List ModuleId} (h : [entry] <+: ids)
    (hentry : g.contains entry = true) : (ids.filter g.contains).head? = some entry := by
  obtain ⟨rest, rfl⟩ := h
  simp [hentry]

/-- Collecting what is reached from a module ends on every graph. It fails for a module that is not
there; else it gives each module that dependencies within the graph lead to, once, in the order of
the least number of dependencies that it takes. -/
theorem reachable_breadthFirst (g : ModuleGraph) (entry : ModuleId) :
    (g.reachable entry = .error (.moduleNotFound entry) ↔ g.contains entry = false) ∧
    (g.contains entry = true → ∃ ids, g.reachable entry = .ok ids ∧
      ids.Nodup ∧ ids.head? = some entry ∧
      (∀ m, m ∈ ids ↔ Relation.ReflTransGen g.Depends entry m) ∧
      ids.Pairwise fun m n => distance g.Depends entry m ≤ distance g.Depends entry n) := by
  unfold reachable
  cases hentry : g.contains entry with
  | false => simp
  | true =>
    refine ⟨by simp, fun _ => ⟨_, rfl, ?_, ?_, ?_, ?_⟩⟩
    · exact OrderedMap.nodup_walk.filter _
    · exact head_eq_of_prefix OrderedMap.prefix_walk hentry
    · intro m
      rw [List.mem_filter, OrderedMap.mem_walk_iff, reaches_iff hentry]
      simp
    · rw [List.pairwise_filter]
      apply OrderedMap.walk_ordered.imp
      intro m n hle hm hn
      rw [distance_depends hentry hm, distance_depends hentry hn]
      exact hle

end ModuleGraph

end Bundler
