import Bundler.Ordered.Map
/-!
# Walks over keyed graphs

A graph is a map whose values name further keys. A walk visits every key that can be reached from
a list of starting keys, each once, in breadth-first order. Keys without an entry are visited but
lead nowhere. The walk ends on every graph, cyclic or not, because each step either visits a new
entry of the map or shortens the queue.
-/
namespace Bundler.OrderedMap

variable {κ : Type u} {β : Type v} [DecidableEq κ]

/-- The entries that a walk has not come to. A step that visits one makes these fewer. -/
def unvisited (m : OrderedMap κ β) (seen : List κ) : List κ := m.keys.filter (· ∉ seen)

theorem length_unvisited_le (m : OrderedMap κ β) (seen : List κ) (k : κ) :
    (m.unvisited (seen ++ [k])).length ≤ (m.unvisited seen).length := by
  unfold unvisited
  have h : m.keys.filter (· ∉ seen ++ [k]) = (m.keys.filter (· ∉ seen)).filter (· ≠ k) := by
    rw [List.filter_filter]; congr 1; funext x; simp; grind
  rw [h]
  exact List.length_filter_le _ _

theorem length_unvisited_lt {m : OrderedMap κ β} {seen : List κ} {k : κ} (hk : k ∈ m.keys)
    (hs : k ∉ seen) : (m.unvisited (seen ++ [k])).length < (m.unvisited seen).length := by
  unfold unvisited
  have h : m.keys.filter (· ∉ seen ++ [k]) = (m.keys.filter (· ∉ seen)).filter (· ≠ k) := by
    rw [List.filter_filter]; congr 1; funext x; simp; grind
  rw [h]
  exact List.length_filter_lt_length_iff_exists.2 ⟨k, by simp [hk, hs], by simp⟩

/-- Goes on with a walk that has visited `seen` and has `queue` before it. -/
def walkFrom (m : OrderedMap κ β) (next : κ → β → List κ) (seen : List κ) : List κ → List κ
  | [] => seen
  | k :: queue =>
    if _hs : k ∈ seen then m.walkFrom next seen queue
    else match _h : m.get? k with
      | none => m.walkFrom next (seen ++ [k]) queue
      | some b => m.walkFrom next (seen ++ [k]) (queue ++ next k b)
termination_by queue => ((m.unvisited seen).length, queue.length)
decreasing_by
  · exact Prod.Lex.right _ (by simp)
  · rcases Nat.lt_or_eq_of_le (m.length_unvisited_le seen k) with h' | h'
    · exact Prod.Lex.left _ _ h'
    · rw [h']; exact Prod.Lex.right _ (by simp)
  · exact Prod.Lex.left _ _ (length_unvisited_lt (mem_keys_iff.2 (by simp [_h])) _hs)

/-- The keys that can be reached from `start`, each once, in breadth-first order. -/
def walk (m : OrderedMap κ β) (next : κ → β → List κ) (start : List κ) : List κ :=
  m.walkFrom next [] start

end Bundler.OrderedMap
