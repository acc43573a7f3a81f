import Bundler.Ordered.Walk
import Mathlib.Logic.Relation
/-!
# Where walks lead

A walk over a keyed graph visits just the keys that can be reached from where it starts. What it has
visited and what it still has before it are closed under the steps of the graph at every moment, so
that nothing is left out when it ends, on cyclic graphs as on others.
-/
namespace Bundler.OrderedMap
variable {κ : Type u} {β : Type v} [DecidableEq κ]

/-- The entry of `k` names `j`. -/
def Leads (m : OrderedMap κ β) (next : κ → β → List κ) (k j : κ) : Prop :=
  ∃ b, m.get? k = some b ∧ j ∈ next k b

variable {m : OrderedMap κ β} {next : κ → β → List κ} {seen queue start : List κ} {i j k : κ}

omit [DecidableEq κ] in
/-- Visiting the head of the queue loses no key. -/
theorem mem_visit : j ∈ seen ++ [i] ∨ j ∈ queue ↔ j ∈ seen ∨ j ∈ i :: queue := by
  rw [List.mem_append, List.mem_singleton, List.mem_cons, or_assoc]

omit [DecidableEq κ] in
theorem mem_skip (hi : i ∈ seen) : j ∈ seen ∨ j ∈ queue ↔ j ∈ seen ∨ j ∈ i :: queue := by
  rw [List.mem_cons]
  constructor
  · exact Or.imp_right Or.inr
  · intro h
    rcases h with h | rfl | h
    · exact Or.inl h
    · exact Or.inl hi
    · exact Or.inr h

theorem mem_walkFrom (h : j ∈ seen ∨ j ∈ queue) : j ∈ m.walkFrom next seen queue := by
  fun_induction walkFrom m next seen queue with
  | case1 seen => simpa using h
  | case2 seen i queue hs ih => exact ih ((mem_skip hs).mpr h)
  | case3 seen i queue hs hnone ih => exact ih (mem_visit.mpr h)
  | case4 seen i queue hs b hb ih =>
    apply ih
    exact (mem_visit.mpr h).imp_right fun hqueue => List.mem_append_left _ hqueue

theorem walkFrom_sound (h : j ∈ m.walkFrom next seen queue) :
    j ∈ seen ∨ ∃ k ∈ queue, Relation.ReflTransGen (m.Leads next) k j := by
  fun_induction walkFrom m next seen queue with
  | case1 seen => exact Or.inl h
  | case2 seen i queue hs ih =>
    rcases ih h with hseen | ⟨k, hk, hreach⟩
    · exact Or.inl hseen
    · exact Or.inr ⟨k, List.mem_cons_of_mem _ hk, hreach⟩
  | case3 seen i queue hs hnone ih =>
    rcases ih h with hvisited | ⟨k, hk, hreach⟩
    · rcases List.mem_append.mp hvisited with hseen | hi
      · exact Or.inl hseen
      · exact Or.inr ⟨i, List.mem_cons_self, List.mem_singleton.mp hi ▸ .refl⟩
    · exact Or.inr ⟨k, List.mem_cons_of_mem _ hk, hreach⟩
  | case4 seen i queue hs b hb ih =>
    rcases ih h with hvisited | ⟨k, hk, hreach⟩
    · rcases List.mem_append.mp hvisited with hseen | hi
      · exact Or.inl hseen
      · exact Or.inr ⟨i, List.mem_cons_self, List.mem_singleton.mp hi ▸ .refl⟩
    · rcases List.mem_append.mp hk with hk | hk
      · exact Or.inr ⟨k, List.mem_cons_of_mem _ hk, hreach⟩
      · exact Or.inr ⟨i, List.mem_cons_self, hreach.head ⟨b, hb, hk⟩⟩

/-- Where every step from what was visited stays within what was visited or is still to come, every
step from what is visited in the end was visited. -/
theorem walkFrom_closed (hseen : ∀ k ∈ seen, ∀ j, m.Leads next k j → j ∈ seen ∨ j ∈ queue)
    (hk : k ∈ m.walkFrom next seen queue) (hj : m.Leads next k j) :
    j ∈ m.walkFrom next seen queue := by
  fun_induction walkFrom m next seen queue with
  | case1 seen => simpa using hseen k hk j hj
  | case2 seen i queue hs ih =>
    exact ih (fun l hl n hn => (mem_skip hs).mpr (hseen l hl n hn)) hk
  | case3 seen i queue hs hnone ih =>
    apply ih _ hk
    intro l hl n hn
    rcases List.mem_append.mp hl with hl | hl
    · exact mem_visit.mpr (hseen l hl n hn)
    · have hl' := List.mem_singleton.mp hl
      subst hl'
      obtain ⟨b, hb, -⟩ := hn
      rw [hnone] at hb
      cases hb
  | case4 seen i queue hs b hb ih =>
    apply ih _ hk
    intro l hl n hn
    rcases List.mem_append.mp hl with hl | hl
    · exact (mem_visit.mpr (hseen l hl n hn)).imp_right fun hin => List.mem_append_left _ hin
    · have hl' := List.mem_singleton.mp hl
      subst hl'
      obtain ⟨b', hb', hin⟩ := hn
      rw [hb] at hb'
      cases hb'
      exact Or.inr (List.mem_append_right _ hin)

/-- A walk goes on from a set that no step leaves: it adds what can be reached from its queue. -/
theorem mem_walkFrom_iff (hseen : ∀ k ∈ seen, ∀ j, m.Leads next k j → j ∈ seen) :
    j ∈ m.walkFrom next seen queue ↔
      j ∈ seen ∨ ∃ k ∈ queue, Relation.ReflTransGen (m.Leads next) k j := by
  constructor
  · exact walkFrom_sound
  · intro h
    rcases h with h | ⟨k, hk, hreach⟩
    · exact mem_walkFrom (Or.inl h)
    · induction hreach with
      | refl => exact mem_walkFrom (Or.inr hk)
      | tail _ hstep ih => exact walkFrom_closed (fun l hl n hn => .inl (hseen l hl n hn)) ih hstep

theorem mem_walk_iff : j ∈ m.walk next start ↔
    ∃ k ∈ start, Relation.ReflTransGen (m.Leads next) k j := by
  unfold walk
  rw [mem_walkFrom_iff fun l hl => absurd hl List.not_mem_nil]
  simp

omit [DecidableEq κ] in
theorem nodup_visit (h : seen.Nodup) (hi : i ∉ seen) : (seen ++ [i]).Nodup := by
  simp [List.nodup_append, h]
  exact fun k hk heq => hi (heq ▸ hk)

theorem nodup_walkFrom (h : seen.Nodup) : (m.walkFrom next seen queue).Nodup := by
  fun_induction walkFrom m next seen queue with
  | case1 seen => exact h
  | case2 seen i queue hs ih => exact ih h
  | case3 seen i queue hs hnone ih => exact ih (nodup_visit h hs)
  | case4 seen i queue hs b hb ih => exact ih (nodup_visit h hs)

theorem nodup_walk : (m.walk next start).Nodup := nodup_walkFrom List.nodup_nil

/-- What was visited stays where it is. -/
theorem prefix_walkFrom : seen <+: m.walkFrom next seen queue := by
  fun_induction walkFrom m next seen queue with
  | case1 seen => exact List.prefix_rfl
  | case2 seen i queue hs ih => exact ih
  | case3 seen i queue hs hnone ih => exact (List.prefix_append seen [i]).trans ih
  | case4 seen i queue hs b hb ih => exact (List.prefix_append seen [i]).trans ih

/-- A walk starts with the first key it is given. -/
theorem prefix_walk {k : κ} {rest : List κ} : [k] <+: m.walk next (k :: rest) := by
  unfold walk
  rw [walkFrom, dif_neg List.not_mem_nil]
  split <;> exact prefix_walkFrom

end Bundler.OrderedMap
