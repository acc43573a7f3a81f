import Bundler.Proofs.PlainSet
/-!
# Items that are added again

Where an item is added, a queue looks for it among the items that wait and not in the buckets. So an
item that waits is added again without effect, but one that is sorted waits a second time and is
counted twice. Under keys that stay as they are, the count is right all along just if no sorted item
is added, and then the queue is a set: each call is answered as by the set, and taking out first
items until none is left lists the set in order.
-/
namespace Bundler.BucketQueue

section Draining
variable {α : Type u} {n : Nat} {keys : SortKeys α} {S : α → Prop} {q r : BucketQueue α n} {a : α}

theorem add_eq_self_iff [DecidableEq α] : q.add a = q ↔ a ∈ q.waiting := by
  unfold add
  split
  · rename_i hw
    exact iff_of_true rfl hw
  · rename_i hw
    refine iff_of_false (fun h => ?_) hw
    have hlength := congrArg (fun q => q.waiting.length) h
    simp at hlength

theorem drain_of_none [Ord α] (h : q.popFirst keys = (none, r)) : q.drain keys = ([], r) := by
  rw [drain]
  split
  · rename_i h'
    rw [h] at h'
    cases h'
    rfl
  · rename_i h'
    rw [h] at h'
    cases h'

theorem drain_of_some [Ord α] (h : q.popFirst keys = (some a, r)) :
    q.drain keys = (a :: (r.drain keys).1, (r.drain keys).2) := by
  rw [drain]
  split
  · rename_i h'
    rw [h] at h'
    cases h'
  · rename_i h'
    rw [h] at h'
    cases h'
    rfl

theorem Holds.size_eq_zero [Ord α] (h : q.Holds keys S) (hS : ∀ a, ¬ S a) : q.size = 0 := by
  rw [h.size_eq, List.length_eq_zero_iff, List.eq_nil_iff_forall_not_mem]
  exact fun a ha => hS a (h.mem_items.mp ha)

/-- Draining takes out each item once, in order, and leaves nothing. -/
theorem Holds.drain [DecidableEq α] [Ord α] [Std.TransOrd α] [Std.LawfulEqOrd α]
    (h : q.Holds keys S) :
    (∀ a, a ∈ (q.drain keys).1 ↔ S a) ∧ (q.drain keys).1.Nodup ∧
      (q.drain keys).1.Pairwise (fun a b => (entryOf n keys a).Before (entryOf n keys b)) ∧
      (q.drain keys).2.size = 0 := by
  induction q using BucketQueue.drain.induct keys generalizing S with
  | case1 q r hpop =>
    have hnone := h.popFirst_none hpop
    rw [drain_of_none hpop]
    refine ⟨?_, .nil, .nil, (h.of_popFirst_none hpop).size_eq_zero hnone⟩
    exact fun a => iff_of_false List.not_mem_nil (hnone a)
  | case2 q a r hpop _ _ _ ih =>
    obtain ⟨ha, hleast, hrest⟩ := h.popFirst_some hpop
    obtain ⟨hmem, hnodup, hordered, hempty⟩ := ih hrest
    rw [drain_of_some hpop]
    refine ⟨fun b => ?_, List.nodup_cons.mpr ⟨?_, hnodup⟩,
      List.pairwise_cons.mpr ⟨?_, hordered⟩, hempty⟩
    · rw [List.mem_cons, hmem]
      constructor
      · rintro (rfl | hb)
        · exact ha
        · exact hb.1
      · intro hb
        by_cases hba : b = a
        · exact .inl hba
        · exact .inr ⟨hb, hba⟩
    · exact fun hin => ((hmem a).mp hin).2 rfl
    · intro b hb
      obtain ⟨hSb, hba⟩ := (hmem b).mp hb
      exact hleast b hSb hba

end Draining

variable {α : Type u} [DecidableEq α] [Ord α] {layers : Nat}

/-- The calls after which the keys are as before. -/
def Call.KeepsKeys : Call α layers → Prop
  | .size | .add _ | .delete _ | .popFirst => True
  | _ => False

namespace Session
variable {keys : LayeredKeys α layers} {past : List (Session α layers × Call α layers)}
variable {s : Session α layers} {c : Call α layers} {a : α}

/-- The calls made on a queue whose keys stay, the last first, each with the queue before it. The
items that wait may change places at any time. -/
inductive Log (keys : LayeredKeys α layers) :
    List (Session α layers × Call α layers) → Session α layers → Prop where
  | start : Log keys [] { keys }
  | shuffled {past : List (Session α layers × Call α layers)} {s : Session α layers} {ws : List α}
      (h : Log keys past s) (hws : ws.Perm s.queue.waiting) :
      Log keys past { s with queue := { s.queue with waiting := ws } }
  | call {past : List (Session α layers × Call α layers)} {s : Session α layers}
      {c : Call α layers} (h : Log keys past s) (hc : c.KeepsKeys) :
      Log keys ((s, c) :: past) (s.perform c).1

/-- The calls with what was answered. -/
def answers (past : List (Session α layers × Call α layers)) : List (Call α layers × Answer α) :=
  past.map fun e => (e.2, (e.1.perform e.2).2)

/-- The call adds an item that has been sorted. -/
def AddsSorted (s : Session α layers) : Call α layers → Prop
  | .add a => a ∈ s.queue.items ∧ a ∉ s.queue.waiting
  | _ => False

instance (s : Session α layers) : (c : Call α layers) → Decidable (s.AddsSorted c)
  | .add a => inferInstanceAs (Decidable (a ∈ s.queue.items ∧ a ∉ s.queue.waiting))
  | .size | .delete _ | .popFirst | .startUpdate _ | .finishUpdate _ | .rekey _ | .update _ _ =>
    inferInstanceAs (Decidable False)

/-- The size is the number of items that are stored. -/
def CountsItems (s : Session α layers) : Prop := s.queue.size = s.plain.items.card

omit [Ord α] in
/-- The order in which items wait does not count. -/
theorem countsItems_shuffled {ws : List α} (hws : ws.Perm s.queue.waiting) :
    CountsItems { s with queue := { s.queue with waiting := ws } } ↔ s.CountsItems := by
  have hitems : (items { s.queue with waiting := ws }).toFinset = s.queue.items.toFinset := by
    unfold items
    exact List.toFinset_eq_of_perm _ _ (hws.append_right _)
  show ws.length + s.queue.sorted.count = (items { s.queue with waiting := ws }).toFinset.card ↔ _
  rw [hws.length_eq, hitems]
  exact Iff.rfl

theorem perform_add_of_waiting (ha : a ∈ s.queue.waiting) : (s.perform (.add a)).1 = s := by
  show { s with queue := s.queue.add a } = s
  rw [add_eq_self_iff.mpr ha]

/-- An item that is sorted is counted once more when it is added. -/
theorem not_countsItems_of_addsSorted (h : s.CountsItems) (hc : s.AddsSorted c) :
    ¬ (s.perform c).1.CountsItems := by
  cases c with
  | add a =>
    obtain ⟨ha, hw⟩ := hc
    have hadd : s.queue.add a = { s.queue with waiting := s.queue.waiting ++ [a] } := by
      rw [BucketQueue.add, if_neg hw]
    have hsize : (s.queue.add a).size = s.queue.size + 1 := by
      rw [hadd]
      show (s.queue.waiting ++ [a]).length + s.queue.sorted.count = _
      rw [List.length_append, List.length_singleton, size]
      omega
    have hitems : (s.queue.add a).items.toFinset = s.queue.items.toFinset := by
      ext b
      rw [hadd]
      unfold items at ha ⊢
      simp only [List.mem_toFinset, List.mem_append, List.mem_singleton] at ha ⊢
      grind
    intro hcounts
    have hcard : (s.queue.add a).size = (s.queue.add a).items.toFinset.card := hcounts
    rw [hsize, hitems] at hcard
    have hbefore : s.queue.size = s.queue.items.toFinset.card := h
    omega
  | _ => exact hc.elim

variable [Std.TransOrd α] [Std.LawfulEqOrd α]

/-- A call that adds no sorted item is answered as the plain set answers it. -/
theorem Sound.perform_of_not_addsSorted (h : s.Sound) (hc : c.KeepsKeys) (hno : ¬ s.AddsSorted c) :
    s.plain.Step c (s.perform c).2 (s.perform c).1.plain ∧ (s.perform c).1.Sound := by
  cases c with
  | add a =>
    by_cases ha : a ∈ s.queue.items
    · have hw : a ∈ s.queue.waiting := not_not.mp fun hw => hno ⟨ha, hw⟩
      have hstep := PlainSet.Step.add s.plain a
      rw [Finset.insert_eq_of_mem (show a ∈ s.plain.items from List.mem_toFinset.mpr ha)] at hstep
      rw [perform_add_of_waiting hw]
      exact ⟨hstep, h⟩
    · exact h.perform ha
  | size | delete a | popFirst => exact h.perform trivial
  | _ => exact hc.elim

omit [Std.TransOrd α] [Std.LawfulEqOrd α] in
theorem Log.keys_eq (h : Log keys past s) : s.keys = keys := by
  induction h with
  | start => rfl
  | shuffled _ _ ih => exact ih
  | @call past s c _ hc ih =>
    cases c with
    | size | add a | delete a | popFirst => exact ih
    | _ => exact hc.elim

/-- If no sorted item is added, the answers are those of the plain set, and all along the queue is
sound. -/
theorem Log.sound (h : Log keys past s) (hno : ∀ e ∈ past, ¬ e.1.AddsSorted e.2) :
    PlainSet.Trace keys (answers past) s.plain ∧ s.Sound ∧ ∀ e ∈ past, e.1.Sound := by
  induction h with
  | start => exact ⟨.start, sound_start keys, fun _ he => absurd he List.not_mem_nil⟩
  | shuffled _ hws ih =>
    obtain ⟨htrace, hsound, hall⟩ := ih hno
    obtain ⟨hsound', hplain⟩ := hsound.shuffled hws
    exact ⟨hplain ▸ htrace, hsound', hall⟩
  | call _ hc ih =>
    obtain ⟨hlast, hno⟩ := List.forall_mem_cons.mp hno
    obtain ⟨htrace, hsound, hall⟩ := ih hno
    obtain ⟨hstep, hsound'⟩ := hsound.perform_of_not_addsSorted hc hlast
    exact ⟨.call htrace hstep, hsound', List.forall_mem_cons.mpr ⟨hsound, hall⟩⟩

/-- The count is right all along just if no sorted item is added. -/
theorem Log.countsItems_iff (h : Log keys past s) :
    (∀ e ∈ past, e.1.CountsItems) ∧ s.CountsItems ↔ ∀ e ∈ past, ¬ e.1.AddsSorted e.2 := by
  constructor
  · intro hcounts
    induction h with
    | start => exact fun _ he => absurd he List.not_mem_nil
    | shuffled _ hws ih => exact ih ⟨hcounts.1, (countsItems_shuffled hws).mp hcounts.2⟩
    | call _ _ ih =>
      obtain ⟨hpast, hlast⟩ := hcounts
      obtain ⟨hs, hpast⟩ := List.forall_mem_cons.mp hpast
      refine List.forall_mem_cons.mpr ⟨fun hadds => ?_, ih ⟨hpast, hs⟩⟩
      exact not_countsItems_of_addsSorted hs hadds hlast
  · intro hno
    obtain ⟨-, hsound, hall⟩ := h.sound hno
    exact ⟨fun e he => (hall e he).size_eq, hsound.size_eq⟩

/-- The queue is like the set of its items. -/
structure ActsAsSet (s : Session α layers) (keys : LayeredKeys α layers) : Prop where
  counts : s.CountsItems
  /-- An item that is stored is added without effect just if it waits. -/
  again : ∀ a ∈ s.plain.items, s.queue.add a = s.queue ↔ a ∈ s.queue.waiting
  lists : ∀ a, a ∈ (s.queue.drain keys.toSortKeys).1 ↔ a ∈ s.plain.items
  once : (s.queue.drain keys.toSortKeys).1.Nodup
  ordered : (s.queue.drain keys.toSortKeys).1.Pairwise keys.Precedes
  empties : (s.queue.drain keys.toSortKeys).2.size = 0

theorem Sound.actsAsSet (h : s.Sound) : s.ActsAsSet s.keys := by
  obtain ⟨hlists, honce, hordered, hempties⟩ := h.holds.drain
  exact {
    counts := h.size_eq
    again := fun _ _ => add_eq_self_iff
    lists := hlists
    once := honce
    ordered := hordered.imp s.keys.precedes_of_before
    empties := hempties
  }

/-- Under keys that stay, the count of a queue is right all along just if no sorted item is added.
Then its answers are those of the set, and it can be drained as the set. -/
theorem Log.set_semantics_iff (h : Log keys past s) :
    ((∀ e ∈ past, e.1.CountsItems) ∧ s.CountsItems ↔ ∀ e ∈ past, ¬ e.1.AddsSorted e.2) ∧
      ((∀ e ∈ past, ¬ e.1.AddsSorted e.2) →
        PlainSet.Trace keys (answers past) s.plain ∧ s.ActsAsSet keys) := by
  refine ⟨h.countsItems_iff, fun hno => ?_⟩
  obtain ⟨htrace, hsound, -⟩ := h.sound hno
  exact ⟨htrace, h.keys_eq ▸ hsound.actsAsSet⟩

/-- Keys of two layers, under which three items after each other share a bucket. -/
def byThirds : LayeredKeys Nat 2 where
  path a := [(a / 3 : Nat), 0]
  leaf _ := 0
  length_path _ := rfl

/-- An item is added again while it waits, and another after it has been taken out. -/
theorem waiting_again_set_semantics : ∃ past s, Log byThirds past s ∧
    past.map Prod.snd = [.delete 2, .add 1, .popFirst, .add 3, .add 2, .add 2, .add 1] ∧
    ((∀ e ∈ past, e.1.CountsItems) ∧ s.CountsItems ↔ ∀ e ∈ past, ¬ e.1.AddsSorted e.2) ∧
      PlainSet.Trace byThirds (answers past) s.plain ∧ s.ActsAsSet byThirds := by
  have h₁ : Log byThirds [] _ := .start
  have h₂ := h₁.call (c := .add 1) trivial
  have h₃ := h₂.call (c := .add 2) trivial
  have h₄ := h₃.call (c := .add 2) trivial
  have h₅ := h₄.call (c := .add 3) trivial
  have h₆ := h₅.call (c := .popFirst) trivial
  have h₇ := h₆.call (c := .add 1) trivial
  have h := h₇.call (c := .delete 2) trivial
  obtain ⟨hiff, hset⟩ := h.set_semantics_iff
  exact ⟨_, _, h, rfl, hiff, hset (by decide)⟩

/-- An item that is added again after it was sorted is counted twice. When it has been taken out,
its bucket counts as filled and hides the next one. -/
theorem sorted_again_hides : ∃ past s, Log byThirds past s ∧
    past.map Prod.snd = [.add 3, .add 2, .popFirst, .add 2, .add 1] ∧
    s.plain.items = {2, 3} ∧ s.queue.size = 3 ∧
    (s.queue.drain byThirds.toSortKeys).1 = [2] ∧
    (s.queue.drain byThirds.toSortKeys).2.size = 2 := by
  have h₁ : Log byThirds [] _ := .start
  have h₂ := h₁.call (c := .add 1) trivial
  have h₃ := h₂.call (c := .add 2) trivial
  have h₄ := h₃.call (c := .popFirst) trivial
  have h₅ := h₄.call (c := .add 2) trivial
  have h := h₅.call (c := .add 3) trivial
  refine ⟨_, _, h, rfl, by decide, by decide, ?_⟩
  -- Nothing comes out of the bucket of the first two any more, and the second is not looked at.
  rw [drain_of_some rfl, drain_of_none rfl]
  exact ⟨rfl, rfl⟩

end Session

end Bundler.BucketQueue
