import Bundler.Merge.BucketQueue
import Bundler.Proofs.Buckets
/-!
# What a late-sorting queue holds

A queue holds a set of items under some keys when each item of the set stands in just one of two
places, among the waiting ones or in the bucket of its present keys, and nothing else is there. The
order of the waiting items is left open, so every statement below is one about all orders in which
they may come to be sorted. Taking the first item out answers the least one, deleting takes out the
item asked for, and a change of keys between the two halves of an update loses nothing.
-/
namespace Bundler.BucketQueue
open Buckets (Entry Ordered entries entryAt)

variable {α : Type u} {n : Nat} {keys : SortKeys α} {S : α → Prop}

def entryOf (n : Nat) (keys : SortKeys α) (a : α) : Entry α := entryAt (n + 1) (keys.place a) a

theorem entryOf_injective (n : Nat) (keys : SortKeys α) :
    Function.Injective (entryOf n keys) := fun _ _ h => congrArg Entry.item h

def items (q : BucketQueue α n) : List α := q.waiting ++ (entries (n + 1) q.sorted).map Entry.item

section Holding
variable [Ord α]

/-- The queue holds just the items of `S`, the sorted ones where `keys` puts them. -/
structure Holds (q : BucketQueue α n) (keys : SortKeys α) (S : α → Prop) : Prop where
  ordered : Ordered (n + 1) q.sorted
  placed : ∀ e ∈ entries (n + 1) q.sorted, e = entryOf n keys e.item
  nodup : q.waiting.Nodup
  apart : ∀ e ∈ entries (n + 1) q.sorted, e.item ∉ q.waiting
  mem_iff : ∀ a, S a ↔ a ∈ q.waiting ∨ entryOf n keys a ∈ entries (n + 1) q.sorted

theorem holds_ofList {items : List α} (h : items.Nodup) (keys : SortKeys α) :
    Holds (ofList items : BucketQueue α n) keys (· ∈ items) where
  ordered := Buckets.ordered_empty (n + 1)
  placed := by simp [ofList, empty, entries]
  nodup := h
  apart := by simp [ofList, empty, entries]
  mem_iff := by simp [ofList, empty, entries]

theorem Holds.mem_items {q : BucketQueue α n} (h : q.Holds keys S) {a : α} :
    a ∈ q.items ↔ S a := by
  rw [h.mem_iff, items, List.mem_append, List.mem_map]
  refine or_congr Iff.rfl ⟨?_, fun ha => ⟨_, ha, rfl⟩⟩
  intro hex
  rcases hex with ⟨e, he, rfl⟩
  exact h.placed e he ▸ he

theorem Holds.nodup_items [Std.TransOrd α] {q : BucketQueue α n} (h : q.Holds keys S) :
    q.items.Nodup := by
  refine List.nodup_append.mpr ⟨h.nodup, ?_, ?_⟩
  · refine List.pairwise_map.mpr ((Buckets.nodup_entries h.ordered).imp_of_mem ?_)
    intro d e hd he hne heq
    exact hne ((h.placed d hd).trans ((congrArg (entryOf n keys) heq).trans (h.placed e he).symm))
  · intro a ha b hb heq
    obtain ⟨e, he, rfl⟩ := List.mem_map.mp hb
    exact h.apart e he (heq ▸ ha)

theorem Holds.size_eq {q : BucketQueue α n} (h : q.Holds keys S) : q.size = q.items.length := by
  have hcount : q.sorted.count = Buckets.cells (n + 1) q.sorted := h.ordered.2.1
  rw [size, hcount, items, List.length_append, List.length_map, Buckets.length_entries]

theorem Holds.congr {q : BucketQueue α n} {T : α → Prop} (h : q.Holds keys S)
    (hST : ∀ a, T a ↔ S a) : q.Holds keys T :=
  { h with mem_iff := fun a => (hST a).trans (h.mem_iff a) }

/-- The order in which items wait is of no account. -/
theorem Holds.perm {q : BucketQueue α n} {ws : List α} (h : q.Holds keys S)
    (hws : ws.Perm q.waiting) : Holds { q with waiting := ws } keys S where
  ordered := h.ordered
  placed := h.placed
  nodup := hws.nodup_iff.mpr h.nodup
  apart e he hw := h.apart e he (hws.mem_iff.mp hw)
  mem_iff a := (h.mem_iff a).trans (or_congr hws.mem_iff.symm Iff.rfl)

/-- A queue does not notice changes of keys except those of its sorted items. -/
theorem Holds.congr_keys {q : BucketQueue α n} {keys' : SortKeys α} (h : q.Holds keys S)
    (hkeys : ∀ a, S a → a ∉ q.waiting → keys'.place a = keys.place a) : q.Holds keys' S := by
  have hentry : ∀ e ∈ entries (n + 1) q.sorted, entryOf n keys' e.item = e := by
    intro e he
    have hS : S e.item := (h.mem_iff _).mpr (Or.inr (h.placed e he ▸ he))
    rw [entryOf, hkeys _ hS (h.apart e he)]
    exact (h.placed e he).symm
  refine { h with placed := fun e he => (hentry e he).symm, mem_iff := ?_ }
  intro a
  constructor
  · intro ha
    by_cases hw : a ∈ q.waiting
    · exact Or.inl hw
    · rw [entryOf, hkeys a ha hw]
      exact (h.mem_iff a).mp ha
  · intro hor
    rcases hor with ha | ha
    · exact (h.mem_iff a).mpr (Or.inl ha)
    · have heq := h.placed _ ha
      exact (h.mem_iff a).mpr (Or.inr (heq ▸ ha))

theorem perm_foldl_insert [Std.TransOrd α] [Std.LawfulEqOrd α] {ws : List α}
    {b : Buckets α (n + 1)} (hb : Ordered (n + 1) b) (hnodup : ws.Nodup)
    (hapart : ∀ a ∈ ws, entryOf n keys a ∉ entries (n + 1) b) :
    Ordered (n + 1) (ws.foldl (fun s a => Buckets.insert (n + 1) (keys.place a) a s) b) ∧
      (entries (n + 1) (ws.foldl (fun s a => Buckets.insert (n + 1) (keys.place a) a s) b)).Perm
        (ws.map (entryOf n keys) ++ entries (n + 1) b) := by
  induction ws generalizing b with
  | nil => exact ⟨hb, List.Perm.refl _⟩
  | cons a ws ih =>
    obtain ⟨ha, hws⟩ := List.nodup_cons.mp hnodup
    have hfresh := hapart a List.mem_cons_self
    have hperm := Buckets.perm_insert hb hfresh
    have hapart' : ∀ c ∈ ws, entryOf n keys c ∉
        entries (n + 1) (Buckets.insert (n + 1) (keys.place a) a b) := by
      intro c hc hmem
      rcases List.mem_cons.mp (hperm.mem_iff.mp hmem) with heq | hmem
      · exact ha (entryOf_injective n keys heq ▸ hc)
      · exact hapart c (List.mem_cons_of_mem _ hc) hmem
    obtain ⟨hordered, hrest⟩ := ih (Buckets.ordered_insert hb hfresh) hws hapart'
    refine ⟨hordered, hrest.trans ?_⟩
    exact (hperm.append_left _).trans List.perm_middle

theorem Holds.sortWaiting [DecidableEq α] [Std.TransOrd α] [Std.LawfulEqOrd α]
    {q : BucketQueue α n} (h : q.Holds keys S) : (q.sortWaiting keys).Holds keys S := by
  have hapart : ∀ a ∈ q.waiting, entryOf n keys a ∉ entries (n + 1) q.sorted :=
    fun a ha hmem => h.apart _ hmem ha
  obtain ⟨hordered, hperm⟩ := perm_foldl_insert h.ordered h.nodup hapart
  have hmem : ∀ e, e ∈ entries (n + 1) (q.sortWaiting keys).sorted ↔
      e ∈ q.waiting.map (entryOf n keys) ∨ e ∈ entries (n + 1) q.sorted :=
    fun e => hperm.mem_iff.trans List.mem_append
  refine ⟨hordered, ?_, List.nodup_nil, fun _ _ => List.not_mem_nil, ?_⟩
  · intro e he
    rcases (hmem e).mp he with he | he
    · obtain ⟨a, -, rfl⟩ := List.mem_map.mp he
      rfl
    · exact h.placed e he
  · intro a
    rw [h.mem_iff, hmem]
    constructor
    · intro hor
      rcases hor with ha | ha
      · exact Or.inr (Or.inl (List.mem_map_of_mem ha))
      · exact Or.inr (Or.inr ha)
    · intro hor
      rcases hor with ha | ha | ha
      · exact absurd ha List.not_mem_nil
      · obtain ⟨c, hc, heq⟩ := List.mem_map.mp ha
        exact Or.inl (entryOf_injective n keys heq ▸ hc)
      · exact Or.inr ha

end Holding

section Operations
variable [DecidableEq α] [Ord α] [Std.TransOrd α] [Std.LawfulEqOrd α] {q r : BucketQueue α n}

/-- What is taken out first is an item that is before all others. -/
theorem Holds.popFirst_some {a : α} (h : q.Holds keys S) (hpop : q.popFirst keys = (some a, r)) :
    S a ∧ (∀ b, S b → b ≠ a → (entryOf n keys a).Before (entryOf n keys b)) ∧
      r.Holds keys fun b => S b ∧ b ≠ a := by
  have hs := h.sortWaiting
  have hmem : ∀ b, S b ↔ entryOf n keys b ∈ entries (n + 1) (q.sortWaiting keys).sorted :=
    fun b => (hs.mem_iff b).trans (or_iff_right List.not_mem_nil)
  cases hes : entries (n + 1) (q.sortWaiting keys).sorted with
  | nil =>
    rw [popFirst, Buckets.popFirst_of_entries_nil hs.ordered hes] at hpop
    cases hpop
  | cons e es =>
    obtain ⟨c, hfirst, hc, hrest⟩ := Buckets.popFirst_of_entries hs.ordered hes
    rw [popFirst, hfirst] at hpop
    cases hpop
    have he : e = entryOf n keys e.item := hs.placed e (hes ▸ List.mem_cons_self)
    have hsorted := Buckets.pairwise_entries hs.ordered
    have hnodup := Buckets.nodup_entries hs.ordered
    rw [hes] at hsorted hnodup
    obtain ⟨hfirst, -⟩ := List.pairwise_cons.mp hsorted
    obtain ⟨hnot, -⟩ := List.nodup_cons.mp hnodup
    refine ⟨(hmem _).mpr (by rw [hes, ← he]; exact List.mem_cons_self), ?_, ?_⟩
    · intro b hb hne
      rw [hmem, hes] at hb
      rcases List.mem_cons.mp hb with heq | hb
      · exact absurd (congrArg Entry.item heq) hne
      · rw [← he]
        exact hfirst _ hb
    · refine ⟨hc, ?_, List.nodup_nil, fun _ _ => List.not_mem_nil, ?_⟩
      · intro x hx
        rw [hrest] at hx
        exact hs.placed x (hes ▸ List.mem_cons_of_mem _ hx)
      · intro b
        rw [hmem, hes, hrest, List.mem_cons, or_iff_right (List.not_mem_nil (a := b))]
        constructor
        · intro hor
          rcases hor with ⟨heq | hb, hne⟩
          · exact absurd (congrArg Entry.item heq) hne
          · exact hb
        · intro hb
          refine ⟨Or.inr hb, ?_⟩
          intro hsame
          subst hsame
          exact hnot (he ▸ hb)

theorem Holds.sorted_of_popFirst_none (h : q.Holds keys S)
    (hpop : q.popFirst keys = (none, r)) :
    entries (n + 1) (q.sortWaiting keys).sorted = [] ∧ r = q.sortWaiting keys := by
  have hs := h.sortWaiting
  cases hes : entries (n + 1) (q.sortWaiting keys).sorted with
  | nil =>
    rw [popFirst, Buckets.popFirst_of_entries_nil hs.ordered hes] at hpop
    exact ⟨rfl, (congrArg Prod.snd hpop).symm⟩
  | cons e es =>
    obtain ⟨c, hfirst, -, -⟩ := Buckets.popFirst_of_entries hs.ordered hes
    rw [popFirst, hfirst] at hpop
    cases hpop

theorem Holds.popFirst_none (h : q.Holds keys S) (hpop : q.popFirst keys = (none, r)) (a : α) :
    ¬ S a := by
  obtain ⟨hes, -⟩ := h.sorted_of_popFirst_none hpop
  rw [h.sortWaiting.mem_iff, hes]
  intro hor
  rcases hor with ha | ha
  · exact List.not_mem_nil ha
  · exact List.not_mem_nil ha

theorem Holds.of_popFirst_none (h : q.Holds keys S) (hpop : q.popFirst keys = (none, r)) :
    r.Holds keys S := by
  rw [(h.sorted_of_popFirst_none hpop).2]
  exact h.sortWaiting

omit [DecidableEq α] in
/-- What is sorted at a place can be taken out there, and that is where its keys put it. -/
theorem Holds.eraseAt_of_mem {a : α} {place : Place} (h : q.Holds keys S)
    (hin : entryAt (n + 1) place a ∈ entries (n + 1) q.sorted) :
    S a ∧ ∃ r, q.eraseAt a place = some r ∧ r.waiting = q.waiting ∧
      r.Holds keys fun b => S b ∧ b ≠ a := by
  have hplaced : entryAt (n + 1) place a = entryOf n keys a := h.placed _ hin
  obtain ⟨c, herase, hc, hperm⟩ := Buckets.erase?_of_mem h.ordered hin
  rw [hplaced] at hin hperm
  have hw : a ∉ q.waiting := h.apart _ hin
  obtain ⟨hnot, -⟩ := List.nodup_cons.mp
    (hperm.nodup_iff.mp (Buckets.nodup_entries h.ordered))
  have hmem : ∀ e, e ∈ entries (n + 1) q.sorted ↔
      e = entryOf n keys a ∨ e ∈ entries (n + 1) c :=
    fun e => hperm.mem_iff.trans List.mem_cons
  refine ⟨(h.mem_iff a).mpr (Or.inr hin), { q with sorted := c },
    by rw [BucketQueue.eraseAt, herase]; rfl, rfl, ?_⟩
  refine ⟨hc, ?_, h.nodup, ?_, ?_⟩
  · exact fun e he => h.placed e ((hmem e).mpr (Or.inr he))
  · exact fun e he => h.apart e ((hmem e).mpr (Or.inr he))
  · intro b
    rw [h.mem_iff, hmem]
    constructor
    · intro hor
      rcases hor with ⟨hb | heq | hb, hne⟩
      · exact Or.inl hb
      · exact absurd (entryOf_injective n keys heq) hne
      · exact Or.inr hb
    · intro hor
      rcases hor with hb | hb
      · exact ⟨Or.inl hb, fun heq => hw (heq ▸ hb)⟩
      · exact ⟨Or.inr (Or.inr hb), fun heq => hnot (heq ▸ hb)⟩

omit [DecidableEq α] in
theorem Holds.eraseAt {a : α} (h : q.Holds keys S) (ha : S a) (hw : a ∉ q.waiting) :
    ∃ r, q.eraseAt a (keys.place a) = some r ∧ r.waiting = q.waiting ∧
      r.Holds keys fun b => S b ∧ b ≠ a :=
  (h.eraseAt_of_mem (((h.mem_iff a).mp ha).resolve_left hw)).2

omit [DecidableEq α] [Std.TransOrd α] in
theorem eraseAt_of_not_mem {a : α} {place : Place}
    (h : entryAt (n + 1) place a ∉ entries (n + 1) q.sorted) : q.eraseAt a place = none := by
  rw [BucketQueue.eraseAt, Buckets.erase?_of_not_mem h, Option.map_none]

omit [DecidableEq α] [Std.TransOrd α] in
theorem Holds.eraseAt_absent {a : α} (h : q.Holds keys S) (ha : ¬ S a) :
    q.eraseAt a (keys.place a) = none :=
  eraseAt_of_not_mem fun hin => ha ((h.mem_iff a).mpr (Or.inr hin))

theorem Holds.delete {a : α} (h : q.Holds keys S) (ha : S a) :
    (q.delete keys a).2 = true ∧ (q.delete keys a).1.Holds keys fun b => S b ∧ b ≠ a := by
  unfold BucketQueue.delete
  split
  · rename_i hw
    refine ⟨rfl, h.ordered, h.placed, h.nodup.erase a, ?_, ?_⟩
    · exact fun e he hin => h.apart e he (List.mem_of_mem_erase hin)
    · intro b
      rw [h.mem_iff, h.nodup.mem_erase_iff]
      constructor
      · intro hor
        rcases hor with ⟨hb | hb, hne⟩
        · exact Or.inl ⟨hne, hb⟩
        · exact Or.inr hb
      · intro hor
        rcases hor with ⟨hne, hb⟩ | hb
        · exact ⟨Or.inl hb, hne⟩
        · refine ⟨Or.inr hb, ?_⟩
          intro heq
          subst heq
          exact h.apart _ hb hw
  · rename_i hw
    obtain ⟨r, herase, -, hr⟩ := h.eraseAt ha hw
    rw [herase]
    exact ⟨rfl, hr⟩

omit [Std.TransOrd α] in
theorem Holds.delete_absent {a : α} (h : q.Holds keys S) (ha : ¬ S a) :
    q.delete keys a = (q, false) := by
  have hw : a ∉ q.waiting := fun hw => ha ((h.mem_iff a).mpr (Or.inl hw))
  rw [BucketQueue.delete, if_neg hw, h.eraseAt_absent ha]

omit [Std.TransOrd α] [Std.LawfulEqOrd α] in
theorem Holds.add {a : α} (h : q.Holds keys S) (ha : ¬ S a) :
    (q.add a).Holds keys fun b => S b ∨ b = a := by
  have hw : a ∉ q.waiting := fun hw => ha ((h.mem_iff a).mpr (Or.inl hw))
  rw [BucketQueue.add, if_neg hw]
  refine ⟨h.ordered, h.placed, ?_, ?_, ?_⟩
  · exact List.nodup_append.mpr ⟨h.nodup, by simp, by grind⟩
  · intro e he hin
    rcases List.mem_append.mp hin with hin | hin
    · exact h.apart e he hin
    · have heq := List.mem_singleton.mp hin
      exact ha ((h.mem_iff a).mpr (Or.inr (heq ▸ h.placed e he ▸ he)))
  · intro b
    rw [h.mem_iff, List.mem_append, List.mem_singleton]
    exact or_right_comm

omit [Std.TransOrd α] [Std.LawfulEqOrd α] in
/-- An item that has been taken out may wait in its place. -/
theorem Holds.readd {a : α} (h : q.Holds keys fun b => S b ∧ b ≠ a) (ha : S a) :
    (q.add a).Holds keys S := by
  apply (h.add fun hb => hb.2 rfl).congr
  intro b
  constructor
  · intro hb
    by_cases heq : b = a
    · exact Or.inr heq
    · exact Or.inl ⟨hb, heq⟩
  · intro hor
    rcases hor with hb | rfl
    · exact hb.1
    · exact ha

/-- The second half of an update keeps all, whatever was done since the first half. -/
theorem Holds.finishUpdate (h : q.Holds keys S) (u : PendingUpdate α) :
    (q.finishUpdate u).Holds keys S := by
  unfold BucketQueue.finishUpdate
  split
  · exact h
  · rename_i place _
    by_cases hin : entryAt (n + 1) place u.item ∈ entries (n + 1) q.sorted
    · obtain ⟨ha, r, herase, -, hr⟩ := h.eraseAt_of_mem hin
      rw [herase]
      exact hr.readd ha
    · rw [eraseAt_of_not_mem hin]
      exact h

/-- An update of one item keeps all if between its halves the keys of no other sorted item have
changed. -/
theorem Holds.update {a : α} {keys' : SortKeys α} (h : q.Holds keys S)
    (hkeys : ∀ b, S b → b ≠ a → b ∉ q.waiting → keys'.place b = keys.place b) :
    (q.finishUpdate (q.startUpdate keys a)).Holds keys' S := by
  unfold BucketQueue.finishUpdate startUpdate
  by_cases hw : a ∈ q.waiting
  · -- A waiting item has no place yet, so nothing that is sorted has changed.
    simp only [if_pos hw]
    refine h.congr_keys fun b hb hbw => hkeys b hb ?_ hbw
    intro hsame
    subst hsame
    exact hbw hw
  · simp only [if_neg hw]
    by_cases ha : S a
    · obtain ⟨r, herase, hwaiting, hr⟩ := h.eraseAt ha hw
      rw [herase]
      have hr' : r.Holds keys' fun b => S b ∧ b ≠ a :=
        hr.congr_keys fun b hb hbw => hkeys b hb.1 hb.2 (hwaiting ▸ hbw)
      exact hr'.readd ha
    · rw [h.eraseAt_absent ha]
      refine h.congr_keys fun b hb hbw => hkeys b hb ?_ hbw
      intro hsame
      subst hsame
      exact ha hb

end Operations

end Bundler.BucketQueue
