import Bundler.Proofs.BucketQueue
import Mathlib.Data.Finset.Card
/-!
# A late-sorting queue as a plain set

To its user a queue is a finite set of items that can be asked for its least one. This module says
so for whole uses of a queue, under any number of layers: whatever the calls, and in whatever order
waiting items come to be sorted, the answers are those of the plain set, and no other answers are
possible. An item may be added while it is not stored, and a sorted item's keys may change within an
update of its own.
-/
namespace Bundler

/-- Sort keys of a fixed number of layers, which may be none. -/
structure LayeredKeys (α : Type u) (layers : Nat) extends SortKeys α where
  length_path : ∀ a, (path a).length = layers

section Order
variable {α : Type u} [Ord α]

/-- Whether one item comes before another: by the layer keys from the first layer on, then by the
leaf key, then by the order of items. -/
def SortKeys.Precedes (keys : SortKeys α) (a b : α) : Prop :=
  keys.path a < keys.path b ∨ keys.path a = keys.path b ∧
    (keys.leaf a < keys.leaf b ∨ keys.leaf a = keys.leaf b ∧ compare a b = .lt)

theorem SortKeys.Precedes.asymm [Std.TransOrd α] {keys : SortKeys α} {a b : α}
    (h : keys.Precedes a b) : ¬ keys.Precedes b a := by
  intro h'
  rcases h with hpath | ⟨hpath, hleaf⟩
  · rcases h' with hpath' | ⟨hpath', -⟩
    · exact List.lt_asymm hpath hpath'
    · rw [hpath'] at hpath
      exact List.lt_irrefl _ hpath
  · rcases h' with hpath' | ⟨-, hleaf'⟩
    · rw [hpath] at hpath'
      exact List.lt_irrefl _ hpath'
    · rcases hleaf with hlt | ⟨heq, hitem⟩
      · rcases hleaf' with hlt' | ⟨heq', -⟩
        · omega
        · omega
      · rcases hleaf' with hlt' | ⟨-, hitem'⟩
        · omega
        · rw [Std.OrientedCmp.gt_of_lt hitem] at hitem'
          cases hitem'

theorem Buckets.keysIn_of_length {path : List Int} {n : Nat} (h : path.length = n) :
    Buckets.keysIn n path = path := by
  subst h
  induction path with
  | nil => rfl
  | cons k path ih => exact congrArg (k :: ·) ih

/-- Without layers there is one bucket, which all items share. -/
theorem LayeredKeys.precedes_of_before {layers : Nat} (keys : LayeredKeys α layers) {a b : α}
    (h : (BucketQueue.entryOf (layers - 1) keys.toSortKeys a).Before
      (BucketQueue.entryOf (layers - 1) keys.toSortKeys b)) : keys.Precedes a b := by
  unfold Buckets.Entry.Before at h
  rw [Buckets.leafBefore_iff] at h
  cases layers with
  | zero =>
    have hnil : ∀ c, keys.path c = [] := fun c => List.length_eq_zero_iff.mp (keys.length_path c)
    have hpath : ∀ c, (BucketQueue.entryOf (0 - 1) keys.toSortKeys c).path = [0] := by
      intro c
      show Buckets.keysIn 1 (keys.path c) = [0]
      rw [hnil]
      rfl
    rw [hpath, hpath] at h
    rcases h with hlt | ⟨-, hleaf⟩
    · exact absurd hlt (List.lt_irrefl _)
    · exact Or.inr ⟨(hnil a).trans (hnil b).symm, hleaf⟩
  | succ layers =>
    have hpath : ∀ c, (BucketQueue.entryOf (layers + 1 - 1) keys.toSortKeys c).path =
        keys.path c := fun c => Buckets.keysIn_of_length (keys.length_path c)
    rw [hpath, hpath] at h
    exact h

end Order

namespace BucketQueue

/-- What may be asked of a queue. Keys change by `rekey`, or in the middle of an `update`, the two
halves of which follow each other with nothing else between them. -/
inductive Call (α : Type u) (layers : Nat) where
  | size
  | add (a : α)
  | delete (a : α)
  | popFirst
  | startUpdate (a : α)
  | finishUpdate (i : Nat)
  | rekey (keys : LayeredKeys α layers)
  | update (a : α) (keys : LayeredKeys α layers)

inductive Answer (α : Type u) where
  | done
  | count (n : Nat)
  | found (b : Bool)
  | item (a : Option α)

/-- A queue in use, with the keys of all items and the updates that are begun and not finished. -/
structure Session (α : Type u) (layers : Nat) where
  queue : BucketQueue α (layers - 1) := .empty
  keys : LayeredKeys α layers
  begun : List (PendingUpdate α) := []

/-- A finite set of items with their keys. -/
structure PlainSet (α : Type u) (layers : Nat) where
  items : Finset α
  keys : LayeredKeys α layers

variable {α : Type u} {layers : Nat} [DecidableEq α] [Ord α]

/-- What each call does to a plain set and has to answer. -/
inductive PlainSet.Step :
    PlainSet α layers → Call α layers → Answer α → PlainSet α layers → Prop where
  | size (p : PlainSet α layers) : Step p .size (.count p.items.card) p
  | add (p : PlainSet α layers) (a : α) :
      Step p (.add a) .done { p with items := insert a p.items }
  | delete (p : PlainSet α layers) (a : α) :
      Step p (.delete a) (.found (decide (a ∈ p.items))) { p with items := p.items.erase a }
  | popNothing {p : PlainSet α layers} (h : p.items = ∅) : Step p .popFirst (.item none) p
  | popLeast {p : PlainSet α layers} {a : α} (ha : a ∈ p.items)
      (hleast : ∀ b ∈ p.items, b ≠ a → p.keys.Precedes a b) :
      Step p .popFirst (.item (some a)) { p with items := p.items.erase a }
  | startUpdate (p : PlainSet α layers) (a : α) : Step p (.startUpdate a) .done p
  | finishUpdate (p : PlainSet α layers) (i : Nat) : Step p (.finishUpdate i) .done p
  | rekey (p : PlainSet α layers) (keys : LayeredKeys α layers) :
      Step p (.rekey keys) .done { p with keys }
  | update (p : PlainSet α layers) (a : α) (keys : LayeredKeys α layers) :
      Step p (.update a keys) .done { p with keys }

/-- Calls and their answers, the last first, with the set that they make of the empty one. -/
inductive PlainSet.Trace (keys : LayeredKeys α layers) :
    List (Call α layers × Answer α) → PlainSet α layers → Prop where
  | start : Trace keys [] ⟨∅, keys⟩
  | call {history : List (Call α layers × Answer α)} {p q : PlainSet α layers}
      {c : Call α layers} {a : Answer α} (h : Trace keys history p) (hstep : p.Step c a q) :
      Trace keys ((c, a) :: history) q

/-- A plain set leaves no choice of answers. -/
theorem PlainSet.Step.deterministic [Std.TransOrd α] {p q q' : PlainSet α layers}
    {c : Call α layers} {a a' : Answer α} (h : p.Step c a q) (h' : p.Step c a' q') :
    a = a' ∧ q = q' := by
  cases h with
  | popNothing hempty =>
    cases h' with
    | popNothing _ => exact ⟨rfl, rfl⟩
    | popLeast hin _ =>
      rw [hempty] at hin
      exact absurd hin (Finset.notMem_empty _)
  | @popLeast a hin hleast =>
    cases h' with
    | popNothing hempty =>
      rw [hempty] at hin
      exact absurd hin (Finset.notMem_empty _)
    | @popLeast b hin' hleast' =>
      by_cases hab : b = a
      · subst hab
        exact ⟨rfl, rfl⟩
      · exact absurd (hleast' a hin fun heq => hab heq.symm) (hleast b hin' hab).asymm
  | _ =>
    cases h'
    exact ⟨rfl, rfl⟩

theorem PlainSet.Trace.deterministic [Std.TransOrd α] {keys : LayeredKeys α layers}
    {history history' : List (Call α layers × Answer α)} {p p' : PlainSet α layers}
    (h : Trace keys history p) (h' : Trace keys history' p')
    (hcalls : history'.map Prod.fst = history.map Prod.fst) : history' = history ∧ p' = p := by
  induction h generalizing history' p' with
  | start =>
    rw [List.map_nil, List.map_eq_nil_iff] at hcalls
    subst hcalls
    cases h'
    exact ⟨rfl, rfl⟩
  | call _ hstep ih =>
    cases h' with
    | start => cases hcalls
    | call h' hstep' =>
      obtain ⟨hcall, hcalls⟩ := List.cons.inj hcalls
      obtain ⟨rfl, rfl⟩ := ih h' hcalls
      dsimp only at hcall
      subst hcall
      obtain ⟨rfl, rfl⟩ := hstep'.deterministic hstep
      exact ⟨rfl, rfl⟩

namespace Session

/-- What a call does to a queue in use, and what is answered. -/
def perform (s : Session α layers) : Call α layers → Session α layers × Answer α
  | .size => (s, .count s.queue.size)
  | .add a => ({ s with queue := s.queue.add a }, .done)
  | .delete a =>
    match s.queue.delete s.keys.toSortKeys a with
    | (queue, b) => ({ s with queue }, .found b)
  | .popFirst =>
    match s.queue.popFirst s.keys.toSortKeys with
    | (a, queue) => ({ s with queue }, .item a)
  | .startUpdate a =>
    ({ s with begun := s.begun ++ [s.queue.startUpdate s.keys.toSortKeys a] }, .done)
  | .finishUpdate i =>
    match s.begun[i]? with
    | none => (s, .done)
    | some u => ({ s with queue := s.queue.finishUpdate u, begun := s.begun.eraseIdx i }, .done)
  | .rekey keys => ({ s with keys }, .done)
  | .update a keys =>
    let u := s.queue.startUpdate s.keys.toSortKeys a
    ({ s with queue := s.queue.finishUpdate u, keys }, .done)

/-- What the user of a queue has to see to: an item is added only while it is not stored, and of the
stored items only those that wait may change their keys, and the one that is being updated. -/
def Allows (s : Session α layers) : Call α layers → Prop
  | .add a => a ∉ s.queue.items
  | .rekey keys => ∀ b ∈ s.queue.items, b ∉ s.queue.waiting → keys.place b = s.keys.place b
  | .update a keys =>
    ∀ b ∈ s.queue.items, b ≠ a → b ∉ s.queue.waiting → keys.place b = s.keys.place b
  | _ => True

instance (s : Session α layers) : (c : Call α layers) → Decidable (s.Allows c)
  | .add a => inferInstanceAs (Decidable (a ∉ s.queue.items))
  | .rekey keys => inferInstanceAs (Decidable
      (∀ b ∈ s.queue.items, b ∉ s.queue.waiting → keys.place b = s.keys.place b))
  | .update a keys => inferInstanceAs (Decidable
      (∀ b ∈ s.queue.items, b ≠ a → b ∉ s.queue.waiting → keys.place b = s.keys.place b))
  | .size | .delete _ | .popFirst | .startUpdate _ | .finishUpdate _ =>
    inferInstanceAs (Decidable True)

/-- The calls on a queue and its answers, the last first. The items that wait may change places at
any time, since nothing is known of the order in which they come to be sorted. -/
inductive Trace (keys : LayeredKeys α layers) :
    List (Call α layers × Answer α) → Session α layers → Prop where
  | start : Trace keys [] { keys }
  | shuffled {history : List (Call α layers × Answer α)} {s : Session α layers} {ws : List α}
      (h : Trace keys history s) (hws : ws.Perm s.queue.waiting) :
      Trace keys history { s with queue := { s.queue with waiting := ws } }
  | call {history : List (Call α layers × Answer α)} {s : Session α layers} {c : Call α layers}
      (h : Trace keys history s) (hc : s.Allows c) :
      Trace keys ((c, (s.perform c).2) :: history) (s.perform c).1

/-- The set that a queue in use stands for. -/
def plain (s : Session α layers) : PlainSet α layers := ⟨s.queue.items.toFinset, s.keys⟩

/-- The queue stores what it lists, the sorted items where their keys put them. -/
def Sound (s : Session α layers) : Prop :=
  s.queue.Holds s.keys.toSortKeys (· ∈ s.queue.items)

variable {s t : Session α layers} {p : PlainSet α layers}

theorem sound_of_holds {T : Finset α} (h : s.queue.Holds s.keys.toSortKeys (· ∈ T)) :
    s.Sound ∧ s.plain = ⟨T, s.keys⟩ := by
  have hitems : s.queue.items.toFinset = T := by
    ext a
    rw [List.mem_toFinset]
    exact h.mem_items
  refine ⟨h.congr fun a => h.mem_items, ?_⟩
  rw [plain, hitems]

theorem step_of_holds {T : Finset α} {c : Call α layers} {a : Answer α}
    (h : t.queue.Holds t.keys.toSortKeys (· ∈ T)) (hstep : p.Step c a ⟨T, t.keys⟩) :
    p.Step c a t.plain ∧ t.Sound := by
  obtain ⟨hsound, hplain⟩ := sound_of_holds h
  exact ⟨hplain ▸ hstep, hsound⟩

theorem Sound.holds (h : s.Sound) :
    s.queue.Holds s.keys.toSortKeys (· ∈ s.plain.items) :=
  h.congr fun _ => List.mem_toFinset

theorem Sound.size_eq [Std.TransOrd α] (h : s.Sound) : s.queue.size = s.plain.items.card := by
  rw [plain, List.toFinset_card_of_nodup h.nodup_items]
  exact Holds.size_eq h

/-- The order in which items wait shows neither in the answers nor in the set. -/
theorem Sound.shuffled {ws : List α} (h : s.Sound) (hws : ws.Perm s.queue.waiting) :
    Sound { s with queue := { s.queue with waiting := ws } } ∧
      plain { s with queue := { s.queue with waiting := ws } } = s.plain :=
  sound_of_holds (h.holds.perm hws)

theorem Sound.add {a : α} (h : s.Sound) (ha : s.Allows (.add a)) :
    s.plain.Step (.add a) .done (s.perform (.add a)).1.plain ∧ (s.perform (.add a)).1.Sound := by
  refine step_of_holds (T := insert a s.plain.items) ?_ (.add s.plain a)
  refine (h.holds.add fun hin => ha (List.mem_toFinset.mp hin)).congr ?_
  intro b
  rw [Finset.mem_insert]
  exact or_comm

variable [Std.TransOrd α] [Std.LawfulEqOrd α]

theorem Sound.delete {a : α} {b : Bool} {r : BucketQueue α (layers - 1)} (h : s.Sound)
    (hdelete : s.queue.delete s.keys.toSortKeys a = (r, b)) :
    s.plain.Step (.delete a) (.found b) (plain { s with queue := r }) ∧
      Sound { s with queue := r } := by
  have hstep := PlainSet.Step.delete s.plain a
  by_cases ha : a ∈ s.plain.items
  · obtain ⟨hfound, hrest⟩ := h.holds.delete ha
    rw [hdelete] at hfound hrest
    rw [decide_eq_true ha, ← hfound] at hstep
    refine step_of_holds (hrest.congr ?_) hstep
    intro b
    rw [Finset.mem_erase]
    exact and_comm
  · rw [h.holds.delete_absent ha] at hdelete
    cases hdelete
    rw [decide_eq_false ha, Finset.erase_eq_of_notMem ha] at hstep
    exact step_of_holds h.holds hstep

theorem Sound.popFirst {a : Option α} {r : BucketQueue α (layers - 1)} (h : s.Sound)
    (hpop : s.queue.popFirst s.keys.toSortKeys = (a, r)) :
    s.plain.Step .popFirst (.item a) (plain { s with queue := r }) ∧
      Sound { s with queue := r } := by
  cases a with
  | none =>
    have hempty : s.plain.items = ∅ :=
      Finset.eq_empty_of_forall_notMem (h.holds.popFirst_none hpop)
    exact step_of_holds (h.holds.of_popFirst_none hpop) (.popNothing hempty)
  | some a =>
    obtain ⟨ha, hleast, hrest⟩ := h.holds.popFirst_some hpop
    refine step_of_holds (T := s.plain.items.erase a) (hrest.congr ?_) (.popLeast ha ?_)
    · intro b
      rw [Finset.mem_erase]
      exact and_comm
    · exact fun b hb hne => s.keys.precedes_of_before (hleast b hb hne)

/-- An allowed call is answered as the plain set answers it. -/
theorem Sound.perform {c : Call α layers} (h : s.Sound) (hc : s.Allows c) :
    s.plain.Step c (s.perform c).2 (s.perform c).1.plain ∧ (s.perform c).1.Sound := by
  cases c with
  | size =>
    refine ⟨?_, h⟩
    rw [Session.perform, h.size_eq]
    exact .size s.plain
  | add a => exact h.add hc
  | delete a => exact h.delete rfl
  | popFirst => exact h.popFirst rfl
  | startUpdate a => exact ⟨.startUpdate s.plain a, h⟩
  | finishUpdate i =>
    rw [Session.perform]
    split
    · exact ⟨.finishUpdate s.plain i, h⟩
    · exact step_of_holds (h.holds.finishUpdate _) (.finishUpdate s.plain i)
  | rekey keys =>
    refine step_of_holds (h.holds.congr_keys ?_) (.rekey s.plain keys)
    exact fun b hb => hc b (List.mem_toFinset.mp hb)
  | update a keys =>
    refine step_of_holds (h.holds.update ?_) (.update s.plain a keys)
    exact fun b hb => hc b (List.mem_toFinset.mp hb)

omit [DecidableEq α] [Std.TransOrd α] [Std.LawfulEqOrd α] in
theorem sound_start (keys : LayeredKeys α layers) : Sound { keys } :=
  (holds_ofList List.nodup_nil keys.toSortKeys).congr fun _ => Iff.rfl

theorem Trace.sound {keys : LayeredKeys α layers} {history : List (Call α layers × Answer α)}
    (h : Trace keys history s) : PlainSet.Trace keys history s.plain ∧ s.Sound := by
  induction h with
  | start => exact ⟨.start, sound_start keys⟩
  | shuffled _ hws ih =>
    obtain ⟨htrace, hsound⟩ := ih
    obtain ⟨hsound', hplain⟩ := hsound.shuffled hws
    exact ⟨hplain ▸ htrace, hsound'⟩
  | call _ hc ih =>
    obtain ⟨htrace, hsound⟩ := ih
    obtain ⟨hstep, hsound'⟩ := hsound.perform hc
    exact ⟨.call htrace hstep, hsound'⟩

/-- A queue answers each call as the plain set of its items answers it, and any other run with the
same calls gives the same answers and leaves the same items, however its waiting items stood. -/
theorem Trace.refines_plainSet {keys : LayeredKeys α layers}
    {history : List (Call α layers × Answer α)} (h : Trace keys history s) :
    PlainSet.Trace keys history s.plain ∧
      ∀ history' s', Trace keys history' s' →
        history'.map Prod.fst = history.map Prod.fst →
          history' = history ∧ plain s' = s.plain :=
  ⟨h.sound.1, fun _ _ h' hcalls => h.sound.1.deterministic h'.sound.1 hcalls⟩

end Session

/-- Keys of two layers, under which the item `first` comes before the others and these descend. -/
def firstThenDescending (first : Nat) : LayeredKeys Nat 2 where
  path a := [if a = first then 0 else 1, -a]
  leaf _ := 0
  length_path _ := rfl

/-- An item that is sorted behind another comes out first after an update. -/
def promoted : List (Call Nat 2 × Answer Nat) :=
  [(.popFirst, .item none), (.delete 2, .found true), (.size, .count 1),
    (.popFirst, .item (some 1)), (.update 1 (firstThenDescending 1), .done), (.popFirst, .item (some 3)),
    (.add 3, .done), (.add 2, .done), (.add 1, .done)]

theorem promoted_refines_plainSet : ∃ s, Session.Trace (firstThenDescending 3) promoted s ∧
    PlainSet.Trace (firstThenDescending 3) promoted s.plain ∧
      ∀ history' s', Session.Trace (firstThenDescending 3) history' s' →
        history'.map Prod.fst = promoted.map Prod.fst →
          history' = promoted ∧ Session.plain s' = s.plain := by
  have h₁ : Session.Trace (firstThenDescending 3) [] _ := .start
  have h₂ := h₁.call (c := .add 1) (by decide)
  have h₃ := h₂.call (c := .add 2) (by decide)
  have h₄ := h₃.call (c := .add 3) (by decide)
  have h₅ := h₄.call (c := .popFirst) trivial
  have h₆ := h₅.call (c := .update 1 (firstThenDescending 1)) (by decide)
  have h₇ := h₆.call (c := .popFirst) trivial
  have h₈ := h₇.call (c := .size) trivial
  have h₉ := h₈.call (c := .delete 2) trivial
  have h := h₉.call (c := .popFirst) trivial
  exact ⟨_, h, h.refines_plainSet⟩

end BucketQueue

end Bundler
