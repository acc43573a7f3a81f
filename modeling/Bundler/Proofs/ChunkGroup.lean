import Bundler.Chunk.Basic
/-!
# Redirected groups

Sending every chunk of a group to another one, later repeats dropped, and its two roles with it, is
how a group looks after merges. Replacing a chunk is the case of a single change, and redirections
compose.
-/
namespace Bundler

section EraseDups
variable {α β : Type} [DecidableEq α] [DecidableEq β]

theorem filter_eraseDups (p : α → Bool) (l : List α) :
    l.eraseDups.filter p = (l.filter p).eraseDups := by
  match l with
  | [] => rfl
  | a :: as =>
    have hlen := List.length_filter_le (fun b => !b == a) as
    rw [List.eraseDups_cons, List.filter_cons, filter_eraseDups p (as.filter _), List.filter_cons,
      List.filter_filter]
    split
    · rw [List.eraseDups_cons, List.filter_filter]
      congr 3
      funext b
      exact Bool.and_comm ..
    · rename_i hp
      congr 2
      funext b
      by_cases hb : b = a
      · simp [hb, hp]
      · simp [hb]
termination_by l.length

theorem nodup_eraseDups (l : List α) : l.eraseDups.Nodup := by
  match l with
  | [] => exact List.nodup_nil
  | a :: as =>
    have hlen := List.length_filter_le (fun b => !b == a) as
    rw [List.eraseDups_cons, List.nodup_cons]
    exact ⟨by simp, nodup_eraseDups _⟩
termination_by l.length

theorem eraseDups_of_nodup {l : List α} (h : l.Nodup) : l.eraseDups = l := by
  induction l with
  | nil => rfl
  | cons a as ih =>
    obtain ⟨ha, has⟩ := List.nodup_cons.mp h
    have hfilter : as.filter (fun b => !b == a) = as := by
      rw [List.filter_eq_self]
      intro b hb
      have hne : b ≠ a := fun heq => ha (heq ▸ hb)
      simp [hne]
    rw [List.eraseDups_cons, hfilter, ih has]

theorem eraseDups_append_cons {a : α} {l r : List α} (h : a ∈ l) :
    (l ++ a :: r).eraseDups = (l ++ r).eraseDups := by
  have hremove : (a :: r).removeAll l = r.removeAll l := by simp [List.removeAll, h]
  rw [List.eraseDups_append, List.eraseDups_append, hremove]

/-- Repeats that are dropped before a change would have been dropped after it. -/
theorem eraseDups_map_eraseDups (f : α → β) (l : List α) :
    (l.eraseDups.map f).eraseDups = (l.map f).eraseDups := by
  match l with
  | [] => rfl
  | a :: as =>
    have hlen := List.length_filter_le (fun b => !f b == f a && !b == a) as
    have hfilter : as.filter (fun b => !f b == f a) =
        as.filter fun b => !f b == f a && !b == a := by
      congr 1
      funext b
      by_cases hb : b = a
      · simp [hb]
      · simp [hb]
    rw [List.eraseDups_cons, List.map_cons, List.map_cons, List.eraseDups_cons,
      List.eraseDups_cons, List.filter_map, List.filter_map]
    congr 1
    show (List.map f (List.filter (fun b => !f b == f a) _)).eraseDups =
      (List.map f (List.filter (fun b => !f b == f a) as)).eraseDups
    rw [filter_eraseDups, List.filter_filter, hfilter]
    exact eraseDups_map_eraseDups f _
termination_by l.length

end EraseDups

namespace ChunkGroup

/-- The group with every chunk sent to another one. -/
def redirect (f : ChunkKey → ChunkKey) (g : ChunkGroup) : ChunkGroup :=
  { g with
    chunks := (g.chunks.map f).eraseDups
    runtimeChunk := g.runtimeChunk.map f
    entryChunk := g.entryChunk.map f }

theorem mem_redirect {f : ChunkKey → ChunkKey} {g : ChunkGroup} {k : ChunkKey} :
    k ∈ (g.redirect f).chunks ↔ ∃ j ∈ g.chunks, f j = k := by
  rw [redirect, List.mem_eraseDups, List.mem_map]

theorem redirect_redirect (e f : ChunkKey → ChunkKey) (g : ChunkGroup) :
    (g.redirect f).redirect e = g.redirect (e ∘ f) := by
  simp only [redirect, eraseDups_map_eraseDups, List.map_map, Option.map_map]

theorem map_eq_self {f : ChunkKey → ChunkKey} {l : List ChunkKey} (h : ∀ k ∈ l, f k = k) :
    l.map f = l := (List.map_congr_left h).trans (List.map_id l)

theorem redirect_eq_self {f : ChunkKey → ChunkKey} {g : ChunkGroup} (hnodup : g.chunks.Nodup)
    (hchunks : ∀ k ∈ g.chunks, f k = k)
    (hroles : ∀ k, g.runtimeChunk = some k ∨ g.entryChunk = some k → f k = k) :
    g.redirect f = g := by
  have hrole : ∀ o : Option ChunkKey, (∀ k, o = some k → f k = k) → o.map f = o := by
    intro o ho
    cases o with
    | none => rfl
    | some k => exact congrArg some (ho k rfl)
  rw [redirect, map_eq_self hchunks, eraseDups_of_nodup hnodup,
    hrole _ fun k hk => hroles k (Or.inl hk), hrole _ fun k hk => hroles k (Or.inr hk)]

def renamed (old new k : ChunkKey) : ChunkKey := if k = old then new else k

theorem idxOf?_append_cons {a : ChunkKey} {l r : List ChunkKey} (h : a ∉ l) :
    (l ++ a :: r).idxOf? a = some l.length := by
  induction l with
  | nil => simp [List.idxOf?_cons]
  | cons b l ih =>
    have hne : b ≠ a := fun heq => h (heq ▸ List.mem_cons_self)
    rw [List.cons_append, List.idxOf?_cons, ih fun hl => h (List.mem_cons_of_mem _ hl)]
    simp [hne]

section Substitute
variable {old new : ChunkKey} {l r cs : List ChunkKey}

theorem not_mem_of_nodup (h : (l ++ old :: r).Nodup) : old ∉ l ∧ old ∉ r := by
  obtain ⟨-, hr, hdisjoint⟩ := List.nodup_append.mp h
  exact ⟨fun hin => hdisjoint old hin old List.mem_cons_self rfl, (List.nodup_cons.mp hr).1⟩

theorem nodup_without (h : (l ++ old :: r).Nodup) : (l ++ r).Nodup :=
  h.sublist ((List.sublist_cons_self old r).append_left l)

theorem map_renamed (hl : old ∉ cs) : cs.map (renamed old new) = cs := by
  refine map_eq_self fun k hk => if_neg ?_
  intro heq
  subst heq
  exact hl hk

theorem map_renamed_append_cons (h : (l ++ old :: r).Nodup) :
    (l ++ old :: r).map (renamed old new) = l ++ new :: r := by
  obtain ⟨hl, hr⟩ := not_mem_of_nodup h
  rw [List.map_append, List.map_cons, map_renamed hl, map_renamed hr, renamed, if_pos rfl]

theorem substitute_of_not_mem (h : old ∉ cs) : substitute old new cs = cs := by
  rw [substitute, List.idxOf?_eq_none_iff.mpr h]

theorem substitute_fresh (h : (l ++ old :: r).Nodup) (hnew : new ∉ l ++ old :: r) :
    substitute old new (l ++ old :: r) = l ++ new :: r := by
  rw [substitute, idxOf?_append_cons (not_mem_of_nodup h).1, List.idxOf?_eq_none_iff.mpr hnew]
  simp

theorem substitute_self (h : (l ++ old :: r).Nodup) :
    substitute old old (l ++ old :: r) = l ++ old :: r := by
  rw [substitute, idxOf?_append_cons (not_mem_of_nodup h).1]
  simp

/-- A new chunk that stands earlier keeps its own place. -/
theorem substitute_earlier (h : (l ++ old :: r).Nodup) (hin : new ∈ l) :
    substitute old new (l ++ old :: r) = l ++ r := by
  rw [substitute, idxOf?_append_cons (not_mem_of_nodup h).1]
  obtain ⟨l₁, l₂, rfl⟩ := List.append_of_mem hin
  obtain ⟨hl, -, -⟩ := List.nodup_append.mp h
  have hidx : (l₁ ++ new :: l₂ ++ old :: r).idxOf? new = some l₁.length := by
    rw [List.append_assoc, List.cons_append]
    exact idxOf?_append_cons (not_mem_of_nodup hl).1
  have hlt : l₁.length < (l₁ ++ new :: l₂).length := by simp
  rw [hidx]
  show (if l₁.length < (l₁ ++ new :: l₂).length then _ else _) = _
  rw [if_pos hlt, List.eraseIdx_append_of_length_le (Nat.le_refl _), Nat.sub_self]
  rfl

/-- A new chunk that stands later moves to the place of the old one. -/
theorem substitute_later {r' : List ChunkKey} (h : (l ++ old :: (r ++ new :: r')).Nodup) :
    substitute old new (l ++ old :: (r ++ new :: r')) = l ++ new :: r ++ r' := by
  have hassoc : l ++ old :: (r ++ new :: r') = (l ++ old :: r) ++ new :: r' := by simp
  have hidx : (l ++ old :: (r ++ new :: r')).idxOf? new = some (l ++ old :: r).length := by
    rw [hassoc] at h ⊢
    exact idxOf?_append_cons (not_mem_of_nodup h).1
  have hset : (l ++ old :: (r ++ new :: r')).set l.length new = l ++ new :: r ++ new :: r' := by
    simp
  have hlen : (l ++ old :: r).length = (l ++ new :: r).length := by simp
  rw [substitute, idxOf?_append_cons (not_mem_of_nodup h).1, hidx]
  show (if (l ++ old :: r).length < l.length then _ else
    if (l ++ old :: r).length = l.length then _ else _) = _
  rw [if_neg (by simp), if_neg (by simp), hset, hlen,
    List.eraseIdx_append_of_length_le (Nat.le_refl _), Nat.sub_self]
  rfl

/-- Substituting in a list keeps each first occurrence of what the change makes of it. -/
theorem substitute_eq (h : cs.Nodup) :
    substitute old new cs = (cs.map (renamed old new)).eraseDups := by
  by_cases hold : old ∈ cs
  · obtain ⟨l, r, rfl⟩ := List.append_of_mem hold
    rw [map_renamed_append_cons h]
    by_cases hnew : new ∈ l ++ old :: r
    · rcases List.mem_append.mp hnew with hin | hin
      · rw [substitute_earlier h hin, eraseDups_append_cons hin,
          eraseDups_of_nodup (nodup_without h)]
      · rcases List.mem_cons.mp hin with rfl | hin
        · rw [substitute_self h, eraseDups_of_nodup h]
        · obtain ⟨r₁, r₂, rfl⟩ := List.append_of_mem hin
          have hperm : (l ++ old :: (r₁ ++ new :: r₂)).Perm (old :: (l ++ new :: r₁ ++ r₂)) := by
            refine List.perm_middle.trans (List.Perm.cons old ?_)
            rw [List.append_assoc]
            exact List.perm_middle.append_left l
          have hrest : (l ++ new :: r₁ ++ r₂).Nodup :=
            (List.nodup_cons.mp (hperm.nodup_iff.mp h)).2
          have hassoc : l ++ new :: (r₁ ++ new :: r₂) = (l ++ new :: r₁) ++ new :: r₂ := by simp
          rw [substitute_later h, hassoc, eraseDups_append_cons (by simp),
            eraseDups_of_nodup hrest]
    · have hfresh : (l ++ new :: r).Nodup := by
        refine List.perm_middle.nodup_iff.mpr (List.nodup_cons.mpr ⟨?_, nodup_without h⟩)
        exact fun hin => hnew (((List.sublist_cons_self old r).append_left l).subset hin)
      rw [substitute_fresh h hnew, eraseDups_of_nodup hfresh]
  · rw [map_renamed hold, eraseDups_of_nodup h, substitute_of_not_mem hold]

end Substitute

/-- No chunk is listed twice, and the chunks in the two roles are listed. -/
structure Tidy (g : ChunkGroup) : Prop where
  nodup : g.chunks.Nodup
  runtime : ∀ k ∈ g.runtimeChunk, k ∈ g.chunks
  entry : ∀ k ∈ g.entryChunk, k ∈ g.chunks

instance (g : ChunkGroup) : Decidable g.Tidy :=
  decidable_of_iff (g.chunks.Nodup ∧ (∀ k ∈ g.runtimeChunk, k ∈ g.chunks) ∧
    ∀ k ∈ g.entryChunk, k ∈ g.chunks)
    ⟨fun h => ⟨h.1, h.2.1, h.2.2⟩, fun h => ⟨h.nodup, h.runtime, h.entry⟩⟩

theorem replace_eq_redirect {g : ChunkGroup} {old new : ChunkKey} (h : g.chunks.Nodup) :
    (g.replace old new).1 = g.redirect (renamed old new) := by
  have hrole : ∀ o : Option ChunkKey,
      (if o = some old then some new else o) = o.map (renamed old new) := by
    intro o
    cases o with
    | none => rfl
    | some k =>
      by_cases hk : k = old
      · simp [renamed, hk]
      · simp [renamed, hk]
  rw [replace, redirect, substitute_eq h, hrole, hrole]

/-- Replacing a chunk in those tidy groups only that list it is redirecting it in all of them. -/
theorem Tidy.ite_replace {g : ChunkGroup} {old new : ChunkKey} {P : Prop} [Decidable P]
    (h : g.Tidy) (hP : P ↔ old ∈ g.chunks) :
    (if P then (g.replace old new).1 else g) = g.redirect (renamed old new) := by
  by_cases hold : P
  · rw [if_pos hold, replace_eq_redirect h.nodup]
  · rw [if_neg hold]
    have hkeep : ∀ k ∈ g.chunks, renamed old new k = k := by
      intro k hk
      apply if_neg
      intro heq
      subst heq
      exact hold (hP.mpr hk)
    refine (redirect_eq_self h.nodup hkeep ?_).symm
    intro k hor
    rcases hor with hk | hk
    · exact hkeep k (h.runtime k hk)
    · exact hkeep k (h.entry k hk)

end ChunkGroup

end Bundler
