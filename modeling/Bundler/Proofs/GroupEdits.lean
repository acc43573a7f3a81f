import Bundler.Proofs.ChunkGroup
/-!
# Edits of a group

The list of a group is changed by four edits. None of them lists a chunk twice, and every list
without repeats comes about by edits. Replacing a chunk in such a list is the same as sending every
chunk of the list, and the chunks in the two roles, to what they become, and keeping what comes
first.
-/
namespace Bundler.ChunkGroup

inductive Edit where
  | push (c : ChunkKey)
  | pushFront (c : ChunkKey)
  | replace (old new : ChunkKey)
  | remove (c : ChunkKey)
  deriving DecidableEq, Repr

/-- The group after an edit, and what the edit answers. -/
def Edit.perform (g : ChunkGroup) : Edit → ChunkGroup × Bool
  | push c => g.push c
  | pushFront c => g.pushFront c
  | replace old new => g.replace old new
  | remove c => g.remove c

def edited (g : ChunkGroup) (edits : List Edit) : ChunkGroup :=
  edits.foldl (fun g e => (e.perform g).1) g

variable {g start : ChunkGroup} {old new : ChunkKey}

theorem Edit.nodup_perform (h : g.chunks.Nodup) (e : Edit) : (e.perform g).1.chunks.Nodup := by
  cases e with
  | push c =>
    show (g.push c).1.chunks.Nodup
    unfold ChunkGroup.push
    split
    · exact h
    · rename_i hc
      exact (List.perm_append_singleton c g.chunks).nodup_iff.mpr (List.nodup_cons.mpr ⟨hc, h⟩)
  | pushFront c =>
    show (g.pushFront c).1.chunks.Nodup
    unfold ChunkGroup.pushFront
    split
    · exact h
    · exact List.nodup_cons.mpr ⟨h.not_mem_erase, h.erase c⟩
  | replace old new =>
    show (substitute old new g.chunks).Nodup
    rw [substitute_eq h]
    exact nodup_eraseDups _
  | remove c => exact h.erase c

theorem nodup_edited (h : g.chunks.Nodup) (edits : List Edit) : (g.edited edits).chunks.Nodup := by
  induction edits generalizing g with
  | nil => exact h
  | cons e edits ih => exact ih (e.nodup_perform h)

theorem chunks_edited_push {cs : List ChunkKey} (h : (g.chunks ++ cs).Nodup) :
    (g.edited (cs.map .push)).chunks = g.chunks ++ cs := by
  induction cs generalizing g with
  | nil => exact (List.append_nil _).symm
  | cons c cs ih =>
    have hfree : c ∉ g.chunks := by
      intro hc
      exact (List.nodup_append.mp h).2.2 c hc c List.mem_cons_self rfl
    have hpush : (g.push c).1.chunks = g.chunks ++ [c] := by
      rw [push, if_neg hfree]
    have hrest : ((g.push c).1.chunks ++ cs).Nodup := by
      rwa [hpush, List.append_assoc]
    show ((g.push c).1.edited (cs.map .push)).chunks = _
    rw [ih hrest, hpush, List.append_assoc]
    rfl

theorem map_renamed_ne (hne : old ≠ new) (role : Option ChunkKey) :
    role.map (renamed old new) ≠ some old := by
  intro h
  obtain ⟨k, -, hk⟩ := Option.map_eq_some_iff.mp h
  unfold renamed at hk
  split at hk
  · exact hne hk.symm
  · rename_i hother
    exact hother hk

/-- Edits of an empty list make just the lists without repeats. Replacing a chunk in such a list
puts the new one where the old one is, in the list and in the two roles, and keeps each chunk where
it then comes first. -/
theorem edited_nodup_and_replace (hstart : start.chunks = []) :
    (∀ cs, (∃ edits, (start.edited edits).chunks = cs) ↔ cs.Nodup) ∧
    ∀ edits (g : ChunkGroup), g.chunks = (start.edited edits).chunks → ∀ old new,
      (g.replace old new).1 = { g with
        chunks := (g.chunks.map (renamed old new)).eraseDups
        runtimeChunk := g.runtimeChunk.map (renamed old new)
        entryChunk := g.entryChunk.map (renamed old new) } ∧
      ((g.replace old new).2 = true ↔ old ∈ g.chunks) ∧
      (old ≠ new → (g.replace old new).1.runtimeChunk ≠ some old ∧
        (g.replace old new).1.entryChunk ≠ some old) := by
  have hempty : start.chunks.Nodup := hstart ▸ List.nodup_nil
  refine ⟨fun cs => ⟨?_, fun hcs => ?_⟩, fun edits g hg old new => ?_⟩
  · intro hmade
    obtain ⟨edits, rfl⟩ := hmade
    exact nodup_edited hempty edits
  · -- A list without repeats is pushed in its own order.
    refine ⟨cs.map .push, ?_⟩
    rw [chunks_edited_push (by rwa [hstart]), hstart, List.nil_append]
  · have hnodup : g.chunks.Nodup := hg ▸ nodup_edited hempty edits
    have hreplace : (g.replace old new).1 = g.redirect (renamed old new) :=
      replace_eq_redirect hnodup
    refine ⟨hreplace, List.contains_iff_mem, fun hne => ?_⟩
    rw [hreplace]
    exact ⟨map_renamed_ne hne g.runtimeChunk, map_renamed_ne hne g.entryChunk⟩

/-- An entrypoint whose runtime chunk is to be replaced by one that stands before it. -/
def threeListed : ChunkGroup :=
  { key := ⟨0⟩, kind := .entrypoint, chunks := [⟨1⟩, ⟨2⟩, ⟨3⟩], runtimeChunk := some ⟨3⟩,
    entryChunk := some ⟨3⟩ }

theorem threeListed_replace :
    ({ threeListed with chunks := [] } : ChunkGroup).chunks = [] ∧
    threeListed.chunks = (edited { threeListed with chunks := [] }
      [.push ⟨2⟩, .push ⟨4⟩, .pushFront ⟨1⟩, .push ⟨3⟩, .replace ⟨4⟩ ⟨2⟩, .remove ⟨4⟩]).chunks ∧
    (⟨3⟩ : ChunkKey) ≠ ⟨1⟩ ∧
    (threeListed.replace ⟨3⟩ ⟨1⟩).1 = { threeListed with
      chunks := [⟨1⟩, ⟨2⟩], runtimeChunk := some ⟨1⟩, entryChunk := some ⟨1⟩ } ∧
    (threeListed.replace ⟨3⟩ ⟨1⟩).2 = true ∧
    (threeListed.replace ⟨3⟩ ⟨1⟩).1.runtimeChunk ≠ some ⟨3⟩ := by
  have hempty : ({ threeListed with chunks := [] } : ChunkGroup).chunks = [] := rfl
  obtain ⟨-, hreplace⟩ := edited_nodup_and_replace hempty
  obtain ⟨hgroup, hanswer, hroles⟩ := hreplace
    [.push ⟨2⟩, .push ⟨4⟩, .pushFront ⟨1⟩, .push ⟨3⟩, .replace ⟨4⟩ ⟨2⟩, .remove ⟨4⟩]
    threeListed (by decide) ⟨3⟩ ⟨1⟩
  exact ⟨hempty, by decide, by decide, hgroup.trans (by decide), hanswer.mpr (by decide),
    (hroles (by decide)).1⟩

end Bundler.ChunkGroup
