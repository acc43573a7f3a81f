import Bundler.Proofs.RecordParts
/-!
# What choosing a profile does

Choosing a profile finds its changes, lays them over the written form of the configuration, reads
the result and changes each plugin that is then listed. This module says when that succeeds and what
comes out, step by step, so that nothing later has to take the choice apart.
-/
namespace Bundler

open Json

namespace Config
variable {c d e : Config} {fields merged : List (String × Json)} {profile : String} {changes : Json}

theorem nodup_keys_toJson (c : Config) : c.toJson.keys.Nodup := by
  unfold toJson Json.keys
  cases c.context <;> cases c.plugins.isEmpty <;> cases c.profiles.isEmpty <;> simp

/-- The written form over which a profile is laid. -/
def written (c : Config) : Json := { c with profiles := ∅ }.toJson

theorem nodup_keys_written (c : Config) : c.written.keys.Nodup :=
  nodup_keys_toJson { c with profiles := ∅ }

theorem layOver_object_eq_ok : c.layOver (.object fields) = .ok d ↔
    ∃ merged e, c.written.overlay (.object fields) = .object merged ∧
      shape.read (.object (removeField "profiles" merged)) = .ok e ∧
      { e with profiles := c.profiles } = d := by
  obtain ⟨merged, hmerged⟩ : ∃ merged, c.written.overlay (.object fields) = .object merged :=
    ⟨_, rfl⟩
  have hlaid : c.layOver (.object fields) =
      (shape.read (.object (removeField "profiles" merged))).map
        fun e => { e with profiles := c.profiles } := by
    rw [layOver]
    · show (shape.read ((c.written.overlay (.object fields)).withoutField "profiles") >>= _) = _
      rw [hmerged]
      show (shape.read (.object (removeField "profiles" merged)) >>= _) = _
      cases shape.read (.object (removeField "profiles" merged)) <;> rfl
    · exact Json.noConfusion
  rw [hlaid, map_eq_ok]
  constructor
  · rintro ⟨e, he, hd⟩
    exact ⟨merged, e, hmerged, he, hd⟩
  · rintro ⟨merged', e, hmerged', he, hd⟩
    obtain rfl := Json.object.inj (hmerged.symm.trans hmerged')
    exact ⟨e, he, hd⟩

/-- What is under the other keys when the profiles have been taken out. -/
theorem lookup_merged (hfields : (fields.map Prod.fst).Nodup)
    (hmerged : c.written.overlay (.object fields) = .object merged) :
    ((removeField "profiles" merged).map Prod.fst).Nodup ∧
      (removeField "profiles" merged).lookup "profiles" = none ∧
      ∀ k ≠ "profiles", (removeField "profiles" merged).lookup k =
        (c.written.overlay (.object fields)).field? k := by
  obtain ⟨both, hboth, hkeys, -⟩ := exists_overlay_object c.nodup_keys_written hfields
  obtain rfl := Json.object.inj (hmerged.symm.trans hboth)
  refine ⟨nodup_removeField hkeys, ?_, ?_⟩
  · rw [lookup_eq_none_iff]
    intro hin
    obtain ⟨f, hf, hkey⟩ := List.mem_map.mp hin
    exact ((mem_removeField hkeys).mp hf).2 hkey
  · intro k hk
    rw [lookup_removeField hkeys hk, hmerged]
    rfl

theorem layOver_profiles (h : c.layOver changes = .ok e) : e.profiles = c.profiles := by
  unfold layOver at h
  split at h
  · exact Except.ok.inj h ▸ rfl
  · obtain ⟨f, -, h⟩ := exists_of_bind_eq_ok h
    exact Except.ok.inj h ▸ rfl

/-- The changes of a profile to the configuration. If only plugins have the profile there are none,
for which `null` stands. -/
def changes? (c : Config) (profile : String) : Option Json :=
  (c.profiles.get? profile).or
    (if c.plugins.any (·.profiles.contains profile) then some .null else none)

/-- The configuration with changes made to it, and then to its plugins those they have for a
profile. -/
def changedBy (c : Config) (profile : String) (changes : Json) : Decoded Config := do
  let e ← c.layOver changes
  return { e with plugins := ← e.plugins.mapM (·.underProfile profile) }

theorem changedBy_eq_ok : c.changedBy profile changes = .ok d ↔
    ∃ e plugins, c.layOver changes = .ok e ∧
      e.plugins.mapM (·.underProfile profile) = .ok plugins ∧ { e with plugins } = d := by
  unfold changedBy
  constructor
  · intro hd
    obtain ⟨e, he, hd⟩ := exists_of_bind_eq_ok hd
    obtain ⟨plugins, hplugins, hd⟩ := exists_of_bind_eq_ok hd
    exact ⟨e, plugins, he, hplugins, Except.ok.inj hd⟩
  · rintro ⟨e, plugins, he, hplugins, rfl⟩
    rw [he]
    show (e.plugins.mapM (·.underProfile profile) >>= _) = _
    rw [hplugins]
    rfl

theorem materialize_eq_ok : c.materialize (some profile) = .ok d ↔
    ∃ changes, c.changes? profile = some changes ∧ c.changedBy profile changes = .ok d := by
  show c.underProfile profile = .ok d ↔ _
  unfold underProfile changes?
  cases c.profiles.get? profile with
  | some changes =>
    refine mapError_eq_ok.trans ⟨fun h => ⟨changes, rfl, h⟩, ?_⟩
    rintro ⟨_, hchanges, h⟩
    cases hchanges
    exact h
  | none =>
    cases c.plugins.any (·.profiles.contains profile) with
    | false => exact iff_of_false nofun nofun
    | true =>
      refine mapError_eq_ok.trans ⟨fun h => ⟨.null, rfl, h⟩, ?_⟩
      rintro ⟨_, hchanges, h⟩
      cases hchanges
      exact h

end Config

end Bundler
