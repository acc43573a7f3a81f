import Bundler.Build.Settings
import Bundler.Proofs.Layers
import Bundler.Proofs.Paths
/-!
# Contexts of profiles

The context that a configuration names is seen from the directory of its file. That is settled when
the file is loaded, before a profile is chosen. A context that the profile names comes in its place
as it is written, and so a relative one is seen from wherever the build is run. This module says how
the two contexts compare.
-/
namespace Bundler

open Json

/-- What an overlay says about the context, which is the first item of an array. -/
def contextWord : Json → Option Json
  | .array items => items.head?
  | overlay => overlay.field? "context"

namespace Config
variable {c d : Config} {overlay : Json} {profile dir s : String}

theorem layOver_array_eq_ok {items : List Json} : c.layOver (.array items) = .ok d ↔
    ∃ e, shape.read (.array items) = .ok e ∧ { e with profiles := c.profiles } = d := by
  have hlaid : c.layOver (.array items) =
      (shape.read (.array items)).map fun e => { e with profiles := c.profiles } := by
    show (shape.read (.array items) >>= _) = _
    cases shape.read (.array items) <;> rfl
  rw [hlaid, map_eq_ok]

theorem lookup_context (items : List Json) :
    (shape.fields.zip items).lookup "context" = items.head? := by
  cases items <;> rfl

/-- The context is what the overlay has for it, as it is written there. -/
theorem layOver_context (hkeys : overlay.keys.Nodup)
    (hcontext : contextWord overlay = some (.string s)) (hd : c.layOver overlay = .ok d) :
    d.context = some s := by
  cases overlay with
  | object fields =>
    have hpart := layOver_flat context_part (by decide) (fun _ _ => rfl) (flatAt_context c) hkeys hd
    rw [at?_object, show fields.lookup "context" = _ from hcontext] at hpart
    exact (Except.ok.inj hpart).symm
  | array items =>
    obtain ⟨e, he, rfl⟩ := layOver_array_eq_ok.mp hd
    have hpart := context_part.of_items (by decide) he
    rw [lookup_context, show items.head? = _ from hcontext] at hpart
    exact (Except.ok.inj hpart).symm
  | _ => cases hcontext

theorem context_of_materialize (hoverlay : c.profiles.get? profile = some overlay)
    (hkeys : overlay.keys.Nodup) (hcontext : contextWord overlay = some (.string s))
    (hd : c.materialize (some profile) = .ok d) : d.context = some s := by
  obtain ⟨e, plugins, he, -, rfl⟩ := exists_of_materialize hoverlay hd
  show e.context = some s
  exact layOver_context hkeys hcontext he

/-- The context of a profile stays as it is written, and a build sees it from its working directory.
Named by the configuration itself it would be seen from the directory of the file. The two are the
same only for an absolute path. -/
theorem profile_context_iff (hdir : Path.isAbsolute dir = true)
    (hoverlay : c.profiles.get? profile = some overlay) (hkeys : overlay.keys.Nodup)
    (hcontext : contextWord overlay = some (.string s))
    (hd : (c.resolveContext dir).materialize (some profile) = .ok d) :
    d.context = some s ∧
    ({ c with context := some s }.resolveContext dir).context = some (Path.join dir s) ∧
    (d.context = ({ c with context := some s }.resolveContext dir).context ↔
      Path.isAbsolute s = true) ∧
    ∀ cwd t, Settings.ofConfig d cwd = .ok t → t.context = Path.clean (Path.join cwd s) := by
  have hprofile : (c.resolveContext dir).profiles.get? profile = some overlay := hoverlay
  have hcontext := context_of_materialize hprofile hkeys hcontext hd
  refine ⟨hcontext, rfl, ?_, fun cwd t ht => ?_⟩
  · show d.context = some (Path.join dir s) ↔ _
    rw [hcontext, Option.some_inj, eq_comm, Path.join_eq_right_iff hdir]
  · obtain ⟨-, -, rfl⟩ := Settings.eq_of_ofConfig ht
    show Path.clean (d.context.elim cwd (Path.join cwd)) = _
    rw [hcontext]
    rfl

/-- A configuration with a profile whose context is a directory below that of the file. -/
def housed : Config where
  profiles := .ofList [("ci", .object [("context", .string "app")])]

theorem housed_profile_context : Path.isAbsolute "/site" = true ∧
    housed.profiles.get? "ci" = some (.object [("context", .string "app")]) ∧
    ∃ d, (housed.resolveContext "/site").materialize (some "ci") = .ok d ∧
      d.context = some "app" := by
  obtain ⟨d, hd⟩ := Option.isSome_iff_exists.mp
    (show ((housed.resolveContext "/site").materialize (some "ci")).toOption.isSome = true by
      decide +kernel)
  have hd := eq_ok_of_toOption hd
  exact ⟨by decide, rfl, d, hd, (profile_context_iff (by decide) rfl (by simp [keys]) rfl hd).1⟩

/-- The profile's context is not seen from the directory of the file. -/
theorem profile_context_unresolved :
    ((housed.resolveContext "/site").materialize (some "ci")).toOption.bind (·.context) =
      some "app" ∧
    ({ housed with context := some "app" }.resolveContext "/site").context =
      some "/site/app" := by
  decide +kernel

end Config

end Bundler
