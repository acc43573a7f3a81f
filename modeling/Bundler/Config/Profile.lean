import Bundler.Config.Codec
import Bundler.Config.Error
import Bundler.Text.Path
/-!
# Profiles

Choosing a profile lays its partial configuration over the base, and then lays the profile's
changes to single plugins over these. Laying one JSON value over another merges objects key by
key, at any depth; anything else replaces what was there.
-/
namespace Bundler

namespace Json

mutual

/-- Lays a value over another one. Two objects are merged; in any other case the upper value stays
alone. -/
def overlay (base : Json) : Json → Json
  | .object fields =>
    match base with
    | .object below => .object (overlayFields below fields)
    | _ => .object fields
  | v => v

/-- Lays fields over those of an object. A key that is new goes to the end, and a `null` is a value
like any other. -/
def overlayFields (below : List (String × Json)) :
    List (String × Json) → List (String × Json)
  | [] => below
  | (k, v) :: rest =>
    overlayFields (setField k (overlay ((below.lookup k).getD .null) v) below) rest

end

/-- The fields of an object without a key. The last field takes the place of the one that goes. -/
def removeField (key : String) (fields : List (String × Json)) : List (String × Json) :=
  match fields.getLast? with
  | some last =>
    if last.1 = key then fields.dropLast
    else if (fields.lookup key).isNone then fields
    else fields.dropLast.map fun f => if f.1 = key then last else f
  | none => fields

/-- An object without a key; other values stay as they are. -/
def withoutField (key : String) : Json → Json
  | .object fields => .object (removeField key fields)
  | v => v

end Json

namespace PluginEntry

/-- The entry under a profile: unchanged unless it has changes for it. -/
def underProfile (p : PluginEntry) (profile : String) : Json.Decoded PluginEntry :=
  match p.profiles.get? profile with
  | none | some .null => .ok p
  | some changes => do
    let q ← PluginEntry.read (p.toJson.overlay changes)
    return { q with profiles := p.profiles }

end PluginEntry

namespace Config

/-- Reads a configuration from a value, where every fault is told as one of the whole. -/
def ofJson (v : Json) : Except ConfigError Config :=
  (read v).mapError fun e => .invalidValue "config" (some e.message)

/-- Makes the context a path seen from `base`; without a context, `base` is the context. -/
def resolveContext (c : Config) (base : String) : Config :=
  { c with context := some (c.context.elim base (Path.join base)) }

/-- Lays a partial configuration over the base; the profiles stay those of the base. -/
def layOver (c : Config) : Json → Json.Decoded Config
  | .null => .ok c
  | changes => do
    let base := { c with profiles := ∅ }.toJson
    let d ← read ((base.overlay changes).withoutField "profiles")
    return { d with profiles := c.profiles }

/-- The names of the profiles for a message. Those that only plugins know are not listed. -/
def profileNames (c : Config) : String :=
  if c.profiles.isEmpty then "none" else ", ".intercalate c.profiles.keys

/-- The configuration under a profile. It is enough that one plugin knows the profile; the
configuration then only changes in its plugins. -/
def underProfile (c : Config) (profile : String) : Except ConfigError Config := do
  let changes ← match c.profiles.get? profile with
    | some changes => pure changes
    | none =>
      if c.plugins.any (·.profiles.contains profile) then pure .null
      else throw (.unknownProfile profile c.profileNames)
  let overlaid : Json.Decoded Config := do
    let d ← c.layOver changes
    return { d with plugins := ← d.plugins.mapM (·.underProfile profile) }
  overlaid.mapError fun e => .invalidProfileOverride e.message

def materialize (c : Config) : Option String → Except ConfigError Config
  | none => .ok c
  | some profile => c.underProfile profile

end Config

end Bundler
