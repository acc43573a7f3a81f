import Bundler.Config.Profile
import Bundler.Proofs.OrderedMaps
import Bundler.Proofs.Results
/-!
# Configurations that are written and read back

Writing a configuration leaves out parts that are absent or empty, and reading fills in what is not
there. This module shows that the two fit: whatever is left out of a record comes back as just what
was left out, at every level, so that a configuration is the one that is read from what it writes.
-/
namespace Bundler

theorem OrderedMap.ofList_toList {κ : Type u} {β : Type v} [DecidableEq κ] (m : OrderedMap κ β) :
    ofList m.toList = m := by
  have hfold : ∀ (es : List (κ × β)) (t : OrderedMap κ β),
      ((t.toList ++ es).map Prod.fst).Nodup →
      (es.foldl (fun t e => t.insert e.1 e.2) t).toList = t.toList ++ es := by
    intro es
    induction es with
    | nil => exact fun t _ => (List.append_nil _).symm
    | cons e es ih =>
      intro t h
      have hfree : e.1 ∉ t.keys := by
        rw [List.map_append, List.nodup_append] at h
        exact fun hin => h.2.2 e.1 hin e.1 List.mem_cons_self rfl
      have hinsert := toList_insert_of_not_mem hfree e.2
      rw [List.foldl_cons, ih _ (by rw [hinsert, List.append_assoc]; exact h), hinsert,
        List.append_assoc]
      rfl
  exact ext (hfold m.toList ∅ m.nodup)

theorem OrderedMap.eq_empty {κ : Type u} {β : Type v} [DecidableEq κ] {m : OrderedMap κ β}
    (h : m.isEmpty = true) : m = ∅ :=
  ext (List.isEmpty_iff.mp h)

namespace NameMap
variable {β : Type u}

theorem insertAscending_of_lt {ps : List (String × β)} {k : String} (b : β)
    (h : ∀ p ∈ ps, p.1 < k) : insertAscending k b ps = ps ++ [(k, b)] := by
  induction ps with
  | nil => rfl
  | cons p ps ih =>
    obtain ⟨hp, hps⟩ := List.forall_mem_cons.mp h
    rw [insertAscending, if_neg (String.lt_asymm hp), if_neg (String.ne_of_lt hp).symm, ih hps]
    rfl

theorem ofList_toList (m : NameMap β) : ofList m.toList = m := by
  have hfold : ∀ (es : List (String × β)) (t : NameMap β),
      ((t.toList ++ es).map Prod.fst).Pairwise (· < ·) →
      (es.foldl (fun t e => t.insert e.1 e.2) t).toList = t.toList ++ es := by
    intro es
    induction es with
    | nil => exact fun t _ => (List.append_nil _).symm
    | cons e es ih =>
      intro t h
      have hbelow : ∀ p ∈ t.toList, p.1 < e.1 := by
        rw [List.map_append, List.pairwise_append] at h
        exact fun p hp => h.2.2 p.1 (List.mem_map_of_mem hp) e.1 List.mem_cons_self
      have hinsert : (t.insert e.1 e.2).toList = t.toList ++ [e] :=
        insertAscending_of_lt e.2 hbelow
      rw [List.foldl_cons, ih _ (by rw [hinsert, List.append_assoc]; exact h), hinsert,
        List.append_assoc]
      rfl
  exact ext (hfold m.toList ∅ m.ascending)

theorem eq_empty {m : NameMap β} (h : m.isEmpty = true) : m = ∅ := ext (List.isEmpty_iff.mp h)

end NameMap

namespace Json
variable {α σ : Type} {read : Json → Decoded α} {write : α → Json}

/-- Reading gives back whatever was written. -/
def Restores (read : Json → Decoded α) (write : α → Json) : Prop := ∀ a, read (write a) = .ok a

theorem mapM_restored {β γ : Type} {f : β → Decoded γ} {g : γ → β} (h : ∀ c, f (g c) = .ok c)
    (cs : List γ) : (cs.map g).mapM f = .ok cs := by
  induction cs with
  | nil => rfl
  | cons c cs ih =>
    rw [List.map_cons, List.mapM_cons, h, ih]
    rfl

theorem Restores.list (h : Restores read write) :
    Restores (asList read) fun xs => .array (xs.map write) := mapM_restored h

theorem Restores.fields (h : Restores read write) :
    Restores (asFields read) fun es => .object (es.map fun e => (e.1, write e.2)) := by
  apply mapM_restored (g := fun e : String × α => (e.1, write e.2))
  intro e
  rw [h]
  rfl

/-- Values that are kept as they are. -/
theorem restores_raw : Restores (asFields .ok) .object := by
  intro es
  have hes := mapM_restored (g := id) (f := fun e : String × Json => do
    return (e.1, ← (.ok e.2 : Decoded Json))) (fun _ => rfl) es
  rwa [List.map_id] at hes

theorem restores_string : Restores asString .string := fun _ => rfl

theorem asNatBelow_nat {bound n : Nat} (h : n < bound) (expected : String) :
    asNatBelow bound expected (.nat n) = .ok n :=
  if_pos ⟨Int.natCast_nonneg n, Int.ofNat_lt.mpr h⟩

theorem restores_uint32 : Restores asUInt32 fun n => .nat n.toNat := by
  intro n
  show (asNatBelow _ _ (.nat n.toNat)).map UInt32.ofNat = _
  rw [asNatBelow_nat n.toNat_lt]
  exact congrArg Except.ok UInt32.ofNat_toNat

theorem restores_uint64 : Restores asUInt64 fun n => .nat n.toNat := by
  intro n
  show (asNatBelow _ _ (.nat n.toNat)).map UInt64.ofNat = _
  rw [asNatBelow_nat n.toNat_lt]
  exact congrArg Except.ok UInt64.ofNat_toNat

/-- A written value that is not `null` is there. -/
theorem Restores.option (h : Restores read write) {a : α} (hnull : write a ≠ .null) :
    asOption read (write a) = .ok (some a) := by
  unfold asOption
  split
  · rename_i heq
    exact absurd heq hnull
  · rw [h]
    rfl

/-- What a record becomes by taking in some fields. -/
def RecordShape.takeIn (r : RecordShape σ) (s : σ) (fields : List (String × Json)) : Decoded σ :=
  fields.foldlM (fun s f => r.step s f.1 f.2) s

variable {r : RecordShape σ} {s t u : σ} {key : String} {v : Json}

namespace RecordShape

theorem takeIn_append {fields more : List (String × Json)} (h : r.takeIn s fields = .ok t)
    (h' : r.takeIn t more = .ok u) : r.takeIn s (fields ++ more) = .ok u := by
  unfold takeIn at h h' ⊢
  rw [List.foldlM_append, h]
  exact h'

theorem takeIn_cons {fields : List (String × Json)} (h : r.step s key v = .ok t)
    (h' : r.takeIn t fields = .ok u) : r.takeIn s ((key, v) :: fields) = .ok u := by
  unfold takeIn at h' ⊢
  rw [List.foldlM_cons, h]
  exact h'

/-- A field that is read by itself and then put into the record. -/
theorem step_read {β : Type} {read : Json → Decoded β} {b : β} (put : σ → β → σ)
    (hstep : ∀ s v, r.step s key v = do return put s (← read v)) (hread : read v = .ok b) (s : σ) :
    r.step s key v = .ok (put s b) := by
  rw [hstep, hread]
  rfl

/-- A field that is written only where there is something to write. -/
theorem takeIn_option {o : Option α} (hnone : o = none → s = t)
    (hsome : ∀ a, o = some a → r.step s key (write a) = .ok t) :
    r.takeIn s (o.toList.map fun a => (key, write a)) = .ok t := by
  cases o with
  | none => exact congrArg Except.ok (hnone rfl)
  | some a => exact takeIn_cons (hsome a rfl) rfl

theorem takeIn_unless {empty : Bool} (htrue : empty = true → s = t)
    (hfalse : r.step s key v = .ok t) :
    r.takeIn s (if empty then [] else [(key, v)]) = .ok t := by
  cases empty with
  | true => exact congrArg Except.ok (htrue rfl)
  | false => exact takeIn_cons hfalse rfl

theorem read_object {fields : List (String × Json)} (h : r.takeIn r.start fields = .ok s)
    (hneeded : ∀ name ∈ r.needed, (fields.lookup name).isSome = true) :
    r.read (.object fields) = .ok s := by
  have hnone : r.needed.find? (fun name => (fields.lookup name).isNone) = none := by
    rw [List.find?_eq_none]
    intro name hname
    rw [Option.isNone_eq_false_iff.mpr (hneeded name hname)]
    exact Bool.false_ne_true
  unfold takeIn at h
  rw [read, ofFields, h, hnone]
  rfl

end RecordShape

end Json

open Json (Restores RecordShape)
open Json.RecordShape (takeIn_append takeIn_cons takeIn_option takeIn_unless step_read read_object)

theorem Output.restores : Restores shape.read toJson := fun _ => rfl

theorem HtmlPage.restores : Restores shape.read toJson := by
  intro p
  refine read_object (takeIn_append (takeIn_append (t := { p with title := none, chunks := none })
    rfl (takeIn_option (t := { p with chunks := none }) ?_ ?_)) (takeIn_option ?_ ?_)) ?_
  · intro htitle
    rw [htitle]
  · intro title htitle
    rw [htitle]
    rfl
  · intro hchunks
    rw [← hchunks]
  · intro chunks hchunks
    rw [step_read (r := shape) (fun p chunks => { p with chunks }) (fun _ _ => rfl)
      (Json.restores_string.list.option (a := chunks) Json.noConfusion), ← hchunks]
  · intro name hname
    rw [List.mem_singleton.mp hname]
    rfl

theorem LimitSettings.restores : Restores shape.read toJson := by
  intro l
  refine read_object (takeIn_append (takeIn_append
    (t := { maxChunks := l.maxChunks }) (takeIn_cons ?_ rfl)
    (takeIn_option (t := { l with entryChunkMultiplicator := none }) ?_ ?_))
    (takeIn_option ?_ ?_)) ?_
  · exact step_read (r := shape) (fun l n => { l with maxChunks := n }) (fun _ _ => rfl)
      (Json.restores_uint32 l.maxChunks) _
  · intro hoverhead
    rw [hoverhead]
  · intro n hoverhead
    rw [step_read (r := shape) (fun l n => { l with chunkOverhead := n }) (fun _ _ => rfl)
      (Json.restores_uint64.option (a := n) Json.noConfusion), hoverhead]
  · intro hweight
    rw [← hweight]
  · intro n hweight
    rw [step_read (r := shape) (fun l n => { l with entryChunkMultiplicator := n })
      (fun _ _ => rfl) (Json.restores_uint64.option (a := n) Json.noConfusion), ← hweight]
  · intro name hname
    rw [List.mem_singleton.mp hname]
    rfl

theorem Builtins.restores : Restores shape.read toJson := by
  intro b
  refine read_object (takeIn_append (t := { b with limitChunkCount := none })
    (takeIn_unless ?_ ?_) (takeIn_option ?_ ?_)) (fun _ hname => nomatch hname)
  · intro hhtml
    rw [List.isEmpty_iff.mp hhtml]
    rfl
  · exact step_read (r := shape) (fun b html => { b with html }) (fun _ _ => rfl)
      (HtmlPage.restores.list b.html) _
  · intro hlimit
    rw [← hlimit]
  · intro l hlimit
    rw [step_read (r := shape) (fun b limit => { b with limitChunkCount := limit })
      (fun _ _ => rfl) (LimitSettings.restores.option (a := l) Json.noConfusion), ← hlimit]

namespace PluginEntry

/-- The options are written unless they are `null`, which is also what they are if not given. -/
theorem takeIn_options (name : String) (options : Json) :
    shape.takeIn { name } (match options with
      | .null => []
      | v => [("options", v)]) = .ok { name, options } := by
  cases options <;> rfl

theorem shape_restores : Restores shape.read toJson := by
  intro p
  refine read_object (takeIn_append (t := { p with profiles := ∅ })
    (takeIn_append (t := { name := p.name, options := p.options })
      (takeIn_append (t := { name := p.name }) rfl (takeIn_options p.name p.options)) rfl)
    (takeIn_unless ?_ ?_)) ?_
  · intro hprofiles
    rw [← NameMap.eq_empty hprofiles]
  · rw [step_read (r := shape) (fun p fields => { p with profiles := .ofList fields })
      (fun _ _ => rfl) (Json.restores_raw p.profiles.toList), NameMap.ofList_toList]
  · intro name hname
    rw [List.mem_singleton.mp hname]
    rfl

theorem restores : Restores read toJson := by
  intro p
  have hshape := shape_restores p
  unfold toJson at hshape ⊢
  rw [read, hshape]
  rintro name ⟨⟩

end PluginEntry

theorem Entries.restores :
    Restores read fun entry => .object (entry.toList.map fun e => (e.1, .string e.2)) := by
  intro entry
  have hfields := Json.restores_string.fields entry.toList
  rw [read, hfields]
  · exact congrArg Except.ok entry.ofList_toList
  · rintro path ⟨⟩

theorem Mode.restores : Restores read fun m => .string m.word := by
  intro m
  cases m <;> rfl

namespace Config

/-- The four parts that are always written. -/
theorem takeIn_parts (c : Config) :
    shape.takeIn { context := c.context } [("mode", .string c.mode.word),
      ("entry", .object (c.entry.toList.map fun e => (e.1, .string e.2))),
      ("output", c.output.toJson), ("builtins", c.builtins.toJson)] =
      .ok { c with plugins := [], profiles := ∅ } :=
  takeIn_cons (step_read (r := shape) (fun c mode => { c with mode }) (fun _ _ => rfl)
    (Mode.restores c.mode) _) <|
  takeIn_cons (step_read (r := shape) (fun c entry => { c with entry }) (fun _ _ => rfl)
    (Entries.restores c.entry) _) <|
  takeIn_cons (step_read (r := shape) (fun c output => { c with output }) (fun _ _ => rfl)
    (Output.restores c.output) _) <|
  takeIn_cons (step_read (r := shape) (fun c builtins => { c with builtins }) (fun _ _ => rfl)
    (Builtins.restores c.builtins) _) rfl

theorem restores : Restores read toJson := by
  intro c
  refine read_object (takeIn_append (t := { c with profiles := ∅ })
    (takeIn_append (takeIn_append (takeIn_option ?_ ?_) c.takeIn_parts) (takeIn_unless ?_ ?_))
    (takeIn_unless ?_ ?_)) (fun _ hname => nomatch hname)
  · intro hcontext
    rw [hcontext]
    rfl
  · intro context hcontext
    rw [hcontext]
    rfl
  · intro hplugins
    rw [List.isEmpty_iff.mp hplugins]
  · exact step_read (r := shape) (fun c plugins => { c with plugins }) (fun _ _ => rfl)
      (PluginEntry.restores.list c.plugins) _
  · intro hprofiles
    rw [← OrderedMap.eq_empty hprofiles]
  · rw [step_read (r := shape) (fun c fields => { c with profiles := .ofList fields })
      (fun _ _ => rfl) (Json.restores_raw c.profiles.toList), OrderedMap.ofList_toList]

/-- A configuration that is written is read back as it was: with every part that was absent,
empty or given, and with the entries, pages, plugins and profiles in their order. -/
theorem ofJson_toJson (c : Config) : ofJson c.toJson = .ok c := by
  rw [ofJson, restores]
  rfl

end Config

end Bundler
