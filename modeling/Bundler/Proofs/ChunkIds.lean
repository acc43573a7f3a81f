import Bundler.Proofs.Actions
import Bundler.Proofs.Pages
import Bundler.Proofs.References
import Mathlib
/-!
# Ids of chunks

A chunk with a name is identified by it, the others are counted. The ids are the names and the
ordinals below the number of unnamed chunks, so that where names differ, ids differ just if no chunk
is named like one of these ordinals. Then every chunk is one file of its own, and a test on chunks
has an answer of its own for each.
-/
namespace Bundler

namespace OrderedMap
variable {κ : Type u} {β : Type v} [DecidableEq κ]

theorem toList_insert_of_split {m : OrderedMap κ β} {done rest : List (κ × β)} {e : κ × β}
    (h : m.toList = done ++ e :: rest) (b : β) :
    (m.insert e.1 b).toList = done ++ (e.1, b) :: rest := by
  have hmem : e.1 ∈ m.keys := by
    rw [keys, h]
    simp
  have hnodup := m.nodup
  rw [h, List.map_append, List.map_cons, List.nodup_append, List.nodup_cons] at hnodup
  obtain ⟨-, ⟨hrest, -⟩, hdone⟩ := hnodup
  have hkeep : ∀ es : List (κ × β), (∀ d ∈ es, d.1 ≠ e.1) →
      es.map (fun d => if d.1 = e.1 then (e.1, b) else d) = es := by
    intro es hes
    conv_rhs => rw [← List.map_id es]
    exact List.map_congr_left fun d hd => if_neg (hes d hd)
  unfold insert
  rw [dif_pos hmem]
  dsimp only
  rw [h, List.map_append, List.map_cons, if_pos rfl, hkeep done, hkeep rest]
  · intro d hd heq
    exact hrest (heq ▸ List.mem_map_of_mem hd)
  · exact fun d hd => hdone d.1 (List.mem_map_of_mem hd) e.1 List.mem_cons_self

end OrderedMap

namespace Plan
variable {p : Plan} {ordinal : Nat}

section Ids
variable {names : List (Option String)}

/-- The ids of chunks with the given names, counting ordinals from a number on. -/
def idsFrom (ordinal : Nat) : List (Option String) → List String
  | [] => []
  | some name :: names => name :: idsFrom ordinal names
  | none :: names => toString ordinal :: idsFrom (ordinal + 1) names

/-- The ids are the names and as many ordinals as there are chunks without name. -/
theorem idsFrom_perm (ordinal : Nat) (names : List (Option String)) :
    (idsFrom ordinal names).Perm
      (names.filterMap id ++ (List.range' ordinal (names.count none)).map toString) := by
  induction names generalizing ordinal with
  | nil => exact .nil
  | cons name names ih =>
    cases name with
    | some name =>
      rw [idsFrom, List.filterMap_cons_some (f := id) rfl,
        List.count_cons_of_ne (Option.some_ne_none name)]
      exact (ih ordinal).cons name
    | none =>
      rw [idsFrom, List.filterMap_cons_none (f := id) rfl, List.count_cons_self, List.range'_succ,
        List.map_cons]
      exact ((ih (ordinal + 1)).cons _).trans List.perm_middle.symm

theorem toString_injective : Function.Injective (toString : Nat → String) := by
  intro m n h
  rw [Nat.toString_eq_ofList_toDigits, Nat.toString_eq_ofList_toDigits, String.ofList_inj] at h
  rw [← Nat.ofDigitChars_ten_toDigits (n := m), h, Nat.ofDigitChars_ten_toDigits]

theorem mem_filterMap_id {name : String} : name ∈ names.filterMap id ↔ some name ∈ names := by
  simp

theorem nodup_idsFrom_iff (hnames : (names.filterMap id).Nodup) :
    (idsFrom 0 names).Nodup ↔ ∀ n < names.count none, some (toString n) ∉ names := by
  have hordinals : ((List.range' 0 (names.count none)).map toString).Nodup :=
    List.Nodup.map toString_injective List.nodup_range'
  rw [(idsFrom_perm 0 names).nodup_iff, List.nodup_append]
  constructor
  · intro h n hn hin
    exact h.2.2 _ (mem_filterMap_id.mpr hin) _
      (List.mem_map_of_mem (List.mem_range'_1.mpr ⟨Nat.zero_le n, by omega⟩)) rfl
  · intro h
    refine ⟨hnames, hordinals, ?_⟩
    rintro a ha b hb rfl
    obtain ⟨n, hn, rfl⟩ := List.mem_map.mp hb
    have hlt := (List.mem_range'_1.mp hn).2
    exact h n (by omega) (mem_filterMap_id.mp ha)

end Ids

/-- Chunks with ids given to them, counting ordinals from a number on. -/
def labelled (ordinal : Nat) : List (ChunkKey × Chunk) → List (ChunkKey × Chunk)
  | [] => []
  | e :: es => (e.1, withId e.2 (idFor e.2 ordinal).1) :: labelled (idFor e.2 ordinal).2 es

theorem toList_assignIdsFrom {cs : Chunks} {done rest : List (ChunkKey × Chunk)}
    (h : cs.toList = done ++ rest) (ordinal : Nat) :
    (assignIdsFrom cs ordinal (rest.map Prod.fst)).toList = done ++ labelled ordinal rest := by
  induction rest generalizing cs done ordinal with
  | nil => exact h
  | cons e rest ih =>
    have hget : cs.get? e.1 = some e.2 :=
      OrderedMap.get?_of_mem (h ▸ List.mem_append_right _ List.mem_cons_self)
    have hinsert := OrderedMap.toList_insert_of_split h (withId e.2 (idFor e.2 ordinal).1)
    rw [List.append_cons] at hinsert
    have hrest := ih hinsert (idFor e.2 ordinal).2
    rw [← List.append_cons] at hrest
    rw [List.map_cons, assignIdsFrom, hget]
    exact hrest

theorem toList_assignIds (p : Plan) : p.assignIds.chunks.toList = labelled 0 p.chunks.toList :=
  @toList_assignIdsFrom p.chunks [] p.chunks.toList rfl 0

theorem map_id_labelled (ordinal : Nat) (es : List (ChunkKey × Chunk)) :
    (labelled ordinal es).map (·.2.id) = (idsFrom ordinal (es.map (·.2.name))).map some := by
  induction es generalizing ordinal with
  | nil => rfl
  | cons e es ih =>
    rw [labelled, List.map_cons, ih, List.map_cons, idFor]
    cases e.2.name <;> rfl

theorem exists_of_mem_labelled {es : List (ChunkKey × Chunk)} {e : ChunkKey × Chunk}
    (h : e ∈ labelled ordinal es) : ∃ c id, (e.1, c) ∈ es ∧ e.2 = withId c id := by
  induction es generalizing ordinal with
  | nil => cases h
  | cons d es ih =>
    rcases List.mem_cons.mp h with rfl | h
    · exact ⟨d.2, _, List.mem_cons_self, rfl⟩
    · obtain ⟨c, id, hc, heq⟩ := ih h
      exact ⟨c, id, List.mem_cons_of_mem _ hc, heq⟩

theorem ids_assignIds (p : Plan) : p.assignIds.chunks.values.map Chunk.id =
    (idsFrom 0 (p.chunks.values.map Chunk.name)).map some := by
  have hids := map_id_labelled 0 p.chunks.toList
  rw [← toList_assignIds] at hids
  rw [OrderedMap.values, OrderedMap.values, List.map_map, List.map_map]
  exact hids

/-- No chunk has files. -/
def Bare (p : Plan) : Prop := ∀ k c, p.chunks.get? k = some c → c.files = ∅

theorem Bare.grown {q : Plan} {C : Chunk} {G : ChunkGroup} (h : p.Bare) (j : p.Grown q C G)
    (hC : C.files = ∅) : q.Bare := by
  intro k c hc
  rw [j.chunks] at hc
  rcases OrderedMap.get?_insert_cases hc with ⟨-, rfl⟩ | ⟨-, hold⟩
  · exact hC
  · exact h k c hold

theorem Bare.joined {q : Plan} {A B : Chunk} {r s : ChunkRecord} (h : p.Bare)
    (j : p.Joined q A B r s) : q.Bare := by
  intro k c hc
  rw [j.chunk] at hc
  split at hc
  · cases hc
  · split at hc
    · cases hc
      exact h A.key A j.target
    · exact h k c hc

theorem Bare.merges {q : Plan} (h : p.Bare) (hm : p.Merges q) : q.Bare := by
  induction hm with
  | refl => exact h
  | tail _ hstep ih =>
    obtain ⟨A, B, r, s, -, j⟩ := hstep
    exact ih.joined j

theorem Bare.pin (h : p.Bare) (k : ChunkKey) : (p.pin k).Bare := by
  intro i c hc
  rw [get?_pin] at hc
  split at hc
  · obtain ⟨d, hd, rfl⟩ := Option.map_eq_some_iff.mp hc
    exact h i d hd
  · exact h i c hc

theorem Reached.bare (h : p.Reached) : p.Bare := by
  induction h with
  | start modules supply => exact fun _ _ hc => by cases hc
  | entrypoint h hadd ih =>
    obtain ⟨-, -, j⟩ := h.consistent.grown_of_addEntrypoint hadd
    exact ih.grown j rfl
  | async h hadd ih =>
    obtain ⟨above, -, -, -, j⟩ := h.consistent.grown_of_addAsyncChunk hadd
    exact ih.grown j rfl
  | pin _ k ih => exact ih.pin k
  | pass h l ih =>
    obtain ⟨q, changed, hpass, hpassed⟩ := l.pass_ok h.consistent
    rw [hpass]
    exact ih.merges hpassed.merges
  | graph _ modules ih => exact ih

theorem Bare.assignIds (h : p.Bare) {k : ChunkKey} {c : Chunk}
    (hc : p.assignIds.chunks.get? k = some c) :
    ∃ id, c.id = some id ∧ c.files.toList = [id ++ ".js"] := by
  have hmem := OrderedMap.mem_of_get? hc
  rw [toList_assignIds] at hmem
  obtain ⟨d, id, hd, heq⟩ := exists_of_mem_labelled hmem
  have hfiles : d.files = ∅ := h k d (OrderedMap.get?_of_mem hd)
  refine ⟨id, congrArg Chunk.id heq, ?_⟩
  rw [show c.files = (withId d id).files from congrArg Chunk.files heq, withId, hfiles]
  rfl

def idOf (p : Plan) (k : ChunkKey) : Option String := (p.chunks.get? k).bind Chunk.id

/-- No chunk is named like an ordinal that a chunk without name gets. -/
def OrdinalsFree (p : Plan) : Prop :=
  ∀ n < (p.chunks.values.map Chunk.name).count none,
    some (toString n) ∉ p.chunks.values.map Chunk.name

instance : Decidable p.OrdinalsFree :=
  inferInstanceAs (Decidable (∀ n < (p.chunks.values.map Chunk.name).count none,
    some (toString n) ∉ p.chunks.values.map Chunk.name))

theorem nodup_ids_iff (hnames : (p.chunks.values.filterMap Chunk.name).Nodup) :
    (p.assignIds.chunks.values.map Chunk.id).Nodup ↔ p.OrdinalsFree := by
  have hnames' : ((p.chunks.values.map Chunk.name).filterMap id).Nodup := by
    rwa [List.filterMap_map]
  rw [ids_assignIds, List.nodup_map_iff fun _ _ => Option.some.inj, nodup_idsFrom_iff hnames']
  rfl

/-- Chunks that have ids of their own are told apart by them. -/
theorem eq_of_idOf_eq (h : (p.chunks.values.map Chunk.id).Nodup) {i k : ChunkKey}
    (hi : i ∈ p.chunks.keys) (hk : k ∈ p.chunks.keys) (heq : p.idOf i = p.idOf k) : i = k := by
  obtain ⟨c, hc⟩ := OrderedMap.exists_of_mem_keys hi
  obtain ⟨d, hd⟩ := OrderedMap.exists_of_mem_keys hk
  rw [idOf, idOf, hc, hd] at heq
  rw [OrderedMap.values, List.map_map] at h
  exact congrArg Prod.fst (List.inj_on_of_nodup_map h (OrderedMap.mem_of_get? hc)
    (OrderedMap.mem_of_get? hd) heq)

/-- A test on the chunks that a chunk refers to has one answer for each, under its id. -/
theorem Consistent.verdicts_ok (h : p.Consistent)
    (hids : ∀ {k c}, p.chunks.get? k = some c → ∃ id, c.id = some id)
    (hnodup : (p.chunks.values.map Chunk.id).Nodup) {k : ChunkKey} {c : Chunk}
    (hc : p.chunks.get? k = some c) (test : ChunkKey → Bool) :
    ∃ m, Placement.verdicts p.chunks p.groups k test = .ok m ∧
      m.toList.map (fun e => (some e.1, e.2)) =
        (c.referenced p.groups).toList.map fun i => (p.idOf i, test i) := by
  have hstored : ∀ i ∈ (c.referenced p.groups).toList, i ∈ p.chunks.keys := by
    intro i hi
    obtain ⟨-, -, g, G, -, hG, hlisted⟩ := Chunk.mem_referenced_iff.mp hi
    obtain ⟨d, hd⟩ := h.stored_of_listed hG hlisted
    exact OrderedMap.mem_keys_of_get? hd
  have hid : ∀ i ∈ (c.referenced p.groups).toList,
      ∃ id, Placement.HasId p.chunks i id ∧ p.idOf i = some id := by
    intro i hi
    obtain ⟨d, hd⟩ := OrderedMap.exists_of_mem_keys (hstored i hi)
    obtain ⟨id, hid⟩ := hids hd
    exact ⟨id, ⟨d, hd, hid⟩, by rw [idOf, hd, Option.bind_some, hid]⟩
  have hsome : ∀ i ∈ (c.referenced p.groups).toList,
      some (Placement.idOf p.chunks i) = p.idOf i := by
    intro i hi
    obtain ⟨id, hhas, hid⟩ := hid i hi
    rw [hhas.idOf_eq, hid]
  have hdistinct : ((c.referenced p.groups).toList.map (Placement.idOf p.chunks)).Nodup := by
    refine (c.referenced p.groups).nodup.map_on ?_
    intro i hi j hj heq
    refine eq_of_idOf_eq hnodup (hstored i hi) (hstored j hj) ?_
    rw [← hsome i hi, ← hsome j hj, heq]
  have hreferred : ∀ i, p.groups.Refers c i → ∃ id, Placement.HasId p.chunks i id := by
    intro i hi
    obtain ⟨id, hhas, -⟩ := hid i (Chunk.mem_referenced_iff.mpr hi)
    exact ⟨id, hhas⟩
  refine ⟨_, Placement.verdicts_eq_ok.mpr ⟨c, hc, hreferred, rfl⟩, ?_⟩
  rw [OrderedMap.toList_foldl_insert, OrderedMap.toList_empty, List.nil_append, List.map_map]
  · exact List.map_congr_left fun i hi => congrArg (·, test i) (hsome i hi)
  · rw [OrderedMap.keys_empty, List.nil_append, List.map_map]
    exact hdistinct

/-- Where every chunk is one file named for its id, files differ as ids do. -/
theorem nodup_files_iff
    (hfiles : ∀ c ∈ p.chunks.values, ∃ id, c.id = some id ∧ c.files.toList = [id ++ ".js"]) :
    (p.chunks.values.flatMap (·.files.toList)).Nodup ↔ (p.chunks.values.map Chunk.id).Nodup := by
  have hlists : ∀ cs : List Chunk,
      (∀ c ∈ cs, ∃ id, c.id = some id ∧ c.files.toList = [id ++ ".js"]) →
      ∃ ids : List String, cs.map Chunk.id = ids.map some ∧
        cs.flatMap (·.files.toList) = ids.map (· ++ ".js") := by
    intro cs
    induction cs with
    | nil => exact fun _ => ⟨[], rfl, rfl⟩
    | cons c cs ih =>
      intro h
      obtain ⟨⟨id, hid, hfile⟩, hcs⟩ := List.forall_mem_cons.mp h
      obtain ⟨ids, hids, hfiles⟩ := ih hcs
      refine ⟨id :: ids, ?_, ?_⟩
      · rw [List.map_cons, hid, hids, List.map_cons]
      · rw [List.flatMap_cons, hfile, hfiles]
        rfl
  obtain ⟨ids, hids, hlist⟩ := hlists p.chunks.values hfiles
  rw [hids, hlist, List.nodup_map_iff (Compilation.append_injective ".js"),
    List.nodup_map_iff fun _ _ => Option.some.inj]

/-- Whatever has been done to a new plan, all its chunks get ids, and each becomes the one file
named for its id. Where chunks differ in their names, they differ in their ids, and so in their
files, just if no name is an ordinal in use; then a test on chunks has an answer for each. -/
theorem distinct_ids_iff (supply : KeySupply) (actions : List Action)
    (hnames : ((performAll { supply } actions).chunks.values.filterMap Chunk.name).Nodup) :
    let p := performAll { supply } actions
    let q := p.assignIds
    (∀ c ∈ q.chunks.values, ∃ id, c.id = some id ∧ c.files.toList = [id ++ ".js"]) ∧
      ((q.chunks.values.map Chunk.id).Nodup ↔ p.OrdinalsFree) ∧
      ((q.chunks.values.flatMap (·.files.toList)).Nodup ↔ p.OrdinalsFree) ∧
      (p.OrdinalsFree → ∀ k c test, q.chunks.get? k = some c →
        ∃ m, Placement.verdicts q.chunks q.groups k test = .ok m ∧
          m.toList.map (fun e => (some e.1, e.2)) =
            (c.referenced q.groups).toList.map fun i => (q.idOf i, test i)) := by
  intro p q
  have hreached : p.Reached := (Reached.start {} supply).performAll actions
  have hfiles : ∀ c ∈ q.chunks.values, ∃ id, c.id = some id ∧ c.files.toList = [id ++ ".js"] := by
    intro c hc
    obtain ⟨k, hk⟩ := OrderedMap.exists_of_mem_values hc
    exact hreached.bare.assignIds hk
  have hids : (q.chunks.values.map Chunk.id).Nodup ↔ p.OrdinalsFree := nodup_ids_iff hnames
  refine ⟨hfiles, hids, (nodup_files_iff hfiles).trans hids, ?_⟩
  intro hfree k c test hc
  refine hreached.consistent.assignIds.verdicts_ok ?_ (hids.mpr hfree) hc test
  intro i d hd
  obtain ⟨id, hid, -⟩ := hreached.bare.assignIds hd
  exact ⟨id, hid⟩

theorem distinct_ids_two_chunks :
    ((performAll {} [.addEntrypoint "main" "main.js", .addAsyncChunk ⟨1⟩ none ["lazy.js"]]
      ).assignIds.chunks.values.map Chunk.id).Nodup :=
  (distinct_ids_iff {} [.addEntrypoint "main" "main.js", .addAsyncChunk ⟨1⟩ none ["lazy.js"]]
    (by decide)).2.1.mpr (by decide)

/-- A chunk with the name of the first ordinal shares its id with the first chunk without name, and
of the two files and the two answers one is left. -/
theorem shared_id :
    let p := performAll {} [.addEntrypoint "0" "main.js", .addAsyncChunk ⟨1⟩ none ["lazy.js"]]
    let q := p.assignIds
    (p.chunks.values.filterMap Chunk.name).Nodup ∧
      q.chunks.values.map Chunk.id = [some "0", some "0"] ∧
      q.chunks.values.flatMap (·.files.toList) = ["0.js", "0.js"] ∧
      (Placement.verdicts q.chunks q.groups ⟨2⟩ (· = ⟨2⟩)).toOption.map OrderedMap.toList =
        some [("0", false)] := by
  dsimp only
  refine ⟨by decide, by decide, by decide, by cbv⟩

end Plan

end Bundler
