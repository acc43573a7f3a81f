import Bundler.Proofs.ChunkGroup
import Bundler.Proofs.OrderedMaps
import Bundler.Proofs.Sizes
import Bundler.Proofs.Walks
/-!
# Chunks that a chunk refers to

A chunk refers to the chunks of all groups that its own groups lead to through children. A list of
groups that grows while it is read ends, on cyclic groups and on groups that are not stored as on
others, and then these chunks have been found, each once. A test on them has an answer just if all
of them are stored and have ids, and answers under these ids.
-/
namespace Bundler

namespace OrderedSet
variable {α : Type} [DecidableEq α] {a : α} {as bs : List α} {s : OrderedSet α}

theorem insertAll_ofList (as bs : List α) : (ofList as).insertAll bs = ofList (as ++ bs) :=
  List.foldl_append.symm

theorem ofList_append_cons (h : a ∈ as) : ofList (as ++ a :: bs) = ofList (as ++ bs) := by
  rw [← insertAll_ofList, ← insertAll_ofList]
  show ((ofList as).insert a).insertAll bs = _
  rw [insert_of_mem (mem_ofList.mpr h)]

theorem toList_ofList_of_nodup (h : as.Nodup) : (ofList as).toList = as := by
  rw [toList_ofList, eraseDups_of_nodup h]

theorem ofList_toList (s : OrderedSet α) : ofList s.toList = s := ext (toList_ofList_of_nodup s.nodup)

/-- Members that are added come after those that are there. -/
theorem prefix_insertAll (s : OrderedSet α) (as : List α) : s.toList <+: (s.insertAll as).toList := by
  induction as generalizing s with
  | nil => exact List.prefix_rfl
  | cons a as ih =>
    refine List.IsPrefix.trans ?_ (ih (s.insert a))
    rw [toList_insert]
    split
    · exact List.prefix_rfl
    · exact List.prefix_append _ _

theorem getElem?_ofList (hnodup : as.Nodup) (ha : a ∉ as) :
    (ofList (as ++ a :: bs)).toList[as.length]? = some a := by
  have hprefix := prefix_insertAll (ofList (as ++ [a])) bs
  rw [insertAll_ofList, toList_ofList_of_nodup (OrderedMap.nodup_visit hnodup ha),
    List.append_assoc] at hprefix
  obtain ⟨rest, hrest⟩ := hprefix
  rw [← List.singleton_append, ← hrest]
  simp

end OrderedSet

/-- Reading groups out of a list that grows on the way: the list, the place up to which it is read,
and the chunks that were found. -/
structure Reading where
  groups : OrderedSet GroupKey
  place : Nat := 0
  chunks : OrderedSet ChunkKey := ∅

namespace Reading

/-- Reads the next group, unless all have been read: its chunks are found, and its children come to
the end of the list. -/
def turn (gs : Groups) (r : Reading) : Option Reading :=
  r.groups.toList[r.place]?.map fun g =>
    match gs.get? g with
    | none => { r with place := r.place + 1 }
    | some G => ⟨r.groups.insertAll G.children.toList, r.place + 1, r.chunks.insertAll G.chunks⟩

/-- Reading ends after so many turns. -/
inductive Ends (gs : Groups) : Nat → Reading → Reading → Prop
  | done {r : Reading} : r.turn gs = none → Ends gs 0 r r
  | step {r s t : Reading} {n : Nat} : r.turn gs = some s → Ends gs n s t → Ends gs (n + 1) r t

/-- All of these groups have been read, and those of the queue are before it. -/
def after (gs : Groups) (read queue : List GroupKey) : Reading where
  groups := .ofList (read ++ queue)
  place := read.length
  chunks := .ofList (read.flatMap fun g => (gs.get? g).elim [] (·.chunks))

variable {gs : Groups} {read queue : List GroupKey} {g : GroupKey}

theorem turn_after_nil (hnodup : read.Nodup) : (after gs read []).turn gs = none := by
  simp [turn, after, OrderedSet.toList_ofList_of_nodup hnodup]

theorem after_skip (hg : g ∈ read) : after gs read (g :: queue) = after gs read queue := by
  rw [after, OrderedSet.ofList_append_cons hg, after]

theorem turn_after_cons (hnodup : read.Nodup) (hg : g ∉ read) :
    (after gs read (g :: queue)).turn gs = some (after gs (read ++ [g])
      (queue ++ (gs.get? g).elim [] (·.children.toList))) := by
  have hnext : (after gs read (g :: queue)).groups.toList[(after gs read (g :: queue)).place]? =
      some g := OrderedSet.getElem?_ofList hnodup hg
  rw [turn, hnext, Option.map_some]
  cases hG : gs.get? g with
  | none => simp [after, hG]
  | some G => simp [after, hG, OrderedSet.insertAll_ofList]

/-- The list that grows has in the end been read as far as a walk over the groups comes. -/
theorem ends_after (hnodup : read.Nodup) : ∃ n,
    Ends gs n (after gs read queue)
      (after gs (gs.walkFrom (fun _ G => G.children.toList) read queue) []) := by
  fun_induction OrderedMap.walkFrom gs (fun _ G => G.children.toList) read queue with
  | case1 read => exact ⟨0, .done (turn_after_nil hnodup)⟩
  | case2 read g queue hg ih =>
    rw [after_skip hg]
    exact ih hnodup
  | case3 read g queue hg hnone ih =>
    obtain ⟨n, hn⟩ := ih (OrderedMap.nodup_visit hnodup hg)
    refine ⟨n + 1, .step (turn_after_cons hnodup hg) ?_⟩
    rw [hnone]
    simpa using hn
  | case4 read g queue hg G hG ih =>
    obtain ⟨n, hn⟩ := ih (OrderedMap.nodup_visit hnodup hg)
    refine ⟨n + 1, .step (turn_after_cons hnodup hg) ?_⟩
    rw [hG]
    exact hn

end Reading

namespace Groups

/-- The stored group `g` has the child `h`. -/
def Child (gs : Groups) (g h : GroupKey) : Prop := ∃ G, gs.get? g = some G ∧ h ∈ G.children

/-- A stored group that some group of the chunk leads to lists `k`. -/
def Refers (gs : Groups) (c : Chunk) (k : ChunkKey) : Prop :=
  ∃ g ∈ c.groups, ∃ h G, Relation.ReflTransGen gs.Child g h ∧ gs.get? h = some G ∧ k ∈ G.chunks

end Groups

namespace Chunk
variable {gs : Groups} {c : Chunk} {k : ChunkKey}

/-- Reading the groups of a chunk ends with the chunks that it refers to. -/
theorem exists_ends_referenced (gs : Groups) (c : Chunk) :
    ∃ n last, Reading.Ends gs n { groups := c.groups } last ∧ last.chunks = c.referenced gs := by
  have hends : ∃ n, Reading.Ends gs n (Reading.after gs [] c.groups.toList) _ :=
    Reading.ends_after List.nodup_nil
  obtain ⟨n, hn⟩ := hends
  have hstart : Reading.after gs [] c.groups.toList = { groups := c.groups } := by
    rw [Reading.after, List.nil_append, OrderedSet.ofList_toList]
    rfl
  exact ⟨n, _, hstart ▸ hn, rfl⟩

theorem mem_referenced_iff : k ∈ c.referenced gs ↔ gs.Refers c k := by
  have hstep : gs.Leads (fun _ G => G.children.toList) = gs.Child := rfl
  rw [referenced, OrderedSet.mem_ofList, List.mem_flatMap]
  simp only [OrderedMap.mem_walk_iff, hstep]
  constructor
  · intro h
    obtain ⟨h, ⟨g, hg, hreach⟩, hk⟩ := h
    cases hG : gs.get? h with
    | none =>
      rw [hG] at hk
      cases hk
    | some G =>
      rw [hG] at hk
      exact ⟨g, hg, h, G, hreach, hG, hk⟩
  · intro h
    obtain ⟨g, hg, h, G, hreach, hG, hk⟩ := h
    refine ⟨h, ⟨g, hg, hreach⟩, ?_⟩
    rw [hG]
    exact hk

end Chunk

namespace Placement
variable {cs : Chunks} {gs : Groups} {k : ChunkKey} {test : ChunkKey → Bool}
  {ks : List ChunkKey} {found m : OrderedMap String Bool}

theorem requireId_eq_ok {c : Chunk} {id : String} : c.requireId = .ok id ↔ c.id = some id := by
  unfold Chunk.requireId
  split <;> simp_all

/-- The chunk is stored and has an id. -/
def HasId (cs : Chunks) (k : ChunkKey) (id : String) : Prop :=
  ∃ c, cs.get? k = some c ∧ c.id = some id

/-- The id of a chunk, where it has one. -/
def idOf (cs : Chunks) (k : ChunkKey) : String := ((cs.get? k).bind Chunk.id).getD ""

theorem HasId.idOf_eq {id : String} (h : HasId cs k id) : idOf cs k = id := by
  obtain ⟨c, hc, hid⟩ := h
  rw [idOf, hc, Option.bind_some, hid, Option.getD_some]

def verdict (cs : Chunks) (test : ChunkKey → Bool) (found : OrderedMap String Bool)
    (k : ChunkKey) : Except GraphError (OrderedMap String Bool) := do
  let id ← (← cs.require k).requireId
  return found.insert id (test k)

theorem verdict_eq_ok : verdict cs test found k = .ok m ↔
    ∃ id, HasId cs k id ∧ m = found.insert id (test k) := by
  unfold verdict
  simp only [bind_eq_ok, Chunks.require_eq_ok, requireId_eq_ok]
  constructor
  · rintro ⟨c, hc, id, hid, hm⟩
    exact ⟨id, ⟨c, hc, hid⟩, (Except.ok.inj hm).symm⟩
  · rintro ⟨id, ⟨c, hc, hid⟩, rfl⟩
    exact ⟨c, hc, id, hid, rfl⟩

theorem foldlM_verdict_eq_ok : ks.foldlM (verdict cs test) found = .ok m ↔
    (∀ k ∈ ks, ∃ id, HasId cs k id) ∧
      m = (ks.map fun k => (idOf cs k, test k)).foldl (fun t e => t.insert e.1 e.2) found := by
  induction ks generalizing found with
  | nil =>
    simp only [List.foldlM_nil, List.not_mem_nil, false_implies, implies_true, true_and]
    exact ⟨fun h => (Except.ok.inj h).symm, fun h => congrArg Except.ok h.symm⟩
  | cons k ks ih =>
    rw [List.foldlM_cons, bind_eq_ok, List.forall_mem_cons, List.map_cons, List.foldl_cons]
    simp only [verdict_eq_ok, ih]
    constructor
    · rintro ⟨next, ⟨id, hid, rfl⟩, hks, hm⟩
      exact ⟨⟨⟨id, hid⟩, hks⟩, by rw [hid.idOf_eq]; exact hm⟩
    · rintro ⟨⟨⟨id, hid⟩, hks⟩, hm⟩
      exact ⟨_, ⟨id, hid, rfl⟩, hks, by rw [← hid.idOf_eq]; exact hm⟩

theorem verdicts_eq_ok : verdicts cs gs k test = .ok m ↔ ∃ c, cs.get? k = some c ∧
    (∀ i, gs.Refers c i → ∃ id, HasId cs i id) ∧
      m = ((c.referenced gs).toList.map fun i => (idOf cs i, test i)).foldl
        (fun t e => t.insert e.1 e.2) ∅ := by
  unfold verdicts
  rw [bind_eq_ok]
  refine exists_congr fun c => ?_
  rw [Chunks.require_eq_ok]
  refine and_congr_right fun _ => ?_
  simp only [← Chunk.mem_referenced_iff]
  exact foldlM_verdict_eq_ok

theorem exists_verdicts_iff : (∃ m, verdicts cs gs k test = .ok m) ↔
    ∃ c, cs.get? k = some c ∧ ∀ i, gs.Refers c i → ∃ id, HasId cs i id := by
  simp only [verdicts_eq_ok]
  constructor
  · rintro ⟨m, c, hc, hids, -⟩
    exact ⟨c, hc, hids⟩
  · rintro ⟨c, hc, hids⟩
    exact ⟨_, c, hc, hids, rfl⟩

section
variable {c : Chunk} (hc : cs.get? k = some c) (hm : verdicts cs gs k test = .ok m)
include hc hm

theorem hasId_of_verdicts {i : ChunkKey} (hi : gs.Refers c i) : HasId cs i (idOf cs i) := by
  obtain ⟨d, hd, hids, -⟩ := verdicts_eq_ok.mp hm
  obtain rfl : c = d := Option.some.inj (hc.symm.trans hd)
  obtain ⟨id, hid⟩ := hids i hi
  exact hid.idOf_eq.symm ▸ hid

theorem eq_of_verdicts : m = ((c.referenced gs).toList.map fun i => (idOf cs i, test i)).foldl
    (fun t e => t.insert e.1 e.2) ∅ := by
  obtain ⟨d, hd, -, hm⟩ := verdicts_eq_ok.mp hm
  obtain rfl : c = d := Option.some.inj (hc.symm.trans hd)
  exact hm

/-- There are answers under the ids of the chunks that are referred to. -/
theorem mem_keys_of_verdicts (id : String) :
    id ∈ m.keys ↔ ∃ i, gs.Refers c i ∧ HasId cs i id := by
  rw [eq_of_verdicts hc hm, OrderedMap.mem_keys_foldl_insert, OrderedMap.keys_empty,
    List.map_map, List.mem_map]
  simp only [List.not_mem_nil, false_or, Function.comp_apply]
  refine exists_congr fun i => ?_
  constructor
  · rintro ⟨hi, rfl⟩
    have hrefers := Chunk.mem_referenced_iff.mp hi
    exact ⟨hrefers, hasId_of_verdicts hc hm hrefers⟩
  · rintro ⟨hrefers, hid⟩
    exact ⟨Chunk.mem_referenced_iff.mpr hrefers, hid.idOf_eq⟩

/-- The answer under an id that one of these chunks has alone is that of the test. -/
theorem get?_of_verdicts {i : ChunkKey} {id : String} (hi : gs.Refers c i) (hid : HasId cs i id)
    (hone : ∀ j, gs.Refers c j → HasId cs j id → j = i) : m.get? id = some (test i) := by
  have hmem : (id, test i) ∈ (c.referenced gs).toList.map fun i => (idOf cs i, test i) :=
    List.mem_map.mpr ⟨i, Chunk.mem_referenced_iff.mpr hi, by rw [hid.idOf_eq]⟩
  rw [eq_of_verdicts hc hm]
  refine OrderedMap.get?_foldl_insert_of_unique hmem ?_
  intro e he hkey
  obtain ⟨j, hj, rfl⟩ := List.mem_map.mp he
  have hrefers := Chunk.mem_referenced_iff.mp hj
  have hsame : idOf cs j = id := hkey
  rw [hone j hrefers (hsame ▸ hasId_of_verdicts hc hm hrefers)]

end

end Placement

/-- Reading the groups that a chunk leads to ends, and finds just the chunks that they list, each
once. A test on these chunks has answers just if all of them are stored and have ids. It answers
under these ids and no others, with what it says about the chunk if no other has its id. -/
theorem Groups.referenced_and_verdicts (gs : Groups) :
    (∀ c : Chunk,
      (∃ n last, Reading.Ends gs n { groups := c.groups } last ∧ last.chunks = c.referenced gs) ∧
      (c.referenced gs).toList.Nodup ∧ ∀ k, k ∈ c.referenced gs ↔ gs.Refers c k) ∧
    ∀ (cs : Chunks) (k : ChunkKey) (test : ChunkKey → Bool),
      ((∃ m, Placement.verdicts cs gs k test = .ok m) ↔
        ∃ c, cs.get? k = some c ∧ ∀ i, gs.Refers c i → ∃ id, Placement.HasId cs i id) ∧
      ∀ c m, cs.get? k = some c → Placement.verdicts cs gs k test = .ok m →
        (∀ id, id ∈ m.keys ↔ ∃ i, gs.Refers c i ∧ Placement.HasId cs i id) ∧
        ∀ i id, gs.Refers c i → Placement.HasId cs i id →
          (∀ j, gs.Refers c j → Placement.HasId cs j id → j = i) → m.get? id = some (test i) := by
  refine ⟨fun c => ⟨c.exists_ends_referenced gs, (c.referenced gs).nodup,
    fun k => Chunk.mem_referenced_iff⟩, fun cs k test => ⟨Placement.exists_verdicts_iff, ?_⟩⟩
  intro c m hc hm
  exact ⟨Placement.mem_keys_of_verdicts hc hm,
    fun _ _ hi hid hone => Placement.get?_of_verdicts hc hm hi hid hone⟩

end Bundler
