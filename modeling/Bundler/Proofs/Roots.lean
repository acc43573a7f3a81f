import Bundler.Placement.Queries
import Bundler.Proofs.BreadthFirst
import Bundler.Proofs.OrderedMaps
/-!
# Roots reach everything

Items that reach each other form a component. The roots of a list of items are, from each component
that nothing outside it needs, those members that most members need. Which items these are depends
on what the items need of each other only, not on the order in which they are given. Every item is
reached from a root, so that a chunk is loaded as a whole from the roots of its modules.
-/
namespace Bundler

open Relation (ReflTransGen)

section Components
variable {κ : Type u} {r : κ → κ → Prop} {a b v : κ}

/-- Each of the two is reached from the other. -/
def Linked (r : κ → κ → Prop) (a b : κ) : Prop := ReflTransGen r a b ∧ ReflTransGen r b a

theorem Linked.refl (a : κ) : Linked r a a := ⟨.refl, .refl⟩

/-- How many members of its component need an item, itself included if it needs itself. -/
noncomputable def demand (r : κ → κ → Prop) (v : κ) : ℕ := {a | Linked r a v ∧ r a v}.ncard

/-- Nothing outside the component of `v` needs a member of it. -/
def IsSource (r : κ → κ → Prop) (v : κ) : Prop := ∀ a b, r a b → Linked r b v → Linked r a v

theorem IsSource.linked (h : IsSource r v) (ha : ReflTransGen r a v) : Linked r a v := by
  induction ha using ReflTransGen.head_induction_on with
  | refl => exact .refl v
  | head hstep _ ih => exact h _ _ hstep ih

theorem IsSource.of_linked (h : IsSource r v) (hb : Linked r b v) : IsSource r b := by
  intro c d hstep hd
  have hc := h c d hstep ⟨hd.1.trans hb.1, hb.2.trans hd.2⟩
  exact ⟨hc.1.trans hb.2, hb.1.trans hc.2⟩

end Components

variable {κ : Type u} [DecidableEq κ] {items : List κ} {dependencies : κ → List κ} {a b v : κ}

/-- Both are items, and the first depends on the second. -/
def Needs (items : List κ) (dependencies : κ → List κ) (a b : κ) : Prop :=
  a ∈ items ∧ b ∈ items ∧ b ∈ dependencies a

/-- An item in a component that nothing outside needs, of which no member is needed by more of the
members. -/
structure IsRoot (items : List κ) (dependencies : κ → List κ) (v : κ) : Prop where
  item : v ∈ items
  source : IsSource (Needs items dependencies) v
  most : ∀ w, Linked (Needs items dependencies) w v →
    demand (Needs items dependencies) w ≤ demand (Needs items dependencies) v

theorem OrderedSet.get?_toMap {β : Type v} (s : OrderedSet κ) (f : κ → β) (k : κ) :
    (s.toMap f).get? k = if k ∈ s then some (f k) else none := by
  split
  · rename_i hk
    exact List.lookup_graph f hk
  · rename_i hk
    rw [OrderedMap.get?_eq_none]
    simpa [OrderedMap.keys, OrderedSet.toMap, OrderedSet.mem_iff] using hk

namespace Dependencies
variable {d : Dependencies κ} {seen queue : List κ}

/-- The entry of the first names the second. -/
abbrev Names (d : Dependencies κ) : κ → κ → Prop := d.targets.Leads fun _ targets => targets

theorem among_names_iff :
    (among items dependencies).Names a b ↔ Needs items dependencies a b := by
  simp [OrderedMap.Leads, among, OrderedSet.get?_toMap, Needs, and_comm, and_left_comm]

theorem mem_among_items : a ∈ (among items dependencies).items ↔ a ∈ items := by
  rw [Dependencies.items, OrderedMap.mem_keys_iff, among, OrderedSet.get?_toMap]
  simp

theorem mem_items_of_names (h : d.Names a b) : a ∈ d.items := by
  obtain ⟨targets, htargets, -⟩ := h
  exact OrderedMap.mem_keys_of_get? htargets

theorem mem_sources : a ∈ d.sources b ↔ d.Names a b := by
  constructor
  · intro h
    obtain ⟨e, he, rfl⟩ := List.mem_map.mp h
    obtain ⟨hmem, hnames⟩ := List.mem_filter.mp he
    exact ⟨e.2, OrderedMap.get?_of_mem hmem, by simpa using hnames⟩
  · intro h
    obtain ⟨targets, htargets, hin⟩ := h
    apply List.mem_map.mpr ⟨(a, targets), _, rfl⟩
    exact List.mem_filter.mpr ⟨OrderedMap.mem_of_get? htargets, by simpa using hin⟩

theorem nodup_sources : (d.sources b).Nodup :=
  d.targets.nodup.sublist (List.filter_sublist.map _)

theorem get?_dependents (hb : b ∈ d.items) : d.dependents.get? b = some (d.sources b) := by
  obtain ⟨targets, htargets⟩ := OrderedMap.exists_of_mem_keys hb
  rw [dependents, OrderedMap.get?_mapValues, htargets]
  rfl

/-- Every target of an entry is an item. -/
def Within (d : Dependencies κ) : Prop := ∀ a b, d.Names a b → b ∈ d.items

theorem within_among : (among items dependencies).Within := by
  intro a b h
  exact mem_among_items.mpr (among_names_iff.mp h).2.1

theorem dependents_leads_iff (hd : d.Within) :
    d.dependents.Leads (fun _ sources => sources) b a ↔ d.Names a b := by
  constructor
  · intro h
    obtain ⟨sources, hsources, ha⟩ := h
    have hb : b ∈ d.items := by
      simpa [items, dependents] using OrderedMap.mem_keys_of_get? hsources
    rw [get?_dependents hb] at hsources
    cases hsources
    exact mem_sources.mp ha
  · intro h
    exact ⟨d.sources b, get?_dependents (hd a b h), mem_sources.mpr h⟩

/-- Walking backward from an item finds all that reach it. -/
theorem mem_walk_dependents (hd : d.Within) :
    a ∈ d.dependents.walk (fun _ sources => sources) [b] ↔ ReflTransGen d.Names a b := by
  have hswap : d.dependents.Leads (fun _ sources => sources) = Function.swap d.Names := by
    funext b a
    exact propext (dependents_leads_iff hd)
  rw [OrderedMap.mem_walk_iff, hswap, Relation.reflTransGen_swap.symm]
  simp

/-- Whatever an entry of `seen` names is in `seen`. -/
def ClosedSet (d : Dependencies κ) (seen : List κ) : Prop := ∀ a ∈ seen, ∀ b, d.Names a b → b ∈ seen

theorem ClosedSet.walkFrom (h : d.ClosedSet seen) :
    d.ClosedSet (d.targets.walkFrom (fun _ targets => targets) seen queue) := by
  intro a ha b hb
  exact OrderedMap.walkFrom_closed (fun c hc e he => Or.inl (h c hc e he)) ha hb

variable {l : List κ}

theorem unreached_sublist : (d.unreached seen l).Sublist l := by
  induction l generalizing seen with
  | nil => exact .slnil
  | cons c l ih =>
    unfold unreached
    split
    · exact ih.cons c
    · exact ih.cons_cons c

theorem not_mem_of_mem_unreached (ha : a ∈ d.unreached seen l) : a ∉ seen := by
  induction l generalizing seen with
  | nil => cases ha
  | cons c l ih =>
    unfold unreached at ha
    split at ha
    · exact ih ha
    · rename_i hc
      rcases List.mem_cons.mp ha with rfl | ha
      · exact hc
      · exact fun hin => ih ha (OrderedMap.mem_walkFrom (Or.inl hin))

/-- None of the items that are left is reached from one before it. -/
theorem pairwise_unreached (h : d.ClosedSet seen) :
    (d.unreached seen l).Pairwise fun a b => ¬ ReflTransGen d.Names a b := by
  induction l generalizing seen with
  | nil => exact .nil
  | cons c l ih =>
    unfold unreached
    split
    · exact ih h
    · refine List.Pairwise.cons ?_ (ih h.walkFrom)
      intro b hb hreach
      apply not_mem_of_mem_unreached hb
      exact (OrderedMap.mem_walkFrom_iff h).mpr (Or.inr ⟨c, List.mem_cons_self, hreach⟩)

/-- Every item of the list is reached from one that is left, or it was before. -/
theorem reached_of_mem (h : d.ClosedSet seen) (ha : a ∈ l) :
    a ∈ seen ∨ ∃ c ∈ d.unreached seen l, ReflTransGen d.Names c a := by
  induction l generalizing seen with
  | nil => cases ha
  | cons c l ih =>
    unfold unreached
    split
    · rename_i hc
      rcases List.mem_cons.mp ha with rfl | ha
      · exact Or.inl hc
      · exact ih h ha
    · rcases List.mem_cons.mp ha with rfl | ha
      · exact Or.inr ⟨a, List.mem_cons_self, .refl⟩
      · rcases ih h.walkFrom ha with hwalk | ⟨e, he, hreach⟩
        · rcases (OrderedMap.mem_walkFrom_iff h).mp hwalk with hseen | ⟨e, he, hreach⟩
          · exact Or.inl hseen
          · obtain rfl := List.mem_singleton.mp he
            exact Or.inr ⟨_, List.mem_cons_self, hreach⟩
        · exact Or.inr ⟨e, List.mem_cons_of_mem _ he, hreach⟩

theorem closedSet_nil : d.ClosedSet [] := fun _ ha => absurd ha List.not_mem_nil

/-- No leader reaches another, since the second pass drops what the first has left behind it. -/
theorem leaders_apart : d.leaders.Pairwise fun a b =>
    ¬ ReflTransGen d.Names a b ∧ ¬ ReflTransGen d.Names b a := by
  have hfirst : (d.unreached [] d.items).reverse.Pairwise fun a b => ¬ ReflTransGen d.Names b a :=
    List.pairwise_reverse.mpr (pairwise_unreached closedSet_nil)
  exact (pairwise_unreached closedSet_nil).and (hfirst.sublist unreached_sublist)

theorem exists_leader (ha : a ∈ d.items) : ∃ c ∈ d.leaders, ReflTransGen d.Names c a := by
  obtain ⟨b, hb, hreach⟩ := (reached_of_mem closedSet_nil ha).resolve_left List.not_mem_nil
  obtain ⟨c, hc, hlead⟩ :=
    (reached_of_mem closedSet_nil (List.mem_reverse.mpr hb)).resolve_left List.not_mem_nil
  exact ⟨c, hc, hlead.trans hreach⟩

theorem mem_items_of_mem_leaders (ha : a ∈ d.leaders) : a ∈ d.items :=
  unreached_sublist.subset (List.mem_reverse.mp (unreached_sublist.subset ha))

theorem eq_of_leaders (ha : a ∈ d.leaders) (hb : b ∈ d.leaders) (h : ReflTransGen d.Names a b) :
    a = b := by
  by_contra hne
  have hsymm : Std.Symm fun a b => ¬ ReflTransGen d.Names a b ∧ ¬ ReflTransGen d.Names b a :=
    ⟨fun a b hab => hab.symm⟩
  exact (leaders_apart.forall ha hb hne).1 h

/-- What reaches a leader is reached from it: some leader reaches it, and that is the same one. -/
theorem reached_of_reaches_leader (hb : b ∈ d.leaders) (h : ReflTransGen d.Names a b) :
    ReflTransGen d.Names b a := by
  rcases h.cases_head with rfl | ⟨c, hstep, -⟩
  · exact .refl
  · obtain ⟨e, he, hreach⟩ := exists_leader (mem_items_of_names hstep)
    obtain rfl := eq_of_leaders he hb (hreach.trans h)
    exact hreach

theorem isSource_of_mem_leaders (hb : b ∈ d.leaders) : IsSource d.Names b := by
  intro a c hstep hc
  have ha : ReflTransGen d.Names a b := .head hstep hc.1
  exact ⟨ha, reached_of_reaches_leader hb ha⟩

end Dependencies

theorem foldl_max_le {l : List ℕ} {m n : ℕ} : l.foldl max m ≤ n ↔ m ≤ n ∧ ∀ x ∈ l, x ≤ n := by
  induction l generalizing m with
  | nil => simp
  | cons x l ih => simp [ih, and_assoc]

/-- The members of a component with the greatest count are those that none exceeds. -/
theorem mem_mostWanted {dependents : OrderedMap κ (List κ)} {leader : κ} :
    v ∈ mostWanted dependents leader ↔
      v ∈ dependents.walk (fun _ sources => sources) [leader] ∧
        ∀ w ∈ dependents.walk (fun _ sources => sources) [leader],
          ((dependents.get? w).getD []).length ≤ ((dependents.get? v).getD []).length := by
  unfold mostWanted
  simp only [List.mem_filter, decide_eq_true_eq]
  refine and_congr_right fun hv => ?_
  constructor
  · intro hmost w hw
    rw [hmost]
    exact (foldl_max_le.mp le_rfl).2 _ (List.mem_map_of_mem hw)
  · intro hmost
    apply le_antisymm
    · exact (foldl_max_le.mp le_rfl).2 _ (List.mem_map_of_mem hv)
    · rw [foldl_max_le]
      simpa using hmost

theorem nodup_mostWanted {dependents : OrderedMap κ (List κ)} {leader : κ} :
    (mostWanted dependents leader).Nodup := OrderedMap.nodup_walk.filter _

namespace Dependencies
variable {d : Dependencies κ} {leader : κ}

/-- In a component that nothing outside needs, all that name an item are members. -/
theorem length_dependents_eq (hv : v ∈ d.items) (hsource : IsSource d.Names v) :
    ((d.dependents.get? v).getD []).length = demand d.Names v := by
  have hset : {a | Linked d.Names a v ∧ d.Names a v} = ((d.sources v).toFinset : Set κ) := by
    ext a
    simp only [Set.mem_ofPred_eq, List.coe_toFinset, mem_sources]
    constructor
    · exact And.right
    · exact fun hstep => ⟨hsource a v hstep (.refl v), hstep⟩
  rw [get?_dependents hv, demand, hset, Set.ncard_coe_finset,
    List.toFinset_card_of_nodup nodup_sources]
  rfl

theorem mem_mostWanted_iff (hd : d.Within) (hleader : leader ∈ d.leaders) :
    v ∈ mostWanted d.dependents leader ↔ Linked d.Names v leader ∧
      ∀ w, Linked d.Names w v → demand d.Names w ≤ demand d.Names v := by
  have hsource := isSource_of_mem_leaders hleader
  have hlinked : ∀ w, ReflTransGen d.Names w leader ↔ Linked d.Names w leader := fun w =>
    ⟨hsource.linked, And.left⟩
  have hcount : ∀ w, Linked d.Names w leader →
      ((d.dependents.get? w).getD []).length = demand d.Names w := by
    intro w hw
    refine length_dependents_eq ?_ (hsource.of_linked hw)
    rcases hw.1.cases_head with rfl | ⟨c, hstep, -⟩
    · exact mem_items_of_mem_leaders hleader
    · exact mem_items_of_names hstep
  simp only [mem_mostWanted, mem_walk_dependents hd, hlinked]
  refine and_congr_right fun hv => ?_
  constructor
  · intro hmost w hw
    have hw' : Linked d.Names w leader := ⟨hw.1.trans hv.1, hv.2.trans hw.2⟩
    rw [← hcount w hw', ← hcount v hv]
    exact hmost w hw'
  · intro hmost w hw
    rw [hcount w hw, hcount v hv]
    exact hmost w ⟨hw.1.trans hv.2, hv.1.trans hw.2⟩

/-- The roots that the components of the leaders contribute. -/
def wanted (d : Dependencies κ) : List κ := d.leaders.flatMap (mostWanted d.dependents)

theorem mem_wanted_iff (hd : d.Within) : v ∈ d.wanted ↔ v ∈ d.items ∧ IsSource d.Names v ∧
    ∀ w, Linked d.Names w v → demand d.Names w ≤ demand d.Names v := by
  rw [wanted, List.mem_flatMap]
  constructor
  · intro h
    obtain ⟨leader, hleader, hv⟩ := h
    obtain ⟨hlinked, hmost⟩ := (mem_mostWanted_iff hd hleader).mp hv
    have hitem : v ∈ d.items := by
      rcases hlinked.1.cases_head with rfl | ⟨c, hstep, -⟩
      · exact mem_items_of_mem_leaders hleader
      · exact mem_items_of_names hstep
    exact ⟨hitem, (isSource_of_mem_leaders hleader).of_linked hlinked, hmost⟩
  · intro h
    obtain ⟨hitem, hsource, hmost⟩ := h
    obtain ⟨leader, hleader, hreach⟩ := exists_leader hitem
    obtain ⟨hthere, hback⟩ := hsource.linked hreach
    exact ⟨leader, hleader, (mem_mostWanted_iff hd hleader).mpr ⟨⟨hback, hthere⟩, hmost⟩⟩

/-- In every finite component some member is needed by no fewer members than any other, so that
every item is reached from a root. -/
theorem exists_wanted (hd : d.Within) (hv : v ∈ d.items) :
    ∃ root ∈ d.wanted, ReflTransGen d.Names root v := by
  obtain ⟨leader, hleader, hreach⟩ := exists_leader hv
  let component := d.dependents.walk (fun _ sources => sources) [leader]
  have hin : leader ∈ component := (mem_walk_dependents hd).mpr .refl
  obtain ⟨root, hroot, hmost⟩ := component.toFinset.exists_max_image
    (fun w => ((d.dependents.get? w).getD []).length) ⟨leader, List.mem_toFinset.mpr hin⟩
  rw [List.mem_toFinset] at hroot
  refine ⟨root, List.mem_flatMap.mpr ⟨leader, hleader, mem_mostWanted.mpr ⟨hroot, ?_⟩⟩, ?_⟩
  · exact fun w hw => hmost w (List.mem_toFinset.mpr hw)
  · exact ((mem_walk_dependents hd).mp hroot).trans hreach

theorem nodup_wanted (hd : d.Within) : d.wanted.Nodup := by
  rw [wanted, List.nodup_flatMap]
  refine ⟨fun leader _ => nodup_mostWanted, ?_⟩
  have hleaders := leaders_apart (d := d)
  rw [List.pairwise_iff_forall_sublist] at hleaders ⊢
  intro a b hsub v hva hvb
  have ha : a ∈ d.leaders := hsub.subset List.mem_cons_self
  have hb : b ∈ d.leaders := hsub.subset (List.mem_cons_of_mem _ List.mem_cons_self)
  have hav := ((mem_mostWanted_iff hd ha).mp hva).1
  have hbv := ((mem_mostWanted_iff hd hb).mp hvb).1
  exact (hleaders hsub).1 (hav.2.trans hbv.1)

end Dependencies

theorem names_eq_needs :
    (Dependencies.among items dependencies).Names = Needs items dependencies := by
  funext a b
  exact propext Dependencies.among_names_iff

theorem mem_rootsOf {le : κ → κ → Bool} :
    v ∈ rootsOf le items dependencies ↔ IsRoot items dependencies v := by
  rw [rootsOf, List.mem_mergeSort]
  show v ∈ (Dependencies.among items dependencies).wanted ↔ _
  rw [Dependencies.mem_wanted_iff Dependencies.within_among, Dependencies.mem_among_items,
    names_eq_needs]
  exact ⟨fun h => ⟨h.1, h.2.1, h.2.2⟩, fun h => ⟨h.item, h.source, h.most⟩⟩

theorem nodup_rootsOf {le : κ → κ → Bool} : (rootsOf le items dependencies).Nodup :=
  (List.mergeSort_perm _ _).nodup_iff.mpr (Dependencies.nodup_wanted Dependencies.within_among)

/-- Every item is reached from a root by way of items. -/
theorem exists_root {le : κ → κ → Bool} (hv : v ∈ items) :
    ∃ root ∈ rootsOf le items dependencies, ReflTransGen (Needs items dependencies) root v := by
  obtain ⟨root, hroot, hreach⟩ := Dependencies.exists_wanted Dependencies.within_among
    (Dependencies.mem_among_items.mpr hv)
  rw [names_eq_needs] at hreach
  exact ⟨root, List.mem_mergeSort.mpr hroot, hreach⟩

section Sorted
variable {κ : Type u} [LinearOrder κ]

theorem pairwise_rootsOf (items : List κ) (dependencies : κ → List κ) :
    (rootsOf (fun a b => decide (a ≤ b)) items dependencies).Pairwise (· < ·) := by
  have hsorted : (rootsOf (fun a b => decide (a ≤ b)) items dependencies).Pairwise
      fun a b => decide (a ≤ b) = true :=
    List.pairwise_mergeSort (by simpa using fun a b c => le_trans) (by simpa using le_total) _
  have hle := hsorted.imp of_decide_eq_true
  exact (hle.and nodup_rootsOf).imp fun h => lt_of_le_of_ne h.1 h.2

/-- The roots come sorted, each once, and are just the items that the rule names. What the items
need of each other settles them: neither the order of the items nor that of their dependencies
matters, nor whether some are given again. -/
theorem rootsOf_sorted_roots (items : List κ) (dependencies : κ → List κ) :
    (rootsOf (fun a b => decide (a ≤ b)) items dependencies).Pairwise (· < ·) ∧
    (∀ v, v ∈ rootsOf (fun a b => decide (a ≤ b)) items dependencies ↔
      IsRoot items dependencies v) ∧
    ∀ items' dependencies', (∀ v, v ∈ items' ↔ v ∈ items) →
      (∀ v ∈ items, ∀ w ∈ items, w ∈ dependencies' v ↔ w ∈ dependencies v) →
      rootsOf (fun a b => decide (a ≤ b)) items' dependencies' =
        rootsOf (fun a b => decide (a ≤ b)) items dependencies := by
  refine ⟨pairwise_rootsOf items dependencies, fun v => mem_rootsOf, ?_⟩
  intro items' dependencies' hitems hdependencies
  have hneeds : Needs items' dependencies' = Needs items dependencies := by
    funext a b
    simp only [Needs, hitems, eq_iff_iff]
    exact and_congr_right fun ha => and_congr_right fun hb => hdependencies a ha b hb
  have hroot : ∀ v, IsRoot items' dependencies' v ↔ IsRoot items dependencies v := by
    intro v
    constructor
    · exact fun h => ⟨(hitems v).mp h.item, hneeds ▸ h.source, hneeds ▸ h.most⟩
    · exact fun h => ⟨(hitems v).mpr h.item, hneeds ▸ h.source, hneeds ▸ h.most⟩
  refine List.Perm.eq_of_pairwise ?_ (pairwise_rootsOf _ _) (pairwise_rootsOf _ _) ?_
  · exact fun a b _ _ hab hba => absurd hab (lt_asymm hba)
  · rw [List.perm_ext_iff_of_nodup nodup_rootsOf nodup_rootsOf]
    exact fun v => by rw [mem_rootsOf, mem_rootsOf, hroot]

/-- In the cycle of 1, 2 and 3 only 2 is needed by two. -/
example : rootsOf (fun a b => decide (a ≤ b)) [3, 1, 2, 1]
    (fun | 1 => [2] | 2 => [3] | 3 => [1, 2, 9] | _ => []) = [2] := by cbv

end Sorted

namespace Placement

/-- A module of the chunk depends on another. -/
def NeedsInside (g : ModuleGraph) (r : ChunkRecord) (a b : ModuleId) : Prop :=
  a ∈ r.modules ∧ b ∈ r.modules ∧ g.Leads a b

theorem needs_modules_iff {g : ModuleGraph} {r : ChunkRecord} {a b : ModuleId} :
    Needs (r.modules.toList.mergeSort stringLe)
      (fun m => (g.get? m).elim [] (·.dependencies.toList)) a b ↔ NeedsInside g r a b := by
  simp only [Needs, List.mem_mergeSort, NeedsInside, OrderedSet.mem_iff]
  refine and_congr_right fun _ => and_congr_right fun _ => ?_
  cases hm : g.get? a <;> simp_all [OrderedMap.Leads, ModuleGraph.get?]

/-- The root modules of a chunk are modules of it from which all its modules are reached without
leaving the chunk, whether they need each other in cycles or are missing from the graph. -/
theorem rootModules_reach (p : Placement) (g : ModuleGraph) {c : ChunkKey} {r : ChunkRecord}
    (hr : p.chunks.get? c = some r) : ∃ roots, p.rootModules g c = .ok roots ∧
      (∀ m ∈ roots, m ∈ r.modules) ∧
      (∀ m ∈ r.modules, ∃ root ∈ roots, ReflTransGen (NeedsInside g r) root m) ∧
      (r.modules.toList ≠ [] → roots ≠ []) := by
  have hneeds : Needs (r.modules.toList.mergeSort stringLe)
      (fun m => (g.get? m).elim [] (·.dependencies.toList)) = NeedsInside g r := by
    funext a b
    exact propext needs_modules_iff
  have hreach : ∀ m ∈ r.modules.toList, ∃ root ∈ rootsOf stringLe
      (r.modules.toList.mergeSort stringLe) fun m => (g.get? m).elim [] (·.dependencies.toList),
      ReflTransGen (NeedsInside g r) root m := by
    intro m hm
    rw [← hneeds]
    exact exists_root (List.mem_mergeSort.mpr hm)
  refine ⟨_, by rw [rootModules, require, hr]; rfl, ?_, hreach, ?_⟩
  · intro m hm
    exact List.mem_mergeSort.mp (mem_rootsOf.mp hm).item
  · intro hsome hnone
    obtain ⟨m, hm⟩ := List.exists_mem_of_ne_nil _ hsome
    obtain ⟨root, hroot, -⟩ := hreach m hm
    rw [hnone] at hroot
    cases hroot

/-- A chunk with two modules that need each other and one that is missing from the graph. -/
def cyclicPlacement : Placement :=
  { chunks := .ofList [(⟨1⟩, { modules := .ofList ["gone", "a", "b"] })] }

theorem cyclicPlacement_rootModules_reach : ∃ r roots,
    cyclicPlacement.chunks.get? ⟨1⟩ = some r ∧ r.modules.toList = ["gone", "a", "b"] ∧
    cyclicPlacement.rootModules Plan.cyclicGraph ⟨1⟩ = .ok roots ∧
    ∃ root ∈ roots, ReflTransGen (NeedsInside Plan.cyclicGraph r) root "gone" := by
  have hr : cyclicPlacement.chunks.get? ⟨1⟩ =
      some { modules := .ofList ["gone", "a", "b"] } := rfl
  obtain ⟨roots, hroots, -, hreach, -⟩ := rootModules_reach cyclicPlacement Plan.cyclicGraph hr
  exact ⟨_, roots, hr, rfl, hroots, hreach "gone" (by decide)⟩

end Placement

end Bundler
