import Bundler.Proofs.OrderedMaps
import Bundler.Proofs.Paths
/-!
# Files in memory as a map

A path means a place: the names that its parts lead to from the root, one after the other, without a
look at a disk. Files in memory are a map over these places. A spelling that means a place finds
what was last written by any spelling that means it. The paths that are listed are one spelling
each, the cleaned one, in the order of paths.
-/
namespace Bundler

namespace Path
variable {p q : String} {ps kept : List String}

/-- One step on the way: down to a name, up again at `..` unless it is the root, and else
nowhere. -/
def walkPart (place : List String) (part : String) : List String :=
  if part = "" ∨ part = "." then place
  else if part = ".." then place.dropLast
  else place ++ [part]

/-- The place that a path means, seen from a place. -/
def placeFrom (start : List String) (p : String) : List String :=
  (parts p).foldl walkPart (if isAbsolute p then [] else start)

theorem reverse_cleanStep (hkept : ∀ x ∈ kept, Plain x) (part : String) :
    (cleanStep true kept part).reverse = walkPart kept.reverse part := by
  unfold cleanStep walkPart
  split
  · rfl
  · split
    · cases kept with
      | nil => rfl
      | cons last rest =>
        dsimp only
        rw [if_neg (hkept last List.mem_cons_self).notUp, List.reverse_cons, List.dropLast_concat]
    · exact List.reverse_cons

theorem reverse_foldl_cleanStep (hps : ∀ part ∈ ps, '/' ∉ part.toList)
    (hkept : ∀ x ∈ kept, Plain x) :
    (ps.foldl (cleanStep true) kept).reverse = ps.foldl walkPart kept.reverse := by
  induction ps generalizing kept with
  | nil => rfl
  | cons part ps ih =>
    obtain ⟨hpart, hps⟩ := List.forall_mem_cons.mp hps
    rw [List.foldl_cons, List.foldl_cons, ih hps (cleanStep_plain hkept hpart),
      reverse_cleanStep hkept]

theorem cleanParts_eq_placeFrom (h : isAbsolute p = true) (start : List String) :
    cleanParts p = placeFrom start p := by
  rw [cleanParts, placeFrom, h, if_pos rfl]
  exact reverse_foldl_cleanStep (fun _ => not_mem_of_mem_parts) fun _ hx =>
    absurd hx List.not_mem_nil

/-- What stands before a path that is joined to a directory leads to the directory. -/
theorem foldl_walkPart_lead (h : isAbsolute p = true) :
    (lead p).foldl walkPart [] = placeFrom [] p := by
  have hne : p.isEmpty = false := by
    rw [Bool.eq_false_iff, Ne, String.isEmpty_iff]
    rintro rfl
    exact absurd h (by decide)
  rw [lead, hne, placeFrom, h, if_pos rfl, if_neg Bool.false_ne_true]
  split
  · rename_i hlast
    obtain ⟨front, hfront⟩ := List.getLast?_eq_some_iff.mp hlast
    have hp : p = String.ofList front ++ "/" ++ "" := by
      apply String.toList_inj.mp
      simp [hfront]
    rw [hp, parts_append_slash]
    show (parts (String.ofList front) ++ [""]).dropLast.foldl walkPart [] =
      (parts (String.ofList front) ++ [""]).foldl walkPart []
    rw [List.dropLast_concat, List.foldl_append]
    rfl
  · rfl

theorem cleanParts_join (h : isAbsolute p = true) (q : String) :
    cleanParts (join p q) = placeFrom (placeFrom [] p) q := by
  rw [cleanParts_eq_placeFrom (isAbsolute_join h q) []]
  cases hq : isAbsolute q with
  | true => rw [(join_eq_right_iff h).mpr hq, placeFrom, placeFrom, hq, if_pos rfl, if_pos rfl]
  | false =>
    have hstart : placeFrom (placeFrom [] p) q = (parts q).foldl walkPart (placeFrom [] p) := by
      rw [placeFrom, hq, if_neg Bool.false_ne_true]
    rw [placeFrom, isAbsolute_join h q, if_pos rfl, parts_join hq, List.foldl_append,
      foldl_walkPart_lead h, hstart]

/-- The text of a name. -/
def Component.text : Component → String
  | .name s => s
  | _ => ""

theorem Component.compare_eq : Component.compare =
    compareLex (compareOn Component.rank) (compareOn Component.text) := by
  funext a b
  cases a <;> cases b <;> rfl

instance : Std.TransCmp Component.compare :=
  Component.compare_eq ▸ inferInstanceAs
    (Std.TransCmp (compareLex (compareOn Component.rank) (compareOn Component.text)))

instance : Std.LawfulEqCmp Component.compare where
  compare_self := Std.ReflCmp.compare_self
  eq_of_compare {a b} h := by
    rw [Component.compare_eq] at h
    obtain ⟨hrank, htext⟩ := Ordering.then_eq_eq.mp h
    have hrank' : a.rank = b.rank := Std.LawfulEqCmp.eq_of_compare hrank
    have htext' : a.text = b.text := Std.LawfulEqCmp.eq_of_compare htext
    cases a <;> cases b <;> simp_all [Component.rank, Component.text]

theorem compareComponents_eq (as bs : List Component) :
    compareComponents as bs = List.compareLex Component.compare as bs := by
  induction as generalizing bs with
  | nil => cases bs <;> rfl
  | cons a as ih =>
    cases bs with
    | nil => rfl
    | cons b bs => rw [compareComponents, ih, List.compareLex_cons_cons]

/-- Paths in order: the first is not behind the second. -/
def le (p q : String) : Bool := compare p q != .gt

theorem le_eq (p q : String) :
    le p q = (List.compareLex Component.compare (components p) (components q)).isLE := by
  rw [le, compare, compareComponents_eq]
  cases List.compareLex Component.compare (components p) (components q) <;> rfl

theorem le_trans (p q r : String) (hpq : le p q = true) (hqr : le q r = true) : le p r = true := by
  rw [le_eq] at hpq hqr ⊢
  exact Std.TransCmp.isLE_trans hpq hqr

theorem le_total (p q : String) : (le p q || le q p) = true := by
  have hswap : List.compareLex Component.compare (components q) (components p) =
      (List.compareLex Component.compare (components p) (components q)).swap :=
    Std.OrientedCmp.eq_swap
  rw [le_eq, le_eq, hswap]
  cases List.compareLex Component.compare (components p) (components q) <;> rfl

theorem components_clean (h : isAbsolute p = true) :
    components (clean p) = .root :: (cleanParts p).map .name := by
  have hnames : ∀ ps : List String, (∀ x ∈ ps, Plain x) →
      ps.filterMap (fun s => if s = "" ∨ s = "." then none
        else if s = ".." then some Component.up else some (.name s)) = ps.map .name := by
    intro ps
    induction ps with
    | nil => exact fun _ => rfl
    | cons part ps ih =>
      intro hps
      obtain ⟨hpart, hps⟩ := List.forall_mem_cons.mp hps
      simp [hpart.full, hpart.notHere, hpart.notUp, ih hps]
  unfold components
  rw [isAbsolute_clean h, if_pos rfl, parts_clean h]
  split
  · rename_i hnil
    rw [hnil]
    rfl
  · exact congrArg (Component.root :: ·) (hnames _ (cleanParts_plain h))

/-- Cleaned paths differ in the order of paths if they differ at all. -/
theorem clean_eq_of_compare (hp : isAbsolute p = true) (hq : isAbsolute q = true)
    (h : compare (clean p) (clean q) = .eq) : clean p = clean q := by
  rw [compare, compareComponents_eq] at h
  have hsame := Std.LawfulEqCmp.eq_of_compare h
  rw [components_clean hp, components_clean hq] at hsame
  have hnames : Function.Injective Component.name := fun a b hab => Component.name.inj hab
  rw [clean_eq_iff hp hq]
  exact List.map_injective_iff.mpr hnames (List.cons.inj hsame).2

end Path

namespace MemoryFiles
variable {m : MemoryFiles} {writes : List (String × ByteArray)}

/-- The place that a path means, seen from the working directory. -/
def place (m : MemoryFiles) (path : String) : List String :=
  Path.placeFrom (Path.placeFrom [] m.cwd) path

/-- The absolute path that is cleaned to locate a path. -/
theorem exists_locate_eq (hcwd : Path.isAbsolute m.cwd = true) (path : String) :
    ∃ p, Path.isAbsolute p = true ∧ m.locate path = Path.clean p ∧
      Path.cleanParts p = m.place path := by
  unfold locate
  cases hpath : Path.isAbsolute path with
  | true => exact ⟨path, hpath, if_pos rfl, Path.cleanParts_eq_placeFrom hpath _⟩
  | false =>
    exact ⟨_, Path.isAbsolute_join hcwd path, if_neg Bool.false_ne_true,
      Path.cleanParts_join hcwd path⟩

theorem locate_eq (hcwd : Path.isAbsolute m.cwd = true) (path : String) :
    m.locate path = "/" ++ "/".intercalate (m.place path) := by
  obtain ⟨p, hp, hlocate, hparts⟩ := exists_locate_eq hcwd path
  rw [hlocate, Path.clean_of_absolute hp, hparts]

theorem locate_eq_iff (hcwd : Path.isAbsolute m.cwd = true) (path other : String) :
    m.locate path = m.locate other ↔ m.place path = m.place other := by
  obtain ⟨p, hp, hlocate, hparts⟩ := exists_locate_eq hcwd path
  obtain ⟨q, hq, hlocate', hparts'⟩ := exists_locate_eq hcwd other
  rw [hlocate, hlocate', Path.clean_eq_iff hp hq, hparts, hparts']

theorem isAbsolute_locate (hcwd : Path.isAbsolute m.cwd = true) (path : String) :
    Path.isAbsolute (m.locate path) = true := by
  obtain ⟨p, hp, hlocate, -⟩ := exists_locate_eq hcwd path
  exact hlocate ▸ Path.isAbsolute_clean hp

theorem clean_locate (hcwd : Path.isAbsolute m.cwd = true) (path : String) :
    Path.clean (m.locate path) = m.locate path := by
  obtain ⟨p, hp, hlocate, -⟩ := exists_locate_eq hcwd path
  exact hlocate ▸ Path.clean_clean hp

/-- Writes files one after the other. -/
def writeEach (m : MemoryFiles) (writes : List (String × ByteArray)) : MemoryFiles :=
  writes.foldl (fun m w => m.write w.1 w.2) m

theorem locate_writeEach (m : MemoryFiles) (writes : List (String × ByteArray)) :
    (m.writeEach writes).locate = m.locate := by
  induction writes generalizing m with
  | nil => rfl
  | cons w writes ih => exact ih (m.write w.1 w.2)

theorem files_writeEach (m : MemoryFiles) (writes : List (String × ByteArray)) :
    (m.writeEach writes).files =
      (writes.map fun w => (m.locate w.1, w.2)).foldl (fun t e => t.insert e.1 e.2) m.files := by
  induction writes generalizing m with
  | nil => rfl
  | cons w writes ih => exact ih (m.write w.1 w.2)

theorem read_write (m : MemoryFiles) (p q : String) (content : ByteArray) :
    (m.write p content).read q =
      if m.locate q = m.locate p then .ok content else m.read q := by
  have hget : (m.write p content).files.get? ((m.write p content).locate q) =
      if m.locate q = m.locate p then some content else m.files.get? (m.locate q) :=
    OrderedMap.get?_insert ..
  unfold read
  rw [hget]
  by_cases h : m.locate q = m.locate p
  · rw [if_pos h, if_pos h]
  · rw [if_neg h, if_neg h]
    rfl

/-- A file has what was written last of all that leads to it. -/
theorem read_writeEach (m : MemoryFiles) (path : String) (writes : List (String × ByteArray)) :
    (m.writeEach writes).read path =
      match writes.reverse.find? fun w => m.locate path = m.locate w.1 with
      | some w => .ok w.2
      | none => m.read path := by
  induction writes using List.reverseRecOn with
  | nil => rfl
  | append_singleton writes w ih =>
    rw [writeEach, List.foldl_append]
    show ((m.writeEach writes).write w.1 w.2).read path = _
    rw [read_write, locate_writeEach, List.reverse_concat, List.find?_cons]
    by_cases heq : m.locate path = m.locate w.1
    · rw [if_pos heq, decide_eq_true heq]
    · rw [if_neg heq, decide_eq_false heq, ih]

theorem info_eq (m : MemoryFiles) (path : String) :
    m.info path = (m.read path).map fun content => ⟨content.size, true⟩ := by
  unfold info
  cases m.read path <;> rfl

theorem mem_paths {m : MemoryFiles} {p : String} : p ∈ m.paths ↔ p ∈ m.files.keys :=
  (List.mergeSort_perm m.files.keys Path.le).mem_iff

theorem mem_paths_writeEach {cwd p : String} :
    p ∈ (writeEach { cwd } writes).paths ↔ ∃ w ∈ writes, locate { cwd } w.1 = p := by
  rw [mem_paths, files_writeEach, OrderedMap.mem_keys_foldl_insert, List.map_map, List.mem_map]
  exact or_iff_right List.not_mem_nil

theorem nodup_paths (m : MemoryFiles) : m.paths.Nodup :=
  (List.mergeSort_perm m.files.keys Path.le).nodup_iff.mpr m.files.nodup_keys

/-- Where all paths are cleaned ones, each is behind those before it. -/
theorem pairwise_paths (h : ∀ p ∈ m.paths, Path.isAbsolute p = true ∧ Path.clean p = p) :
    m.paths.Pairwise fun p q => Path.compare p q = .lt := by
  have hsorted : m.paths.Pairwise fun p q => Path.le p q = true :=
    List.pairwise_mergeSort Path.le_trans Path.le_total m.files.keys
  refine (hsorted.and (nodup_paths m)).imp_of_mem fun {p q} hp hq hpq => ?_
  obtain ⟨hle, hne⟩ := hpq
  obtain ⟨hp, hcleanp⟩ := h p hp
  obtain ⟨hq, hcleanq⟩ := h q hq
  cases hcompare : Path.compare p q with
  | lt => rfl
  | eq =>
    rw [← hcleanp, ← hcleanq] at hcompare hne
    exact absurd (Path.clean_eq_of_compare hp hq hcompare) hne
  | gt =>
    rw [Path.le, hcompare] at hle
    cases hle

/-- Files that were written one after the other are a map over places. A path reads what was last
written to a path that means its place, and is not found under its cleaned form if nothing was. The
paths that are listed are the cleaned forms of what was written, each once and in order, and can all
be read. -/
theorem writeEach_map_of_places {cwd : String} (hcwd : Path.isAbsolute cwd = true)
    (writes : List (String × ByteArray)) :
    let m : MemoryFiles := { cwd }
    let files := m.writeEach writes
    (∀ path, files.read path =
      match writes.reverse.find? fun w => m.locate path = m.locate w.1 with
      | some w => .ok w.2
      | none => .error (.notFound (m.locate path))) ∧
    (∀ path, m.locate path = "/" ++ "/".intercalate (m.place path)) ∧
    (∀ path other, m.locate path = m.locate other ↔ m.place path = m.place other) ∧
    (∀ path, files.info path = (files.read path).map fun content => ⟨content.size, true⟩) ∧
    files.paths.Pairwise (fun p q => Path.compare p q = .lt) ∧ files.paths.Nodup ∧
    (∀ p, p ∈ files.paths ↔ ∃ w ∈ writes, m.locate w.1 = p) ∧
    ∀ p ∈ files.paths, Path.isAbsolute p = true ∧ Path.clean p = p ∧
      ∃ content, files.read p = .ok content := by
  intro m files
  have hbase : Path.isAbsolute m.cwd = true := hcwd
  have hlisted : ∀ p ∈ files.paths, Path.isAbsolute p = true ∧ Path.clean p = p := by
    intro p hp
    obtain ⟨w, -, rfl⟩ := mem_paths_writeEach.mp hp
    exact ⟨isAbsolute_locate hbase w.1, clean_locate hbase w.1⟩
  refine ⟨fun path => read_writeEach m path writes, locate_eq hbase, locate_eq_iff hbase,
    info_eq files, pairwise_paths hlisted, nodup_paths files, fun p => mem_paths_writeEach,
    fun p hp => ⟨(hlisted p hp).1, (hlisted p hp).2, ?_⟩⟩
  obtain ⟨content, hcontent⟩ := OrderedMap.exists_of_mem_keys (mem_paths.mp hp)
  refine ⟨content, ?_⟩
  have hself : files.locate p = p := (if_pos (hlisted p hp).1).trans (hlisted p hp).2
  rw [read, hself, hcontent]

/-- Three spellings of one file, one of them written beyond the root, and a file at the root. -/
def respelled : List (String × ByteArray) :=
  [("./src/../src/index.js", "old".toUTF8), ("../../style.css", "style".toUTF8),
    ("/../site//app/src/./index.js", "new".toUTF8)]

theorem respelled_map_of_places : Path.isAbsolute "/site/app/" = true ∧
    (writeEach { cwd := "/site/app/" } respelled).read "src/index.js" = .ok "new".toUTF8 ∧
    (writeEach { cwd := "/site/app/" } respelled).read "../../../style.css" =
      .ok "style".toUTF8 ∧
    (writeEach { cwd := "/site/app/" } respelled).read "./style.css" =
      .error (.notFound "/site/app/style.css") := by
  have hcwd : Path.isAbsolute "/site/app/" = true := by decide
  obtain ⟨hread, -⟩ := writeEach_map_of_places hcwd respelled
  refine ⟨hcwd, ?_, ?_, ?_⟩
  · rw [hread]
    rfl
  · rw [hread]
    rfl
  · rw [hread]
    rfl

end MemoryFiles

end Bundler
