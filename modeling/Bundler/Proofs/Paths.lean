import Bundler.Build.Settings
import Bundler.Files.Memory
import Mathlib.Data.List.Basic
/-!
# Cleaned paths

Cleaning an absolute path gives an absolute path whose parts are plain names. Such a path is its
own cleaned form, so what settings locate is what files in memory look up.
-/
namespace Bundler

namespace Path
variable {p q part : String} {ps kept : List String}

/-- The part is a name: not empty, neither `.` nor `..`, without a separator. -/
structure Plain (part : String) : Prop where
  full : part ≠ ""
  notHere : part ≠ "."
  notUp : part ≠ ".."
  whole : '/' ∉ part.toList

theorem not_mem_of_mem_splitOn {c : Char} {cs l : List Char} (h : l ∈ cs.splitOn c) : c ∉ l := by
  induction cs generalizing l with
  | nil =>
    rw [List.splitOn_nil, List.mem_singleton] at h
    subst h
    exact List.not_mem_nil
  | cons d cs ih =>
    rw [List.splitOn_cons_eq_if_modifyHead] at h
    split at h
    · rcases List.mem_cons.mp h with rfl | h
      · exact List.not_mem_nil
      · exact ih h
    · rename_i hd
      obtain ⟨first, rest, hsplit⟩ := List.exists_cons_of_ne_nil (List.splitOn_ne_nil c cs)
      rw [hsplit] at h ih
      rcases List.mem_cons.mp h with rfl | h
      · have hne : c ≠ d := by
          rintro rfl
          exact hd (beq_self_eq_true c)
        exact List.not_mem_cons_of_ne_of_not_mem hne (ih List.mem_cons_self)
      · exact ih (List.mem_cons_of_mem _ h)

theorem not_mem_of_mem_parts (h : part ∈ parts p) : '/' ∉ part.toList := by
  obtain ⟨l, hl, rfl⟩ := List.mem_map.mp h
  rw [String.toList_ofList]
  exact not_mem_of_mem_splitOn hl

theorem cleanStep_plain (hkept : ∀ x ∈ kept, Plain x) (hpart : '/' ∉ part.toList) :
    ∀ x ∈ cleanStep true kept part, Plain x := by
  unfold cleanStep
  split
  · exact hkept
  · rename_i hidle
    rw [not_or] at hidle
    split
    · cases kept with
      | nil => exact hkept
      | cons last rest =>
        dsimp only
        rw [if_neg (hkept last List.mem_cons_self).notUp]
        exact fun x hx => hkept x (List.mem_cons_of_mem _ hx)
    · rename_i hup
      intro x hx
      rcases List.mem_cons.mp hx with rfl | hx
      · exact ⟨hidle.1, hidle.2, hup, hpart⟩
      · exact hkept x hx

theorem foldl_cleanStep_plain (hps : ∀ part ∈ ps, '/' ∉ part.toList)
    (hkept : ∀ x ∈ kept, Plain x) : ∀ x ∈ ps.foldl (cleanStep true) kept, Plain x := by
  induction ps generalizing kept with
  | nil => exact hkept
  | cons part ps ih =>
    exact ih (fun x hx => hps x (List.mem_cons_of_mem _ hx))
      (cleanStep_plain hkept (hps part List.mem_cons_self))

theorem cleanParts_plain (h : isAbsolute p = true) : ∀ part ∈ cleanParts p, Plain part := by
  intro part hpart
  rw [cleanParts, h, List.mem_reverse] at hpart
  exact foldl_cleanStep_plain (fun _ => not_mem_of_mem_parts)
    (fun _ hx => absurd hx List.not_mem_nil) part hpart

/-- Cleaning takes names as they come. -/
theorem foldl_cleanStep_of_plain (h : ∀ x ∈ ps, Plain x) :
    ps.foldl (cleanStep true) kept = ps.reverse ++ kept := by
  induction ps generalizing kept with
  | nil => rfl
  | cons part ps ih =>
    have hpart := h part List.mem_cons_self
    have hstep : cleanStep true kept part = part :: kept := by
      unfold cleanStep
      rw [if_neg (not_or.mpr ⟨hpart.full, hpart.notHere⟩), if_neg hpart.notUp]
    rw [List.foldl_cons, hstep, ih fun x hx => h x (List.mem_cons_of_mem _ hx),
      List.reverse_cons, List.append_assoc]
    rfl

theorem isAbsolute_slash (s : String) : isAbsolute ("/" ++ s) = true := by
  simp [isAbsolute]

theorem parts_slash (h : ∀ x ∈ ps, '/' ∉ x.toList) :
    parts ("/" ++ "/".intercalate ps) = "" :: if ps = [] then [""] else ps := by
  have hlist : ("/" ++ "/".intercalate ps).toList =
      [] ++ '/' :: ['/'].intercalate (ps.map String.toList) := by
    rw [String.toList_append, String.toList_intercalate]
    rfl
  rw [parts, hlist, List.splitOn_append_cons_self_of_not_mem List.not_mem_nil]
  split
  · rename_i hnil
    subst hnil
    rfl
  · rename_i hne
    rw [List.splitOn_intercalate '/' (by simpa using h) (by simpa using hne)]
    simp

theorem clean_of_absolute (h : isAbsolute p = true) :
    clean p = "/" ++ "/".intercalate (cleanParts p) := by
  rw [clean, if_pos h]

theorem isAbsolute_clean (h : isAbsolute p = true) : isAbsolute (clean p) = true := by
  rw [clean_of_absolute h]
  exact isAbsolute_slash _

theorem parts_clean (h : isAbsolute p = true) :
    parts (clean p) = "" :: if cleanParts p = [] then [""] else cleanParts p := by
  rw [clean_of_absolute h, parts_slash fun x hx => (cleanParts_plain h x hx).whole]

theorem cleanParts_clean (h : isAbsolute p = true) : cleanParts (clean p) = cleanParts p := by
  have hstart : ∀ rest : List String, ("" :: rest).foldl (cleanStep true) [] =
      rest.foldl (cleanStep true) [] := fun _ => rfl
  rw [cleanParts, isAbsolute_clean h, parts_clean h, hstart]
  split
  · rename_i hnil
    rw [hnil]
    rfl
  · rw [foldl_cleanStep_of_plain (cleanParts_plain h), List.append_nil, List.reverse_reverse]

theorem clean_clean (h : isAbsolute p = true) : clean (clean p) = clean p := by
  rw [clean_of_absolute (isAbsolute_clean h), cleanParts_clean h, clean_of_absolute h]

/-- Absolute paths are cleaned to the same path just if the same parts are left of them. -/
theorem clean_eq_iff (hp : isAbsolute p = true) (hq : isAbsolute q = true) :
    clean p = clean q ↔ cleanParts p = cleanParts q := by
  constructor
  · intro h
    rw [← cleanParts_clean hp, h, cleanParts_clean hq]
  · intro h
    rw [clean_of_absolute hp, clean_of_absolute hq, h]

theorem isAbsolute_append (h : isAbsolute p = true) (s : String) :
    isAbsolute (p ++ s) = true := by
  rw [isAbsolute, decide_eq_true_iff] at h ⊢
  rw [String.toList_append, List.head?_append, h]
  rfl

theorem isAbsolute_join (h : isAbsolute p = true) (q : String) : isAbsolute (join p q) = true := by
  unfold join
  split
  · assumption
  · split
    · exact isAbsolute_append h q
    · exact isAbsolute_append (isAbsolute_append h "/") q

theorem join_eq_right_iff (h : isAbsolute p = true) : join p q = q ↔ isAbsolute q = true := by
  constructor
  · intro hjoin
    exact hjoin ▸ isAbsolute_join h q
  · intro hq
    exact if_pos hq

theorem parts_append_slash (p q : String) : parts (p ++ "/" ++ q) = parts p ++ parts q := by
  have hlist : (p ++ "/" ++ q).toList = p.toList ++ '/' :: q.toList := by
    rw [String.toList_append, String.toList_append, List.append_assoc]
    rfl
  rw [parts, hlist, List.splitOn_append_cons_self, List.map_append]
  rfl

theorem parts_injective : Function.Injective parts := by
  intro p q h
  have hsplit : p.toList.splitOn '/' = q.toList.splitOn '/' :=
    List.map_injective_iff.mpr (fun _ _ => String.ofList_inj.mp) h
  apply String.toList_inj.mp
  calc p.toList = ['/'].intercalate (p.toList.splitOn '/') := (List.intercalate_splitOn '/').symm
    _ = ['/'].intercalate (q.toList.splitOn '/') := by rw [hsplit]
    _ = q.toList := List.intercalate_splitOn '/'

/-- The parts before those of a relative path that is joined to `p`. -/
def lead (p : String) : List String :=
  if p.isEmpty then []
  else if p.toList.getLast? = some '/' then (parts p).dropLast
  else parts p

theorem parts_join (h : isAbsolute q = false) : parts (join p q) = lead p ++ parts q := by
  rw [join, lead, if_neg (Bool.eq_false_iff.mp h)]
  cases hempty : p.isEmpty with
  | true =>
    rw [String.isEmpty_iff.mp hempty, String.empty_append]
    rfl
  | false =>
    rw [Bool.false_or]
    by_cases hlast : p.toList.getLast? = some '/'
    · obtain ⟨front, hfront⟩ := List.getLast?_eq_some_iff.mp hlast
      have hp : p = String.ofList front ++ "/" ++ "" := by
        apply String.toList_inj.mp
        simp [hfront]
      rw [if_pos (decide_eq_true hlast), if_neg Bool.false_ne_true, if_pos hlast, hp,
        parts_append_slash, String.append_empty, parts_append_slash]
      exact congrArg (· ++ parts q) List.dropLast_concat.symm
    · rw [if_neg (by simpa using hlast), if_neg Bool.false_ne_true, if_neg hlast,
        parts_append_slash]

theorem isAbsolute_of_parts_plain (h : ∀ part ∈ parts p, Plain part) : isAbsolute p = false := by
  rw [← Bool.not_eq_true]
  intro habsolute
  rw [isAbsolute, decide_eq_true_iff] at habsolute
  obtain ⟨rest, hrest⟩ := List.head?_eq_some_iff.mp habsolute
  have hfirst : "" ∈ parts p := by
    have hsplit := List.splitOn_append_cons_self_of_not_mem (a := '/') List.not_mem_nil rest
    rw [parts, hrest, ← List.nil_append ('/' :: rest), hsplit]
    exact List.mem_cons_self
  exact (h "" hfirst).full rfl

theorem isAbsolute_append_of_ne_empty (h : p.isEmpty = false) (s : String) :
    isAbsolute (p ++ s) = isAbsolute p := by
  have hne : p.toList ≠ [] := by simpa using h
  rw [isAbsolute, isAbsolute, String.toList_append, List.head?_append_of_ne_nil _ hne]

theorem isAbsolute_join_of_relative (h : isAbsolute q = false) :
    isAbsolute (join p q) = isAbsolute p := by
  rw [join, if_neg (Bool.eq_false_iff.mp h)]
  cases hempty : p.isEmpty with
  | true =>
    rw [String.isEmpty_iff.mp hempty, Bool.true_or, if_pos rfl, String.empty_append, h]
    rfl
  | false =>
    split
    · exact isAbsolute_append_of_ne_empty hempty q
    · rw [String.append_assoc]
      exact isAbsolute_append_of_ne_empty hempty _

/-- Plain parts at the end of an absolute path stay there when it is cleaned. -/
theorem cleanParts_of_parts_eq (h : isAbsolute p = true) (hparts : parts p = kept ++ ps)
    (hplain : ∀ part ∈ ps, Plain part) :
    cleanParts p = (kept.foldl (cleanStep true) []).reverse ++ ps := by
  rw [cleanParts, h, hparts, List.foldl_append, foldl_cleanStep_of_plain hplain,
    List.reverse_append, List.reverse_reverse]

end Path

namespace Settings
variable {config : Config} {cwd : String} {s : Settings}

/-- What settings keep of an accepted configuration. -/
structure Accepts (s : Settings) (config : Config) : Prop where
  valid : config.fault? = none
  context : Path.isAbsolute s.context = true
  entry : s.entry = config.entry
  publicPath : s.output.publicPath = config.output.publicPath
  builtins : s.builtins = config.builtins
  plugins : s.plugins = config.plugins

/-- What an accepted configuration becomes. -/
theorem eq_of_ofConfig (h : ofConfig config cwd = .ok s) :
    config.fault? = none ∧ Path.isAbsolute cwd = true ∧ s = {
      context := Path.clean (config.context.elim cwd (Path.join cwd))
      mode := config.mode
      entry := config.entry
      output := { config.output with
        path := Path.clean (Path.join (Path.clean (config.context.elim cwd (Path.join cwd)))
          config.output.path) }
      builtins := config.builtins
      plugins := config.plugins } := by
  unfold ofConfig Config.validate at h
  cases hfault : config.fault? with
  | some fault =>
    rw [hfault] at h
    cases h
  | none =>
    rw [hfault] at h
    cases hcwd : Path.isAbsolute cwd with
    | false =>
      rw [hcwd] at h
      cases h
    | true =>
      rw [hcwd] at h
      exact ⟨rfl, rfl, (Except.ok.inj h).symm⟩

theorem accepts_of_ofConfig (h : ofConfig config cwd = .ok s) : s.Accepts config := by
  obtain ⟨hfault, hcwd, rfl⟩ := eq_of_ofConfig h
  refine ⟨hfault, Path.isAbsolute_clean ?_, rfl, rfl, rfl, rfl⟩
  cases config.context with
  | none => exact hcwd
  | some context => exact Path.isAbsolute_join hcwd context

theorem isAbsolute_locate (h : Path.isAbsolute s.context = true) (path : String) :
    Path.isAbsolute (s.locate path) = true :=
  Path.isAbsolute_clean (Path.isAbsolute_join h path)

end Settings

namespace MemoryFiles

/-- Files in memory look a located path up as it is. -/
theorem locate_locate {s : Settings} (h : Path.isAbsolute s.context = true)
    (m : MemoryFiles) (path : String) : m.locate (s.locate path) = s.locate path := by
  rw [locate, if_pos (Settings.isAbsolute_locate h path)]
  exact Path.clean_clean (Path.isAbsolute_join h path)

/-- What stands before the parts of a plain name is decided by the directory it is joined to. -/
theorem exists_locate_join {m : MemoryFiles} (hcwd : Path.isAbsolute m.cwd = true) (dir : String) :
    ∃ kept, ∀ name, (∀ part ∈ Path.parts name, Path.Plain part) →
      ∃ p, m.locate (Path.join dir name) = Path.clean p ∧ Path.isAbsolute p = true ∧
        Path.cleanParts p = kept ++ Path.parts name := by
  cases hdir : Path.isAbsolute dir with
  | true =>
    refine ⟨((Path.lead dir).foldl (Path.cleanStep true) []).reverse, fun name hname => ?_⟩
    have hrelative := Path.isAbsolute_of_parts_plain hname
    have hjoin : Path.isAbsolute (Path.join dir name) = true :=
      (Path.isAbsolute_join_of_relative hrelative).trans hdir
    exact ⟨_, if_pos hjoin, hjoin,
      Path.cleanParts_of_parts_eq hjoin (Path.parts_join hrelative) hname⟩
  | false =>
    refine ⟨((Path.lead m.cwd ++ Path.lead dir).foldl (Path.cleanStep true) []).reverse,
      fun name hname => ?_⟩
    have hrelative := Path.isAbsolute_of_parts_plain hname
    have hjoin : Path.isAbsolute (Path.join dir name) = false :=
      (Path.isAbsolute_join_of_relative hrelative).trans hdir
    have hparts : Path.parts (Path.join m.cwd (Path.join dir name)) =
        (Path.lead m.cwd ++ Path.lead dir) ++ Path.parts name := by
      rw [Path.parts_join hjoin, Path.parts_join hrelative, List.append_assoc]
    have habsolute := Path.isAbsolute_join hcwd (Path.join dir name)
    exact ⟨_, if_neg (Bool.eq_false_iff.mp hjoin), habsolute,
      Path.cleanParts_of_parts_eq habsolute hparts hname⟩

/-- Below one directory, names that are spelled plainly are files of their own. -/
theorem eq_of_locate_eq {m : MemoryFiles} {dir name other : String}
    (hcwd : Path.isAbsolute m.cwd = true) (hname : ∀ part ∈ Path.parts name, Path.Plain part)
    (hother : ∀ part ∈ Path.parts other, Path.Plain part)
    (h : m.locate (Path.join dir name) = m.locate (Path.join dir other)) : name = other := by
  obtain ⟨kept, hlocate⟩ := exists_locate_join hcwd dir
  obtain ⟨p, hp, habsolute, hparts⟩ := hlocate name hname
  obtain ⟨q, hq, habsolute', hparts'⟩ := hlocate other hother
  have hclean := (Path.clean_eq_iff habsolute habsolute').mp (hp.symm.trans (h.trans hq))
  rw [hparts, hparts'] at hclean
  exact Path.parts_injective (List.append_cancel_left hclean)

end MemoryFiles

end Bundler
