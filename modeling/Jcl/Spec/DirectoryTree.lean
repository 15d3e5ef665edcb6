/-
Module: Jcl.Spec.DirectoryTree
Layer: Spec
Purpose: What a walk over a directory tree is for. A tree is given by what `opendir` and `readdir` show of it:
  the listing of the directory at a path, in any order, and which directories may not be opened. A walk is to
  find the directories that composed paths lead to, and of each one the regular files and directories in it. The
  paths form a forest, and since they are bounded only finitely many are ever reached.
Imports: Jcl.FileWalk, Jcl.Lib.StackWalk
Trusted boundary: human-reviewed spec (WalkEntry, WalkDir, keptEntries, composePath, DirectoryTree, Reached)
Main exports: WalkEntry, WalkDir, keptEntries, composePath, DirectoryTree, Reached, subdirs, kids, forest,
  reached_iff_reaches
-/
import Jcl.FileWalk
import Jcl.Lib.StackWalk

namespace Jcl

open StackWalk

/-- An entry that a walk keeps. -/
structure WalkEntry where
  type : FwType
  name : CStr
  inode : Nat
deriving DecidableEq, Repr

/-- A directory that a walk records. -/
structure WalkDir where
  path : CStr
  files : List WalkEntry
deriving DecidableEq, Repr

/-- Regular files and directories are kept; `"."`, `".."` and anything else is not. -/
def keptEntry (ent : Dirent) : Option WalkEntry :=
  if ent.isDots then none
  else
    match ent.dType with
    | .reg => some { type := .reg, name := ent.dName, inode := ent.dIno }
    | .dir => some { type := .dir, name := ent.dName, inode := ent.dIno }
    | _ => none

/-- What a walk keeps of a listing, in the same order. -/
def keptEntries (entries : List Dirent) : List WalkEntry := entries.filterMap keptEntry

/-- The path of an entry of the directory at `path`. -/
def composePath (path name : CStr) : CStr := path ++ slash :: name

/-- A directory tree: `entries path` is what `readdir` lists in the directory at `path`, in this order, and
    `denied path` says that `opendir` fails there with `EACCES`. Beside `"."` and `".."`, which may be listed
    anywhere, the names in one directory are different names, and the type of every entry is known. -/
structure DirectoryTree where
  entries : CStr → List Dirent
  denied : CStr → Bool
  names_nodup : ∀ path, (((entries path).filter fun ent => !ent.isDots).map Dirent.dName).Nodup
  names_valid : ∀ path, ∀ ent ∈ entries path, ent.isDots = false →
    ent.dName ≠ [] ∧ slash ∉ ent.dName ∧ ent.dName.length ≤ nameMax
  types_known : ∀ path, ∀ ent ∈ entries path, ent.isDots = false → ent.dType ≠ .unknown

/-- The directories that a walk from `start` reaches: those in an openable directory that was reached, as long
    as their composed path is not too long. -/
inductive DirectoryTree.Reached (tree : DirectoryTree) (start : CStr) : CStr → Prop
  | start : tree.Reached start start
  | child {path : CStr} {ent : Dirent} : tree.Reached start path → tree.denied path = false →
      ent ∈ tree.entries path → ent.isDots = false → ent.dType = .dir →
      (composePath path ent.dName).length ≤ pathMax → tree.Reached start (composePath path ent.dName)

/-! ### Names and composed paths -/

theorem append_cons_inj {s : UInt8} {n m p q : List UInt8} (hn : s ∉ n) (hm : s ∉ m)
    (h : n ++ s :: p = m ++ s :: q) : n = m ∧ p = q := by
  induction n generalizing m with
  | nil =>
      cases m with
      | nil =>
          simp only [List.nil_append, List.cons.injEq, true_and] at h
          exact ⟨rfl, h⟩
      | cons c m =>
          simp only [List.nil_append, List.cons_append, List.cons.injEq] at h
          exact absurd (h.1 ▸ List.mem_cons_self) hm
  | cons c n ih =>
      cases m with
      | nil =>
          simp only [List.nil_append, List.cons_append, List.cons.injEq] at h
          exact absurd (h.1 ▸ List.mem_cons_self) hn
      | cons d m =>
          simp only [List.cons_append, List.cons.injEq] at h
          obtain ⟨hnm, hpq⟩ := ih (fun hs => hn (List.mem_cons_of_mem c hs))
            (fun hs => hm (List.mem_cons_of_mem d hs)) h.2
          exact ⟨by rw [h.1, hnm], hpq⟩

/-- A path determines the directory and the name that it was composed of. -/
theorem composePath_inj {path path' name name' : CStr} (hname : slash ∉ name) (hname' : slash ∉ name')
    (h : composePath path name = composePath path' name') : path = path' ∧ name = name' := by
  have hreverse : name.reverse ++ slash :: path.reverse = name'.reverse ++ slash :: path'.reverse := by
    simpa [composePath] using congrArg List.reverse h
  obtain ⟨hn, hp⟩ := append_cons_inj (by simpa using hname) (by simpa using hname') hreverse
  exact ⟨List.reverse_inj.1 hp, List.reverse_inj.1 hn⟩

theorem length_composePath (path name : CStr) :
    (composePath path name).length = path.length + name.length + 1 := by
  simp only [composePath, List.length_append, List.length_cons]
  omega

theorem mem_keptEntries {entries : List Dirent} {file : WalkEntry} :
    file ∈ keptEntries entries ↔ ∃ ent ∈ entries, keptEntry ent = some file := List.mem_filterMap

theorem keptEntry_dir {ent : Dirent} {file : WalkEntry} (h : keptEntry ent = some file) :
    ent.isDots = false ∧ file.name = ent.dName ∧ (file.type = .dir ↔ ent.dType = .dir) := by
  unfold keptEntry at h
  cases hdots : ent.isDots with
  | true => simp [hdots] at h
  | false =>
      rw [hdots] at h
      cases htype : ent.dType with
      | reg =>
          rw [htype] at h
          cases h
          simp
      | dir =>
          rw [htype] at h
          cases h
          simp
      | unknown => simp [htype] at h
      | other code => simp [htype] at h

theorem keptEntry_of_dir {ent : Dirent} (hdots : ent.isDots = false) (htype : ent.dType = .dir) :
    keptEntry ent = some { type := .dir, name := ent.dName, inode := ent.dIno } := by
  simp [keptEntry, hdots, htype]

/-- The names that are kept are names of the listing, in the same order. -/
theorem keptEntries_names_sublist (entries : List Dirent) :
    ((keptEntries entries).map WalkEntry.name).Sublist
      ((entries.filter fun ent => !ent.isDots).map Dirent.dName) := by
  induction entries with
  | nil => exact List.Sublist.refl _
  | cons ent entries ih =>
      unfold keptEntries at ih ⊢
      cases hkept : keptEntry ent with
      | none =>
          rw [List.filterMap_cons_none hkept]
          by_cases hdots : ent.isDots
          · simpa [hdots] using ih
          · simpa [hdots] using ih.cons ent.dName
      | some file =>
          obtain ⟨hdots, hname, -⟩ := keptEntry_dir hkept
          rw [List.filterMap_cons_some hkept]
          simpa [hdots, hname] using ih

/-! ### The forest of paths -/

/-- The composed paths of the directories among the files of the directory at `path`, as far as they are not too
    long. -/
def subdirs (path : CStr) (files : List WalkEntry) : List CStr :=
  ((files.filter fun file => file.type = .dir).map fun file => composePath path file.name).filter fun child =>
    child.length ≤ pathMax

theorem mem_subdirs {path child : CStr} {files : List WalkEntry} :
    child ∈ subdirs path files ↔
      ∃ file ∈ files, file.type = .dir ∧ child = composePath path file.name ∧ child.length ≤ pathMax := by
  simp only [subdirs, List.mem_filter, List.mem_map, decide_eq_true_eq]
  constructor
  · rintro ⟨⟨file, ⟨hmem, htype⟩, rfl⟩, hlen⟩
    exact ⟨file, hmem, htype, rfl, hlen⟩
  · rintro ⟨file, hmem, htype, rfl, hlen⟩
    exact ⟨⟨file, ⟨hmem, htype⟩, rfl⟩, hlen⟩

namespace DirectoryTree

variable (tree : DirectoryTree)

/-- The paths that a directory leads to, with the one that was composed last first. -/
def kids (path : CStr) : List CStr :=
  if tree.denied path then [] else (subdirs path (keptEntries (tree.entries path))).reverse

variable {tree} {start path child : CStr}

theorem mem_kids : child ∈ tree.kids path ↔
    tree.denied path = false ∧ ∃ ent ∈ tree.entries path, ent.isDots = false ∧ ent.dType = .dir ∧
      child = composePath path ent.dName ∧ child.length ≤ pathMax := by
  unfold kids
  cases hdenied : tree.denied path with
  | true => simp
  | false =>
      simp only [Bool.false_eq_true, if_false, List.mem_reverse, mem_subdirs, mem_keptEntries, true_and]
      constructor
      · rintro ⟨file, ⟨ent, hent, hkept⟩, htype, hchild, hlen⟩
        obtain ⟨hdots, hname, hdir⟩ := keptEntry_dir hkept
        exact ⟨ent, hent, hdots, hdir.1 htype, hname ▸ hchild, hlen⟩
      · rintro ⟨ent, hent, hdots, htype, hchild, hlen⟩
        exact ⟨_, ⟨ent, hent, keptEntry_of_dir hdots htype⟩, rfl, hchild, hlen⟩

theorem reached_iff_reaches : tree.Reached start path ↔ Reaches tree.kids start path := by
  constructor
  · intro h
    induction h with
    | start => exact Reaches.refl
    | child _ hdenied hent hdots htype hlen ih =>
        exact ih.tail (mem_kids.2 ⟨hdenied, _, hent, hdots, htype, rfl, hlen⟩)
  · intro h
    induction h with
    | refl => exact Reached.start
    | tail _ hstep ih =>
        obtain ⟨hdenied, ent, hent, hdots, htype, rfl, hlen⟩ := mem_kids.1 hstep
        exact Reached.child ih hdenied hent hdots htype hlen

theorem kids_nodup (tree : DirectoryTree) (path : CStr) : (tree.kids path).Nodup := by
  unfold kids
  split
  · exact List.nodup_nil
  · refine List.nodup_reverse.2 (List.Nodup.filter _ ?_)
    have hnames := (tree.names_nodup path).sublist (keptEntries_names_sublist _)
    have hdirs := hnames.sublist (List.Sublist.map WalkEntry.name
      (List.filter_sublist (p := fun file : WalkEntry => file.type = .dir)))
    have hpaths := List.Nodup.map (f := composePath path)
      (fun name name' h => (List.cons.inj (List.append_cancel_left h)).2) hdirs
    simpa [List.map_map, Function.comp_def] using hpaths

/-- Composed paths are longer than the path of their directory, and have one directory only. -/
theorem forest (tree : DirectoryTree) : Forest tree.kids fun path => pathMax + 1 - path.length where
  rank_lt := by
    intro path child hchild
    obtain ⟨-, ent, -, -, -, rfl, hlen⟩ := mem_kids.1 hchild
    rw [length_composePath] at hlen ⊢
    omega
  nodup := kids_nodup tree
  parent := by
    intro path path' child hchild hchild'
    obtain ⟨-, ent, hent, hdots, -, rfl, -⟩ := mem_kids.1 hchild
    obtain ⟨-, ent', hent', hdots', -, heq, -⟩ := mem_kids.1 hchild'
    exact (composePath_inj (tree.names_valid path ent hent hdots).2.1
      (tree.names_valid path' ent' hent' hdots').2.1 heq).1

end DirectoryTree

end Jcl
