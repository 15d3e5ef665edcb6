/-
Module: Jcl.Proofs.FioPath
Layer: Proofs
Purpose: Paths and names where every allocation is granted: what the functions of `file_io.c` store, in terms
  of the strings.
Imports: Jcl.FioPath, Jcl.Proofs.Resources, Jcl.Spec.DirectoryTree
Trusted boundary: none (fully proved)
Main exports: FioPath.Holds, FioName.Holds, normalPath, jfsFioPathInit_spec, jfsFioNameInit_spec, compose_spec,
  compose_overflow
-/
import Jcl.Proofs.Resources
import Jcl.Spec.DirectoryTree

namespace Jcl

/-- The path owns the string `text`. -/
structure FioPath.Holds (path : FioPath) (text : CStr) : Prop where
  ptr : path.str.ptr.IsBlock
  cells : path.str.cells = text
  len : path.len = text.length

/-- The string of a path. -/
def FioPath.text (path : FioPath) : CStr := path.str.cells

theorem FioPath.Holds.own {path : FioPath} {text : CStr} (h : path.Holds text) : path.Holds path.text :=
  ⟨h.ptr, rfl, by rw [h.len, ← h.cells]; rfl⟩

/-- The name owns the string `text`. -/
structure FioName.Holds (name : FioName) (text : CStr) : Prop where
  ptr : name.str.ptr.IsBlock
  cells : name.str.cells = text
  len : name.len = text.length

theorem FioName.Holds.own {name : FioName} {text : CStr} (h : name.Holds text) :
    name.Holds name.str.cells :=
  ⟨h.ptr, rfl, by rw [h.len, h.cells]⟩

/-- The path that `jfs_fio_path_init` stores for a string: one `'/'` at its end is left out. -/
def normalPath (str : CStr) : CStr :=
  if str.length > 1 ∧ str.getLast? = some slash then str.dropLast else str

variable {s : Sys}

theorem take_normalPath (str : CStr) : str.take (normalPath str).length = normalPath str := by
  unfold normalPath
  split
  · rw [List.dropLast_eq_take, List.length_take, Nat.min_eq_left (Nat.sub_le _ _)]
  · exact List.take_length

theorem length_normalPath (str : CStr) : (normalPath str).length =
    if str.length > 1 ∧ str.getLast? = some slash then str.length - 1 else str.length := by
  unfold normalPath
  split
  · exact List.length_dropLast
  · rfl

theorem length_normalPath_le (str : CStr) : (normalPath str).length ≤ str.length := by
  rw [length_normalPath]
  split
  · exact Nat.sub_le _ _
  · exact Nat.le_refl _

theorem normalPath_ne_nil {str : CStr} (h : str ≠ []) : normalPath str ≠ [] := by
  have hpos : 0 < str.length := List.length_pos_iff.2 h
  intro hnil
  have hlen := length_normalPath str
  rw [hnil, List.length_nil] at hlen
  split at hlen
  · omega
  · omega

/-- A composed path is stored as it is. -/
theorem normalPath_composePath {path name : CStr} (hne : name ≠ []) (hname : slash ∉ name) :
    normalPath (composePath path name) = composePath path name := by
  have hlast : (composePath path name).getLast? = name.getLast? := by
    rw [composePath, List.append_cons]
    exact List.getLast?_append_of_ne_nil _ hne
  have hnot : ¬ ((composePath path name).length > 1 ∧ (composePath path name).getLast? = some slash) := by
    rintro ⟨-, h⟩
    rw [hlast] at h
    exact hname (List.mem_of_getLast? h)
  exact if_neg hnot

/-- The path with this text in the block of allocation `id`. -/
def FioPath.ofText (id : Nat) (text : CStr) : FioPath :=
  { len := text.length, str := { ptr := .block id, cells := text } }

theorem FioPath.ofText_holds (id : Nat) (text : CStr) : (FioPath.ofText id text).Holds text :=
  ⟨⟨id, rfl⟩, rfl, rfl⟩

/-- The name with this text in the block of allocation `id`. -/
def FioName.ofText (id : Nat) (text : CStr) : FioName :=
  { len := text.length, str := { ptr := .block id, cells := text } }

theorem FioName.ofText_holds (id : Nat) (text : CStr) : (FioName.ofText id text).Holds text :=
  ⟨⟨id, rfl⟩, rfl, rfl⟩

/-- `jfs_fio_path_init`: the string is too long, or its allocation is granted or refused. -/
theorem returns_jfsFioPathInit (herr : s.err = .ok) {pathInit : FioPath} {str : CStr}
    {Q : FioPath → Sys → Prop} : Returns (jfsFioPathInit pathInit str) s Q ↔
      if (normalPath str).length > pathMax then Q pathInit { s with err := .fioPathLen }
      else if s.allocs s.allocCalls ((normalPath str).length + 1) = true then
        Q (.ofText s.allocCalls (normalPath str)) s.granted
      else Q pathInit s.refused := by
  unfold jfsFioPathInit
  simp only [← length_normalPath]
  split
  · rw [returns_bind, returns_setErr, returns_pure]
  · rw [returns_bind, returns_jclMalloc]
    split
    · rw [returns_check_ok (Sys.granted_err.trans herr), returns_pure, strlcpy, Nat.add_sub_cancel,
        take_normalPath]
      rfl
    · rw [returns_check_err (by simp), returns_pure]

/-- `jfs_fio_name_init`: the string is too long, or its allocation is granted or refused. -/
theorem returns_jfsFioNameInit (herr : s.err = .ok) {nameInit : FioName} {str : CStr}
    {Q : FioName → Sys → Prop} : Returns (jfsFioNameInit nameInit str) s Q ↔
      if str.length > nameMax then Q nameInit { s with err := .fioNameLen }
      else if s.allocs s.allocCalls (str.length + 1) = true then Q (.ofText s.allocCalls str) s.granted
      else Q nameInit s.refused := by
  unfold jfsFioNameInit
  simp only []
  split
  · rw [returns_bind, returns_setErr, returns_pure]
  · rw [returns_bind, returns_jclMalloc]
    split
    · rw [returns_check_ok (Sys.granted_err.trans herr), returns_pure, strlcpy, Nat.add_sub_cancel,
        List.take_length]
      rfl
    · rw [returns_check_err (by simp), returns_pure]

theorem jfsFioPathInit_spec (h : Serving s) (path : FioPath) {str : CStr}
    (hlen : (normalPath str).length ≤ pathMax) :
    Returns (jfsFioPathInit path str) s fun path' s' => path'.Holds (normalPath str) ∧ Frame s s' := by
  have hfits : ¬ (normalPath str).length > pathMax := Nat.not_lt.2 hlen
  unfold jfsFioPathInit
  simp only [← length_normalPath, hfits, if_false]
  refine h.call (jclMalloc_spec h _) fun ptr s₁ hptr hframe _ => ?_
  exact returns_pure.2 ⟨⟨hptr, take_normalPath str, rfl⟩, hframe⟩

theorem jfsFioPathFree_spec {path : FioPath} (hptr : path.str.ptr ≠ .uninit) :
    Returns (jfsFioPathFree path) s fun _ s' => Frame s s' := by
  unfold jfsFioPathFree
  refine Returns.bind_of (free_spec hptr) fun _ s₁ hframe => ?_
  exact returns_pure.2 hframe

theorem jfsFioNameInit_spec (h : Serving s) (name : FioName) {str : CStr} (hlen : str.length ≤ nameMax) :
    Returns (jfsFioNameInit name str) s fun name' s' => name'.Holds str ∧ Frame s s' := by
  have hfits : ¬ str.length > nameMax := Nat.not_lt.2 hlen
  unfold jfsFioNameInit
  simp only [hfits, if_false]
  refine h.call (jclMalloc_spec h _) fun ptr s₁ hptr hframe _ => ?_
  exact returns_pure.2 ⟨⟨hptr, List.take_length, rfl⟩, hframe⟩

section

variable {path : FioPath} {name : FioName} {pathText nameText : CStr}

/-- The length that a composition computes. -/
theorem compose_len (hpath : path.Holds pathText) (hname : name.Holds nameText) (hne : pathText ≠ []) :
    path.len ≠ 0 ∧ path.len + name.len + 1 = (composePath pathText nameText).length := by
  rw [hpath.len, hname.len, length_composePath]
  exact ⟨fun hzero => hne (List.length_eq_zero_iff.1 hzero), rfl⟩

/-- A composition that fits is stored whole. -/
theorem compose_spec (buf : FioPathBuf) (hpath : path.Holds pathText) (hname : name.Holds nameText)
    (hne : pathText ≠ []) (hlen : (composePath pathText nameText).length ≤ pathMax) {Q : FioPathBuf → Sys → Prop}
    (hQ : Q { len := (composePath pathText nameText).length, data := composePath pathText nameText } s) :
    Returns (jfsFioPathBufCompose buf path name) s Q := by
  obtain ⟨hpos, hnew⟩ := compose_len hpath hname hne
  have hfits : ¬ (composePath pathText nameText).length > pathMax := Nat.not_lt.2 hlen
  have htake : (pathText ++ slash :: nameText).take pathMax = composePath pathText nameText :=
    List.take_of_length_le hlen
  unfold jfsFioPathBufCompose
  simp only [hpos, if_false, hnew, hfits, returns_bind, CArray.read_spec hpath.ptr,
    CArray.read_spec hname.ptr, hpath.cells, hname.cells, htake, returns_pure]
  exact hQ

/-- A composition that does not fit is reported. -/
theorem compose_overflow (buf : FioPathBuf) (hpath : path.Holds pathText) (hname : name.Holds nameText)
    (hne : pathText ≠ []) (hlen : ¬ (composePath pathText nameText).length ≤ pathMax)
    {Q : FioPathBuf → Sys → Prop} (hQ : Q buf { s with err := .fioPathOverflow }) :
    Returns (jfsFioPathBufCompose buf path name) s Q := by
  obtain ⟨hpos, hnew⟩ := compose_len hpath hname hne
  have hover : (composePath pathText nameText).length > pathMax := Nat.lt_of_not_le hlen
  unfold jfsFioPathBufCompose
  simp only [hpos, if_false, hnew, hover, if_true, returns_bind, returns_setErr, returns_pure]
  exact hQ

end

end Jcl
