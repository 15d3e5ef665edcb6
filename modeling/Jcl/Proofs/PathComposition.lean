/-
Module: Jcl.Proofs.PathComposition
Layer: Proofs
Purpose: Paths and names as values, whatever the system grants. The length of a path or a name is that of its
  string, a buffer holds the whole of what is copied or composed into it, and a composed path splits at its
  last `'/'` into the path and the name. `jfs_fio_path_init` takes one `'/'` off the end of its string, so
  what it stores is a normal form unless the string ends in two of them.
Imports: Jcl.Proofs.FileWalk, Mathlib.Data.List.DropRight
Trusted boundary: none (fully proved)
Main exports: FioPath.Built, FioName.Built, splitLastSlash, Composes, composes_exactly, NormalisesPath,
  normalisesPath_iff
-/
import Jcl.Proofs.FileWalk
import Mathlib.Data.List.DropRight

namespace Jcl

variable {path : FioPath} {name : FioName} {s : Sys}

/-! ### Composition -/

/-- The paths that `jfs_fio_path_init` built, wherever they were moved. -/
inductive FioPath.Built : FioPath → Prop
  | init {s s' : Sys} {pathInit path : FioPath} {str : CStr} (herr : s.err = .ok)
      (hrun : (jfsFioPathInit pathInit str).run s = .ok (path, s')) (hok : s'.err = .ok) : Built path
  | transfer {path : FioPath} (h : Built path) : Built (jfsFioPathTransfer path).1

/-- The names that `jfs_fio_name_init` built, wherever they were moved. -/
inductive FioName.Built : FioName → Prop
  | init {s s' : Sys} {nameInit name : FioName} {str : CStr} (herr : s.err = .ok)
      (hrun : (jfsFioNameInit nameInit str).run s = .ok (name, s')) (hok : s'.err = .ok) : Built name
  | transfer {name : FioName} (h : Built name) : Built (jfsFioNameTransfer name).1

/-- A string split at its last `'/'`: what stands before it and what stands after it. -/
def splitLastSlash (str : CStr) : CStr × CStr :=
  ((str.rdropWhile (· != slash)).dropLast, str.rtakeWhile (· != slash))

/-- What is to hold of a path and a name that are composed. -/
structure Composes (path : FioPath) (name : FioName) : Prop where
  path_len : path.len = path.str.cells.length
  name_len : name.len = name.str.cells.length
  copy : ∀ (buf : FioPathBuf) (s : Sys), s.err = .ok → Returns (jfsFioPathBufCopy buf path) s fun buf' s' =>
    s' = s ∧ buf'.data = path.str.cells ∧ buf'.len = buf'.data.length ∧ buf'.len ≤ pathMax
  compose : ∀ (buf : FioPathBuf) (s : Sys), s.err = .ok →
    Returns (jfsFioPathBufCompose buf path name) s fun buf' s' =>
      (s'.err = .fioPathOverflow ↔ path.len + 1 + name.len > pathMax) ∧
      (s'.err = .fioPathOverflow → buf' = buf) ∧
      (s'.err ≠ .fioPathOverflow → s' = s ∧ buf'.data = composePath path.str.cells name.str.cells ∧
        buf'.len = buf'.data.length ∧ buf'.len ≤ pathMax)
  init : name.str.cells ≠ [] → slash ∉ name.str.cells → path.len + 1 + name.len ≤ pathMax →
    ∀ (buf : FioPathBuf) (pathInit : FioPath) (s : Sys), s.err = .ok →
      s.allocs s.allocCalls (path.len + 1 + name.len + 1) = true →
      Returns (do
        let buf ← jfsFioPathBufCompose buf path name
        jfsFioPathInit pathInit buf.data) s fun composed s' =>
          s'.err = .ok ∧ composed.Holds (composePath path.str.cells name.str.cells)
  split : slash ∉ name.str.cells →
    splitLastSlash (composePath path.str.cells name.str.cells) = (path.str.cells, name.str.cells)

theorem FioPath.Built.holds (h : path.Built) : path.Holds path.str.cells ∧ path.len ≤ pathMax := by
  induction h with
  | @init s s' pathInit path str herr hrun hok =>
      have hspec : Returns (jfsFioPathInit pathInit str) s fun path s' =>
          s'.err = .ok → path.Holds path.str.cells ∧ path.len ≤ pathMax := by
        rw [returns_jfsFioPathInit herr]
        split
        · exact nofun
        · case isFalse hfits =>
            split
            · exact fun _ => ⟨FioPath.ofText_holds _ _, Nat.le_of_not_lt hfits⟩
            · exact nofun
      exact hspec.det hrun hok
  | transfer h ih => exact ih

theorem FioName.Built.holds (h : name.Built) : name.Holds name.str.cells := by
  induction h with
  | @init s s' nameInit name str herr hrun hok =>
      have hspec : Returns (jfsFioNameInit nameInit str) s fun name s' =>
          s'.err = .ok → name.Holds name.str.cells := by
        rw [returns_jfsFioNameInit herr]
        split
        · exact nofun
        · split
          · exact fun _ => FioName.ofText_holds _ _
          · exact nofun
      exact hspec.det hrun hok
  | transfer h ih => exact ih

theorem splitLastSlash_composePath {path name : CStr} (hname : slash ∉ name) :
    splitLastSlash (composePath path name) = (path, name) := by
  have hkept : ∀ c ∈ name.reverse, (c != slash) = true := by
    intro c hc
    rw [bne_iff_ne]
    rintro rfl
    exact hname (List.mem_reverse.1 hc)
  have hreverse : (composePath path name).reverse = name.reverse ++ slash :: path.reverse := by
    simp [composePath]
  have hdrop : (composePath path name).rdropWhile (· != slash) = path ++ [slash] := by
    rw [List.rdropWhile, hreverse, List.dropWhile_append_of_pos hkept]
    simp
  have htake : (composePath path name).rtakeWhile (· != slash) = name := by
    rw [List.rtakeWhile, hreverse, List.takeWhile_append_of_pos hkept]
    simp
  rw [splitLastSlash, hdrop, htake, List.dropLast_concat]

/-- A path is copied whole. -/
theorem copy_spec {text : CStr} (hpath : path.Holds text) (hne : path.len ≠ 0) (hlen : path.len ≤ pathMax)
    (buf : FioPathBuf) {Q : FioPathBuf → Sys → Prop} (hQ : Q { len := text.length, data := text } s) :
    Returns (jfsFioPathBufCopy buf path) s Q := by
  have hcopied : strlcpy text (pathMax + 1) = text := by
    apply List.take_of_length_le
    rw [← hpath.len]
    exact hlen
  unfold jfsFioPathBufCopy
  simp only [hne, if_false, returns_bind, CArray.read_spec hpath.ptr, hpath.cells, hcopied, returns_pure]
  rw [hpath.len]
  exact hQ

/-- Paths and names compose exactly. -/
theorem FioPath.Built.composes (hpath : path.Built) (hname : name.Built) (hne : 0 < path.len) :
    Composes path name := by
  obtain ⟨hpathHolds, hlen⟩ := hpath.holds
  have hnameHolds := hname.holds
  have hnil : path.str.cells ≠ [] := by
    intro hnil
    rw [hpathHolds.len, hnil] at hne
    exact Nat.lt_irrefl 0 hne
  have htotal : (composePath path.str.cells name.str.cells).length = path.len + 1 + name.len := by
    rw [length_composePath, ← hpathHolds.len, ← hnameHolds.len]
    omega
  refine ⟨hpathHolds.len, hnameHolds.len, ?_, ?_, ?_, splitLastSlash_composePath⟩
  · intro buf s _
    apply copy_spec hpathHolds (Nat.ne_of_gt hne) hlen buf
    exact ⟨rfl, rfl, rfl, hpathHolds.len ▸ hlen⟩
  · intro buf s herr
    by_cases hfits : path.len + 1 + name.len ≤ pathMax
    · apply compose_spec buf hpathHolds hnameHolds hnil (htotal ▸ hfits)
      have hnot : ¬ path.len + 1 + name.len > pathMax := Nat.not_lt.2 hfits
      refine ⟨?_, ?_, ?_⟩
      · simp [herr, hnot]
      · simp [herr]
      · exact fun _ => ⟨rfl, rfl, rfl, htotal ▸ hfits⟩
    · apply compose_overflow buf hpathHolds hnameHolds hnil (htotal ▸ hfits)
      exact ⟨iff_of_true rfl (Nat.lt_of_not_le hfits), fun _ => rfl, fun h => absurd rfl h⟩
  · intro hnameNe hslash hfits buf pathInit s herr hgrant
    rw [returns_bind]
    apply compose_spec buf hpathHolds hnameHolds hnil (htotal ▸ hfits)
    have hlong : ¬ (composePath path.str.cells name.str.cells).length > pathMax := by
      rw [htotal]
      exact Nat.not_lt.2 hfits
    rw [returns_jfsFioPathInit herr, normalPath_composePath hnameNe hslash, if_neg hlong, htotal, if_pos hgrant]
    exact ⟨herr, FioPath.ofText_holds _ _⟩

/-- For every path that was built and is not empty and every name that was built, lengths are those of the
    strings, copying and composing are exact, and distinct pairs compose to distinct paths. -/
theorem composes_exactly (hpath : path.Built) (hne : 0 < path.len) (hname : name.Built) :
    Composes path name ∧
      ∀ (path' : FioPath) (name' : FioName), path'.Built → 0 < path'.len → name'.Built →
        slash ∉ name.str.cells → slash ∉ name'.str.cells →
        composePath path.str.cells name.str.cells = composePath path'.str.cells name'.str.cells →
        path.str.cells = path'.str.cells ∧ name.str.cells = name'.str.cells := by
  refine ⟨hpath.composes hname hne, ?_⟩
  intro path' name' _ _ _ hslash hslash' heq
  exact composePath_inj hslash hslash' heq

/-- A system that grants every allocation. -/
def grantingSys : Sys where
  allocs _ _ := true
  opens _ _ := .error .enoent
  allocCalls := 0
  openCalls := 0
  events := []
  errno := none
  err := .ok

/-- The path `a` and the name `b`. -/
theorem composes_exactly_sample :
    Composes (.ofText 0 [97]) (.ofText 0 [98]) ∧
      splitLastSlash [97, 47, 98] = ([97], [98]) := by
  have hpath : FioPath.Built (.ofText 0 [97]) := @FioPath.Built.init grantingSys _ .zero _ [97, 47] rfl rfl rfl
  have hname : FioName.Built (.ofText 0 [98]) := @FioName.Built.init grantingSys _ .zero _ [98] rfl rfl rfl
  exact ⟨(composes_exactly hpath (by decide) hname).1, by decide⟩

/-! ### Normal form -/

/-- What is to hold of a path string that `jfs_fio_path_init` accepts: what it stores ends in no `'/'` unless it
    is `"/"`, initialising a path from it stores the same again, and a walk from the path starts there. -/
def NormalisesPath (str : CStr) : Prop :=
  ∀ (pathInit : FioPath) (s : Sys), s.err = .ok → Returns (jfsFioPathInit pathInit str) s fun path s' =>
    s'.err = .ok →
      (path.str.cells.getLast? = some slash → path.str.cells = [slash]) ∧
      (∀ (again : FioPath) (s₁ : Sys), s₁.err = .ok →
        Returns (jfsFioPathInit again path.str.cells) s₁ fun path₁ s₁' =>
          s₁'.err = .ok → path₁.str.cells = path.str.cells ∧ path₁.len = path.len) ∧
      ∀ s₁ : Sys, Serving s₁ → Returns (jfsFwStateCreate path) s₁ fun created _ =>
        ∃ state, created = some state ∧ state.At [path.str.cells] []

theorem normalPath_slash {str : CStr} (hne : str ≠ []) : normalPath (str ++ [slash]) = str := by
  have hlen : (str ++ [slash]).length > 1 := by
    rw [List.length_append]
    exact Nat.succ_lt_succ (List.length_pos_iff.2 hne)
  rw [normalPath, if_pos ⟨hlen, List.getLast?_concat⟩, List.dropLast_concat]

theorem normalPath_of_getLast {str : CStr} (h : str.getLast? ≠ some slash) : normalPath str = str :=
  if_neg fun hboth => h hboth.2

/-- The stored string is in normal form unless the string ends in two slashes. -/
theorem normalPath_normal_iff (str : CStr) :
    ((normalPath str).getLast? = some slash → normalPath str = [slash]) ↔
      ([slash, slash] <:+ str → str = [slash, slash]) := by
  constructor
  · rintro hnormal ⟨front, rfl⟩
    have hcut : normalPath (front ++ [slash, slash]) = front ++ [slash] := by
      rw [List.append_cons]
      exact normalPath_slash (by simp)
    rw [hcut] at hnormal
    have hfront : front = [] := List.append_left_eq_self.1 (hnormal List.getLast?_concat)
    rw [hfront]
    rfl
  · intro hdouble hlast
    by_cases hend : str.getLast? = some slash
    · obtain ⟨front, rfl⟩ := List.getLast?_eq_some_iff.1 hend
      cases front using List.reverseRecOn with
      | nil => rfl
      | append_singleton front c =>
          rw [normalPath_slash (by simp), List.getLast?_concat, Option.some_inj] at hlast
          subst hlast
          have hstr := hdouble ⟨front, by simp⟩
          rw [normalPath_slash (by simp)]
          have hfront : front = [] := by simpa using hstr
          rw [hfront]
          rfl
    · rw [normalPath_of_getLast hend] at hlast
      exact absurd hlast hend

/-- A string in normal form is stored as it is. -/
theorem normalPath_of_normal {str : CStr} (h : str.getLast? = some slash → str = [slash]) :
    normalPath str = str := by
  by_cases hend : str.getLast? = some slash
  · rw [h hend]
    rfl
  · exact normalPath_of_getLast hend

/-- The strings that are not normalised. -/
theorem not_normalisesPath {str : CStr} (hfits : (normalPath str).length ≤ pathMax)
    (hdouble : [slash, slash] <:+ str) (hne : str ≠ [slash, slash]) : ¬ NormalisesPath str := by
  intro h
  have hspec := h .zero grantingSys rfl
  rw [returns_jfsFioPathInit rfl, if_neg (Nat.not_lt.2 hfits),
    if_pos (show grantingSys.allocs _ _ = true from rfl)] at hspec
  exact hne ((normalPath_normal_iff str).1 (hspec rfl).1 hdouble)

/-- Every accepted string is normalised, except those that end in two slashes and are longer than that. -/
theorem normalisesPath_iff {str : CStr} (hfits : (normalPath str).length ≤ pathMax) :
    NormalisesPath str ↔ ([slash, slash] <:+ str → str = [slash, slash]) := by
  constructor
  · intro h hdouble
    by_contra hne
    exact not_normalisesPath hfits hdouble hne h
  · intro hstr pathInit s herr
    have hnormal := (normalPath_normal_iff str).2 hstr
    have hagain := normalPath_of_normal hnormal
    rw [returns_jfsFioPathInit herr, if_neg (Nat.not_lt.2 hfits)]
    split
    · intro _
      refine ⟨hnormal, ?_, ?_⟩
      · intro again s₁ herr₁
        change Returns (jfsFioPathInit again (normalPath str)) s₁ _
        rw [returns_jfsFioPathInit herr₁, hagain, if_neg (Nat.not_lt.2 hfits)]
        split
        · exact fun _ => ⟨rfl, rfl⟩
        · exact nofun
      · intro s₁ hserving
        have hholds := FioPath.ofText_holds s.allocCalls (normalPath str)
        have hcreate := jfsFwStateCreate_spec hholds (hagain.symm ▸ hfits) hserving
        rw [hagain] at hcreate
        exact hcreate.mono fun created s' hpost => hpost.1
    · exact nofun

/-- The string `a/` is normalised. -/
theorem normalisesPath_one_slash : NormalisesPath [97, 47] :=
  (normalisesPath_iff (by decide)).2 (by decide)

/-- The string `a//` is not: it is stored as `a/`, which is stored as `a`. -/
theorem normalisesPath_two_slashes :
    ¬ NormalisesPath [97, 47, 47] ∧ normalPath [97, 47, 47] = [97, 47] ∧ normalPath [97, 47] = [97] :=
  ⟨not_normalisesPath (by decide) (by decide) (by decide), by decide, by decide⟩

end Jcl
