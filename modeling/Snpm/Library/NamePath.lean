import Mathlib
import Snpm.Library.PathText
import Snpm.Library.Words

/-!
Relative paths as sequences of names: the text with a slash between the names,
and the components of that text.
-/
namespace NamePath

/-- A file name: one component, and no backslash that could pass for a separator. -/
structure IsName (name : String) : Prop where
  segment : PathText.Segment '/' '.' name.toList
  no_backslash : '\\' ∉ name.toList

abbrev IsPath (path : List String) : Prop := ∀ name ∈ path, IsName name

def text (path : List String) : String := "/".intercalate path

variable {path more : List String} {name : String}

theorem IsName.ne_empty (h : IsName name) : name ≠ "" := by
  intro hempty
  exact h.segment.nonempty (by simp [hempty])

theorem IsName.no_slash (h : IsName name) : '/' ∉ name.toList := h.segment.no_sep

theorem text_append (hpath : path ≠ []) (hmore : more ≠ []) :
    text (path ++ more) = text path ++ "/" ++ text more :=
  String.intercalate_append_of_ne_nil hpath hmore

theorem split_text (hne : path ≠ []) (h : IsPath path) :
    Text.split (text path) (· = '/') = path :=
  Text.split_intercalate hne fun name hname => (h name hname).no_slash

theorem text_inj (hpath : path ≠ []) (hmore : more ≠ []) (h : IsPath path)
    (hslash : ∀ name ∈ more, '/' ∉ name.toList) : text path = text more ↔ path = more := by
  constructor
  · exact Text.intercalate_inj hpath hmore (fun name hname => (h name hname).no_slash) hslash
  · exact congrArg text

theorem text_ne_empty (hne : path ≠ []) (h : IsPath path) : text path ≠ "" :=
  Text.intercalate_ne_empty hne fun name hname => (h name hname).ne_empty

theorem head?_text (hne : path ≠ []) (h : IsPath path) : (text path).toList.head? ≠ some '/' := by
  obtain ⟨name, hname, hhead⟩ : ∃ name ∈ path, (text path).toList.head? = name.toList.head? :=
    Text.head?_intercalate hne fun name hname => (h name hname).ne_empty
  rw [hhead]
  intro hslash
  exact (h name hname).no_slash (List.mem_of_mem_head? hslash)

theorem getLast?_text (hne : path ≠ []) (h : IsPath path) :
    (text path).toList.getLast? ≠ some '/' := by
  obtain ⟨name, hname, hlast⟩ : ∃ name ∈ path, (text path).toList.getLast? = name.toList.getLast? :=
    Text.getLast?_intercalate hne fun name hname => (h name hname).ne_empty
  rw [hlast]
  intro hslash
  exact (h name hname).no_slash (List.mem_of_getLast? hslash)

theorem backslash_not_mem (h : IsPath path) : '\\' ∉ (text path).toList := by
  induction path with
  | nil => simp [text]
  | cons name path ih =>
      have hname := (h name List.mem_cons_self).no_backslash
      cases path with
      | nil => simpa [text] using hname
      | cons next path =>
          have hrest := ih fun other hother => h other (List.mem_cons_of_mem name hother)
          have htext : text (name :: next :: path) = name ++ "/" ++ text (next :: path) :=
            String.intercalate_cons_cons
          simp [htext, hname, hrest]

theorem components_text (hne : path ≠ []) (h : IsPath path) :
    PathText.components '/' '.' (text path).toList = path.map fun name => .normal name.toList := by
  have hparts : (text path).toList.splitOnP (fun c => decide (c = '/')) = path.map String.toList := by
    have hsplit := congrArg (List.map String.toList) (split_text hne h)
    simpa [Text.split, Function.comp_def] using hsplit
  have hleading : PathText.leading '/' (text path).toList = [] := by
    cases hlist : (text path).toList with
    | nil => rfl
    | cons c cs =>
        have hhead := head?_text hne h
        rw [hlist] at hhead
        have hc : c ≠ '/' := fun heq => hhead (by simp [heq])
        simp [PathText.leading, hc]
  cases path with
  | nil => exact absurd rfl hne
  | cons name path =>
      have hname := (h name List.mem_cons_self).segment
      have hrest : (path.map String.toList).filterMap (PathText.partComponent '.') =
          path.map fun name => .normal name.toList := by
        rw [List.filterMap_map]
        have hall : ∀ name ∈ path, (PathText.partComponent '.' ∘ String.toList) name =
            some (.normal name.toList) :=
          fun other hother => (h other (List.mem_cons_of_mem name hother)).segment.partComponent
        rw [List.filterMap_congr hall]
        exact congrFun List.filterMap_eq_map path
      simp only [PathText.components, hleading, hparts, List.nil_append, List.map_cons, hrest,
        PathText.firstPart, if_neg hname.not_dot, hname.partComponent, Option.toList_some,
        List.singleton_append]

end NamePath
