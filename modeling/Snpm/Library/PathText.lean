import Mathlib

/-!
Paths of a Unix file system as sequences of characters or bytes, and how such a
sequence splits into components. Separators that repeat or end a path are
ignored, and so is the current directory except at the start of a path.
-/
namespace PathText

inductive Component (α : Type) where
  | rootDir
  | curDir
  | parentDir
  | normal (segment : List α)
deriving DecidableEq, Repr

variable {α : Type} [DecidableEq α] (sep dot : α)

/-- A part between two separators. -/
def partComponent (part : List α) : Option (Component α) :=
  if part = [] ∨ part = [dot] then none
  else if part = [dot, dot] then some .parentDir
  else some (.normal part)

def leading (path : List α) : List (Component α) :=
  match path with
  | c :: _ => if c = sep then [.rootDir] else []
  | [] => []

/-- The part before the first separator; only here a dot counts. -/
def firstPart (part : List α) : List (Component α) :=
  if part = [dot] then [.curDir] else (partComponent dot part).toList

def components (path : List α) : List (Component α) :=
  leading sep path ++
    match path.splitOnP (· = sep) with
    | [] => []
    | first :: rest => firstPart dot first ++ rest.filterMap (partComponent dot)

/-- A text that is one component. -/
structure Segment (part : List α) : Prop where
  nonempty : part ≠ []
  not_dot : part ≠ [dot]
  not_parent : part ≠ [dot, dot]
  no_sep : sep ∉ part

variable {sep dot} {path part : List α}

theorem Segment.partComponent (h : Segment sep dot part) :
    partComponent dot part = some (.normal part) := by
  simp [PathText.partComponent, h.nonempty, h.not_dot, h.not_parent]

theorem leading_append (hpath : path ≠ []) (rest : List α) :
    leading sep (path ++ rest) = leading sep path := by
  cases path with
  | nil => exact absurd rfl hpath
  | cons c cs => rfl

theorem Segment.split (h : Segment sep dot part) :
    part.splitOnP (· = sep) = [part] := by
  apply List.splitOnP_eq_singleton
  intro c hc
  exact decide_eq_false fun heq => h.no_sep (heq ▸ hc)

theorem Segment.components (h : Segment sep dot part) :
    components sep dot part = [.normal part] := by
  have hleading : leading sep part = [] := by
    cases part with
    | nil => rfl
    | cons c cs =>
        have hc : c ≠ sep := fun heq => h.no_sep (heq ▸ List.mem_cons_self)
        simp [leading, hc]
  simp [PathText.components, hleading, h.split, firstPart, h.not_dot, h.partComponent]

/-- Appending a segment to a path appends its component. -/
theorem components_append (hpath : path ≠ []) (h : Segment sep dot part) :
    components sep dot (path ++ sep :: part) = components sep dot path ++ [.normal part] := by
  have hsplit : (path ++ sep :: part).splitOnP (· = sep) =
      path.splitOnP (· = sep) ++ [part] := by
    rw [List.splitOnP_append_cons _ _ (by simp), h.split]
  unfold components
  rw [leading_append hpath, hsplit]
  cases hparts : path.splitOnP (· = sep) with
  | nil => exact absurd hparts (List.splitOnP_ne_nil _ _)
  | cons first rest => simp [h.partComponent, List.append_assoc]

/-- A separator at the end adds nothing. -/
theorem components_append_sep (hpath : path ≠ []) :
    components sep dot (path ++ [sep]) = components sep dot path := by
  have hsplit : (path ++ [sep]).splitOnP (· = sep) = path.splitOnP (· = sep) ++ [[]] := by
    rw [List.splitOnP_append_cons _ _ (by simp), List.splitOnP_nil]
  unfold components
  rw [leading_append hpath, hsplit]
  cases hparts : path.splitOnP (· = sep) with
  | nil => exact absurd hparts (List.splitOnP_ne_nil _ _)
  | cons first rest => simp [partComponent]

/-- After a separator a segment is a component of its own. -/
theorem components_sep_append (h : Segment sep dot part) :
    components sep dot (path ++ [sep] ++ part) =
      components sep dot (path ++ [sep]) ++ [.normal part] := by
  rw [List.append_assoc, List.singleton_append]
  cases path with
  | nil =>
      have hsplit : ∀ rest : List α, (sep :: rest).splitOnP (· = sep) =
          [] :: rest.splitOnP (· = sep) := by
        intro rest
        rw [List.splitOnP_cons_eq_if_modifyHead, if_pos (by simp)]
      simp [components, leading, hsplit, h.split, firstPart, partComponent,
        h.nonempty, h.not_dot, h.not_parent]
  | cons c cs =>
      rw [components_append (by simp) h, components_append_sep (by simp)]

omit [DecidableEq α] in
theorem intercalate_concat {parts : List (List α)} (hne : parts ≠ []) (part : List α) :
    [sep].intercalate (parts ++ [part]) = [sep].intercalate parts ++ sep :: part := by
  induction parts with
  | nil => exact absurd rfl hne
  | cons first rest ih =>
      cases rest with
      | nil => simp [List.intercalate_cons_of_ne_nil]
      | cons next rest =>
          have hcons : ∀ l : List (List α), l ≠ [] →
              [sep].intercalate (first :: l) = first ++ sep :: [sep].intercalate l := by
            intro l hl
            rw [List.intercalate_cons_of_ne_nil hl, List.append_assoc]
            rfl
          rw [List.cons_append, hcons _ (by simp), ih (List.cons_ne_nil _ _), hcons _ (by simp),
            List.append_assoc]
          rfl

omit [DecidableEq α] in
theorem intercalate_ne_nil {parts : List (List α)} (hne : parts ≠ [])
    (h : ∀ part ∈ parts, part ≠ []) : [sep].intercalate parts ≠ [] := by
  cases parts with
  | nil => exact absurd rfl hne
  | cons first rest =>
      have hfirst := h first List.mem_cons_self
      cases rest with
      | nil => simpa using hfirst
      | cons next rest =>
          rw [List.intercalate_cons_of_ne_nil (by simp)]
          simp [hfirst]

/-- Segments joined by separators are the components of the joined path. -/
theorem components_intercalate {parts : List (List α)} (hne : parts ≠ [])
    (h : ∀ part ∈ parts, Segment sep dot part) :
    components sep dot ([sep].intercalate parts) = parts.map .normal := by
  induction parts using List.reverseRecOn with
  | nil => exact absurd rfl hne
  | append_singleton parts part ih =>
      have hpart : Segment sep dot part := h part (List.mem_append_right _ List.mem_cons_self)
      by_cases hparts : parts = []
      · subst hparts
        simpa using hpart.components
      · have hfront : ∀ p ∈ parts, Segment sep dot p :=
          fun p hp => h p (List.mem_append_left _ hp)
        rw [intercalate_concat hparts,
          components_append (intercalate_ne_nil hparts fun p hp => (hfront p hp).nonempty) hpart,
          ih hparts hfront, List.map_append]
        rfl

omit [DecidableEq α] in
theorem not_of_mem_splitOnP {p : α → Bool} {path part : List α} (h : part ∈ path.splitOnP p) :
    ∀ c ∈ part, p c = false := by
  induction path generalizing part with
  | nil =>
      rw [List.splitOnP_nil, List.mem_singleton] at h
      simp [h]
  | cons c path ih =>
      rw [List.splitOnP_cons_eq_if_modifyHead] at h
      split at h
      · cases List.mem_cons.mp h with
        | inl heq => simp [heq]
        | inr hmem => exact ih hmem
      · rename_i hc
        cases hparts : path.splitOnP p with
        | nil => exact absurd hparts (List.splitOnP_ne_nil p path)
        | cons first rest =>
            rw [hparts] at ih
            rw [hparts, List.modifyHead_cons] at h
            cases List.mem_cons.mp h with
            | inl heq =>
                intro x hx
                rw [heq] at hx
                cases List.mem_cons.mp hx with
                | inl hxc => simpa [hxc] using hc
                | inr hxs => exact ih List.mem_cons_self x hxs
            | inr hmem => exact ih (List.mem_cons_of_mem _ hmem)

theorem segment_of_partComponent {part segment : List α} (hsep : sep ∉ part)
    (h : partComponent dot part = some (.normal segment)) : Segment sep dot segment := by
  unfold partComponent at h
  split at h
  · cases h
  · rename_i hplain
    rw [not_or] at hplain
    split at h
    · cases h
    · rename_i hparent
      cases h
      exact ⟨hplain.1, hplain.2, hparent, hsep⟩

/-- The names of a path are segments. -/
theorem segment_of_mem {path segment : List α} (h : .normal segment ∈ components sep dot path) :
    Segment sep dot segment := by
  have hfree : ∀ part ∈ path.splitOnP (· = sep), sep ∉ part := by
    intro part hpart hmem
    have hfalse := not_of_mem_splitOnP hpart sep hmem
    simp at hfalse
  unfold components at h
  cases List.mem_append.mp h with
  | inl hleading =>
      cases path with
      | nil => cases hleading
      | cons c cs =>
          simp only [leading] at hleading
          split at hleading
          · simp at hleading
          · cases hleading
  | inr hparts =>
      cases hsplit : path.splitOnP (· = sep) with
      | nil => exact absurd hsplit (List.splitOnP_ne_nil _ _)
      | cons first rest =>
          rw [hsplit] at hparts hfree
          cases List.mem_append.mp hparts with
          | inl hfirst =>
              unfold firstPart at hfirst
              split at hfirst
              · simp at hfirst
              · rw [Option.mem_toList] at hfirst
                exact segment_of_partComponent (hfree first List.mem_cons_self) hfirst
          | inr hrest =>
              obtain ⟨part, hpart, hcomponent⟩ := List.mem_filterMap.mp hrest
              exact segment_of_partComponent (hfree part (List.mem_cons_of_mem _ hpart)) hcomponent

theorem partComponent_ne_rootDir (part : List α) : partComponent dot part ≠ some .rootDir := by
  unfold partComponent
  split
  · simp
  · split <;> simp

/-- A path is absolute just if it begins with a separator. -/
theorem head?_components_eq_rootDir_iff {path : List α} :
    (components sep dot path).head? = some .rootDir ↔ path.head? = some sep := by
  cases path with
  | nil => simp [components, leading, firstPart, partComponent]
  | cons c cs =>
      unfold components leading
      by_cases hc : c = sep
      · simp [hc]
      · simp only [if_neg hc, List.nil_append, List.head?_cons, Option.some.injEq]
        refine iff_of_false ?_ hc
        cases hsplit : (c :: cs).splitOnP (· = sep) with
        | nil => exact absurd hsplit (List.splitOnP_ne_nil _ _)
        | cons first rest =>
            intro hhead
            have hmem := List.mem_of_mem_head? (Option.mem_def.mpr hhead)
            cases List.mem_append.mp hmem with
            | inl hfirst =>
                unfold firstPart at hfirst
                split at hfirst
                · simp at hfirst
                · exact partComponent_ne_rootDir first (Option.mem_toList.mp hfirst)
            | inr hrest =>
                obtain ⟨part, -, hpart⟩ := List.mem_filterMap.mp hrest
                exact partComponent_ne_rootDir part hpart

omit [DecidableEq α] in
theorem mem_of_mem_splitOnP {p : α → Bool} {path part : List α} (h : part ∈ path.splitOnP p) :
    ∀ c ∈ part, c ∈ path := by
  induction path generalizing part with
  | nil => simp_all
  | cons d path ih =>
      rw [List.splitOnP_cons_eq_if_modifyHead] at h
      split at h
      · cases List.mem_cons.mp h with
        | inl hnil => simp [hnil]
        | inr hrest => exact fun c hc => List.mem_cons_of_mem d (ih hrest c hc)
      · cases hsplit : path.splitOnP p with
        | nil => exact absurd hsplit (List.splitOnP_ne_nil _ _)
        | cons first rest =>
            rw [hsplit, List.modifyHead_cons] at h
            intro c hc
            cases List.mem_cons.mp h with
            | inl hfirst =>
                rw [hfirst] at hc
                cases List.mem_cons.mp hc with
                | inl hd => exact hd ▸ List.mem_cons_self
                | inr hmem =>
                    exact List.mem_cons_of_mem d (ih (hsplit ▸ List.mem_cons_self) c hmem)
            | inr hrest =>
                exact List.mem_cons_of_mem d (ih (hsplit ▸ List.mem_cons_of_mem first hrest) c hc)

theorem eq_of_partComponent {part segment : List α}
    (h : partComponent dot part = some (.normal segment)) : part = segment := by
  unfold partComponent at h
  split at h
  · cases h
  · split at h
    · cases h
    · cases h
      rfl

/-- The names of a path are made of its characters. -/
theorem mem_of_mem_normal {path segment : List α} (h : .normal segment ∈ components sep dot path) :
    ∀ c ∈ segment, c ∈ path := by
  unfold components at h
  cases List.mem_append.mp h with
  | inl hleading =>
      cases path with
      | nil => cases hleading
      | cons c cs =>
          simp only [leading] at hleading
          split at hleading
          · simp at hleading
          · cases hleading
  | inr hparts =>
      cases hsplit : path.splitOnP (· = sep) with
      | nil => exact absurd hsplit (List.splitOnP_ne_nil _ _)
      | cons first rest =>
          rw [hsplit] at hparts
          cases List.mem_append.mp hparts with
          | inl hfirst =>
              unfold firstPart at hfirst
              split at hfirst
              · simp at hfirst
              · rw [Option.mem_toList] at hfirst
                rw [← eq_of_partComponent hfirst]
                exact mem_of_mem_splitOnP (hsplit ▸ List.mem_cons_self)
          | inr hrest =>
              obtain ⟨part, hpart, hcomponent⟩ := List.mem_filterMap.mp hrest
              rw [← eq_of_partComponent hcomponent]
              exact mem_of_mem_splitOnP (hsplit ▸ List.mem_cons_of_mem first hpart)

example : components '/' '.' "./a//b/../.c/".toList =
    [.curDir, .normal ['a'], .normal ['b'], .parentDir, .normal ['.', 'c']] := by decide
example : components '/' '.' "/./a".toList = [.rootDir, .normal ['a']] := by decide

end PathText
