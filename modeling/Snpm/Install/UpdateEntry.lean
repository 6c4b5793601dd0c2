import Mathlib
import Snpm.Install.Manifest
import Snpm.PackageJson.Manifest
import Snpm.Semver.Hyphen
import Snpm.Semver.Pinned

/-!
An upgrade of one dependency in the manifest. The sections are tried in order,
and the first entry whose spec is taken for a range is rewritten to the wanted
version, behind the operator that was found before it.
-/
namespace Snpm.Install

open Semver (FullVersion Version ReadAsDocumented AdmitsOnly StaysInLine CaretPins)

def isSpecialProtocolSpec (spec : String) : Bool :=
  ["catalog:", "workspace:", "npm:", "link:", "portal:", "patch:", "jsr:"].any
    (Text.startsWith spec) || isGitSpec spec

def isPlainVersion (spec : String) : Bool :=
  let bare := (Text.stripPrefix spec "v").getD spec
  bare ≠ "" && bare.toList.head?.any Text.isAsciiDigit &&
    (bare.toList.all fun c => Text.isAsciiAlphanumeric c || c ∈ ['.', '-', '+']) &&
    (Text.firstPart bare fun c => c = '-' || c = '+').toList.count '.' = 2

def rewriteSpecPreservingOperator (current wanted : String) : String :=
  let current := Text.trim current
  if (Text.stripPrefix current "~").any (· ≠ "") then "~" ++ wanted
  else if isPlainVersion current then wanted
  else "^" ++ wanted

inductive DependencySection where
  | dependencies
  | devDependencies
  | optionalDependencies
deriving DecidableEq

def specsOf (manifest : PackageJson.Manifest) : DependencySection → BTreeMap String String
  | .dependencies => manifest.dependencies
  | .devDependencies => manifest.devDependencies
  | .optionalDependencies => manifest.optionalDependencies

def withSpecs (manifest : PackageJson.Manifest) (specs : BTreeMap String String) :
    DependencySection → PackageJson.Manifest
  | .dependencies => { manifest with dependencies := specs }
  | .devDependencies => { manifest with devDependencies := specs }
  | .optionalDependencies => { manifest with optionalDependencies := specs }

/-- The section with the entry rewritten, unless it has none or a special one. -/
def rewriteEntry (specs : BTreeMap String String) (name wanted : String) :
    Option (BTreeMap String String) := do
  let current ← specs[name]?
  if isSpecialProtocolSpec current then none
  else some (specs.insert name (rewriteSpecPreservingOperator current wanted))

/-- Optional dependencies install in production too, development ones do not. -/
def updateManifestEntry (manifest : PackageJson.Manifest) (name wanted : String)
    (production : Bool) : PackageJson.Manifest × Bool :=
  match rewriteEntry manifest.dependencies name wanted with
  | some specs => (withSpecs manifest specs .dependencies, true)
  | none =>
  match if production then none else rewriteEntry manifest.devDependencies name wanted with
  | some specs => (withSpecs manifest specs .devDependencies, true)
  | none =>
  match rewriteEntry manifest.optionalDependencies name wanted with
  | some specs => (withSpecs manifest specs .optionalDependencies, true)
  | none => (manifest, false)

section Meaning

/-- A spec of a version range or a tag; paths, addresses and specs with a protocol
have a colon or a slash. -/
def RegistrySpec (spec : String) : Prop := ':' ∉ spec.toList ∧ '/' ∉ spec.toList

/-- A full version behind any number of `v`, equal signs and blanks. -/
def ExactPin (spec front : String) : Prop :=
  (∀ c ∈ front.toList, c = 'v' ∨ c = '=' ∨ Text.isWhitespace c = true) ∧
    ∃ u : FullVersion, Text.trim spec = front ++ u.text

def TildeRange (spec : String) : Prop := ∃ rest, Text.trim spec = "~" ++ rest ∧ rest ≠ ""

variable (S : SemverCrate) (view : S.Version → Version) (w : FullVersion) (name : String)

/-- What an upgrade is for: one entry changes, a spec that is no range stays, and a
pin or a tilde range stays as narrow as it was. -/
structure UpdateMeets (old new : PackageJson.Manifest) : Prop where
  oneEntry : new = old ∨ ∃ kind spec, name ∈ specsOf old kind ∧
    new = withSpecs old ((specsOf old kind).insert name spec) kind
  registry : ∀ kind spec, (specsOf old kind)[name]? = some spec → ¬ RegistrySpec spec →
    (specsOf new kind)[name]? = some spec
  exact : ∀ kind spec front next, (specsOf old kind)[name]? = some spec →
    (specsOf new kind)[name]? = some next → next ≠ spec → ExactPin spec front →
      AdmitsOnly S view w next
  tilde : ∀ kind spec next, (specsOf old kind)[name]? = some spec →
    (specsOf new kind)[name]? = some next → next ≠ spec → TildeRange spec →
      StaysInLine S view w next

/-- A spec that the rewriting keeps as narrow as it is: a range, and a pin that is
spelled with nothing or one `v` before the version, unless a caret pins the wanted
version too. -/
structure RewrittenAsMeant (spec : String) : Prop where
  registry : RegistrySpec spec
  pin : ∀ front, ExactPin spec front → front = "" ∨ front = "v" ∨ CaretPins w

end Meaning

section Picked

/-- The sections in the order they are tried. -/
def triedSections (production : Bool) : List DependencySection :=
  if production then [.dependencies, .optionalDependencies]
  else [.dependencies, .devDependencies, .optionalDependencies]

/-- The entry of a section, unless it is special. -/
def plainEntry (specs : BTreeMap String String) (name : String) : Option String :=
  (specs[name]?).filter fun spec => !isSpecialProtocolSpec spec

/-- The first entry that is not special. -/
def pickedEntry (manifest : PackageJson.Manifest) (name : String) (production : Bool) :
    Option (DependencySection × String) :=
  (triedSections production).findSome? fun kind =>
    (plainEntry (specsOf manifest kind) name).map fun spec => (kind, spec)

variable {manifest : PackageJson.Manifest} {name wanted spec : String} {production : Bool}
  {kind : DependencySection}

theorem rewriteEntry_eq (specs : BTreeMap String String) : rewriteEntry specs name wanted =
    (plainEntry specs name).map fun spec =>
      specs.insert name (rewriteSpecPreservingOperator spec wanted) := by
  rw [rewriteEntry, plainEntry, Option.bind_eq_bind]
  cases specs[name]? with
  | none => rfl
  | some spec =>
      rw [Option.bind_some, Option.filter_some]
      cases isSpecialProtocolSpec spec with
      | true => rfl
      | false => rfl

theorem pickedEntry_eq : pickedEntry manifest name production =
    ((plainEntry manifest.dependencies name).map fun spec => (.dependencies, spec)).or
      ((if production then none
        else (plainEntry manifest.devDependencies name).map fun spec => (.devDependencies, spec)).or
        ((plainEntry manifest.optionalDependencies name).map fun spec =>
          (.optionalDependencies, spec))) := by
  rw [pickedEntry]
  cases production with
  | true =>
      rw [triedSections, if_pos rfl, if_pos rfl, Option.none_or, List.findSome?_cons,
        List.findSome?_cons, List.findSome?_nil]
      dsimp only [specsOf]
      cases plainEntry manifest.dependencies name with
      | some spec => rfl
      | none => cases plainEntry manifest.optionalDependencies name <;> rfl
  | false =>
      rw [triedSections, if_neg Bool.false_ne_true, if_neg Bool.false_ne_true, List.findSome?_cons,
        List.findSome?_cons, List.findSome?_cons, List.findSome?_nil]
      dsimp only [specsOf]
      cases plainEntry manifest.dependencies name with
      | some spec => rfl
      | none =>
          cases plainEntry manifest.devDependencies name with
          | some spec => rfl
          | none => cases plainEntry manifest.optionalDependencies name <;> rfl

/-- All that an upgrade does: the picked entry is rewritten, if there is one. -/
theorem updateManifestEntry_eq : updateManifestEntry manifest name wanted production =
    match pickedEntry manifest name production with
    | some (kind, spec) =>
        (withSpecs manifest ((specsOf manifest kind).insert name
          (rewriteSpecPreservingOperator spec wanted)) kind, true)
    | none => (manifest, false) := by
  rw [updateManifestEntry, rewriteEntry_eq, rewriteEntry_eq, rewriteEntry_eq, pickedEntry_eq]
  cases plainEntry manifest.dependencies name with
  | some spec => rfl
  | none =>
      cases production with
      | true =>
          cases plainEntry manifest.optionalDependencies name with
          | none => rfl
          | some spec => rfl
      | false =>
          cases plainEntry manifest.devDependencies name with
          | some spec => rfl
          | none =>
              cases plainEntry manifest.optionalDependencies name with
              | none => rfl
              | some spec => rfl

theorem pickedEntry_spec (h : pickedEntry manifest name production = some (kind, spec)) :
    (specsOf manifest kind)[name]? = some spec := by
  obtain ⟨other, _, hother⟩ := List.exists_of_findSome?_eq_some h
  obtain ⟨found, hfound, heq⟩ := Option.map_eq_some_iff.mp hother
  cases heq
  exact (Option.filter_eq_some_iff.mp hfound).1

@[simp]
theorem specsOf_withSpecs (specs : BTreeMap String String) (other : DependencySection) :
    specsOf (withSpecs manifest specs kind) other =
      if other = kind then specs else specsOf manifest other := by
  cases kind with
  | dependencies => cases other <;> rfl
  | devDependencies => cases other <;> rfl
  | optionalDependencies => cases other <;> rfl

end Picked

section Rewritten

variable {spec front : String} {w : FullVersion}

theorem rewrite_tilde (h : TildeRange spec) (wanted : String) :
    rewriteSpecPreservingOperator spec wanted = "~" ++ wanted := by
  obtain ⟨rest, htrim, hrest⟩ := h
  have hstrip : (Text.stripPrefix (Text.trim spec) "~").any (· ≠ "") = true := by
    rw [htrim, Text.stripPrefix_append, Option.any_some]
    exact decide_eq_true hrest
  rw [rewriteSpecPreservingOperator, if_pos hstrip]

/-- What is plain once a `v` is gone. -/
def isPlainBody (bare : String) : Bool :=
  bare ≠ "" && bare.toList.head?.any Text.isAsciiDigit &&
    (bare.toList.all fun c => Text.isAsciiAlphanumeric c || c ∈ ['.', '-', '+']) &&
    (Text.firstPart bare fun c => c = '-' || c = '+').toList.count '.' = 2

theorem isPlainVersion_eq (spec : String) :
    isPlainVersion spec = isPlainBody ((Text.stripPrefix spec "v").getD spec) := rfl

theorem isPlainBody_eq_false {bare : String}
    (h : ∀ c ∈ bare.toList.head?, Text.isAsciiDigit c = false) : isPlainBody bare = false := by
  have hhead : bare.toList.head?.any Text.isAsciiDigit = false := by
    cases hlist : bare.toList.head? with
    | none => rfl
    | some c =>
        rw [Option.any_some]
        exact h c hlist
  rw [isPlainBody, hhead]
  simp

theorem head_splitOnP (p : Char → Bool) (cs : List Char) :
    (cs.splitOnP p).head? = some (cs.takeWhile (!p ·)) := by
  induction cs with
  | nil => rfl
  | cons c cs ih =>
      rw [List.splitOnP_cons_eq_if_modifyHead]
      cases hc : p c with
      | true => simp [hc]
      | false =>
          rw [if_neg Bool.false_ne_true, List.takeWhile_cons_of_pos (by simp [hc])]
          cases hparts : cs.splitOnP p with
          | nil =>
              rw [hparts] at ih
              cases ih
          | cons part parts =>
              rw [hparts, List.head?_cons, Option.some.injEq] at ih
              simp [ih]

theorem firstPart_find (s : String) (p : Char → Bool) :
    Text.firstPart s p = ((Text.find s p).map (·.1)).getD s := by
  have hfirst : Text.firstPart s p = String.ofList (s.toList.takeWhile (!p ·)) := by
    rw [Text.firstPart, Text.split, List.headD_eq_head?_getD, List.head?_map, head_splitOnP]
    rfl
  rw [hfirst, Text.find]
  cases hany : s.toList.any p with
  | true => rfl
  | false =>
      have hfree : ∀ c ∈ s.toList, (!p c) = true := by
        intro c hc
        rw [Bool.not_eq_true', Bool.eq_false_iff]
        exact List.any_eq_false.mp hany c hc
      rw [if_neg Bool.false_ne_true, Option.map_none, Option.getD_none,
        List.takeWhile_eq_self_iff.mpr hfree, String.ofList_toList]

theorem isPlainBody_text (u : FullVersion) : isPlainBody u.text = true := by
  have hne : u.text ≠ "" := u.text_ne_empty
  have hhead : u.text.toList.head?.any Text.isAsciiDigit = true := by
    obtain ⟨c, cs, hlist, hc⟩ := u.exists_head
    rw [hlist, List.head?_cons, Option.any_some]
    exact hc
  have hall : (u.text.toList.all fun c => Text.isAsciiAlphanumeric c || c ∈ ['.', '-', '+']) = true := by
    rw [List.all_eq_true]
    intro c hc
    have hchar := u.text_chars c hc
    simp only [Semver.isVersionChar, Semver.isIdentifierChar, Bool.or_eq_true, decide_eq_true_eq]
      at hchar
    simp only [Bool.or_eq_true, decide_eq_true_eq, List.mem_cons, List.not_mem_nil, or_false]
    grind
  rw [isPlainBody, firstPart_find, Semver.find_core, hall, hhead, u.count_core]
  simp [hne]

theorem pin_front {c : Char} (h : c = 'v' ∨ c = '=' ∨ Text.isWhitespace c = true) :
    Text.isAsciiDigit c = false ∧ c ≠ '~' ∧ c ≠ '^' := by
  have hdigit : Text.isAsciiDigit c = false := by
    rw [Bool.eq_false_iff]
    intro hdigit
    have hvisible := Semver.isPartialChar_visible (c := c)
      (Semver.isPartialChar_of (.inl (Semver.isIdentifierChar_of_digit hdigit)))
    obtain (rfl | rfl | hspace) := h
    · exact absurd hdigit (by decide)
    · exact absurd hdigit (by decide)
    · rw [hvisible] at hspace
      cases hspace
  refine ⟨hdigit, ?_, ?_⟩
  all_goals
    intro heq
    rw [heq] at h
    exact absurd h (by decide)

/-- A pin is plain exactly behind nothing or one `v`. -/
theorem isPlainVersion_pin (h : ExactPin spec front) :
    isPlainVersion (Text.trim spec) = true ↔ front = "" ∨ front = "v" := by
  obtain ⟨hfront, u, htrim⟩ := h
  obtain ⟨d, ds, hdigits, hdigit⟩ := u.exists_head
  rw [isPlainVersion_eq, htrim]
  cases hlist : front.toList with
  | nil =>
      have hempty : front = "" := String.toList_inj.mp hlist
      have hstrip : Text.stripPrefix u.text "v" = none := by
        apply Text.stripPrefix_eq_none _ (by decide)
        rw [hdigits, List.head?_cons]
        intro heq
        rw [Option.some.inj heq] at hdigit
        exact absurd hdigit (by decide)
      rw [hempty, String.empty_append, hstrip, Option.getD_none, isPlainBody_text]
      simp
  | cons c cs =>
      have hc := hfront c (by rw [hlist]; exact List.mem_cons_self)
      have htext : front = String.singleton c ++ String.ofList cs := by
        rw [← String.toList_inj, hlist]
        simp
      by_cases hv : c = 'v'
      · have hstrip : Text.stripPrefix (front ++ u.text) "v" = some (String.ofList cs ++ u.text) := by
          have hv' : front ++ u.text = "v" ++ (String.ofList cs ++ u.text) := by
            rw [htext, hv, String.append_assoc]
            rfl
          rw [hv', Text.stripPrefix_append]
        rw [hstrip, Option.getD_some]
        cases cs with
        | nil =>
            have hfrontV : front = "v" := by
              rw [htext, hv]
              rfl
            rw [show String.ofList [] = "" from rfl, String.empty_append, isPlainBody_text, hfrontV]
            simp
        | cons e es =>
            have he := hfront e (by rw [hlist]; exact List.mem_cons_of_mem _ List.mem_cons_self)
            have hfalse : isPlainBody (String.ofList (e :: es) ++ u.text) = false := by
              apply isPlainBody_eq_false
              intro x hx
              rw [String.toList_append, String.toList_ofList, List.cons_append, List.head?_cons,
                Option.mem_def, Option.some.injEq] at hx
              rw [← hx]
              exact (pin_front he).1
            rw [hfalse]
            refine iff_of_false Bool.false_ne_true ?_
            intro hor
            have hlength := congrArg List.length hlist
            cases hor with
            | inl heq =>
                rw [heq] at hlength
                exact absurd hlength (by simp)
            | inr heq =>
                rw [heq] at hlength
                exact absurd hlength (by simp)
      · have hstrip : Text.stripPrefix (front ++ u.text) "v" = none := by
          apply Text.stripPrefix_eq_none _ (by decide)
          rw [String.toList_append, hlist, List.cons_append, List.head?_cons]
          exact fun heq => hv (Option.some.inj heq)
        have hfalse : isPlainBody (front ++ u.text) = false := by
          apply isPlainBody_eq_false
          intro x hx
          rw [String.toList_append, hlist, List.cons_append, List.head?_cons,
            Option.mem_def, Option.some.injEq] at hx
          rw [← hx]
          exact (pin_front hc).1
        rw [hstrip, Option.getD_none, hfalse]
        refine iff_of_false Bool.false_ne_true ?_
        intro hor
        cases hor with
        | inl heq =>
            rw [heq] at hlist
            cases hlist
        | inr heq =>
            rw [heq] at hlist
            have hcv : 'v' = c := (List.cons.inj hlist).1
            exact hv hcv.symm

/-- A pin starts with no operator. -/
theorem pin_head (h : ExactPin spec front) :
    ∀ c ∈ (Text.trim spec).toList.head?, c ≠ '~' ∧ c ≠ '^' := by
  obtain ⟨hfront, u, htrim⟩ := h
  intro c hc
  rw [htrim, String.toList_append] at hc
  cases hlist : front.toList with
  | nil =>
      obtain ⟨d, ds, hdigits, hdigit⟩ := u.exists_head
      rw [hlist, hdigits, List.nil_append, List.head?_cons, Option.mem_def, Option.some.injEq] at hc
      rw [hc] at hdigit
      constructor
      all_goals
        intro heq
        rw [heq] at hdigit
        exact absurd hdigit (by decide)
  | cons e es =>
      rw [hlist, List.cons_append, List.head?_cons, Option.mem_def, Option.some.injEq] at hc
      have he := hfront e (by rw [hlist]; exact List.mem_cons_self)
      rw [← hc]
      exact (pin_front he).2

theorem rewrite_pin (h : ExactPin spec front) (wanted : String) :
    rewriteSpecPreservingOperator spec wanted =
      if front = "" ∨ front = "v" then wanted else "^" ++ wanted := by
  have hstrip : Text.stripPrefix (Text.trim spec) "~" = none := by
    apply Text.stripPrefix_eq_none _ (by decide)
    intro heq
    exact (pin_head h '~' heq).1 rfl
  rw [rewriteSpecPreservingOperator, hstrip]
  simp only [Option.any_none, Bool.false_eq_true, if_false, isPlainVersion_pin h]

/-- What is written for a spec is a range again. -/
theorem registrySpec_rewrite : RegistrySpec (rewriteSpecPreservingOperator spec w.text) := by
  have hfree : ∀ {operator : String} {c : Char}, c ∉ operator.toList →
      Semver.isVersionChar c = false → c ∉ (operator ++ w.text).toList := by
    intro operator c hoperator hc
    rw [String.toList_append, List.mem_append, not_or]
    exact ⟨hoperator, w.not_mem_text hc⟩
  rw [rewriteSpecPreservingOperator]
  split
  · exact ⟨hfree (by decide) (by decide), hfree (by decide) (by decide)⟩
  · split
    · exact ⟨w.not_mem_text (by decide), w.not_mem_text (by decide)⟩
    · exact ⟨hfree (by decide) (by decide), hfree (by decide) (by decide)⟩

end Rewritten

section Update

variable {S : SemverCrate} {view : S.Version → Version} {before : String → String → Bool}
  {w : FullVersion} {manifest : PackageJson.Manifest} {name spec : String} {production : Bool}
  {kind : DependencySection}

/-- The specs of the crate that an upgrade can write. -/
def writtenRequirements (w : FullVersion) : List String := ["=" ++ w.text, "~" ++ w.text, "^" ++ w.text]

/-- Without an entry to rewrite nothing changes. -/
theorem update_none_meets (S : SemverCrate) (view : S.Version → Version) (w : FullVersion)
    (manifest : PackageJson.Manifest) (name : String) : UpdateMeets S view w name manifest manifest where
  oneEntry := .inl rfl
  registry := fun _ _ hentry _ => hentry
  exact := fun _ _ _ _ hentry hnext hne _ => (hne (Option.some.inj (hnext.symm.trans hentry))).elim
  tilde := fun _ _ _ hentry hnext hne _ => (hne (Option.some.inj (hnext.symm.trans hentry))).elim

theorem getElem?_rewritten (other : DependencySection) (next : String) :
    (specsOf (withSpecs manifest ((specsOf manifest kind).insert name next) kind) other)[name]? =
      if other = kind then some next else (specsOf manifest other)[name]? := by
  rw [specsOf_withSpecs]
  by_cases heq : other = kind
  · rw [if_pos heq, if_pos heq, Std.ExtTreeMap.getElem?_insert_self]
  · rw [if_neg heq, if_neg heq]

theorem rewrite_pin_ne {front : String} (h : ExactPin spec front)
    (hfront : ¬ (front = "" ∨ front = "v")) :
    rewriteSpecPreservingOperator spec w.text ≠ spec := by
  rw [rewrite_pin h, if_neg hfront]
  intro heq
  have hhead : (Text.trim spec).toList.head? = some '^' := by
    apply Text.trim_head _ (by decide)
    rw [← heq]
    simp
  exact (pin_head h '^' hhead).2 rfl

/-- A rewritten pin admits the wanted version alone, or is a caret of it. -/
theorem rewritten_pin_admitsOnly_iff
    (newVersion : Fin (2 ^ 64) → Fin (2 ^ 64) → Fin (2 ^ 64) → S.Version)
    (hnew : ∀ i j k, view (newVersion i j k) = ⟨i, j, k, none⟩)
    (hcrate : ∀ text ∈ writtenRequirements w, ReadAsDocumented S view before text)
    {front : String} (h : ExactPin spec front) :
    AdmitsOnly S view w (rewriteSpecPreservingOperator spec w.text) ↔
      front = "" ∨ front = "v" ∨ CaretPins w := by
  have hexact := hcrate ("=" ++ w.text) List.mem_cons_self
  have hcaret := hcrate ("^" ++ w.text) (List.mem_cons_of_mem _ (List.mem_cons_of_mem _ List.mem_cons_self))
  rw [rewrite_pin h, ← or_assoc]
  by_cases hfront : front = "" ∨ front = "v"
  · rw [if_pos hfront]
    exact iff_of_true (Semver.text_admitsOnly hexact) (.inl hfront)
  · rw [if_neg hfront, Semver.caret_admitsOnly_iff newVersion hnew hcaret]
    simp [hfront]

theorem rewritten_tilde_staysInLine
    (hcrate : ∀ text ∈ writtenRequirements w, ReadAsDocumented S view before text)
    (h : TildeRange spec) : StaysInLine S view w (rewriteSpecPreservingOperator spec w.text) := by
  have htilde := hcrate ("~" ++ w.text) (List.mem_cons_of_mem _ List.mem_cons_self)
  rw [rewrite_tilde h]
  exact Semver.tilde_staysInLine htilde

/-- An upgrade does what it is for exactly if the entry that it picks is a range, and
a pin among them is spelled with nothing or one `v` before the version. -/
theorem update_meets_iff (S : SemverCrate) (view : S.Version → Version)
    (before : String → String → Bool)
    (newVersion : Fin (2 ^ 64) → Fin (2 ^ 64) → Fin (2 ^ 64) → S.Version) (w : FullVersion)
    (hnew : ∀ i j k, view (newVersion i j k) = ⟨i, j, k, none⟩)
    (hcrate : ∀ text ∈ writtenRequirements w, ReadAsDocumented S view before text)
    (manifest : PackageJson.Manifest) (name : String) (production : Bool) :
    UpdateMeets S view w name manifest (updateManifestEntry manifest name w.text production).1 ↔
      ∀ entry ∈ pickedEntry manifest name production, RewrittenAsMeant w entry.2 := by
  rw [updateManifestEntry_eq]
  cases hpicked : pickedEntry manifest name production with
  | none => exact iff_of_true (update_none_meets S view w manifest name) (fun _ hnone => nomatch hnone)
  | some entry =>
      have hspec : (specsOf manifest entry.1)[name]? = some entry.2 := pickedEntry_spec hpicked
      dsimp only
      constructor
      · intro hmeets other hother
        cases hother
        constructor
        · by_contra hregistry
          have hkept := hmeets.registry entry.1 entry.2 hspec hregistry
          rw [getElem?_rewritten, if_pos rfl, Option.some.injEq] at hkept
          exact hregistry (hkept ▸ registrySpec_rewrite)
        · intro front hpin
          by_cases hfront : front = "" ∨ front = "v"
          · exact hfront.imp_right .inl
          · have honly := hmeets.exact entry.1 entry.2 front _ hspec
              (by rw [getElem?_rewritten, if_pos rfl]) (rewrite_pin_ne hpin hfront) hpin
            exact (rewritten_pin_admitsOnly_iff newVersion hnew hcrate hpin).mp honly
      · intro hmeant
        have hentry := hmeant entry rfl
        constructor
        · refine .inr ⟨entry.1, _, ?_, rfl⟩
          exact Std.ExtTreeMap.mem_iff_isSome_getElem?.mpr (by rw [hspec]; rfl)
        · intro kind spec hold hregistry
          rw [getElem?_rewritten]
          by_cases hkind : kind = entry.1
          · rw [hkind, hspec, Option.some.injEq] at hold
            exact absurd (hold ▸ hentry.registry) hregistry
          · rw [if_neg hkind, hold]
        · intro kind spec front next hold hnext hne hpin
          rw [getElem?_rewritten] at hnext
          by_cases hkind : kind = entry.1
          · rw [hkind, hspec, Option.some.injEq] at hold
            rw [if_pos hkind, Option.some.injEq] at hnext
            rw [← hnext]
            rw [← hold] at hpin
            exact (rewritten_pin_admitsOnly_iff newVersion hnew hcrate hpin).mpr (hentry.pin front hpin)
          · rw [if_neg hkind, hold, Option.some.injEq] at hnext
            exact absurd hnext.symm hne
        · intro kind spec next hold hnext hne htilde
          rw [getElem?_rewritten] at hnext
          by_cases hkind : kind = entry.1
          · rw [hkind, hspec, Option.some.injEq] at hold
            rw [if_pos hkind, Option.some.injEq] at hnext
            rw [← hnext]
            rw [← hold] at htilde
            exact rewritten_tilde_staysInLine hcrate htilde
          · rw [if_neg hkind, hold, Option.some.injEq] at hnext
            exact absurd hnext.symm hne

/-- A manifest with one dependency. -/
def oneDependency (name spec : String) : PackageJson.Manifest where
  name := none
  version := none
  packageManager := none
  isPrivate := false
  dependencies := (∅ : BTreeMap String String).insert name spec
  devDependencies := ∅
  optionalDependencies := ∅
  scripts := ∅
  resolutions := ∅
  overrides := ∅
  files := none
  bin := none
  main := none
  pnpm := none
  snpm := none
  workspaces := none
  extra := ∅

def wantedVersion : FullVersion :=
  ⟨Semver.component 1, Semver.component 2, Semver.component 3, ⟨none, none, (fun _ h => nomatch h), (fun _ h => nomatch h)⟩⟩

theorem pin_update_meets :
    UpdateMeets (Semver.documentedCrate Semver.textBefore) id wantedVersion "lib"
        (oneDependency "lib" "~1.0.0")
        (updateManifestEntry (oneDependency "lib" "~1.0.0") "lib" wantedVersion.text false).1 ↔
      ∀ entry ∈ pickedEntry (oneDependency "lib" "~1.0.0") "lib" false,
        RewrittenAsMeant wantedVersion entry.2 :=
  update_meets_iff (Semver.documentedCrate Semver.textBefore) id Semver.textBefore
    (⟨·, ·, ·, none⟩) wantedVersion (fun _ _ _ => rfl)
    (fun text _ => Semver.documentedCrate_reads Semver.textBefore text)
    (oneDependency "lib" "~1.0.0") "lib" false

/-- A package on the disk becomes a range of the registry. -/
theorem file_spec_rewritten :
    (updateManifestEntry (oneDependency "lib" "file:./packages/lib") "lib" wantedVersion.text false).1.dependencies["lib"]? =
        some "^1.2.3" ∧
      ¬ UpdateMeets (Semver.documentedCrate Semver.textBefore) id wantedVersion "lib"
        (oneDependency "lib" "file:./packages/lib")
        (updateManifestEntry (oneDependency "lib" "file:./packages/lib") "lib" wantedVersion.text false).1 := by
  have hrewritten : (updateManifestEntry (oneDependency "lib" "file:./packages/lib") "lib"
      wantedVersion.text false).1.dependencies["lib"]? = some "^1.2.3" := by
    decide +kernel
  refine ⟨hrewritten, ?_⟩
  intro hmeets
  have hkept := hmeets.registry .dependencies "file:./packages/lib" (by decide +kernel) (fun h => h.1 (by decide))
  have heq := hrewritten.symm.trans hkept
  exact absurd heq (by decide)

end Update

end Snpm.Install
