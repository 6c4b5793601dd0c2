import Mathlib
import Snpm.Library.TextParts
import Snpm.Library.SeqParts
import Snpm.Library.OrderedMap

/-!
Nested packages of a `bun.lock`. The key of a package is the chain of names that
it is nested in; its dependencies are looked for from the innermost scope outwards.
-/
namespace Snpm.Compat.Bun

section Walk

/-- The key without its last name: a scope is not left behind. -/
def enclosing (base : String) : String :=
  match Text.rsplitOnce base (· = '/') with
  | none => ""
  | some (front, _) =>
      match Text.rsplitOnce front (· = '/') with
      | none => if Text.startsWith front "@" then "" else front
      | some (outer, tail) => if Text.startsWith tail "@" then outer else front

def nestedCandidate (base depName : String) : String :=
  if base = "" then depName else base ++ "/" ++ depName

theorem length_of_rsplitOnce {s before after : String} {c : Char}
    (h : Text.rsplitOnce s (· = c) = some (before, after)) : before.length < s.length := by
  have hlength := congrArg String.length (Text.rsplitOnce_eq_some h).1
  rw [String.length_append, String.length_append, String.length_singleton] at hlength
  omega

/-- Every step makes the key shorter. -/
theorem enclosing_lt {base : String} (h : base ≠ "") : (enclosing base).length < base.length := by
  have hpos : 0 < base.length := by
    apply Nat.pos_of_ne_zero
    intro hzero
    apply h
    rw [← String.toList_inj]
    apply List.eq_nil_of_length_eq_zero
    rw [String.length_toList, hzero]
  unfold enclosing
  split
  · exact hpos
  · rename_i front _ hfront
    have hshort := length_of_rsplitOnce hfront
    split
    · split
      · exact hpos
      · exact hshort
    · rename_i outer _ houter
      have hshorter := length_of_rsplitOnce houter
      split
      · omega
      · exact hshort

/-- The loop ends for every key, because every step makes the key shorter. -/
def resolveNestedBun (keyInfo : BTreeMap String (String × String)) (depName base : String) :
    Option String :=
  if keyInfo.contains (nestedCandidate base depName) then some (nestedCandidate base depName)
  else if h : base = "" then none
  else
    have := enclosing_lt h
    resolveNestedBun keyInfo depName (enclosing base)
termination_by base.length

theorem enclosing_empty : enclosing "" = "" := by decide

theorem exists_enclosing_iterate (base : String) :
    ∃ n, n ≤ base.length ∧ enclosing^[n] base = "" := by
  induction hlength : base.length using Nat.strong_induction_on generalizing base with
  | _ length ih =>
      by_cases hempty : base = ""
      · exact ⟨0, Nat.zero_le _, hempty⟩
      · have hless := enclosing_lt hempty
        obtain ⟨n, hn, hend⟩ := ih (enclosing base).length (by omega) (enclosing base) rfl
        exact ⟨n + 1, by omega, hend⟩

end Walk

section Chains

/-- A package name, with or without a scope. -/
inductive ChainName where
  | bare (text : String) (hne : text ≠ "") (hslash : '/' ∉ text.toList)
      (hat : text.toList.head? ≠ some '@')
  | inScope (scope base : String) (hscope : '/' ∉ scope.toList) (hbase : '/' ∉ base.toList)
      (hat : base.toList.head? ≠ some '@')

def ChainName.text : ChainName → String
  | .bare text _ _ _ => text
  | .inScope scope base _ _ _ => "@" ++ scope ++ "/" ++ base

/-- The key of a chain of names. -/
def chainText (chain : List ChainName) : String := "/".intercalate (chain.map ChainName.text)

/-- The key of a dependency in a scope. -/
def scopeKey (scope : List ChainName) (depName : String) : String :=
  "/".intercalate (scope.map ChainName.text ++ [depName])

theorem ChainName.text_ne_empty (name : ChainName) : name.text ≠ "" := by
  cases name with
  | bare text hne _ _ => exact hne
  | inScope scope base _ _ _ =>
      intro h
      have hlist := congrArg String.toList h
      simp [ChainName.text] at hlist

theorem chainText_ne_empty {chain : List ChainName} (h : chain ≠ []) : chainText chain ≠ "" := by
  apply Text.intercalate_ne_empty
  · simpa using h
  · intro t ht
    obtain ⟨name, _, hname⟩ := List.mem_map.mp ht
    rw [← hname]
    exact name.text_ne_empty

theorem intercalate_concat {sep t : String} {ts : List String} (h : ts ≠ []) :
    sep.intercalate (ts ++ [t]) = sep.intercalate ts ++ sep ++ t := by
  induction ts with
  | nil => exact absurd rfl h
  | cons u ts ih =>
      cases ts with
      | nil =>
          rw [List.cons_append, List.nil_append, String.intercalate_cons_cons,
            String.intercalate_singleton, String.intercalate_singleton]
      | cons next ts =>
          rw [List.cons_append, List.cons_append, String.intercalate_cons_cons, ← List.cons_append,
            ih (List.cons_ne_nil _ _), String.intercalate_cons_cons]
          simp only [String.append_assoc]

theorem chainText_concat {chain : List ChainName} (h : chain ≠ []) (name : ChainName) :
    chainText (chain ++ [name]) = chainText chain ++ "/" ++ name.text := by
  rw [chainText, List.map_append, List.map_singleton, intercalate_concat (by simpa using h)]
  rfl

theorem nestedCandidate_chain (scope : List ChainName) (depName : String) :
    nestedCandidate (chainText scope) depName = scopeKey scope depName := by
  cases scope with
  | nil => rfl
  | cons name scope =>
      rw [nestedCandidate, if_neg (chainText_ne_empty (List.cons_ne_nil _ _)), scopeKey,
        intercalate_concat (by simp)]
      rfl

theorem startsWith_at {s : String} (h : s.toList.head? ≠ some '@') : Text.startsWith s "@" = false :=
  Text.startsWith_eq_false h (by decide)

theorem rsplitOnce_slash (before after : String) (h : '/' ∉ after.toList) :
    Text.rsplitOnce (before ++ "/" ++ after) (· = '/') = some (before, after) := by
  have hslash : ("/" : String) = String.singleton '/' := by decide
  rw [hslash, Text.rsplitOnce_append before after '/' h]

/-- A chain does not end with a scope alone. -/
def EndsWithName (key : String) : Prop :=
  match Text.rsplitOnce key (· = '/') with
  | none => Text.startsWith key "@" = false
  | some (_, tail) => Text.startsWith tail "@" = false

theorem endsWithName_text (front : String) (name : ChainName) :
    EndsWithName name.text ∧ EndsWithName (front ++ "/" ++ name.text) := by
  cases name with
  | bare text _ hslash hat =>
      constructor
      · rw [EndsWithName, ChainName.text, Text.rsplitOnce_eq_none hslash]
        exact startsWith_at hat
      · rw [EndsWithName, ChainName.text, rsplitOnce_slash front text hslash]
        exact startsWith_at hat
  | inScope scope base _ hbase hat =>
      constructor
      · rw [EndsWithName, ChainName.text, rsplitOnce_slash _ base hbase]
        exact startsWith_at hat
      · rw [EndsWithName, ChainName.text, ← String.append_assoc, ← String.append_assoc,
          rsplitOnce_slash _ base hbase]
        exact startsWith_at hat

theorem endsWithName_chain {chain : List ChainName} (h : chain ≠ []) :
    EndsWithName (chainText chain) := by
  obtain ⟨front, name, rfl⟩ := (List.eq_nil_or_concat' chain).resolve_left h
  by_cases hfront : front = []
  · rw [hfront, List.nil_append, chainText, List.map_singleton, String.intercalate_singleton]
    exact (endsWithName_text "" name).1
  · rw [chainText_concat hfront]
    exact (endsWithName_text _ name).2

/-- A key that does not end with a scope alone stands when a bare name behind it is dropped. -/
theorem enclosing_bare {front text : String} (hends : EndsWithName front) (h : '/' ∉ text.toList) :
    enclosing (front ++ "/" ++ text) = front := by
  unfold enclosing
  rw [rsplitOnce_slash front text h]
  dsimp only
  unfold EndsWithName at hends
  split
  · rename_i hnone
    rw [hnone] at hends
    rw [if_neg (by rw [hends]; exact Bool.false_ne_true)]
  · rename_i outer tail hsome
    rw [hsome] at hends
    dsimp only at hends
    rw [if_neg (by rw [hends]; exact Bool.false_ne_true)]

theorem at_startsWith (scope : String) : Text.startsWith ("@" ++ scope) "@" = true :=
  Text.startsWith_iff.mpr ⟨scope, rfl⟩

theorem scope_free {scope : String} (h : '/' ∉ scope.toList) : '/' ∉ ("@" ++ scope).toList := by
  rw [String.toList_append, List.mem_append, not_or]
  exact ⟨by decide, h⟩

/-- The step drops exactly the last name of a chain. -/
theorem enclosing_chain (chain : List ChainName) (name : ChainName) :
    enclosing (chainText (chain ++ [name])) = chainText chain := by
  by_cases hchain : chain = []
  · rw [hchain, List.nil_append, chainText, List.map_singleton, String.intercalate_singleton]
    cases name with
    | bare text _ hslash _ =>
        rw [ChainName.text, enclosing, Text.rsplitOnce_eq_none hslash]
        rfl
    | inScope scope base hscope hbase _ =>
        rw [ChainName.text, enclosing, rsplitOnce_slash _ base hbase]
        dsimp only
        rw [Text.rsplitOnce_eq_none (scope_free hscope)]
        dsimp only
        rw [if_pos (at_startsWith scope)]
        rfl
  · rw [chainText_concat hchain]
    cases name with
    | bare text _ hslash _ => exact enclosing_bare (endsWithName_chain hchain) hslash
    | inScope scope base hscope hbase _ =>
        have htext : chainText chain ++ "/" ++ (ChainName.inScope scope base hscope hbase ‹_›).text =
            chainText chain ++ "/" ++ ("@" ++ scope) ++ "/" ++ base := by
          simp only [ChainName.text, String.append_assoc]
        rw [htext, enclosing, rsplitOnce_slash _ base hbase]
        dsimp only
        rw [rsplitOnce_slash _ _ (scope_free hscope)]
        dsimp only
        rw [if_pos (at_startsWith scope)]

variable (keyInfo : BTreeMap String (String × String)) (depName : String)

/-- One round of the loop, seen on a chain. -/
theorem resolveNestedBun_nil : resolveNestedBun keyInfo depName (chainText []) =
    if keyInfo.contains (scopeKey [] depName) then some (scopeKey [] depName) else none := by
  rw [resolveNestedBun, nestedCandidate_chain]
  rfl

theorem resolveNestedBun_concat (chain : List ChainName) (name : ChainName) :
    resolveNestedBun keyInfo depName (chainText (chain ++ [name])) =
      if keyInfo.contains (scopeKey (chain ++ [name]) depName) then
        some (scopeKey (chain ++ [name]) depName)
      else resolveNestedBun keyInfo depName (chainText chain) := by
  rw [resolveNestedBun, nestedCandidate_chain, dif_neg (chainText_ne_empty (by simp))]
  dsimp only
  rw [enclosing_chain]

/-- The innermost scope of the chain that has the dependency. -/
structure Nearest (chain scope : List ChainName) : Prop where
  encloses : scope <+: chain
  found : scopeKey scope depName ∈ keyInfo
  innermost : ∀ inner, inner <+: chain → scope.length < inner.length →
    scopeKey inner depName ∉ keyInfo

theorem prefix_concat {scope chain : List ChainName} {name : ChainName}
    (h : scope <+: chain ++ [name]) : scope = chain ++ [name] ∨ scope <+: chain :=
  List.prefix_concat_iff.mp h

theorem nearest_cases (chain : List ChainName) :
    (∃ scope, Nearest keyInfo depName chain scope ∧
      resolveNestedBun keyInfo depName (chainText chain) = some (scopeKey scope depName)) ∨
    (∀ scope, scope <+: chain → scopeKey scope depName ∉ keyInfo) ∧
      resolveNestedBun keyInfo depName (chainText chain) = none := by
  induction chain using List.reverseRecOn with
  | nil =>
      rw [resolveNestedBun_nil]
      by_cases hfound : scopeKey [] depName ∈ keyInfo
      · refine .inl ⟨[], ⟨List.prefix_refl _, hfound, ?_⟩, ?_⟩
        · intro inner hinner hlength
          rw [List.prefix_nil.mp hinner] at hlength
          exact absurd hlength (Nat.lt_irrefl _)
        · rw [if_pos (Std.ExtTreeMap.contains_iff_mem.mpr hfound)]
      · refine .inr ⟨?_, ?_⟩
        · intro scope hscope
          rw [List.prefix_nil.mp hscope]
          exact hfound
        · rw [if_neg fun h => hfound (Std.ExtTreeMap.contains_iff_mem.mp h)]
  | append_singleton chain name ih =>
      rw [resolveNestedBun_concat]
      by_cases hfound : scopeKey (chain ++ [name]) depName ∈ keyInfo
      · refine .inl ⟨chain ++ [name], ⟨List.prefix_refl _, hfound, ?_⟩, ?_⟩
        · intro inner hinner hlength
          exact absurd hinner.length_le (by omega)
        · rw [if_pos (Std.ExtTreeMap.contains_iff_mem.mpr hfound)]
      · rw [if_neg fun h => hfound (Std.ExtTreeMap.contains_iff_mem.mp h)]
        have hextend : ∀ inner, inner <+: chain ++ [name] →
            inner = chain ++ [name] ∨ inner <+: chain := fun inner => prefix_concat
        cases ih with
        | inl hnearest =>
            obtain ⟨scope, hscope, hresult⟩ := hnearest
            refine .inl ⟨scope, ⟨hscope.encloses.trans (List.prefix_append _ _), hscope.found, ?_⟩,
              hresult⟩
            intro inner hinner hlength
            cases hextend inner hinner with
            | inl heq =>
                rw [heq]
                exact hfound
            | inr hinner => exact hscope.innermost inner hinner hlength
        | inr hnone =>
            refine .inr ⟨?_, hnone.2⟩
            intro inner hinner
            cases hextend inner hinner with
            | inl heq =>
                rw [heq]
                exact hfound
            | inr hinner => exact hnone.1 inner hinner

variable {keyInfo depName}

theorem Nearest.unique {chain scope other : List ChainName} (h : Nearest keyInfo depName chain scope)
    (hother : Nearest keyInfo depName chain other) : other = scope := by
  have hlength : other.length = scope.length := by
    by_contra hne
    cases Nat.lt_or_gt_of_ne hne with
    | inl hlt => exact hother.innermost scope h.encloses hlt h.found
    | inr hgt => exact h.innermost other hother.encloses hgt hother.found
  have hbegin := List.prefix_of_prefix_length_le hother.encloses h.encloses (by omega)
  exact hbegin.eq_of_length hlength

variable (keyInfo depName)

/-- The loop ends for every key; for a chain of names it answers with the innermost
scope that has the dependency, and with nothing just if none has. -/
theorem resolve_nested_bun_nearest :
    (∀ base : String, ∃ n, n ≤ base.length ∧ enclosing^[n] base = "") ∧
    ∀ chain : List ChainName,
      (∀ key, resolveNestedBun keyInfo depName (chainText chain) = some key ↔
        ∃ scope, Nearest keyInfo depName chain scope ∧ key = scopeKey scope depName) ∧
      (resolveNestedBun keyInfo depName (chainText chain) = none ↔
        ∀ scope, scope <+: chain → scopeKey scope depName ∉ keyInfo) := by
  refine ⟨exists_enclosing_iterate, ?_⟩
  intro chain
  cases nearest_cases keyInfo depName chain with
  | inl hfound =>
      obtain ⟨scope, hscope, hresult⟩ := hfound
      rw [hresult]
      constructor
      · intro key
        constructor
        · intro heq
          exact ⟨scope, hscope, (Option.some.inj heq).symm⟩
        · intro hnearest
          obtain ⟨other, hother, rfl⟩ := hnearest
          rw [hscope.unique hother]
      · constructor
        · intro hnone
          cases hnone
        · intro hnone
          exact absurd hscope.found (hnone scope hscope.encloses)
  | inr hnone =>
      rw [hnone.2]
      constructor
      · intro key
        constructor
        · intro heq
          cases heq
        · intro hnearest
          obtain ⟨scope, hscope, -⟩ := hnearest
          exact absurd hscope.found (hnone.1 scope hscope.encloses)
      · exact ⟨fun _ => hnone.1, fun _ => rfl⟩

example : enclosing "a/@s/b/c" = "a/@s/b" ∧ enclosing "a/@s/b" = "a" := by decide

end Chains

end Snpm.Compat.Bun
