import Mathlib
import Snpm.Library.Text

/-!
More text operations, how the operations that cut a text undo its
concatenation, and what they leave alone.
-/
namespace Text

def toAsciiUpper (c : Char) : Char :=
  if 'a' ≤ c ∧ c ≤ 'z' then Char.ofNat (c.toNat - 32) else c

def toAsciiLowercase (s : String) : String := String.ofList (s.toList.map toAsciiLower)

def toAsciiUppercase (s : String) : String := String.ofList (s.toList.map toAsciiUpper)

/-- Strip the characters of a class from both ends. -/
def trimAll (s : String) (p : Char → Bool) : String :=
  String.ofList ((s.toList.dropWhile p).reverse.dropWhile p).reverse

def trimEndMatches (s : String) (c : Char) : String :=
  String.ofList (s.toList.reverse.dropWhile (· = c)).reverse

def isAsciiAlphanumeric (c : Char) : Bool :=
  isAsciiDigit c || ('a' ≤ c && c ≤ 'z') || ('A' ≤ c && c ≤ 'Z')

/-- The lines of a text, without their line ends. -/
def lines (s : String) : List String :=
  let parts := split s (· = '\n')
  let last := parts.getLastD ""
  (parts.dropLast.map fun line => (stripSuffix line "\r").getD line) ++
    if last = "" then [] else [last]

/-- The part before the first separator. -/
def firstPart (s : String) (p : Char → Bool) : String := (split s p).headD ""

variable {s t p : String} {c : Char}

theorem stripPrefix_append (p s : String) : stripPrefix (p ++ s) p = some s := by
  simp [stripPrefix, startsWith]

theorem stripPrefix_eq_some (h : stripPrefix s p = some t) : s = p ++ t := by
  unfold stripPrefix startsWith at h
  split at h
  · rename_i hstarts
    have ⟨rest, hrest⟩ := List.isPrefixOf_iff_prefix.mp hstarts
    cases h
    rw [← String.toList_inj, String.toList_append, String.toList_ofList, ← hrest,
      List.drop_left]
  · cases h

theorem stripSuffix_append (s p : String) : stripSuffix (s ++ p) p = some s := by
  simp [stripSuffix, endsWith]

theorem stripSuffix_eq_some (h : stripSuffix s p = some t) : s = t ++ p := by
  unfold stripSuffix endsWith at h
  split at h
  · rename_i hends
    have ⟨front, hfront⟩ := List.isSuffixOf_iff_suffix.mp hends
    cases h
    rw [← String.toList_inj, String.toList_append, String.toList_ofList, ← hfront,
      List.length_append, Nat.add_sub_cancel, List.take_left]
  · cases h

/-- A text with another last character does not end so. -/
theorem stripSuffix_eq_none (h : s.toList.getLast? ≠ p.toList.getLast?) (hp : p ≠ "") :
    stripSuffix s p = none := by
  cases hstrip : stripSuffix s p with
  | none => rfl
  | some t =>
      have heq := stripSuffix_eq_some hstrip
      have hne : p.toList ≠ [] := fun hnil => hp (String.toList_inj.mp hnil)
      rw [heq, String.toList_append, List.getLast?_append_of_ne_nil _ hne] at h
      exact absurd rfl h

theorem find_eq_none_iff {q : Char → Bool} : find s q = none ↔ ∀ c ∈ s.toList, q c = false := by
  unfold find
  split
  · rename_i hany
    have ⟨c, hmem, hc⟩ := List.any_eq_true.mp hany
    simp only [reduceCtorEq, false_iff, not_forall]
    exact ⟨c, hmem, by simp [hc]⟩
  · rename_i hnone
    simpa using hnone

theorem splitOnce_eq_none_iff : splitOnce s (· = c) = none ↔ c ∉ s.toList := by
  rw [splitOnce, Option.map_eq_none_iff, find_eq_none_iff]
  constructor
  · intro h hmem
    simpa using h c hmem
  · intro h x hmem
    exact decide_eq_false fun heq => h (heq ▸ hmem)

theorem splitOnce_append (before after : String) (h : c ∉ before.toList) :
    splitOnce (before ++ String.singleton c ++ after) (· = c) = some (before, after) := by
  have hfree : ∀ x ∈ before.toList, (!decide (x = c)) = true := by
    intro x hx
    have hne : x ≠ c := fun heq => h (heq ▸ hx)
    simp [hne]
  have hlist : (before ++ String.singleton c ++ after).toList = before.toList ++ c :: after.toList := by
    simp
  have hany : (before ++ String.singleton c ++ after).toList.any (· = c) = true := by
    simp
  rw [splitOnce, find, if_pos hany, hlist, List.takeWhile_append_of_pos hfree,
    List.dropWhile_append_of_pos hfree]
  simp

theorem splitOnce_eq_some {before after : String}
    (h : splitOnce s (· = c) = some (before, after)) :
    s = before ++ String.singleton c ++ after ∧ c ∉ before.toList := by
  have hmem : c ∈ s.toList := by
    by_contra hnot
    rw [splitOnce_eq_none_iff.mpr hnot] at h
    cases h
  have ⟨front, back, hlist, hfront⟩ := List.eq_append_cons_of_mem hmem
  have hs : s = String.ofList front ++ String.singleton c ++ String.ofList back := by
    rw [← String.toList_inj, hlist]
    simp
  have hsplit := splitOnce_append (String.ofList front) (String.ofList back)
    (c := c) (by simpa using hfront)
  rw [← hs, h] at hsplit
  cases hsplit
  exact ⟨hs, by simpa using hfront⟩

/-- What comes before the first separator does not depend on what comes after. -/
theorem firstPart_append (hs : c ∉ s.toList) (ht : t = "" ∨ t.toList.head? = some c) :
    firstPart (s ++ t) (· = c) = s := by
  have hfree : ∀ x ∈ s.toList, decide (x = c) = false :=
    fun x hx => decide_eq_false fun heq => hs (heq ▸ hx)
  unfold firstPart split
  cases ht with
  | inl hnil =>
      subst hnil
      rw [String.append_empty, List.splitOnP_eq_singleton hfree]
      simp
  | inr hhead =>
      have ⟨rest, hrest⟩ := List.head?_eq_some_iff.mp hhead
      rw [String.toList_append, hrest, List.splitOnP_append_cons _ _ (by simp)]
      rw [List.splitOnP_eq_singleton hfree]
      simp

/-- A text is a part without the separator and a rest that is empty or starts with it. -/
theorem exists_part (s : String) (c : Char) : ∃ front rest : String, s = front ++ rest ∧
    front = String.ofList (s.toList.takeWhile fun x => decide (x ≠ c)) ∧ c ∉ front.toList ∧
      (rest = "" ∨ rest.toList.head? = some c) := by
  refine ⟨String.ofList (s.toList.takeWhile fun x => decide (x ≠ c)),
    String.ofList (s.toList.dropWhile fun x => decide (x ≠ c)), ?_, rfl, ?_, ?_⟩
  · rw [← String.ofList_append, List.takeWhile_append_dropWhile, String.ofList_toList]
  · intro hmem
    rw [String.toList_ofList] at hmem
    simpa using List.mem_takeWhile_imp hmem
  · cases hdrop : s.toList.dropWhile fun x => decide (x ≠ c) with
    | nil => exact .inl rfl
    | cons x xs =>
        right
        have hhead := List.head?_dropWhile_not (fun x => decide (x ≠ c)) s.toList
        rw [hdrop] at hhead
        simpa using hhead

theorem firstPart_eq (s : String) (c : Char) :
    firstPart s (· = c) = String.ofList (s.toList.takeWhile fun x => decide (x ≠ c)) := by
  obtain ⟨front, rest, hs, hfront, hfree, hrest⟩ := exists_part s c
  rw [← hfront]
  calc firstPart s (· = c) = firstPart (front ++ rest) (· = c) := by rw [← hs]
    _ = front := firstPart_append hfree hrest

theorem firstPart_spec (s : String) (c : Char) : c ∉ (firstPart s (· = c)).toList ∧
    ∃ rest : String, s = firstPart s (· = c) ++ rest ∧ (rest = "" ∨ rest.toList.head? = some c) := by
  obtain ⟨front, rest, hs, hfront, hfree, hrest⟩ := exists_part s c
  have heq : firstPart s (· = c) = front := by rw [firstPart_eq, hfront]
  rw [heq]
  exact ⟨hfree, rest, hs, hrest⟩

theorem trim_eq_self (h : ∀ c ∈ s.toList, isWhitespace c = false) : trim s = s := by
  have hfront : s.toList.dropWhile isWhitespace = s.toList := by
    cases hs : s.toList with
    | nil => rfl
    | cons c cs => rw [List.dropWhile_cons_of_neg (by simp [h c (hs ▸ List.mem_cons_self)])]
  have hback : s.toList.reverse.dropWhile isWhitespace = s.toList.reverse := by
    cases hs : s.toList.reverse with
    | nil => rfl
    | cons c cs =>
        have hmem : c ∈ s.toList := List.mem_reverse.mp (hs ▸ List.mem_cons_self)
        rw [List.dropWhile_cons_of_neg (by simp [h c hmem])]
  rw [trim, hfront, hback, List.reverse_reverse, String.ofList_toList]

theorem trimEndMatches_eq_self (h : c ∉ s.toList) : trimEndMatches s c = s := by
  have hback : s.toList.reverse.dropWhile (fun x => decide (x = c)) = s.toList.reverse := by
    cases hs : s.toList.reverse with
    | nil => rfl
    | cons x xs =>
        have hmem : x ∈ s.toList := List.mem_reverse.mp (hs ▸ List.mem_cons_self)
        have hne : x ≠ c := fun heq => h (heq ▸ hmem)
        rw [List.dropWhile_cons_of_neg (by simp [hne])]
  rw [trimEndMatches, hback, List.reverse_reverse, String.ofList_toList]

/-- No letter of the alphabet. -/
def IsCaseless (c : Char) : Prop :=
  c.toNat < 65 ∨ (90 < c.toNat ∧ c.toNat < 97) ∨ 122 < c.toNat

instance (c : Char) : Decidable (IsCaseless c) :=
  inferInstanceAs (Decidable (_ ∨ _ ∨ _))

/-- Lower-casing gives a caseless character from itself only. -/
theorem toAsciiLower_eq_iff {x : Char} (hc : IsCaseless c) : toAsciiLower x = c ↔ x = c := by
  unfold toAsciiLower
  split
  · rename_i hupper
    have hlow : 65 ≤ x.toNat := hupper.1
    have hhigh : x.toNat ≤ 90 := hupper.2
    have hvalid : (x.toNat + 32).isValidChar := .inl (by omega)
    have hlower : (Char.ofNat (x.toNat + 32)).toNat = x.toNat + 32 := by
      rw [Char.toNat_ofNat, if_pos hvalid]
    constructor
    · intro heq
      subst heq
      unfold IsCaseless at hc
      omega
    · intro heq
      subst heq
      unfold IsCaseless at hc
      omega
  · rfl

theorem toAsciiLower_self (hc : IsCaseless c) : toAsciiLower c = c :=
  (toAsciiLower_eq_iff hc).mpr rfl

theorem mem_toAsciiLowercase (hc : IsCaseless c) :
    c ∈ (toAsciiLowercase s).toList ↔ c ∈ s.toList := by
  simp [toAsciiLowercase, toAsciiLower_eq_iff hc]

theorem toAsciiLowercase_append (s t : String) :
    toAsciiLowercase (s ++ t) = toAsciiLowercase s ++ toAsciiLowercase t := by
  simp [toAsciiLowercase]

theorem toAsciiLowercase_singleton (hc : IsCaseless c) :
    toAsciiLowercase (String.singleton c) = String.singleton c := by
  rw [← String.toList_inj]
  simp [toAsciiLowercase, toAsciiLower_self hc]

theorem toAsciiLowercase_eq_self (h : ∀ c ∈ s.toList, IsCaseless c) : toAsciiLowercase s = s := by
  have hmap : s.toList.map toAsciiLower = s.toList := by
    rw [List.map_congr_left fun c hc => toAsciiLower_self (h c hc), List.map_id']
  rw [toAsciiLowercase, hmap, String.ofList_toList]

/-- Only a caseless text itself is lower-cased to it. -/
theorem toAsciiLowercase_eq_iff (h : ∀ c ∈ t.toList, IsCaseless c) :
    toAsciiLowercase s = t ↔ s = t := by
  constructor
  · intro heq
    have hs : ∀ c ∈ s.toList, IsCaseless c := by
      intro c hmem
      have hlower : toAsciiLower c ∈ t.toList := by
        rw [← heq, toAsciiLowercase, String.toList_ofList]
        exact List.mem_map_of_mem hmem
      have hself : c = toAsciiLower c := (toAsciiLower_eq_iff (h _ hlower)).mp rfl
      rw [hself]
      exact h _ hlower
    rw [← heq, toAsciiLowercase_eq_self hs]
  · intro heq
    subst heq
    exact toAsciiLowercase_eq_self h

/-- A caseless separator splits the lower-cased text in the same place. -/
theorem splitOnce_toAsciiLowercase (hc : IsCaseless c) :
    splitOnce (toAsciiLowercase s) (· = c) =
      (splitOnce s (· = c)).map fun parts =>
        (toAsciiLowercase parts.1, toAsciiLowercase parts.2) := by
  cases hsplit : splitOnce s (· = c) with
  | none =>
      rw [splitOnce_eq_none_iff] at hsplit
      exact splitOnce_eq_none_iff.mpr fun hmem => hsplit ((mem_toAsciiLowercase hc).mp hmem)
  | some parts =>
      obtain ⟨before, after⟩ := parts
      have ⟨hs, hfree⟩ := splitOnce_eq_some hsplit
      rw [hs, toAsciiLowercase_append, toAsciiLowercase_append, toAsciiLowercase_singleton hc]
      exact splitOnce_append _ _ fun hmem => hfree ((mem_toAsciiLowercase hc).mp hmem)

theorem rsplitOnce_eq_none (h : c ∉ s.toList) : rsplitOnce s (· = c) = none := by
  have hany : ¬ s.toList.any (fun x => decide (x = c)) = true := by
    simpa using h
  rw [rsplitOnce, if_neg hany]

theorem rsplitOnce_eq_some {before after : String}
    (h : rsplitOnce s (· = c) = some (before, after)) :
    s = before ++ String.singleton c ++ after ∧ c ∉ after.toList := by
  by_cases hmem : c ∈ s.toList
  · have ⟨back, front, hlist, hback⟩ := List.eq_append_cons_of_mem (List.mem_reverse.mpr hmem)
    have hs : s = String.ofList front.reverse ++ String.singleton c ++
        String.ofList back.reverse := by
      rw [← String.toList_inj, ← List.reverse_inj, hlist]
      simp
    have hfree : c ∉ (String.ofList back.reverse).toList := by simpa using hback
    rw [hs, rsplitOnce_append _ _ _ hfree, Option.some.injEq, Prod.mk.injEq] at h
    rw [← h.1, ← h.2]
    exact ⟨hs, hfree⟩
  · rw [rsplitOnce_eq_none hmem] at h
    cases h

theorem rsplitOnce_toAsciiLowercase (hc : IsCaseless c) :
    rsplitOnce (toAsciiLowercase s) (· = c) =
      (rsplitOnce s (· = c)).map fun parts =>
        (toAsciiLowercase parts.1, toAsciiLowercase parts.2) := by
  cases decEq (c ∈ s.toList) True with
  | isTrue htrue =>
      have hmem : c ∈ s.toList.reverse := List.mem_reverse.mpr (of_eq_true htrue)
      have ⟨back, front, hlist, hback⟩ := List.eq_append_cons_of_mem hmem
      have hs : s = String.ofList front.reverse ++ String.singleton c ++ String.ofList back.reverse := by
        rw [← String.toList_inj, ← List.reverse_inj, hlist]
        simp
      have hfree : c ∉ (String.ofList back.reverse).toList := by simpa using hback
      rw [hs, toAsciiLowercase_append, toAsciiLowercase_append, toAsciiLowercase_singleton hc,
        rsplitOnce_append _ _ _ hfree]
      exact rsplitOnce_append _ _ _ fun hmem => hfree ((mem_toAsciiLowercase hc).mp hmem)
  | isFalse hfalse =>
      have hnot : c ∉ s.toList := fun hmem => hfalse (eq_true hmem)
      rw [rsplitOnce_eq_none hnot, rsplitOnce_eq_none fun hmem => hnot ((mem_toAsciiLowercase hc).mp hmem)]
      rfl

@[simp] theorem toAsciiLowercase_eq_empty_iff : toAsciiLowercase s = "" ↔ s = "" := by
  rw [← String.toList_inj, ← String.toList_inj]
  simp [toAsciiLowercase]

end Text
