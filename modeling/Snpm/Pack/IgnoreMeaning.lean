import Mathlib
import Snpm.Library.LastMatch
import Snpm.Library.NamePath
import Snpm.Pack.Walk

/-!
What a line of an ignore file means where its pattern has no wildcards, and when
the rules that packing builds from the lines decide by that meaning.
-/
namespace Snpm.Pack

open NamePath

/-- The characters that a glob pattern gives a meaning. -/
def IsGlobChar (c : Char) : Prop := c = '*' ∨ c = '?' ∨ c = '[' ∨ c = ']' ∨ c = '\\'

def Plain (text : String) : Prop := ∀ c ∈ text.toList, ¬ IsGlobChar c

/-- The glob library matches a pattern without wildcards by comparing texts. -/
def Literal (newPattern : NewPattern) : Prop :=
  ∀ pattern, Plain pattern → newPattern pattern = some fun text => decide (text = pattern)

/-- The names of a pattern, with what the slashes around and between them say. -/
structure LineMeaning where
  negated : Bool
  directory : Bool
  anchored : Bool
  names : List String
deriving DecidableEq

/-- What a pattern without its negation means. -/
def bodyMeaning (negated : Bool) (body : String) : Option LineMeaning :=
  let core := trimSlashes body
  if core = "" then none
  else some ⟨negated, Text.endsWith body "/",
    Text.startsWith body "/" || Text.containsChar core (· = '/'), Text.split core (· = '/')⟩

/-- Blank lines and comments mean nothing. -/
def lineMeaning (line : String) : Option LineMeaning :=
  let trimmed := Text.trim line
  if trimmed = "" || Text.startsWith trimmed "#" then none
  else
    match Text.stripPrefix trimmed "!" with
    | some pattern => bodyMeaning true (Text.trim pattern)
    | none => bodyMeaning false trimmed

namespace LineMeaning

/-- The places below the directory of the ignore file that a pattern names. -/
def Names (m : LineMeaning) (place : RelPath) : Prop :=
  if m.anchored then place = m.names else m.names <:+ place

/-- A pattern covers a file that it names or that lies below a directory that it names. -/
def Covers (m : LineMeaning) (path : RelPath) : Prop :=
  ∃ place, place <+: path ∧ (m.directory → place ≠ path) ∧ m.Names place

/-- The files that the rule built from a line matches. -/
def Matches (m : LineMeaning) (path : RelPath) : Prop :=
  if m.names.length = 1 then
    ∃ place, place <+: path ∧ (m.directory → place ≠ path) ∧ m.names <:+ place
  else if m.directory then ∃ place, place <+: path ∧ place ≠ path ∧ place = m.names
  else path = m.names

def rule (m : LineMeaning) (base : String) : IgnoreRule :=
  ⟨base, fun relative => decide (relative = text m.names), m.negated, m.directory,
    decide (m.names.length = 1)⟩

end LineMeaning

section Parse

variable {newPattern : NewPattern} {line base : String}

theorem Plain.of_subset {s t : String} (h : Plain s) (hsub : ∀ c ∈ t.toList, c ∈ s.toList) :
    Plain t :=
  fun c hc => h c (hsub c hc)

theorem mem_of_mem_trimMatches {s : String} {c d : Char} (h : d ∈ (Text.trimMatches s c).toList) :
    d ∈ s.toList := by
  simp only [Text.trimMatches, String.toList_ofList, List.mem_reverse] at h
  have hback := (List.dropWhile_suffix _).subset h
  exact (List.dropWhile_suffix _).subset (List.mem_reverse.mp hback)

theorem mem_of_mem_stripPrefix {s p t : String} (h : Text.stripPrefix s p = some t) {d : Char}
    (hd : d ∈ t.toList) : d ∈ s.toList := by
  rw [Text.stripPrefix_eq_some h]
  simp [hd]

/-- A text that has been freed from slashes at its ends is not changed again. -/
theorem trimStartMatches_trimSlashes (body : String) :
    Text.trimStartMatches (trimSlashes body) '/' = trimSlashes body := by
  have hhead : (trimSlashes body).toList.dropWhile (fun c => decide (c = '/')) =
      (trimSlashes body).toList := by
    cases hlist : (trimSlashes body).toList with
    | nil => rfl
    | cons c cs =>
        have hc : c ≠ '/' := by
          intro heq
          simp only [trimSlashes, Text.trimMatches, String.toList_ofList] at hlist
          have hbegin := List.reverse_prefix.mpr (List.dropWhile_suffix (fun c => decide (c = '/'))
            (l := (body.toList.dropWhile fun c => decide (c = '/')).reverse))
          rw [List.reverse_reverse, hlist] at hbegin
          obtain ⟨rest, hrest⟩ := hbegin
          have hfirst := List.head?_dropWhile_not (fun c => decide (c = '/')) body.toList
          rw [← hrest] at hfirst
          simp [heq] at hfirst
        rw [List.dropWhile_cons_of_neg (by simp [hc])]
  rw [Text.trimStartMatches, hhead, String.ofList_toList]

theorem length_split_eq_one_iff {s : String} {c : Char} :
    (Text.split s (· = c)).length = 1 ↔ c ∉ s.toList := by
  constructor
  · intro h hmem
    obtain ⟨front, back, hlist⟩ := List.append_of_mem hmem
    rw [Text.split, hlist, List.length_map, List.splitOnP_append_cons _ _ (by simp)] at h
    have hfront := List.length_pos_iff.mpr (List.splitOnP_ne_nil (fun x => decide (x = c)) front)
    have hback := List.length_pos_iff.mpr (List.splitOnP_ne_nil (fun x => decide (x = c)) back)
    simp only [List.length_append] at h
    omega
  · intro h
    rw [Text.split_eq_singleton h]
    rfl

theorem ruleOfBody_eq (hliteral : Literal newPattern) {body : String} (hbody : Plain body)
    (negated : Bool) :
    ruleOfBody newPattern base negated body = (bodyMeaning negated body).map (·.rule base) := by
  have hcore : Plain (trimSlashes body) := hbody.of_subset fun c => mem_of_mem_trimMatches
  have hone : (!Text.containsChar (trimSlashes body) (· = '/')) =
      decide ((Text.split (trimSlashes body) (· = '/')).length = 1) := by
    rw [Bool.eq_iff_iff]
    simp only [Text.containsChar, Bool.not_eq_true', List.any_eq_false, decide_eq_true_eq,
      length_split_eq_one_iff]
    exact ⟨fun h hmem => h '/' hmem rfl, fun h c hc heq => h (heq ▸ hc)⟩
  have htext : text (Text.split (trimSlashes body) (· = '/')) = trimSlashes body :=
    Text.intercalate_split _ _
  simp only [ruleOfBody, bodyMeaning, trimStartMatches_trimSlashes, ite_self, hliteral _ hcore, hone]
  split
  · rfl
  · simp only [Option.map_some, LineMeaning.rule, htext]

/-- A line becomes the rule of its meaning. -/
theorem parseIgnoreRule_eq (hliteral : Literal newPattern) (hplain : Plain line) :
    parseIgnoreRule newPattern line base = (lineMeaning line).map (·.rule base) := by
  have htrim : Plain (Text.trim line) := hplain.of_subset fun c => Text.mem_of_mem_trim
  simp only [parseIgnoreRule, lineMeaning]
  split
  · rfl
  · cases hbang : Text.stripPrefix (Text.trim line) "!" with
    | none => exact ruleOfBody_eq hliteral htrim false
    | some pattern =>
        have hpattern : Plain (Text.trim pattern) := htrim.of_subset fun c hc =>
          mem_of_mem_stripPrefix hbang (Text.mem_of_mem_trim hc)
        exact ruleOfBody_eq hliteral hpattern true

theorem not_mem_of_mem_split {s part : String} {c : Char} (h : part ∈ Text.split s (· = c)) :
    c ∉ part.toList := by
  intro hc
  rw [Text.split, List.mem_map] at h
  obtain ⟨cs, hcs, rfl⟩ := h
  rw [String.toList_ofList] at hc
  simpa using PathText.not_of_mem_splitOnP hcs c hc

theorem bodyMeaning_names {negated : Bool} {body : String} {m : LineMeaning}
    (h : bodyMeaning negated body = some m) :
    m.names ≠ [] ∧ ∀ name ∈ m.names, '/' ∉ name.toList := by
  simp only [bodyMeaning] at h
  split at h
  · cases h
  · rw [Option.some.injEq] at h
    subst h
    dsimp only
    exact ⟨Text.split_ne_nil _ _, fun name hname => not_mem_of_mem_split hname⟩

/-- The names of a pattern have no slash, and there is one at least. -/
theorem lineMeaning_names {m : LineMeaning} (h : lineMeaning line = some m) :
    m.names ≠ [] ∧ ∀ name ∈ m.names, '/' ∉ name.toList := by
  simp only [lineMeaning] at h
  split at h
  · cases h
  · cases hbang : Text.stripPrefix (Text.trim line) "!" with
    | none =>
        rw [hbang] at h
        exact bodyMeaning_names h
    | some pattern =>
        rw [hbang] at h
        exact bodyMeaning_names h

end Parse

section Match

variable {dir path : RelPath} {m : LineMeaning}

theorem normalizePath_text (h : IsPath path) : normalizePath (text path) = text path := by
  have hmap : (text path).toList.map (fun c => if c = '\\' then '/' else c) = (text path).toList := by
    rw [← List.map_id (text path).toList, List.map_map]
    refine List.map_congr_left fun c hc => ?_
    have hne : c ≠ '\\' := fun heq => backslash_not_mem h (heq ▸ hc)
    simp [hne]
  rw [normalizePath, Text.replaceChar, hmap, String.ofList_toList]

theorem relativePath_eq (h : IsPath path) : relativePath path = text path := normalizePath_text h

theorem trimSlashes_text (h : IsPath path) : trimSlashes (text path) = text path := by
  cases path with
  | nil => decide
  | cons name rest =>
      have hhead := head?_text (List.cons_ne_nil name rest) h
      have hlast := getLast?_text (List.cons_ne_nil name rest) h
      generalize text (name :: rest) = s at hhead hlast
      have hfront : s.toList.dropWhile (fun c => decide (c = '/')) = s.toList := by
        cases hs : s.toList with
        | nil => rfl
        | cons c cs =>
            have hc : c ≠ '/' := fun heq => hhead (by simp [hs, heq])
            rw [List.dropWhile_cons_of_neg (by simp [hc])]
      have hback : s.toList.reverse.dropWhile (fun c => decide (c = '/')) = s.toList.reverse := by
        cases hs : s.toList.reverse with
        | nil => rfl
        | cons c cs =>
            have hlist : s.toList.getLast? = some c := by
              rw [← List.head?_reverse, hs]
              rfl
            have hc : c ≠ '/' := fun heq => hlast (heq ▸ hlist)
            rw [List.dropWhile_cons_of_neg (by simp [hc])]
      rw [trimSlashes, Text.trimMatches, hfront, hback, List.reverse_reverse, String.ofList_toList]

theorem joinBase_eq (hpath : path ≠ []) (hdir : IsPath dir) :
    joinBase (text dir) (text path) = text (dir ++ path) := by
  cases dir with
  | nil => rfl
  | cons name rest =>
      rw [joinBase, if_neg (text_ne_empty (List.cons_ne_nil name rest) hdir),
        text_append (List.cons_ne_nil name rest) hpath]

theorem stripBase_eq (hpath : path ≠ []) (hdir : IsPath dir) :
    stripBase (text (dir ++ path)) (text dir) = some (text path) := by
  cases dir with
  | nil => rfl
  | cons name rest =>
      rw [stripBase, if_neg (text_ne_empty (List.cons_ne_nil name rest) hdir),
        text_append (List.cons_ne_nil name rest) hpath, String.append_assoc,
        Text.stripPrefix_append, Option.bind_some, Text.stripPrefix_append]

theorem normalComponents_text (hne : path ≠ []) (h : IsPath path) :
    normalComponents (text path) = path := by
  simp [normalComponents, components_text hne h, List.filterMap_map]

/-- The proper ancestors of a path are its proper prefixes. -/
theorem mem_properAncestors_iff (hne : path ≠ []) (h : IsPath path) {ancestor : String} :
    ancestor ∈ properAncestors (text path) ↔
      ∃ place, place ≠ [] ∧ place <+: path ∧ place ≠ path ∧ ancestor = text place := by
  have hall : (List.range path.length).filter (fun i => isComponent i (path.getD i "")) =
      List.range path.length := by
    rw [List.filter_eq_self]
    intro i hi
    have hlt := List.mem_range.mp hi
    have hname := h path[i] (List.getElem_mem hlt)
    have hdot : path[i] ≠ "." := fun heq => hname.segment.not_dot (by rw [heq]; rfl)
    rw [List.getD_eq_getElem path "" hlt]
    simp [isComponent, hname.ne_empty, hdot]
  have hstarts : Text.startsWith (text path) "/" = false := by
    have hhead := head?_text hne h
    cases hlist : (text path).toList with
    | nil => simp [Text.startsWith, hlist]
    | cons c cs =>
        rw [hlist] at hhead
        have hc : c ≠ '/' := fun heq => hhead (by simp [heq])
        simpa [Text.startsWith, hlist, List.isPrefixOf] using hc.symm
  obtain ⟨n, hn⟩ : ∃ n, path.length = n + 1 :=
    Nat.exists_eq_succ_of_ne_zero fun hzero => hne (List.length_eq_zero_iff.mp hzero)
  simp only [properAncestors, split_text hne h, hall, hstarts, Bool.false_eq_true, false_and,
    if_false, List.nil_append, List.mem_map]
  rw [hn, List.range_succ, List.dropLast_concat]
  simp only [List.mem_range]
  constructor
  · rintro ⟨i, hi, rfl⟩
    refine ⟨path.take (i + 1), ?_, List.take_prefix _ _, ?_, rfl⟩
    · intro hnil
      have hlength := congrArg List.length hnil
      rw [List.length_take, List.length_nil, hn] at hlength
      omega
    · intro heq
      have hlength := congrArg List.length heq
      rw [List.length_take, hn] at hlength
      omega
  · rintro ⟨place, hplace, hbegin, hproper, rfl⟩
    have hpos := List.length_pos_iff.mpr hplace
    have hlt : place.length < path.length := by
      refine lt_of_le_of_ne hbegin.length_le fun heq => hproper ?_
      exact hbegin.eq_of_length heq
    rw [hn] at hlt
    refine ⟨place.length - 1, by omega, ?_⟩
    rw [Nat.sub_add_cancel hpos, ← List.prefix_iff_eq_take.mp hbegin]
    rfl

theorem IsPath.of_prefix {place : RelPath} (h : IsPath path) (hbegin : place <+: path) :
    IsPath place :=
  fun name hname => h name (hbegin.subset hname)

theorem singleton_suffix_iff {name : String} {place : RelPath} :
    [name] <:+ place ↔ place.getLast? = some name := by
  constructor
  · rintro ⟨front, rfl⟩
    simp
  · intro h
    obtain ⟨front, rfl⟩ := List.getLast?_eq_some_iff.mp h
    exact ⟨front, rfl⟩

theorem exists_prefix_suffix_iff {name : String} {P : RelPath → Prop} :
    (∃ place, place <+: path ∧ P place ∧ [name] <:+ place) ↔
      ∃ front, front ++ [name] <+: path ∧ P (front ++ [name]) := by
  constructor
  · rintro ⟨place, hbegin, hp, front, rfl⟩
    exact ⟨front, hbegin, hp⟩
  · rintro ⟨front, hbegin, hp⟩
    exact ⟨front ++ [name], hbegin, hp, front, rfl⟩

theorem mem_iff_exists_start {name : String} : name ∈ path ↔ ∃ front, front ++ [name] <+: path := by
  constructor
  · intro h
    obtain ⟨front, back, rfl⟩ := List.append_of_mem h
    exact ⟨front, back, by simp⟩
  · rintro ⟨front, back, rfl⟩
    simp

/-- A bare name, and a pattern with slashes before and behind, are matched as they are meant. -/
theorem matches_iff_covers (hone : m.names.length = 1 → m.anchored = false)
    (hmany : m.names.length ≠ 1 → m.anchored = true ∧ m.directory = true) :
    m.Matches path ↔ m.Covers path := by
  by_cases h : m.names.length = 1
  · simp [LineMeaning.Matches, LineMeaning.Covers, LineMeaning.Names, h, hone h]
  · simp [LineMeaning.Matches, LineMeaning.Covers, LineMeaning.Names, h, hmany h]

/-- The rule of a line, at a path that it sees from its own directory. -/
theorem ruleMatchesPath_iff (hpath : path ≠ []) (hdir : IsPath dir) (h : IsPath path)
    (hnames : m.names ≠ []) (hslash : ∀ name ∈ m.names, '/' ∉ name.toList) :
    ruleMatchesPath (m.rule (text dir)) (text (dir ++ path)) = true ↔
      if m.names.length = 1 then ∃ place, place <+: path ∧ m.names <:+ place else path = m.names := by
  simp only [ruleMatchesPath, LineMeaning.rule, stripBase_eq hpath hdir, decide_eq_true_eq]
  by_cases hone : m.names.length = 1
  · obtain ⟨name, hname⟩ := List.length_eq_one_iff.mp hone
    have htext : text [name] = name := String.intercalate_singleton
    simp only [normalComponents_text hpath h, hname, htext, List.length_singleton, if_true,
      List.any_eq_true, decide_eq_true_eq, exists_eq_right]
    rw [mem_iff_exists_start]
    constructor
    · rintro ⟨front, hbegin⟩
      exact ⟨front ++ [name], hbegin, front, rfl⟩
    · rintro ⟨_, hbegin, front, rfl⟩
      exact ⟨front, hbegin⟩
  · simp only [if_neg hone, decide_eq_true_eq]
    exact text_inj hpath hnames h hslash

/-- The rule of a line matches the files that the line is read to match. -/
theorem ruleMatches_iff (hpath : path ≠ []) (hdir : IsPath dir) (h : IsPath path)
    (hnames : m.names ≠ []) (hslash : ∀ name ∈ m.names, '/' ∉ name.toList) :
    ruleMatches (m.rule (text dir)) (text (dir ++ path)) false = true ↔ m.Matches path := by
  cases hdirectory : m.directory with
  | false =>
      have hplain : ruleMatches (m.rule (text dir)) (text (dir ++ path)) false =
          ruleMatchesPath (m.rule (text dir)) (text (dir ++ path)) := by
        simp [ruleMatches, LineMeaning.rule, hdirectory]
      rw [hplain, ruleMatchesPath_iff hpath hdir h hnames hslash]
      simp [LineMeaning.Matches, hdirectory]
  | true =>
      have hbelow : ruleMatches (m.rule (text dir)) (text (dir ++ path)) false =
          directoryRuleMatchesFile (m.rule (text dir)) (text (dir ++ path)) := by
        simp [ruleMatches, LineMeaning.rule, hdirectory]
      have hbase : (m.rule (text dir)).base = text dir := rfl
      rw [hbelow]
      simp only [directoryRuleMatchesFile, hbase, stripBase_eq hpath hdir, List.any_eq_true,
        mem_properAncestors_iff hpath h]
      have hplace : ∀ place : RelPath, place ≠ [] → place <+: path →
          (ruleMatchesPath (m.rule (text dir)) (joinBase (text dir) (normalizePath (text place))) = true ↔
            if m.names.length = 1 then ∃ front, front <+: place ∧ m.names <:+ front
            else place = m.names) := by
        intro place hne hbegin
        have hplace := IsPath.of_prefix h hbegin
        rw [normalizePath_text hplace, joinBase_eq hne hdir]
        exact ruleMatchesPath_iff hne hdir hplace hnames hslash
      by_cases hone : m.names.length = 1
      · simp only [LineMeaning.Matches, if_pos hone, hdirectory, forall_const] at hplace ⊢
        constructor
        · rintro ⟨_, ⟨place, hne, hbegin, hproper, rfl⟩, hmatch⟩
          obtain ⟨front, hfront, hsuffix⟩ := (hplace place hne hbegin).mp hmatch
          refine ⟨front, hfront.trans hbegin, ?_, hsuffix⟩
          rintro rfl
          exact hproper (hbegin.eq_of_length_le hfront.length_le)
        · rintro ⟨place, hbegin, hproper, hsuffix⟩
          have hne : place ≠ [] := by
            rintro rfl
            exact hnames (List.suffix_nil.mp hsuffix)
          exact ⟨_, ⟨place, hne, hbegin, hproper, rfl⟩,
            (hplace place hne hbegin).mpr ⟨place, List.prefix_refl _, hsuffix⟩⟩
      · simp only [LineMeaning.Matches, if_neg hone, hdirectory, if_true] at hplace ⊢
        constructor
        · rintro ⟨_, ⟨place, hne, hbegin, hproper, rfl⟩, hmatch⟩
          exact ⟨place, hbegin, hproper, (hplace place hne hbegin).mp hmatch⟩
        · rintro ⟨place, hbegin, hproper, rfl⟩
          exact ⟨_, ⟨m.names, hnames, hbegin, hproper, rfl⟩,
            (hplace m.names hnames hbegin).mpr rfl⟩

end Match

section Decide

/-- What the lines of an ignore file say about a file below its directory. -/
def LinesIgnore (lines : List String) (path : RelPath) : Prop :=
  LastMatch.Decides (fun m : LineMeaning => m.Covers path) (fun m => m.negated = false)
    (lines.filterMap lineMeaning)

/-- The last line that covers or matches the file does both, or the lines before it, taken the
way in which that line does not apply, already decide as it says. -/
def LinesAgree (lines : List String) (path : RelPath) : Prop :=
  LastMatch.Agree (fun m : LineMeaning => m.Matches path) (fun m => m.Covers path)
    (fun m => m.negated = false) (lines.filterMap lineMeaning)

variable {newPattern : NewPattern} {dir path : RelPath} {lines : List String}

theorem isIgnored_iff (hliteral : Literal newPattern) (hlines : ∀ line ∈ lines, Plain line)
    (hdir : IsPath dir) (hpath : IsPath path) (hne : path ≠ []) :
    isIgnored (relativePath (dir ++ path)) false
        (lines.filterMap (parseIgnoreRule newPattern · (trimSlashes (relativePath dir)))) = true ↔
      LastMatch.Decides (fun m : LineMeaning => m.Matches path) (fun m => m.negated = false)
        (lines.filterMap lineMeaning) := by
  have hboth : IsPath (dir ++ path) := fun name hname => by
    cases List.mem_append.mp hname with
    | inl h => exact hdir name h
    | inr h => exact hpath name h
  have hrules : lines.filterMap (parseIgnoreRule newPattern · (trimSlashes (relativePath dir))) =
      (lines.filterMap lineMeaning).map (·.rule (text dir)) := by
    rw [relativePath_eq hdir, trimSlashes_text hdir, List.map_filterMap]
    exact List.filterMap_congr fun line hline => parseIgnoreRule_eq hliteral (hlines line hline)
  rw [hrules, relativePath_eq hboth, isIgnored, LastMatch.foldl_eq_true_iff, normalizePath_text hboth,
    LastMatch.decides_map]
  have haccepts : ((fun rule : IgnoreRule => (!rule.negated) = true) ∘ fun m : LineMeaning => m.rule (text dir)) =
      fun m => m.negated = false := by
    funext m
    simp [LineMeaning.rule]
  rw [haccepts]
  refine LastMatch.decides_congr fun m hm => ?_
  obtain ⟨line, _, hline⟩ := List.mem_filterMap.mp hm
  obtain ⟨hnames, hslash⟩ := lineMeaning_names hline
  exact ruleMatches_iff hne hdir hpath hnames hslash

/-- Exactly when an ignore file decides about a file as its lines mean it. -/
theorem ignored_as_meant_iff (hliteral : Literal newPattern) (hlines : ∀ line ∈ lines, Plain line)
    (hdir : IsPath dir) (hpath : IsPath path) (hne : path ≠ []) :
    (isIgnored (relativePath (dir ++ path)) false
        (lines.filterMap (parseIgnoreRule newPattern · (trimSlashes (relativePath dir)))) = true ↔
      LinesIgnore lines path) ↔ LinesAgree lines path := by
  rw [isIgnored_iff hliteral hlines hdir hpath hne]
  exact LastMatch.decides_iff_decides_iff

/-- Lines that name one file anywhere, or a directory by its path, are always followed. -/
theorem linesAgree_of_usual (h : ∀ m ∈ lines.filterMap lineMeaning,
    (m.names.length = 1 → m.anchored = false) ∧
      (m.names.length ≠ 1 → m.anchored = true ∧ m.directory = true)) : LinesAgree lines path := by
  intro front m back heq _
  have hm := h m (by rw [heq]; simp)
  have hiff : m.Matches path ↔ m.Covers path := matches_iff_covers hm.1 hm.2
  exact ⟨fun hmatches hnot => absurd (hiff.mp hmatches) hnot,
    fun hcovers hnot => absurd (hiff.mpr hcovers) hnot⟩

theorem comparePattern_literal : Literal comparePattern := fun _ _ => rfl

theorem plain_of_all {text : String}
    (h : text.toList.all (fun c => c ∉ ['*', '?', '[', ']', '\\']) = true) : Plain text := by
  intro c hc hglob
  have hnot := List.all_eq_true.mp h c hc
  simp only [List.mem_cons, List.not_mem_nil, or_false, decide_eq_true_eq] at hnot
  exact hnot hglob

theorem isName_of_decide {name : String} (h : name.toList ≠ [] ∧ name.toList ≠ ['.'] ∧
    name.toList ≠ ['.', '.'] ∧ '/' ∉ name.toList ∧ '\\' ∉ name.toList) : IsName name :=
  ⟨⟨h.1, h.2.1, h.2.2.1, h.2.2.2.1⟩, h.2.2.2.2⟩

theorem bare_name_as_meant :
    (isIgnored (relativePath ([] ++ ["src", "dist", "a.js"])) false
        (["dist"].filterMap (parseIgnoreRule comparePattern · (trimSlashes (relativePath [])))) = true ↔
      LinesIgnore ["dist"] ["src", "dist", "a.js"]) ↔ LinesAgree ["dist"] ["src", "dist", "a.js"] :=
  ignored_as_meant_iff comparePattern_literal
    (List.forall_mem_singleton.mpr (plain_of_all (by decide)))
    (fun _ h => absurd h List.not_mem_nil)
    (List.forall_mem_cons.mpr ⟨isName_of_decide (by decide), List.forall_mem_cons.mpr
      ⟨isName_of_decide (by decide), List.forall_mem_singleton.mpr (isName_of_decide (by decide))⟩⟩)
    (List.cons_ne_nil _ _)

/-- `/dist` also excludes what lies in `src/dist`. -/
theorem leading_slash_ignored :
    ¬ (isIgnored (relativePath ([] ++ ["src", "dist", "a.js"])) false
        (["/dist"].filterMap (parseIgnoreRule comparePattern · (trimSlashes (relativePath [])))) = true ↔
      LinesIgnore ["/dist"] ["src", "dist", "a.js"]) := by
  intro hiff
  have hignored : isIgnored (relativePath ([] ++ ["src", "dist", "a.js"])) false
      (["/dist"].filterMap (parseIgnoreRule comparePattern · (trimSlashes (relativePath [])))) = true := by
    decide +kernel
  have hmeaning : ["/dist"].filterMap lineMeaning = [⟨false, false, true, ["dist"]⟩] := by
    decide +kernel
  obtain ⟨front, m, back, heq, ⟨place, hbegin, _, hnames⟩, _⟩ := hiff.mp hignored
  have hm : m ∈ ["/dist"].filterMap lineMeaning := by
    rw [heq]
    simp
  rw [hmeaning, List.mem_singleton] at hm
  subst hm
  have hplace : place = ["dist"] := hnames
  rw [hplace] at hbegin
  exact absurd hbegin (by decide)

end Decide

end Snpm.Pack
