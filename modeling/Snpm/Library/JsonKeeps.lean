import Mathlib
import Snpm.Library.Json
import Snpm.Library.OrderedMap

/-!
What a rewritten JSON value keeps of the one it was read from: every member at
every depth with its value, besides nulls and objects without content. Decoders
of the usual shapes, and what reading and writing them keeps.
-/
namespace Json

/-- Null, or an object whose members are all void. -/
inductive Void : Json → Prop where
  | null : Void .null
  | object {members : List (String × Json)}
      (h : ∀ name v, member members name = some v → Void v) : Void (.object members)

/-- The second value has what the first one has. -/
inductive Keeps : Json → Json → Prop where
  | same (v : Json) : Keeps v v
  | array {items kept : List Json} (hlength : items.length = kept.length)
      (h : ∀ (i : Nat) v w, items[i]? = some v → kept[i]? = some w → Keeps v w) :
      Keeps (.array items) (.array kept)
  | object {members kept : List (String × Json)} (value : String → Json)
      (hkept : ∀ name v, member members name = some v → ¬ Void v →
        member kept name = some (value name))
      (h : ∀ name v, member members name = some v → ¬ Void v → Keeps v (value name)) :
      Keeps (.object members) (.object kept)

section Members

variable {members : List (String × Json)} {name : String}

theorem mem_of_member {v : Json} (h : member members name = some v) : (name, v) ∈ members := by
  obtain ⟨m, hm, rfl⟩ := Option.map_eq_some_iff.mp h
  have hname : m.1 = name := by simpa using List.find?_some hm
  rw [← hname]
  exact List.mem_reverse.mp (List.mem_of_find?_eq_some hm)

theorem member_eq_none_iff : member members name = none ↔ ∀ v, (name, v) ∉ members := by
  rw [member, Option.map_eq_none_iff, List.find?_eq_none]
  constructor
  · intro h v hmem
    exact h (name, v) (List.mem_reverse.mpr hmem) (decide_eq_true rfl)
  · intro h m hmem hname
    have heq : m.1 = name := of_decide_eq_true hname
    exact h m.2 (heq ▸ List.mem_reverse.mp hmem)

/-- Members that never give a name two values. -/
theorem member_eq_of_iff {o : Option Json} (h : ∀ v, (name, v) ∈ members ↔ o = some v) :
    member members name = o := by
  cases hmember : member members name with
  | some v => exact ((h v).mp (mem_of_member hmember)).symm
  | none =>
      cases o with
      | none => rfl
      | some v => exact absurd ((h v).mpr rfl) (member_eq_none_iff.mp hmember v)

theorem keeps_object_iff {kept : List (String × Json)} :
    Keeps (.object members) (.object kept) ↔ ∀ name v, member members name = some v →
      Void v ∨ ∃ w, member kept name = some w ∧ Keeps v w := by
  constructor
  · intro h name v hv
    cases h with
    | same => exact .inr ⟨v, hv, .same v⟩
    | object value hkept h =>
        by_cases hvoid : Void v
        · exact .inl hvoid
        · exact .inr ⟨value name, hkept name v hv hvoid, h name v hv hvoid⟩
  · intro h
    refine .object (fun name => (member kept name).getD .null) ?_ ?_
    · intro name v hv hvoid
      obtain ⟨w, hw, -⟩ := (h name v hv).resolve_left hvoid
      rw [hw, Option.getD_some]
    · intro name v hv hvoid
      obtain ⟨w, hw, hkeeps⟩ := (h name v hv).resolve_left hvoid
      rw [hw, Option.getD_some]
      exact hkeeps

/-- Only an object keeps an object. -/
theorem Keeps.object_of {v : Json} {kept : List (String × Json)} (h : Keeps v (.object kept)) :
    ∃ members, v = .object members := by
  cases h with
  | same => exact ⟨kept, rfl⟩
  | object => exact ⟨_, rfl⟩

end Members

section Decoders

variable {α : Type}

def asString : Json → Option String
  | .string text => some text
  | _ => none

def asStrings : Json → Option (List String)
  | .array items => items.mapM asString
  | _ => none

def asMapOf (decode : Json → Option α) : Json → Option (BTreeMap String α)
  | .object members =>
      (members.mapM fun m => (decode m.2).map fun x => (m.1, x)).map BTreeMap.collect
  | _ => none

def asOptional (decode : Json → Option α) : Json → Option (Option α)
  | .null => some none
  | v => (decode v).map some

/-- The value of a field; a name that is given twice is refused. -/
def field (members : List (String × Json)) (name : String) (default : α)
    (decode : Json → Option α) : Option α :=
  match members.filter fun m => m.1 = name with
  | [] => some default
  | [m] => decode m.2
  | _ => none

def ofStrings (texts : List String) : Json := .array (texts.map .string)

def ofMap (encode : α → Json) (m : BTreeMap String α) : Json :=
  .object (m.toList.map fun entry => (entry.1, encode entry.2))

/-- The members that are there. -/
def present (fields : List (String × Option Json)) : List (String × Json) :=
  fields.filterMap fun f => f.2.map fun v => (f.1, v)

/-- The object with the members that are there, in the order of their names. -/
def ofFields (fields : List (String × Option Json)) : Json :=
  ofMap id (BTreeMap.collect (present fields))

theorem field_some {members : List (String × Json)} {name : String} {default x : α}
    {decode : Json → Option α} (h : field members name default decode = some x) :
    (member members name = none ∧ x = default) ∨
      ∃ v, member members name = some v ∧ decode v = some x := by
  have hiff : ∀ v, (name, v) ∈ members ↔ (name, v) ∈ members.filter fun m => m.1 = name := by
    intro v
    rw [List.mem_filter]
    exact ⟨fun h => ⟨h, decide_eq_true rfl⟩, fun h => h.1⟩
  unfold field at h
  split at h
  next hnil =>
      cases h
      refine .inl ⟨member_eq_none_iff.mpr ?_, rfl⟩
      intro v hmem
      have hfilter := (hiff v).mp hmem
      rw [hnil] at hfilter
      exact absurd hfilter List.not_mem_nil
  next m hone =>
      refine .inr ⟨m.2, member_eq_of_iff ?_, h⟩
      intro v
      rw [hiff, hone, List.mem_singleton]
      have hname : m.1 = name := by
        have hmem : m ∈ members.filter fun m => m.1 = name := hone ▸ List.mem_cons_self
        exact of_decide_eq_true (List.mem_filter.mp hmem).2
      constructor
      · intro heq
        rw [← heq]
      · intro heq
        rw [← Option.some.inj heq, ← hname]
  next => cases h

theorem member_ofMap (encode : α → Json) (m : BTreeMap String α) (name : String) :
    member (m.toList.map fun entry => (entry.1, encode entry.2)) name = (m[name]?).map encode := by
  apply member_eq_of_iff
  intro v
  rw [List.mem_map, Option.map_eq_some_iff]
  constructor
  · intro h
    obtain ⟨entry, hentry, heq⟩ := h
    cases heq
    exact ⟨entry.2, Std.ExtTreeMap.mem_toList_iff_getElem?_eq_some.mp hentry, rfl⟩
  · intro h
    obtain ⟨x, hx, rfl⟩ := h
    exact ⟨(name, x), Std.ExtTreeMap.mem_toList_iff_getElem?_eq_some.mpr hx, rfl⟩

theorem mem_present {fields : List (String × Option Json)} {name : String} {v : Json} :
    (name, v) ∈ present fields ↔ (name, some v) ∈ fields := by
  rw [present, List.mem_filterMap]
  constructor
  · intro h
    obtain ⟨f, hf, heq⟩ := h
    obtain ⟨w, hw, hpair⟩ := Option.map_eq_some_iff.mp heq
    cases hpair
    rw [← hw]
    exact hf
  · intro h
    exact ⟨(name, some v), h, rfl⟩

/-- Fields that have different names. -/
theorem collect_present {fields : List (String × Option Json)} (h : (fields.map (·.1)).Nodup)
    {name : String} {o : Option Json} (hmem : (name, o) ∈ fields) :
    (BTreeMap.collect (present fields))[name]? = o := by
  have hunique : ∀ f ∈ fields, ∀ g ∈ fields, f.1 = g.1 → f = g := List.inj_on_of_nodup_map h
  have hagree : ∀ p ∈ present fields, ∀ q ∈ present fields, p.1 = q.1 → p.2 = q.2 := by
    intro p hp q hq heq
    have hsame := hunique _ (mem_present.mp hp) _ (mem_present.mp hq) heq
    exact Option.some.inj (congrArg Prod.snd hsame)
  cases o with
  | some v => exact (BTreeMap.getElem?_collect hagree name v).mpr (mem_present.mpr hmem)
  | none =>
      cases hfound : (BTreeMap.collect (present fields))[name]? with
      | none => rfl
      | some v =>
          have hother := mem_present.mp ((BTreeMap.getElem?_collect hagree name v).mp hfound)
          exact congrArg Prod.snd (hunique _ hother _ hmem rfl)

theorem collect_present_none {fields : List (String × Option Json)} {name : String}
    (h : name ∉ fields.map (·.1)) : (BTreeMap.collect (present fields))[name]? = none := by
  cases hfound : (BTreeMap.collect (present fields))[name]? with
  | none => rfl
  | some v =>
      have hmem := mem_present.mp (BTreeMap.mem_of_getElem?_collect hfound)
      exact absurd (List.mem_map_of_mem hmem) h

end Decoders

section Roundtrips

variable {α : Type} {decode : Json → Option α}

/-- What is read is written back, or was void. -/
def Roundtrips (decode : Json → Option α) (encode : α → Option Json) : Prop :=
  ∀ v x, decode v = some x → Void v ∨ ∃ w, encode x = some w ∧ Keeps v w

theorem asString_some {v : Json} {text : String} (h : asString v = some text) : v = .string text := by
  cases v with
  | string found =>
      cases h
      rfl
  | null | bool | number | array | object => cases h

theorem mapM_asString_some {items : List Json} {texts : List String}
    (h : items.mapM asString = some texts) : items = texts.map .string := by
  induction items generalizing texts with
  | nil =>
      cases h
      rfl
  | cons item items ih =>
      rw [List.mapM_cons] at h
      obtain ⟨text, htext, h⟩ := Option.bind_eq_some_iff.mp h
      obtain ⟨rest, hrest, h⟩ := Option.bind_eq_some_iff.mp h
      cases h
      rw [List.map_cons, ← ih hrest, asString_some htext]

theorem asStrings_some {v : Json} {texts : List String} (h : asStrings v = some texts) :
    v = ofStrings texts := by
  cases v with
  | array items => exact congrArg Json.array (mapM_asString_some h)
  | null | bool | number | string | object => cases h

theorem roundtrips_string : Roundtrips asString fun text => some (.string text) := by
  intro v text h
  rw [asString_some h]
  exact .inr ⟨_, rfl, .same _⟩

theorem roundtrips_strings : Roundtrips asStrings fun texts => some (ofStrings texts) := by
  intro v texts h
  rw [asStrings_some h]
  exact .inr ⟨_, rfl, .same _⟩

theorem member_cons (m : String × Json) (members : List (String × Json)) (name : String) :
    member (m :: members) name =
      (member members name).or (if m.1 = name then some m.2 else none) := by
  rw [member, member, List.reverse_cons, List.find?_append]
  cases members.reverse.find? fun m => decide (m.1 = name) with
  | some found => rfl
  | none =>
      by_cases hname : m.1 = name
      · simp [hname]
      · simp [hname]

/-- Entries that are read from members, added to a map. -/
theorem foldl_mapM_members {members : List (String × Json)} {pairs : List (String × α)}
    (h : (members.mapM fun m => (decode m.2).map fun x => (m.1, x)) = some pairs)
    (acc : BTreeMap String α) (name : String) :
    (member members name = none ∧
      (pairs.foldl (fun acc p => acc.insert p.1 p.2) acc)[name]? = acc[name]?) ∨
    ∃ v x, member members name = some v ∧ decode v = some x ∧
      (pairs.foldl (fun acc p => acc.insert p.1 p.2) acc)[name]? = some x := by
  induction members generalizing pairs acc with
  | nil =>
      cases h
      exact .inl ⟨rfl, rfl⟩
  | cons m members ih =>
      rw [List.mapM_cons] at h
      obtain ⟨pair, hpair, h⟩ := Option.bind_eq_some_iff.mp h
      obtain ⟨rest, hrest, h⟩ := Option.bind_eq_some_iff.mp h
      cases h
      obtain ⟨x, hx, rfl⟩ := Option.map_eq_some_iff.mp hpair
      rw [member_cons, List.foldl_cons]
      cases ih hrest (acc.insert m.1 x) with
      | inr hfound =>
          obtain ⟨v, y, hv, hy, hlookup⟩ := hfound
          exact .inr ⟨v, y, by rw [hv, Option.some_or], hy, hlookup⟩
      | inl hnone =>
          rw [hnone.1, hnone.2, Option.none_or, BTreeMap.getElem?_insert_self_or]
          by_cases hname : m.1 = name
          · rw [if_pos hname, if_pos hname]
            exact .inr ⟨m.2, x, rfl, hx, rfl⟩
          · rw [if_neg hname, if_neg hname]
            exact .inl ⟨rfl, rfl⟩

/-- The last member of a name is collected. -/
theorem getElem?_collect (members : List (String × Json)) (name : String) :
    (BTreeMap.collect members)[name]? = member members name := by
  have hpairs : (members.mapM fun m => (some m.2).map fun x => (m.1, x)) = some members := by
    induction members with
    | nil => rfl
    | cons m members ih =>
        rw [List.mapM_cons, ih]
        rfl
  have hfold := foldl_mapM_members hpairs ∅ name
  rw [Std.ExtTreeMap.getElem?_empty] at hfold
  cases hfold with
  | inl hnone => exact hnone.2.trans hnone.1.symm
  | inr hsome =>
      obtain ⟨v, x, hv, hx, hlookup⟩ := hsome
      cases hx
      exact hlookup.trans hv.symm

theorem asMapOf_some {v : Json} {m : BTreeMap String α} (h : asMapOf decode v = some m) :
    ∃ members, v = .object members ∧ ∀ name : String,
      (member members name = none ∧ m[name]? = none) ∨
        ∃ w x, member members name = some w ∧ decode w = some x ∧ m[name]? = some x := by
  cases v with
  | object members =>
      obtain ⟨pairs, hpairs, rfl⟩ := Option.map_eq_some_iff.mp h
      refine ⟨members, rfl, ?_⟩
      intro name
      have hfold := foldl_mapM_members hpairs ∅ name
      rw [Std.ExtTreeMap.getElem?_empty] at hfold
      exact hfold
  | null | bool | number | string | array => cases h

/-- A map that was written is read back. -/
theorem asMapOf_ofMap {encode : α → Json} (hinverse : ∀ x, decode (encode x) = some x)
    {m n : BTreeMap String α} (h : asMapOf decode (ofMap encode m) = some n) : n = m := by
  obtain ⟨members, hmembers, hn⟩ := asMapOf_some h
  cases hmembers
  apply Std.ExtTreeMap.ext_getElem?
  intro name
  cases hn name with
  | inl hnone =>
      rw [member_ofMap, Option.map_eq_none_iff] at hnone
      exact hnone.2.trans hnone.1.symm
  | inr hsome =>
      obtain ⟨w, x, hw, hx, hlookup⟩ := hsome
      rw [member_ofMap] at hw
      obtain ⟨y, hy, rfl⟩ := Option.map_eq_some_iff.mp hw
      cases (hinverse y).symm.trans hx
      exact hlookup.trans hy.symm

theorem keeps_ofMap {encode : α → Json} (hvalue : ∀ v x, decode v = some x → Keeps v (encode x))
    {v : Json} {m : BTreeMap String α} (h : asMapOf decode v = some m) :
    Keeps v (ofMap encode m) := by
  obtain ⟨members, rfl, hm⟩ := asMapOf_some h
  rw [ofMap, keeps_object_iff]
  intro name v hv
  cases hm name with
  | inl hnone =>
      rw [hnone.1] at hv
      cases hv
  | inr hsome =>
      obtain ⟨w, x, hw, hx, hlookup⟩ := hsome
      rw [hw] at hv
      cases hv
      refine .inr ⟨encode x, ?_, hvalue v x hx⟩
      rw [member_ofMap, hlookup, Option.map_some]

/-- A map that is left out when it is empty. -/
theorem roundtrips_map {encode : α → Json}
    (hvalue : ∀ v x, decode v = some x → Keeps v (encode x)) :
    Roundtrips (asMapOf decode) fun m => if m.isEmpty then none else some (ofMap encode m) := by
  intro v m h
  dsimp only
  cases hempty : m.isEmpty with
  | false => exact .inr ⟨_, rfl, keeps_ofMap hvalue h⟩
  | true =>
      obtain ⟨members, rfl, hm⟩ := asMapOf_some h
      refine .inl (.object ?_)
      intro name v hv
      cases hm name with
      | inl hnone =>
          rw [hnone.1] at hv
          cases hv
      | inr hsome =>
          obtain ⟨w, x, -, -, hlookup⟩ := hsome
          rw [Std.ExtTreeMap.isEmpty_iff.mp hempty, Std.ExtTreeMap.getElem?_empty] at hlookup
          cases hlookup

theorem roundtrips_optional {encode : α → Option Json} (h : Roundtrips decode encode) :
    Roundtrips (asOptional decode) fun o => o.bind encode := by
  intro v o hv
  cases v with
  | null => exact .inl .null
  | bool | number | string | array | object =>
      obtain ⟨x, hx, rfl⟩ := Option.map_eq_some_iff.mp hv
      exact h _ x hx

end Roundtrips

end Json
