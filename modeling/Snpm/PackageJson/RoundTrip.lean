import Mathlib
import Snpm.PackageJson.Manifest

/-!
What of a manifest is written back. The members of the document that the
manifest does not know are kept, but the records inside it drop theirs.
-/
namespace Snpm.PackageJson

open Json (Void Keeps member keeps_object_iff Roundtrips ofFields ofStrings ofMap present
  asString asStrings asMapOf asOptional field)

section Document

/-- The flag that a manifest has; without the member it is not private. -/
def privateFlag (members : List (String × Json)) : Option Bool :=
  match member members "private" with
  | none => some false
  | some v => readBoolish v

/-- Every member is kept, and the private flag by its meaning. -/
structure KeepsDocument (members kept : List (String × Json)) : Prop where
  values : ∀ name v, name ≠ "private" → member members name = some v →
    Void v ∨ ∃ w, member kept name = some w ∧ Keeps v w
  flag : privateFlag members = privateFlag kept

/-- An object that has members with these names only. -/
def HasOnly (names : List String) (v : Json) : Prop :=
  Void v ∨ ∃ members, v = .object members ∧
    ∀ name w, member members name = some w → Void w ∨ name ∈ names

/-- A publish section with known members and without empty lists. -/
structure KnownPublish (v : Json) : Prop where
  names : HasOnly ["deny", "allowRisks", "maxFiles", "maxBytes", "sourceMaps"] v
  lists : ∀ members, v = .object members → member members "deny" ≠ some (.array []) ∧
    member members "allowRisks" ≠ some (.array [])

structure KnownSnpm (v : Json) : Prop where
  names : HasOnly ["overrides", "patchedDependencies", "publish"] v
  publish : ∀ members publish, v = .object members → member members "publish" = some publish →
    KnownPublish publish

/-- The records of a manifest have members that the manifest knows. -/
structure KnownRecords (members : List (String × Json)) : Prop where
  pnpm : ∀ v, member members "pnpm" = some v → HasOnly ["overrides", "patchedDependencies"] v
  snpm : ∀ v, member members "snpm" = some v → KnownSnpm v
  workspaces : ∀ v, member members "workspaces" = some v →
    (∃ items, v = .array items) ∨ HasOnly ["packages", "catalog", "catalogs"] v

end Document

section Values

theorem keeps_string {v : Json} {text : String} (h : asString v = some text) :
    Keeps v (.string text) := by
  rw [Json.asString_some h]
  exact .same _

theorem keeps_stringMap {v : Json} {m : BTreeMap String String} (h : readStringMap v = some m) :
    Keeps v (writeStringMap m) :=
  Json.keeps_ofMap (fun _ _ => keeps_string) h

theorem roundtrips_stringMap : Roundtrips readStringMap (writtenMap .string) :=
  Json.roundtrips_map fun _ _ => keeps_string

theorem roundtrips_of_keeps {α : Type} {decode : Json → Option α} {encode : α → Json}
    (h : ∀ v x, decode v = some x → Keeps v (encode x)) :
    Roundtrips (asOptional decode) fun o => o.map encode := by
  intro v o ho
  cases v with
  | null => exact .inl .null
  | bool | number | string | array | object =>
      obtain ⟨x, hx, rfl⟩ := Option.map_eq_some_iff.mp ho
      exact .inr ⟨encode x, rfl, h _ x hx⟩

theorem keeps_unsigned {v : Json} {n : Unsigned} (h : readUnsigned v = some n) :
    Keeps v (writeUnsigned n) := by
  cases v with
  | number text =>
      unfold readUnsigned at h
      dsimp only at h
      split at h
      next =>
          cases h
          exact .same _
      next => cases h
  | null | bool | string | array | object => cases h

theorem sourceMapPolicy_text {name : String} {policy : SourceMapPolicy}
    (h : sourceMapPolicyOf name = some policy) : policy.text = name := by
  unfold sourceMapPolicyOf at h
  split at h
  next heq =>
      cases h
      exact heq.symm
  next =>
      split at h
      next heq =>
          cases h
          exact heq.symm
      next =>
          split at h
          next heq =>
              cases h
              exact heq.symm
          next => cases h

theorem void_singleton_null (name : String) : Void (.object [(name, .null)]) := by
  refine .object ?_
  intro other v hv
  have hmem := Json.mem_of_member hv
  rw [List.mem_singleton, Prod.mk.injEq] at hmem
  rw [hmem.2]
  exact .null

theorem roundtrips_sourceMaps : Roundtrips (asOptional readSourceMaps) fun o =>
    o.map fun policy => .string policy.text := by
  intro v o ho
  unfold asOptional at ho
  split at ho
  next => exact .inl .null
  next =>
      obtain ⟨policy, hpolicy, rfl⟩ := Option.map_eq_some_iff.mp ho
      unfold readSourceMaps at hpolicy
      split at hpolicy
      next name =>
          refine .inr ⟨.string policy.text, rfl, ?_⟩
          rw [sourceMapPolicy_text hpolicy]
          exact .same _
      next => exact .inl (void_singleton_null _)
      next => cases hpolicy

theorem keeps_bin {v : Json} {bin : BinField} (h : readBin v = some bin) :
    Keeps v (writeBin bin) := by
  unfold readBin at h
  split at h
  next path =>
      cases h
      exact .same _
  next =>
      obtain ⟨paths, hpaths, rfl⟩ := Option.map_eq_some_iff.mp h
      exact keeps_stringMap hpaths

theorem keeps_strings {v : Json} {texts : List String} (h : asStrings v = some texts) :
    Keeps v (ofStrings texts) := by
  rw [Json.asStrings_some h]
  exact .same _

theorem not_void_array (items : List Json) : ¬ Void (.array items) := by
  intro h
  cases h

end Values

section Fields

variable {α : Type} {members : List (String × Json)} {name : String}

/-- The member of a field is kept in what is written for it. -/
def FieldKept (members : List (String × Json)) (f : String × Option Json) : Prop :=
  ∀ v, member members f.1 = some v → Void v ∨ ∃ w, f.2 = some w ∧ Keeps v w

theorem fieldKept_of_roundtrips {decode : Json → Option α} {encode : α → Option Json} {default x : α}
    (h : Roundtrips decode encode) (hx : field members name default decode = some x) :
    FieldKept members (name, encode x) := by
  intro v hv
  cases Json.field_some hx with
  | inl hnone =>
      rw [hnone.1] at hv
      cases hv
  | inr hsome =>
      obtain ⟨w, hw, hdecode⟩ := hsome
      rw [hw] at hv
      cases hv
      exact h _ x hdecode

theorem keeps_ofFields_iff {fields : List (String × Option Json)}
    (h : (fields.map (·.1)).Nodup) :
    Keeps (.object members) (ofFields fields) ↔
      (∀ name v, member members name = some v → Void v ∨ name ∈ fields.map (·.1)) ∧
        ∀ f ∈ fields, FieldKept members f := by
  have hmember : ∀ name, member ((BTreeMap.collect (present fields)).toList.map fun entry =>
      (entry.1, id entry.2)) name = (BTreeMap.collect (present fields))[name]? := by
    intro name
    rw [Json.member_ofMap, Option.map_id]
    rfl
  rw [ofFields, ofMap, keeps_object_iff]
  constructor
  · intro hkeeps
    constructor
    · intro name v hv
      refine (hkeeps name v hv).imp_right ?_
      intro hkept
      obtain ⟨w, hw, -⟩ := hkept
      by_contra hname
      rw [hmember, Json.collect_present_none hname] at hw
      cases hw
    · intro f hf v hv
      have hkept := hkeeps f.1 v hv
      rw [hmember, Json.collect_present h hf] at hkept
      exact hkept
  · intro hkept name v hv
    cases hkept.1 name v hv with
    | inl hvoid => exact .inl hvoid
    | inr hname =>
        obtain ⟨f, hf, rfl⟩ := List.mem_map.mp hname
        rw [hmember, Json.collect_present h hf]
        exact hkept.2 f hf v hv

/-- A list that is left out when it is empty. -/
theorem fieldKept_list_iff {texts : List String}
    (h : field members name [] asStrings = some texts) :
    FieldKept members (name, writtenList texts) ↔ member members name ≠ some (.array []) := by
  cases Json.field_some h with
  | inl hnone =>
      refine iff_of_true ?_ (by rw [hnone.1]; exact (Option.some_ne_none _).symm)
      intro v hv
      rw [hnone.1] at hv
      cases hv
  | inr hsome =>
      obtain ⟨v, hv, hdecode⟩ := hsome
      have hstrings := Json.asStrings_some hdecode
      cases texts with
      | nil =>
          refine iff_of_false ?_ (not_not.mpr (hv.trans (congrArg some hstrings)))
          intro hkept
          cases hkept v hv with
          | inl hvoid =>
              rw [hstrings] at hvoid
              exact not_void_array [] hvoid
          | inr hkept =>
              obtain ⟨w, hw, -⟩ := hkept
              cases hw
      | cons text texts =>
          refine iff_of_true ?_ ?_
          · intro w hw
            rw [hv] at hw
            cases hw
            rw [hstrings]
            exact .inr ⟨_, rfl, .same _⟩
          · rw [hv, hstrings]
            intro heq
            cases heq

end Fields

section Records

theorem roundtrips_map_stringMap : Roundtrips (asOptional readStringMap) fun o =>
    o.map writeStringMap :=
  roundtrips_of_keeps fun _ _ => keeps_stringMap

theorem roundtrips_written_stringMap :
    Roundtrips readStringMap fun m => some (writeStringMap m) :=
  fun _ _ h => .inr ⟨_, rfl, keeps_stringMap h⟩

theorem recordKept_of_roundtrips {α : Type} {members : List (String × Json)} {name : String}
    {index : Nat} {decode : Json → Option α} {encode : α → Option Json} {default x : α}
    (h : Roundtrips decode encode)
    (hx : recordField (.object members) index name default decode = some x) :
    FieldKept members (name, encode x) :=
  fieldKept_of_roundtrips h hx

/-- A record is kept when it is an object with known members whose fields are. -/
theorem record_kept_iff {v : Json} {fields : List (String × Option Json)} {size : Nat}
    (names : List String) (hnames : fields.map (·.1) = names) (hnodup : names.Nodup)
    (hrecord : isRecord size v = true) :
    (Void v ∨ Keeps v (ofFields fields)) ↔
      HasOnly names v ∧
        (Void v ∨ ∀ members, v = .object members → ∀ f ∈ fields, FieldKept members f) := by
  subst hnames
  cases v with
  | object members =>
      rw [keeps_ofFields_iff hnodup]
      constructor
      · intro h
        cases h with
        | inl hvoid => exact ⟨.inl hvoid, .inl hvoid⟩
        | inr h =>
            refine ⟨.inr ⟨members, rfl, h.1⟩, .inr ?_⟩
            intro other hother
            cases hother
            exact h.2
      · intro h
        obtain ⟨honly, hkept⟩ := h
        cases hkept with
        | inl hvoid => exact .inl hvoid
        | inr hkept =>
            cases honly with
            | inl hvoid => exact .inl hvoid
            | inr honly =>
                obtain ⟨other, hother, hnames⟩ := honly
                cases hother
                exact .inr ⟨hnames, hkept members rfl⟩
  | array items =>
      refine iff_of_false ?_ ?_
      · intro h
        cases h with
        | inl hvoid => exact not_void_array items hvoid
        | inr hkeeps =>
            obtain ⟨members, hmembers⟩ := Json.Keeps.object_of hkeeps
            cases hmembers
      · intro h
        cases h.1 with
        | inl hvoid => exact not_void_array items hvoid
        | inr honly =>
            obtain ⟨members, hmembers, -⟩ := honly
            cases hmembers
  | null | bool | number | string => cases hrecord

theorem void_member {members : List (String × Json)} {name : String} {v : Json}
    (h : Void (.object members)) (hv : member members name = some v) : Void v := by
  cases h with
  | object h => exact h name v hv

theorem pnpm_kept_iff {v : Json} {pnpm : ManifestPnpm} (h : readPnpm v = some pnpm) :
    (Void v ∨ Keeps v (writePnpm pnpm)) ↔ HasOnly ["overrides", "patchedDependencies"] v := by
  unfold readPnpm at h
  split at h
  next => cases h
  next hrecord =>
      obtain ⟨overrides, hoverrides, h⟩ := Option.bind_eq_some_iff.mp h
      obtain ⟨patched, hpatched, h⟩ := Option.bind_eq_some_iff.mp h
      cases h
      rw [writePnpm, record_kept_iff ["overrides", "patchedDependencies"] rfl (by decide) (not_not.mp hrecord)]
      refine and_iff_left (.inr ?_)
      intro members hmembers
      subst hmembers
      refine List.forall_mem_cons.mpr ⟨?_, List.forall_mem_cons.mpr ⟨?_, ?_⟩⟩
      · have hkept := recordKept_of_roundtrips roundtrips_written_stringMap hoverrides
        exact hkept
      · have hkept := recordKept_of_roundtrips roundtrips_map_stringMap hpatched
        exact hkept
      · exact fun _ hf => absurd hf List.not_mem_nil

theorem publish_kept_iff {v : Json} {publish : ManifestSnpmPublish}
    (h : readPublish v = some publish) :
    (Void v ∨ Keeps v (writePublish publish)) ↔ KnownPublish v := by
  unfold readPublish at h
  split at h
  next => cases h
  next hrecord =>
      obtain ⟨deny, hdeny, h⟩ := Option.bind_eq_some_iff.mp h
      obtain ⟨allowRisks, hallowRisks, h⟩ := Option.bind_eq_some_iff.mp h
      obtain ⟨maxFiles, hmaxFiles, h⟩ := Option.bind_eq_some_iff.mp h
      obtain ⟨maxBytes, hmaxBytes, h⟩ := Option.bind_eq_some_iff.mp h
      obtain ⟨sourceMaps, hsourceMaps, h⟩ := Option.bind_eq_some_iff.mp h
      cases h
      rw [writePublish, record_kept_iff ["deny", "allowRisks", "maxFiles", "maxBytes", "sourceMaps"] rfl (by decide) (not_not.mp hrecord)]
      constructor
      · intro hkept
        refine ⟨hkept.1, ?_⟩
        intro members hmembers
        subst hmembers
        cases hkept.2 with
        | inl hvoid =>
            exact ⟨fun hlist => not_void_array [] (void_member hvoid hlist),
              fun hlist => not_void_array [] (void_member hvoid hlist)⟩
        | inr hfields =>
            have hall := hfields members rfl
            exact ⟨(fieldKept_list_iff hdeny).mp (hall _ List.mem_cons_self),
              (fieldKept_list_iff hallowRisks).mp
                (hall _ (List.mem_cons_of_mem _ List.mem_cons_self))⟩
      · intro hknown
        refine ⟨hknown.names, .inr ?_⟩
        intro members hmembers
        subst hmembers
        have hlists := hknown.lists members rfl
        refine List.forall_mem_cons.mpr ⟨(fieldKept_list_iff hdeny).mpr hlists.1, ?_⟩
        refine List.forall_mem_cons.mpr ⟨(fieldKept_list_iff hallowRisks).mpr hlists.2, ?_⟩
        refine List.forall_mem_cons.mpr ⟨?_, List.forall_mem_cons.mpr ⟨?_,
          List.forall_mem_cons.mpr ⟨?_, ?_⟩⟩⟩
        · have hkept := recordKept_of_roundtrips (roundtrips_of_keeps fun _ _ => keeps_unsigned) hmaxFiles
          exact hkept
        · have hkept := recordKept_of_roundtrips (roundtrips_of_keeps fun _ _ => keeps_unsigned) hmaxBytes
          exact hkept
        · have hkept := recordKept_of_roundtrips roundtrips_sourceMaps hsourceMaps
          exact hkept
        · exact fun _ hf => absurd hf List.not_mem_nil

/-- A void publish section is a known one. -/
theorem knownPublish_of_void {v : Json} (h : Void v) : KnownPublish v := by
  refine ⟨.inl h, ?_⟩
  intro members hmembers
  subst hmembers
  exact ⟨fun hlist => not_void_array [] (void_member h hlist),
    fun hlist => not_void_array [] (void_member h hlist)⟩

/-- A record that may be null. -/
theorem optional_field_kept_iff {α : Type} {members : List (String × Json)} {name : String}
    {decode : Json → Option α} {encode : α → Json} {o : Option α} (Known : Json → Prop)
    (h : field members name none (asOptional decode) = some o) (hnull : Known .null)
    (hknown : ∀ v x, decode v = some x → ((Void v ∨ Keeps v (encode x)) ↔ Known v)) :
    FieldKept members (name, o.map encode) ↔ ∀ v, member members name = some v → Known v := by
  have hvalue : ∀ v, member members name = some v →
      ((Void v ∨ ∃ w, o.map encode = some w ∧ Keeps v w) ↔ Known v) := by
    intro v hv
    cases Json.field_some h with
    | inl hnone =>
        rw [hnone.1] at hv
        cases hv
    | inr hsome =>
        obtain ⟨w, hw, hread⟩ := hsome
        rw [hw] at hv
        cases hv
        unfold asOptional at hread
        split at hread
        next => exact iff_of_true (.inl .null) hnull
        next =>
            obtain ⟨found, hfound, rfl⟩ := Option.map_eq_some_iff.mp hread
            rw [← hknown _ _ hfound]
            refine or_congr_right ?_
            constructor
            · intro hkept
              obtain ⟨w, hw, hkeeps⟩ := hkept
              cases hw
              exact hkeeps
            · exact fun hkeeps => ⟨_, rfl, hkeeps⟩
  constructor
  · exact fun hkept v hv => (hvalue v hv).mp (hkept v hv)
  · exact fun hall v hv => (hvalue v hv).mpr (hall v hv)

theorem publish_field_kept_iff {members : List (String × Json)}
    {publish : Option ManifestSnpmPublish}
    (h : field members "publish" none (asOptional readPublish) = some publish) :
    FieldKept members ("publish", publish.map writePublish) ↔
      ∀ v, member members "publish" = some v → KnownPublish v :=
  optional_field_kept_iff KnownPublish h (knownPublish_of_void .null) fun _ _ => publish_kept_iff

theorem snpm_kept_iff {v : Json} {snpm : ManifestSnpm} (h : readSnpm v = some snpm) :
    (Void v ∨ Keeps v (writeSnpm snpm)) ↔ KnownSnpm v := by
  unfold readSnpm at h
  split at h
  next => cases h
  next hrecord =>
      obtain ⟨overrides, hoverrides, h⟩ := Option.bind_eq_some_iff.mp h
      obtain ⟨patched, hpatched, h⟩ := Option.bind_eq_some_iff.mp h
      obtain ⟨publish, hpublish, h⟩ := Option.bind_eq_some_iff.mp h
      cases h
      rw [writeSnpm, record_kept_iff ["overrides", "patchedDependencies", "publish"] rfl (by decide) (not_not.mp hrecord)]
      constructor
      · intro hkept
        refine ⟨hkept.1, ?_⟩
        intro members publishValue hmembers hvalue
        subst hmembers
        cases hkept.2 with
        | inl hvoid => exact knownPublish_of_void (void_member hvoid hvalue)
        | inr hfields =>
            have hfield := hfields members rfl _
              (List.mem_cons_of_mem _ (List.mem_cons_of_mem _ List.mem_cons_self))
            exact (publish_field_kept_iff hpublish).mp hfield publishValue hvalue
      · intro hknown
        refine ⟨hknown.names, .inr ?_⟩
        intro members hmembers
        subst hmembers
        refine List.forall_mem_cons.mpr ⟨?_, List.forall_mem_cons.mpr ⟨?_,
          List.forall_mem_cons.mpr ⟨?_, ?_⟩⟩⟩
        · have hkept := recordKept_of_roundtrips roundtrips_written_stringMap hoverrides
          exact hkept
        · have hkept := recordKept_of_roundtrips roundtrips_map_stringMap hpatched
          exact hkept
        · exact (publish_field_kept_iff hpublish).mpr fun value hvalue =>
            hknown.publish members value rfl hvalue
        · exact fun _ hf => absurd hf List.not_mem_nil

theorem knownSnpm_of_void {v : Json} (h : Void v) : KnownSnpm v := by
  refine ⟨.inl h, ?_⟩
  intro members publish hmembers hpublish
  subst hmembers
  exact knownPublish_of_void (void_member h hpublish)

theorem packages_kept {members : List (String × Json)} {packages : List String}
    (h : requiredField members "packages" asStrings = some packages) :
    FieldKept members ("packages", some (ofStrings packages)) := by
  obtain ⟨found, hfound, heq⟩ := Option.bind_eq_some_iff.mp h
  rw [id] at heq
  subst heq
  intro v hv
  cases Json.field_some hfound with
  | inl hnone => cases hnone.2
  | inr hsome =>
      obtain ⟨w, hw, hdecode⟩ := hsome
      rw [hw] at hv
      cases hv
      obtain ⟨texts, htexts, heq⟩ := Option.map_eq_some_iff.mp hdecode
      cases heq
      exact .inr ⟨_, rfl, keeps_strings htexts⟩

theorem workspaces_kept_iff {v : Json} {workspaces : WorkspacesField}
    (h : readWorkspaces v = some workspaces) :
    (Void v ∨ Keeps v (writeWorkspaces workspaces)) ↔
      (∃ items, v = .array items) ∨ HasOnly ["packages", "catalog", "catalogs"] v := by
  cases v with
  | array items =>
      obtain ⟨patterns, hpatterns, rfl⟩ := Option.map_eq_some_iff.mp h
      exact iff_of_true (.inr (keeps_strings hpatterns)) (.inl ⟨items, rfl⟩)
  | object members =>
      unfold readWorkspaces at h
      obtain ⟨packages, hpackages, h⟩ := Option.bind_eq_some_iff.mp h
      obtain ⟨catalog, hcatalog, h⟩ := Option.bind_eq_some_iff.mp h
      obtain ⟨catalogs, hcatalogs, h⟩ := Option.bind_eq_some_iff.mp h
      cases h
      have hrecord : isRecord 3 (.object members) = true := rfl
      have hobject : ¬ ∃ items, Json.object members = .array items := by
        intro harray
        obtain ⟨items, hitems⟩ := harray
        cases hitems
      rw [writeWorkspaces, record_kept_iff ["packages", "catalog", "catalogs"] rfl (by decide) hrecord,
        or_iff_right hobject]
      refine and_iff_left (.inr ?_)
      intro other hother
      cases hother
      refine List.forall_mem_cons.mpr ⟨?_, List.forall_mem_cons.mpr ⟨?_,
        List.forall_mem_cons.mpr ⟨?_, ?_⟩⟩⟩
      · exact packages_kept hpackages
      · have hkept := fieldKept_of_roundtrips roundtrips_stringMap hcatalog
        exact hkept
      · have hkept := fieldKept_of_roundtrips (Json.roundtrips_map fun _ _ => keeps_stringMap) hcatalogs
        exact hkept
      · exact fun _ hf => absurd hf List.not_mem_nil
  | null | bool | number | string => cases h

end Records

section Format

theorem member_orderedEntries (object : BTreeMap String Json) (name : String) :
    member (orderedEntries object) name = object[name]? := by
  apply Json.member_eq_of_iff
  intro v
  rw [orderedEntries, List.mem_append, List.mem_filterMap, List.mem_filter]
  constructor
  · intro h
    cases h with
    | inl h =>
        obtain ⟨key, -, h⟩ := h
        obtain ⟨value, hvalue, heq⟩ := Option.map_eq_some_iff.mp h
        cases heq
        exact hvalue
    | inr h => exact Std.ExtTreeMap.mem_toList_iff_getElem?_eq_some.mp h.1
  · intro h
    by_cases hname : name ∈ packageJsonFieldOrder
    · exact .inl ⟨name, hname, by rw [h]; rfl⟩
    · exact .inr ⟨Std.ExtTreeMap.mem_toList_iff_getElem?_eq_some.mpr h, by simpa using hname⟩

theorem knownFields_names (m : Manifest) : (knownFields m).map (·.1) = knownNames := rfl

theorem knownNames_nodup : knownNames.Nodup := by decide

variable {m : Manifest} (hextra : ∀ name, name ∈ m.extra → name ∉ knownNames)
include hextra

theorem manifestValue_agree :
    ∀ p ∈ present (knownFields m) ++ m.extra.toList, ∀ q ∈ present (knownFields m) ++ m.extra.toList,
      p.1 = q.1 → p.2 = q.2 := by
  have hnodup : ((knownFields m).map (·.1)).Nodup := knownNames_nodup
  have hknown : ∀ p ∈ present (knownFields m), p.1 ∈ knownNames := by
    intro p hp
    rw [← knownFields_names m]
    exact List.mem_map_of_mem (Json.mem_present.mp hp)
  have hother : ∀ p ∈ m.extra.toList, p.1 ∉ knownNames := by
    intro p hp
    exact hextra p.1 (BTreeMap.mem_iff_exists.mpr
      ⟨p.2, Std.ExtTreeMap.mem_toList_iff_getElem?_eq_some.mp hp⟩)
  intro p hp q hq heq
  cases List.mem_append.mp hp with
  | inl hp =>
      cases List.mem_append.mp hq with
      | inl hq =>
          have hsame := List.inj_on_of_nodup_map hnodup (Json.mem_present.mp hp)
            (Json.mem_present.mp hq) heq
          exact Option.some.inj (congrArg Prod.snd hsame)
      | inr hq => exact absurd (heq ▸ hknown p hp) (hother q hq)
  | inr hp =>
      cases List.mem_append.mp hq with
      | inl hq => exact absurd (heq ▸ hknown q hq) (hother p hp)
      | inr hq =>
          have hpValue := Std.ExtTreeMap.mem_toList_iff_getElem?_eq_some.mp hp
          have hqValue := Std.ExtTreeMap.mem_toList_iff_getElem?_eq_some.mp hq
          rw [heq, hqValue] at hpValue
          exact (Option.some.inj hpValue).symm

theorem manifestValue_known {name : String} {o : Option Json} (h : (name, o) ∈ knownFields m) :
    (manifestValue m)[name]? = o := by
  have hname : name ∈ knownNames := by
    rw [← knownFields_names m]
    exact List.mem_map_of_mem h
  have hiff := BTreeMap.getElem?_collect (manifestValue_agree hextra) name
  cases o with
  | some v => exact (hiff v).mpr (List.mem_append_left _ (Json.mem_present.mpr h))
  | none =>
      cases hfound : (manifestValue m)[name]? with
      | none => rfl
      | some v =>
          cases List.mem_append.mp ((hiff v).mp hfound) with
          | inl hmem =>
              have hnodup : ((knownFields m).map (·.1)).Nodup := knownNames_nodup
              have hsame := List.inj_on_of_nodup_map hnodup (Json.mem_present.mp hmem) h rfl
              exact congrArg Prod.snd hsame
          | inr hmem =>
              have hextraName := BTreeMap.mem_iff_exists.mpr
                ⟨v, Std.ExtTreeMap.mem_toList_iff_getElem?_eq_some.mp hmem⟩
              exact absurd hname (hextra name hextraName)

theorem manifestValue_extra {name : String} (h : name ∉ knownNames) :
    (manifestValue m)[name]? = m.extra[name]? := by
  have hiff := BTreeMap.getElem?_collect (manifestValue_agree hextra) name
  have hmem : ∀ v, (name, v) ∈ present (knownFields m) ++ m.extra.toList ↔
      m.extra[name]? = some v := by
    intro v
    rw [List.mem_append, Std.ExtTreeMap.mem_toList_iff_getElem?_eq_some, or_iff_right]
    intro hpresent
    apply h
    rw [← knownFields_names m]
    exact List.mem_map_of_mem (Json.mem_present.mp hpresent)
  apply Option.ext
  intro v
  exact (hiff v).trans (hmem v)

end Format

section Read

variable {members : List (String × Json)} {m : Manifest}

/-- The fields of a manifest and the members they are read from. -/
structure ReadFrom (members : List (String × Json)) (m : Manifest) : Prop where
  name : field members "name" none (asOptional asString) = some m.name
  version : field members "version" none (asOptional asString) = some m.version
  packageManager : field members "packageManager" none (asOptional asString) = some m.packageManager
  isPrivate : field members "private" false readBoolish = some m.isPrivate
  dependencies : field members "dependencies" ∅ readStringMap = some m.dependencies
  devDependencies : field members "devDependencies" ∅ readStringMap = some m.devDependencies
  optionalDependencies :
    field members "optionalDependencies" ∅ readStringMap = some m.optionalDependencies
  scripts : field members "scripts" ∅ readStringMap = some m.scripts
  resolutions : field members "resolutions" ∅ readStringMap = some m.resolutions
  overrides : field members "overrides" ∅ (asMapOf some) = some m.overrides
  files : field members "files" none (asOptional asStrings) = some m.files
  bin : field members "bin" none (asOptional readBin) = some m.bin
  main : field members "main" none (asOptional asString) = some m.main
  pnpm : field members "pnpm" none (asOptional readPnpm) = some m.pnpm
  snpm : field members "snpm" none (asOptional readSnpm) = some m.snpm
  workspaces : field members "workspaces" none (asOptional readWorkspaces) = some m.workspaces
  extra : m.extra = BTreeMap.collect (extraMembers members)

theorem readManifest_some (h : readManifest (.object members) = some m) : ReadFrom members m := by
  unfold readManifest at h
  obtain ⟨name, hname, h⟩ := Option.bind_eq_some_iff.mp h
  obtain ⟨version, hversion, h⟩ := Option.bind_eq_some_iff.mp h
  obtain ⟨packageManager, hpackageManager, h⟩ := Option.bind_eq_some_iff.mp h
  obtain ⟨isPrivate, hisPrivate, h⟩ := Option.bind_eq_some_iff.mp h
  obtain ⟨dependencies, hdependencies, h⟩ := Option.bind_eq_some_iff.mp h
  obtain ⟨devDependencies, hdevDependencies, h⟩ := Option.bind_eq_some_iff.mp h
  obtain ⟨optionalDependencies, hoptionalDependencies, h⟩ := Option.bind_eq_some_iff.mp h
  obtain ⟨scripts, hscripts, h⟩ := Option.bind_eq_some_iff.mp h
  obtain ⟨resolutions, hresolutions, h⟩ := Option.bind_eq_some_iff.mp h
  obtain ⟨overrides, hoverrides, h⟩ := Option.bind_eq_some_iff.mp h
  obtain ⟨files, hfiles, h⟩ := Option.bind_eq_some_iff.mp h
  obtain ⟨bin, hbin, h⟩ := Option.bind_eq_some_iff.mp h
  obtain ⟨main, hmain, h⟩ := Option.bind_eq_some_iff.mp h
  obtain ⟨pnpm, hpnpm, h⟩ := Option.bind_eq_some_iff.mp h
  obtain ⟨snpm, hsnpm, h⟩ := Option.bind_eq_some_iff.mp h
  obtain ⟨workspaces, hworkspaces, h⟩ := Option.bind_eq_some_iff.mp h
  cases h
  exact ⟨hname, hversion, hpackageManager, hisPrivate, hdependencies, hdevDependencies,
    hoptionalDependencies, hscripts, hresolutions, hoverrides, hfiles, hbin, hmain, hpnpm, hsnpm,
    hworkspaces, rfl⟩

theorem getElem?_extraMembers (name : String) :
    (BTreeMap.collect (extraMembers members))[name]? =
      if name ∈ knownNames then none else member members name := by
  rw [Json.getElem?_collect, extraMembers, member, member, ← List.filter_reverse, List.find?_filter]
  by_cases hname : name ∈ knownNames
  · rw [if_pos hname, Option.map_eq_none_iff, List.find?_eq_none]
    intro f _ hf
    have hboth := of_decide_eq_true hf
    have heq : f.1 = name := of_decide_eq_true hboth.2
    have hunknown : f.1 ∉ knownNames := of_decide_eq_true hboth.1
    exact hunknown (heq ▸ hname)
  · rw [if_neg hname]
    congr 2
    funext f
    by_cases hf : f.1 = name
    · simp [hf, hname]
    · simp [hf]

theorem ReadFrom.extra_unknown (h : ReadFrom members m) :
    ∀ name, name ∈ m.extra → name ∉ knownNames := by
  intro name hmem hname
  obtain ⟨v, hv⟩ := BTreeMap.mem_iff_exists.mp hmem
  rw [h.extra, getElem?_extraMembers, if_pos hname] at hv
  cases hv

/-- The fields besides the records are always kept. -/
theorem knownFields_kept_iff (h : ReadFrom members m) :
    (∀ f ∈ knownFields m, f.1 ≠ "private" → FieldKept members f) ↔ KnownRecords members := by
  have hpnpm := optional_field_kept_iff (HasOnly ["overrides", "patchedDependencies"]) h.pnpm
    (.inl .null) fun _ _ => pnpm_kept_iff
  have hsnpm := optional_field_kept_iff KnownSnpm h.snpm (knownSnpm_of_void .null)
    fun _ _ => snpm_kept_iff
  have hworkspaces := optional_field_kept_iff
    (fun v => (∃ items, v = .array items) ∨ HasOnly ["packages", "catalog", "catalogs"] v)
    h.workspaces (.inr (.inl .null)) fun _ _ => workspaces_kept_iff
  constructor
  · intro hkept
    have hpnpmField : ("pnpm", m.pnpm.map writePnpm) ∈ knownFields m := by simp [knownFields]
    have hsnpmField : ("snpm", m.snpm.map writeSnpm) ∈ knownFields m := by simp [knownFields]
    have hworkspacesField : ("workspaces", m.workspaces.map writeWorkspaces) ∈ knownFields m := by
      simp [knownFields]
    have hpnpmName : "pnpm" ≠ "private" := by decide
    have hsnpmName : "snpm" ≠ "private" := by decide
    have hworkspacesName : "workspaces" ≠ "private" := by decide
    exact ⟨hpnpm.mp (hkept _ hpnpmField hpnpmName), hsnpm.mp (hkept _ hsnpmField hsnpmName),
      hworkspaces.mp (hkept _ hworkspacesField hworkspacesName)⟩
  · intro hknown
    have hstring : Roundtrips (asOptional asString) fun o => o.map .string :=
      roundtrips_of_keeps fun _ _ => keeps_string
    have hvalues : Roundtrips (asMapOf some) (writtenMap id) :=
      Json.roundtrips_map fun v x hx => Option.some.inj hx ▸ .same v
    refine List.forall_mem_cons.mpr ⟨fun _ => fieldKept_of_roundtrips hstring h.name, ?_⟩
    refine List.forall_mem_cons.mpr ⟨fun _ => fieldKept_of_roundtrips hstring h.version, ?_⟩
    refine List.forall_mem_cons.mpr ⟨fun _ => fieldKept_of_roundtrips hstring h.packageManager, ?_⟩
    refine List.forall_mem_cons.mpr ⟨fun hname => absurd rfl hname, ?_⟩
    refine List.forall_mem_cons.mpr
      ⟨fun _ => fieldKept_of_roundtrips roundtrips_stringMap h.dependencies, ?_⟩
    refine List.forall_mem_cons.mpr
      ⟨fun _ => fieldKept_of_roundtrips roundtrips_stringMap h.devDependencies, ?_⟩
    refine List.forall_mem_cons.mpr
      ⟨fun _ => fieldKept_of_roundtrips roundtrips_stringMap h.optionalDependencies, ?_⟩
    refine List.forall_mem_cons.mpr
      ⟨fun _ => fieldKept_of_roundtrips roundtrips_stringMap h.scripts, ?_⟩
    refine List.forall_mem_cons.mpr
      ⟨fun _ => fieldKept_of_roundtrips roundtrips_stringMap h.resolutions, ?_⟩
    refine List.forall_mem_cons.mpr ⟨fun _ => fieldKept_of_roundtrips hvalues h.overrides, ?_⟩
    refine List.forall_mem_cons.mpr
      ⟨fun _ => fieldKept_of_roundtrips (roundtrips_of_keeps fun _ _ => keeps_strings) h.files, ?_⟩
    refine List.forall_mem_cons.mpr
      ⟨fun _ => fieldKept_of_roundtrips (roundtrips_of_keeps fun _ _ => keeps_bin) h.bin, ?_⟩
    refine List.forall_mem_cons.mpr ⟨fun _ => fieldKept_of_roundtrips hstring h.main, ?_⟩
    refine List.forall_mem_cons.mpr ⟨fun _ => hpnpm.mpr hknown.pnpm, ?_⟩
    refine List.forall_mem_cons.mpr ⟨fun _ => hsnpm.mpr hknown.snpm, ?_⟩
    refine List.forall_mem_cons.mpr ⟨fun _ => hworkspaces.mpr hknown.workspaces, ?_⟩
    exact fun _ hf => absurd hf List.not_mem_nil

/-- The flag that is read is the flag of the document. -/
theorem ReadFrom.flag (h : ReadFrom members m) : privateFlag members = some m.isPrivate := by
  unfold privateFlag
  cases Json.field_some h.isPrivate with
  | inl hnone => rw [hnone.1, hnone.2]
  | inr hsome =>
      obtain ⟨v, hv, hread⟩ := hsome
      rw [hv]
      exact hread

theorem written_flag (h : ReadFrom members m) :
    privateFlag (orderedEntries (manifestValue m)) = some m.isPrivate := by
  have hfield : ("private", if m.isPrivate then some (.bool true) else none) ∈ knownFields m :=
    List.mem_cons_of_mem _ (List.mem_cons_of_mem _ (List.mem_cons_of_mem _ List.mem_cons_self))
  rw [privateFlag, member_orderedEntries, manifestValue_known h.extra_unknown hfield]
  cases m.isPrivate <;> rfl

/-- A manifest that is written back keeps the document exactly when the records in
it have members that the manifest knows. -/
theorem written_manifest_kept_iff (h : readManifest (.object members) = some m) :
    KeepsDocument members (orderedEntries (manifestValue m)) ↔ KnownRecords members := by
  have hread := readManifest_some h
  rw [← knownFields_kept_iff hread]
  constructor
  · intro hkept f hf hname v hv
    have hvalue := hkept.values f.1 v hname hv
    rw [member_orderedEntries, manifestValue_known hread.extra_unknown hf] at hvalue
    exact hvalue
  · intro hkept
    refine ⟨?_, ?_⟩
    · intro name v hname hv
      rw [member_orderedEntries]
      by_cases hknown : name ∈ knownNames
      · rw [← knownFields_names m] at hknown
        obtain ⟨f, hf, rfl⟩ := List.mem_map.mp hknown
        rw [manifestValue_known hread.extra_unknown hf]
        exact hkept f hf hname v hv
      · rw [manifestValue_extra hread.extra_unknown hknown, hread.extra, getElem?_extraMembers,
          if_neg hknown, hv]
        exact .inr ⟨v, rfl, .same v⟩
    · rw [hread.flag, written_flag hread]

end Read

section Samples

def moduleMembers : List (String × Json) := [("name", .string "app"), ("type", .string "module")]

def builtMembers : List (String × Json) :=
  [("name", .string "app"),
    ("pnpm", .object [("onlyBuiltDependencies", .array [.string "esbuild"])])]

/-- A document without records is kept. -/
theorem module_manifest_kept :
    ∃ m, readManifest (.object moduleMembers) = some m ∧
      KeepsDocument moduleMembers (orderedEntries (manifestValue m)) := by
  have hread : (readManifest (.object moduleMembers)).isSome = true := by rfl
  obtain ⟨m, hm⟩ := Option.isSome_iff_exists.mp hread
  refine ⟨m, hm, (written_manifest_kept_iff hm).mpr ⟨?_, ?_, ?_⟩⟩
  · intro v hv
    cases hv
  · intro v hv
    cases hv
  · intro v hv
    cases hv

/-- The packages that pnpm may build are dropped. -/
theorem built_dependencies_dropped :
    ∃ m, readManifest (.object builtMembers) = some m ∧
      ¬ KeepsDocument builtMembers (orderedEntries (manifestValue m)) := by
  have hread : (readManifest (.object builtMembers)).isSome = true := by rfl
  obtain ⟨m, hm⟩ := Option.isSome_iff_exists.mp hread
  refine ⟨m, hm, ?_⟩
  intro hkept
  have hfrom := readManifest_some hm
  have hfield : ("pnpm", m.pnpm.map writePnpm) ∈ knownFields m := by simp [knownFields]
  have hname : "pnpm" ≠ "private" := by decide
  have hpnpm : FieldKept builtMembers ("pnpm", m.pnpm.map writePnpm) := by
    intro v hv
    have hvalue := hkept.values "pnpm" v hname hv
    rw [member_orderedEntries, manifestValue_known hfrom.extra_unknown hfield] at hvalue
    exact hvalue
  have honly := (optional_field_kept_iff (HasOnly ["overrides", "patchedDependencies"]) hfrom.pnpm
    (.inl .null) fun _ _ => pnpm_kept_iff).mp hpnpm _ rfl
  cases honly with
  | inl hvoid =>
      have hlist : member [("onlyBuiltDependencies", Json.array [.string "esbuild"])]
          "onlyBuiltDependencies" = some (.array [.string "esbuild"]) := rfl
      exact not_void_array _ (void_member hvoid hlist)
  | inr honly =>
      obtain ⟨members, hmembers, hnames⟩ := honly
      cases hmembers
      cases hnames "onlyBuiltDependencies" _ rfl with
      | inl hvoid => exact not_void_array _ hvoid
      | inr hmem => exact absurd hmem (by decide)

end Samples

end Snpm.PackageJson
