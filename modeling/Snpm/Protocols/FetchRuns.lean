import Mathlib
import Snpm.Protocols.NpmFetch

/-!
What fetches return over time. Every record of the cache belongs to a fetch that
asked the registry, with the validators of an answer that had the same content; so
an answer that nothing has changed renews what the registry has, and what is taken
from the cache is what the registry had when that fetch asked.
-/
namespace Snpm.Protocols.Npm

open Snpm.Cache

/-- What HTTP has a registry do: an answer has the content of its time and a
validator, and there is no change when the content is that of the answer which the
validators came with. -/
structure Registry.Sound (registry : Registry) (isHeaderValue : String → Bool)
    (content : Nat → String → RegistryPackage) : Prop where
  body : ∀ time url conditions status etag lastModified package,
    registry time url conditions = .answered status etag lastModified (.ok package) →
      isSuccess status = true → package = content time url
  validators : ∀ time url conditions status etag lastModified package,
    registry time url conditions = .answered status etag lastModified (.ok package) →
      isSuccess status = true → (etag.isSome || lastModified.isSome) = true ∧ etag.filter isHeaderValue = etag ∧
        lastModified.filter isHeaderValue = lastModified
  conditional : ∀ time url etag lastModified body,
    registry time url ⟨none, none⟩ ≠ .answered 304 etag lastModified body
  unmodified : ∀ earlier time url before conditions status etag lastModified package etag'
      lastModified' body, earlier ≤ time → isSuccess status = true →
    registry earlier url before = .answered status etag lastModified (.ok package) →
    registry time url conditions = .answered 304 etag' lastModified' body →
    conditions = ⟨etag, lastModified⟩ → content time url = content earlier url

section Records

variable {Bytes : Type} {codec : Bincode Bytes} {config : MetadataConfig} {world : Surroundings}
  {showStatus : Nat → String} {isHeaderValue : String → Bool} {registry : Registry}
  {content : Nat → String → RegistryPackage} {url : String → String}
  {log : List (Call × Except FetchError RegistryPackage)} {disk last : Disk Bytes} {call : Call}
  {name : String} {entry : CachedPackageEntry}

/-- A fetch of the record's name asked the registry, and returned what the record has. -/
def Fetched (content : Nat → String → RegistryPackage) (url : String → String)
    (log : List (Call × Except FetchError RegistryPackage)) (name : String) (updatedAt : Nat)
    (package : RegistryPackage) : Prop :=
  ∃ call, (call, .ok package) ∈ log ∧ call.name = name ∧ call.ended = updatedAt ∧
    package = content call.answered (url name)

/-- The validators came with an answer of the registry that had the package. -/
def Answered (registry : Registry) (content : Nat → String → RegistryPackage)
    (url : String → String) (clock : Nat) (name : String) (package : RegistryPackage)
    (headers : CachedHeaders) : Prop :=
  ∃ time conditions status, time ≤ clock ∧ isSuccess status = true ∧
    registry time (url name) conditions =
      .answered status headers.etag headers.lastModified (.ok package) ∧
    package = content time (url name)

/-- A record as a fetch leaves it. -/
def Valid (registry : Registry) (content : Nat → String → RegistryPackage)
    (url : String → String) (log : List (Call × Except FetchError RegistryPackage)) (clock : Nat)
    (name : String) (entry : CachedPackageEntry) : Prop :=
  ∃ package headers, entry.package = some package ∧ entry.headers = some headers ∧
    Fetched content url log name entry.updatedAtUnixSecs package ∧
    Answered registry content url clock name package headers

structure Coherent (codec : Bincode Bytes) (registry : Registry)
    (content : Nat → String → RegistryPackage) (url : String → String)
    (log : List (Call × Except FetchError RegistryPackage)) (clock : Nat) (disk : Disk Bytes) :
    Prop where
  shards : ∀ file shard name entry, readShard codec disk file = some shard →
    shard.packages[name]? = some entry → Valid registry content url log clock name entry
  legacy : disk.legacyPackages = ∅ ∧ disk.legacyHeaders = ∅

theorem Valid.mono (more : List (Call × Except FetchError RegistryPackage)) {clock later : Nat}
    (hlater : clock ≤ later) (h : Valid registry content url log clock name entry) :
    Valid registry content url (log ++ more) later name entry := by
  obtain ⟨package, headers, hpackage, hheaders, hfetched, hanswered⟩ := h
  obtain ⟨call, hmem, hcall⟩ := hfetched
  obtain ⟨time, conditions, status, htime, hstatus⟩ := hanswered
  exact ⟨package, headers, hpackage, hheaders, ⟨call, List.mem_append_left _ hmem, hcall⟩,
    ⟨time, conditions, status, Nat.le_trans htime hlater, hstatus⟩⟩

theorem Coherent.mono (more : List (Call × Except FetchError RegistryPackage)) {clock later : Nat}
    (hlater : clock ≤ later) (h : Coherent codec registry content url log clock disk) :
    Coherent codec registry content url (log ++ more) later disk :=
  ⟨fun file shard name entry hread hentry => (h.shards file shard name entry hread hentry).mono
    more hlater, h.legacy⟩

/-- A read finds a record of the shard, as nothing else is there. -/
theorem Coherent.read {clock : Nat} (h : Coherent codec registry content url log clock disk)
    (hread : readCachedPackageRecord codec disk name = some entry) :
    Valid registry content url log clock name entry ∧
      ∃ shard, readShard codec disk (metadataShardFile name) = some shard ∧
        shard.packages[name]? = some entry := by
  rcases Option.or_eq_some_iff.mp hread with hshard | ⟨-, hlegacy⟩
  · obtain ⟨shard, hshard, hentry⟩ := readShardRecord_eq_some hshard
    exact ⟨h.shards _ shard name entry hshard hentry, shard, hshard, hentry⟩
  · simp [readLegacyRecord, h.legacy.1, h.legacy.2] at hlegacy

/-- A write of a valid record keeps the cache coherent. -/
theorem Coherent.write (hcodec : codec.Lawful) {clock now : Nat} {update : Update}
    (h : Coherent codec registry content url log clock disk)
    (hnew : Valid registry content url log clock name (updatedEntry name update now
      ((readShard codec disk (metadataShardFile name)).getD .default))) :
    Coherent codec registry content url log clock
      (writeRecordUpdate codec disk name update now) := by
  simp only [writeRecordUpdate]
  cases hbytes : codec.serialize (updatedShard codec disk name update now) with
  | none => exact h
  | some bytes =>
      refine ⟨?_, h.legacy⟩
      intro file shard other entry hread hentry
      rcases readShard_withShard hcodec hbytes hread with ⟨-, hshard⟩ | hold
      · subst hshard
        rcases mem_updatedShard hentry with ⟨hname, heq⟩ | ⟨shard, hread, hold⟩
        · rw [hname, heq]
          exact hnew
        · exact h.shards _ shard other entry hread hold
      · exact h.shards file shard other entry hold hentry

theorem load_eq_some {package : RegistryPackage} {now : Nat} {mode : OfflineMode}
    (h : loadMetadataWithOffline codec config disk now name mode = some package) :
    ∃ entry, readCachedPackageRecord codec disk name = some entry ∧
      entry.package = some package ∧
      (isFresh config now entry.updatedAtUnixSecs = true ∨ mode ≠ .online) := by
  obtain ⟨entry, hread, h⟩ := Option.bind_eq_some_iff.mp h
  obtain ⟨found, hfound, h⟩ := Option.bind_eq_some_iff.mp h
  split at h
  next hused =>
      cases h
      simp only [Bool.and_eq_true, Bool.or_eq_true, bne_iff_ne] at hused
      exact ⟨entry, hread, hfound, hused.1⟩
  next => cases h

theorem isFresh_iff {now updatedAt : Nat} : isFresh config now updatedAt = true ↔
    ∃ days, config.minPackageCacheAgeDays = some days ∧ updatedAt ≤ now ∧
      now < updatedAt + days * 86400 := by
  rw [isFresh]
  cases config.minPackageCacheAgeDays with
  | none => simp
  | some days =>
      simp only [decide_eq_true_eq, Option.some.injEq, exists_eq_left', and_congr_right_iff]
      intro hle
      rw [Nat.div_lt_iff_lt_mul (by decide)]
      omega

/-- What a fetch returned is the registry's, or that of an earlier fetch. -/
def Current (config : MetadataConfig) (content : Nat → String → RegistryPackage)
    (url : String → String) (before : List (Call × Except FetchError RegistryPackage))
    (call : Call) (package : RegistryPackage) : Prop :=
  package = content call.answered (url call.name) ∨
  ∃ earlier, (earlier, .ok package) ∈ before ∧ earlier.name = call.name ∧
    package = content earlier.answered (url call.name) ∧
    (call.mode = .online → ∃ days, config.minPackageCacheAgeDays = some days ∧
      call.asked < earlier.ended + days * 86400)

section Step

variable {clock : Nat} {package : RegistryPackage} (hcodec : codec.Lawful)
  (hsound : registry.Sound isHeaderValue content)
  (hcoherent : Coherent codec registry content url log clock disk)

include hcoherent

theorem current_of_load
    (h : loadMetadataWithOffline codec config disk call.asked call.name call.mode =
      some package) : Current config content url log call package := by
  obtain ⟨entry, hread, hpackage, hused⟩ := load_eq_some h
  obtain ⟨found, headers, hfound, -, hfetched, -⟩ := (hcoherent.read hread).1
  rw [hpackage, Option.some.injEq] at hfound
  subst hfound
  obtain ⟨earlier, hmem, hname, hended, hcontent⟩ := hfetched
  refine .inr ⟨earlier, hmem, hname, hcontent, fun honline => ?_⟩
  rcases hused with hfresh | hmode
  · obtain ⟨days, hdays, -, hless⟩ := isFresh_iff.mp hfresh
    exact ⟨days, hdays, hended ▸ hless⟩
  · exact absurd honline hmode

include hcodec hsound

/-- A package that the registry sent is stored with its validators. -/
theorem Coherent.stored {etag lastModified : Option String} {status : Nat}
    {conditions : Conditions} (hclock : clock ≤ call.answered)
    (hanswer : registry call.answered (url call.name) conditions =
      .answered status etag lastModified (.ok package)) (hstatus : isSuccess status = true) :
    Coherent codec registry content url (log ++ [(call, .ok package)]) call.answered
      (saveMetadataWithHeaders codec disk call.ended call.name package
        (responseHeaders etag lastModified)) := by
  have hcontent := hsound.body _ _ _ _ _ _ _ hanswer hstatus
  have hheaders : responseHeaders etag lastModified = some ⟨etag, lastModified⟩ :=
    if_pos (hsound.validators _ _ _ _ _ _ _ hanswer hstatus).1
  refine Coherent.write hcodec (hcoherent.mono _ hclock) ?_
  refine ⟨package, ⟨etag, lastModified⟩, rfl, ?_, ⟨call, by simp, rfl, rfl, hcontent⟩,
    ⟨call.answered, conditions, status, Nat.le_refl _, hstatus, hanswer, hcontent⟩⟩
  simp only [updatedEntry, Update.apply, hheaders, Option.some_or]

/-- An answer that nothing has changed finds the package that it speaks of, which
is what the registry has, and renews it. -/
theorem Coherent.renewed {etag lastModified : Option String}
    {body : Except String RegistryPackage} (hclock : clock ≤ call.answered)
    (hages : ∀ time url, hasRequiredAgeMetadata config (content time url) = true)
    (hanswer : registry call.answered (url call.name)
      (requestConditions isHeaderValue (loadCachedHeaders codec disk call.name)) =
        .answered 304 etag lastModified body) :
    ∃ cached, loadMetadataWithOffline codec config disk call.ended call.name .offline =
        some cached ∧ cached = content call.answered (url call.name) ∧
      Coherent codec registry content url (log ++ [(call, .ok cached)]) call.answered
        (saveMetadata codec disk call.ended call.name cached) := by
  cases hread : readCachedPackageRecord codec disk call.name with
  | none =>
      simp only [loadCachedHeaders, hread, Option.bind_none, requestConditions] at hanswer
      exact absurd hanswer (hsound.conditional _ _ _ _ _)
  | some entry =>
      obtain ⟨hvalid, shard, hshard, hentry⟩ := hcoherent.read hread
      obtain ⟨cached, headers, hpackage, hheaders, -, hanswered⟩ := hvalid
      obtain ⟨time, conditions, status, htime, hstatus, hearlier, hcontent⟩ := hanswered
      obtain ⟨-, hetag, hlast⟩ := hsound.validators _ _ _ _ _ _ _ hearlier hstatus
      have hsent : requestConditions isHeaderValue (loadCachedHeaders codec disk call.name) =
          ⟨headers.etag, headers.lastModified⟩ := by
        simp only [loadCachedHeaders, hread, Option.bind_some, hheaders, requestConditions, hetag,
          hlast]
      have hnow : cached = content call.answered (url call.name) := by
        rw [hcontent]
        exact (hsound.unmodified time _ _ _ _ _ _ _ _ _ _ _ (Nat.le_trans htime hclock) hstatus
          hearlier hanswer hsent).symm
      refine ⟨cached, ?_, hnow, Coherent.write hcodec (hcoherent.mono _ hclock) ?_⟩
      · have hage : hasRequiredAgeMetadata config cached = true := by
          rw [hnow]
          exact hages _ _
        simp [loadMetadataWithOffline, hread, hpackage, hage]
      · refine ⟨cached, headers, rfl, ?_, ⟨call, by simp, rfl, rfl, hnow⟩,
          ⟨time, conditions, status, Nat.le_trans htime hclock, hstatus, hearlier, hcontent⟩⟩
        simp only [updatedEntry, Update.apply, hshard, Option.getD_some, hentry, hheaders]

/-- One fetch keeps the cache coherent, returns what is current and is never told of
a package that is not there. -/
theorem fetch_step
    (hages : ∀ time url, hasRequiredAgeMetadata config (content time url) = true)
    (hclock : clock ≤ call.answered) (hended : call.answered ≤ call.ended)
    (hurl : call.url config world = url call.name) {outcome : Except FetchError RegistryPackage}
    {after : Disk Bytes}
    (h : fetchRegistryPackage codec config world showStatus isHeaderValue registry disk call =
      (outcome, after)) :
    Coherent codec registry content url (log ++ [(call, outcome)]) call.ended after ∧
    (∀ package, outcome = .ok package → Current config content url log call package) ∧
    ∀ reason, outcome ≠ .error (.snpm (.internal reason)) := by
  have hlater : clock ≤ call.ended := Nat.le_trans hclock hended
  simp only [fetchRegistryPackage] at h
  cases hload : loadMetadataWithOffline codec config disk call.asked call.name call.mode with
  | some cached =>
      rw [hload] at h
      cases h
      refine ⟨hcoherent.mono _ hlater, fun package heq => ?_, by simp⟩
      cases heq
      exact current_of_load hcoherent hload
  | none =>
      rw [hload] at h
      simp only at h
      split at h
      next =>
          cases h
          exact ⟨hcoherent.mono _ hlater, by simp, by simp⟩
      next =>
          rw [hurl] at h
          generalize hresponse : registry call.answered (url call.name)
            (requestConditions isHeaderValue (loadCachedHeaders codec disk call.name)) =
              response at h
          cases response with
          | unreachable source =>
              cases h
              exact ⟨hcoherent.mono _ hlater, by simp, by simp⟩
          | answered status etag lastModified body =>
              simp only [handleRegistryResponse] at h
              split at h
              next hunmodified =>
                  subst hunmodified
                  obtain ⟨cached, hcached, hnow, hsaved⟩ :=
                    hcoherent.renewed hcodec hsound hclock hages hresponse
                  rw [hcached] at h
                  cases h
                  refine ⟨?_, fun package heq => ?_, by simp⟩
                  · simpa using hsaved.mono [] hended
                  · cases heq
                    exact .inl hnow
              next =>
                  split at h
                  next =>
                      cases h
                      refine ⟨hcoherent.mono _ hlater, by simp, fun reason => ?_⟩
                      simp only [registryStatusError]
                      split_ifs <;> simp
                  next hsuccess =>
                      have hstatus : isSuccess status = true := by simpa using hsuccess
                      cases body with
                      | error source =>
                          cases h
                          exact ⟨hcoherent.mono _ hlater, by simp, by simp⟩
                      | ok package =>
                          cases h
                          refine ⟨?_, fun found heq => ?_, by simp⟩
                          · have hsaved := hcoherent.stored hcodec hsound hclock hresponse hstatus
                            simpa using hsaved.mono [] hended
                          · cases heq
                            exact .inl (hsound.body _ _ _ _ _ _ _ hresponse hstatus)

end Step

section Runs

/-- A fetch ends before the next one begins. -/
def Timed (log : List (Call × Except FetchError RegistryPackage)) : Prop :=
  log.Pairwise (fun a b => a.1.ended ≤ b.1.asked) ∧
  ∀ fetch ∈ log, fetch.1.asked ≤ fetch.1.answered ∧ fetch.1.answered ≤ fetch.1.ended

variable (hcodec : codec.Lawful) (hsound : registry.Sound isHeaderValue content)
  (hages : ∀ time url, hasRequiredAgeMetadata config (content time url) = true)

include hcodec hsound hages

theorem Coherent.run
    (hrun : Run codec config world showStatus isHeaderValue registry ⟨∅, ∅, ∅⟩ log disk)
    (htimed : Timed log) (hurl : ∀ fetch ∈ log, fetch.1.url config world = url fetch.1.name) :
    (∃ clock, Coherent codec registry content url log clock disk ∧
      ∀ time, (∀ fetch ∈ log, fetch.1.ended ≤ time) → clock ≤ time) ∧
    (∀ before call package after, log = before ++ (call, .ok package) :: after →
      Current config content url before call package) ∧
    ∀ call reason, (call, .error (.snpm (.internal reason))) ∉ log := by
  induction hrun with
  | nil =>
      refine ⟨⟨0, ⟨?_, rfl, rfl⟩, by simp⟩, by simp, by simp⟩
      intro file shard name entry hread
      simp [readShard] at hread
  | @step last log call hbefore ih =>
      obtain ⟨hpairs, htimes⟩ := htimed
      obtain ⟨hold, -, hlast⟩ := List.pairwise_append.mp hpairs
      obtain ⟨⟨clock, hcoherent, hclock⟩, hcurrent, hinternal⟩ := ih
        ⟨hold, fun fetch hmem => htimes fetch (List.mem_append_left _ hmem)⟩
        (fun fetch hmem => hurl fetch (List.mem_append_left _ hmem))
      generalize houtcome : fetchRegistryPackage codec config world showStatus isHeaderValue
        registry last call = outcome at *
      obtain ⟨result, after⟩ := outcome
      have hmine := htimes (call, result) (by simp)
      have hasked : clock ≤ call.asked :=
        hclock call.asked fun fetch hmem => hlast fetch hmem (call, result) (by simp)
      obtain ⟨hafter, hok, herror⟩ := fetch_step hcodec hsound hcoherent hages
        (Nat.le_trans hasked hmine.1) hmine.2 (hurl (call, result) (by simp)) houtcome
      refine ⟨⟨call.ended, hafter, fun time hall => hall (call, result) (by simp)⟩, ?_, ?_⟩
      · intro before found package rest hlog
        rcases List.eq_nil_or_concat rest with hnil | ⟨front, final, hconcat⟩
        · subst hnil
          obtain ⟨hlog, hlast⟩ := List.append_inj' hlog rfl
          rw [List.singleton_inj, Prod.mk.injEq] at hlast
          rw [← hlog, ← hlast.1]
          exact hok package hlast.2
        · rw [hconcat, List.concat_eq_append, ← List.cons_append, ← List.append_assoc] at hlog
          exact hcurrent before found package front (List.append_inj' hlog rfl).1
      · intro found reason hmem
        rcases List.mem_append.mp hmem with hbefore | hnow
        · exact hinternal found reason hbefore
        · have heq := List.mem_singleton.mp hnow
          rw [Prod.mk.injEq] at heq
          exact herror reason heq.2.symm

omit hcodec hsound hages

/-- A registry that publishes a version at time 100, and tags what it has. -/
def changingContent (time : Nat) (_ : String) : RegistryPackage :=
  ⟨∅, ∅, BTreeMap.collect [("latest", if time < 100 then "1.0.0" else "1.1.0")]⟩

def changingTag (time : Nat) : String := if time < 100 then "one" else "two"

def changingRegistry : Registry := fun time url conditions =>
  if conditions.ifNoneMatch = some (changingTag time) then
    .answered 304 none none (.error "")
  else .answered 200 (some (changingTag time)) none (.ok (changingContent time url))

theorem changing_sound : changingRegistry.Sound (fun _ => true) changingContent := by
  constructor
  · intro time url conditions status etag lastModified package h hstatus
    simp only [changingRegistry] at h
    split at h
    · cases h
    · cases h
      rfl
  · intro time url conditions status etag lastModified package h hstatus
    simp only [changingRegistry] at h
    split at h
    · cases h
    · cases h
      simp
  · intro time url etag lastModified body h
    simp [changingRegistry] at h
  · intro earlier time url before conditions status etag lastModified package etag' lastModified'
      body hle hstatus hearlier hnow hsent
    simp only [changingRegistry] at hearlier hnow
    split at hnow
    next htag =>
        split at hearlier
        · cases hearlier
        · cases hearlier
          rw [hsent, Option.some.injEq] at htag
          have hsame : time < 100 ↔ earlier < 100 := by
            by_cases h : time < 100
            · by_cases h' : earlier < 100
              · simp [h, h']
              · simp [changingTag, h, h'] at htag
            · by_cases h' : earlier < 100
              · simp [changingTag, h, h'] at htag
              · omega
          simp only [changingContent, hsame]
    next => cases hnow

def dailyConfig : MetadataConfig := ⟨none, some 1, "https://registry.npmjs.org", ∅⟩

def bareWorld : Surroundings := ⟨fun _ => none, id⟩

def earlyFetch : Call := ⟨"left-pad", "npm", .online, 0, 1, 2⟩

def lateFetch : Call := ⟨"left-pad", "npm", .online, 90000, 90001, 90002⟩

end Runs

end Records

end Snpm.Protocols.Npm
