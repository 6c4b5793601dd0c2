import Mathlib
import Snpm.Cache.Metadata
import Snpm.Library.TextParts

/-!
Fetching the metadata of a package from an npm registry through the cache: a fresh
record is used as it is, otherwise the registry is asked with the validators of the
record, and an answer that nothing has changed renews it. The runs are those of one
configuration in which one fetch ends before the next begins; a registry answers as
HTTP has it for validators.
-/
namespace Snpm.Protocols.Npm

open Snpm.Cache

/-- An error of the crate, or the variant for what a registry refuses. -/
inductive FetchError where
  | snpm (error : SnpmError)
  | registry (message : String)
deriving DecidableEq

section Request

/-- The parts of the system that the address of a registry depends on. -/
structure Surroundings where
  env : String → Option String
  toUppercase : String → String

variable (world : Surroundings) (config : MetadataConfig)

def npmRegistryForPackage (name : String) : String :=
  match Text.splitOnce name (· = '/') with
  | some (scope, _) =>
      if Text.startsWith scope "@" then
        config.scopedRegistries[scope]?.getD config.defaultRegistry
      else config.defaultRegistry
  | none => config.defaultRegistry

def npmLikeRegistryForPackage (protocolName name : String) : String :=
  if protocolName = "npm" then npmRegistryForPackage config name
  else
    match world.env ("SNPM_REGISTRY_" ++ world.toUppercase protocolName) with
    | some value =>
        let trimmed := Text.trim value
        if trimmed ≠ "" then Text.trimEndMatches trimmed '/' else config.defaultRegistry
    | none => config.defaultRegistry

def encodePackageName (name : String) : String :=
  if Text.startsWith name "@" then
    String.ofList (name.toList.flatMap fun c => if c = '/' then ['%', '2', 'F'] else [c])
  else name

def registryUrl (protocolName name : String) : String :=
  Text.trimEndMatches (npmLikeRegistryForPackage world config protocolName name) '/' ++ "/" ++
    encodePackageName name

/-- The validators that a request carries. -/
structure Conditions where
  ifNoneMatch : Option String
  ifModifiedSince : Option String

/-- A cached validator is sent when it can be the value of a header. -/
def requestConditions (isHeaderValue : String → Bool) (headers : Option CachedHeaders) :
    Conditions :=
  ⟨headers.bind fun h => h.etag.filter isHeaderValue,
    headers.bind fun h => h.lastModified.filter isHeaderValue⟩

end Request

section Response

/-- How a request ends: without a response, after the attempts that are made, or
with one. The body is the package or the text of the error it gives. -/
inductive Response where
  | unreachable (source : String)
  | answered (status : Nat) (etag lastModified : Option String)
      (body : Except String RegistryPackage)

/-- What a request at a time for an address gets. -/
abbrev Registry := Nat → String → Conditions → Response

def registryStatusError (name url : String) (status : Nat) (shown : String) : FetchError :=
  if status = 404 then .registry ("package '" ++ name ++ "' was not found in the registry (404). " ++
    "Check the name for typos, or configure the right registry for its scope.")
  else if status = 401 then .snpm (.auth ("the registry rejected the request for '" ++ name ++
    "' as unauthenticated (401). Run \x60snpm login\x60, or set a valid token " ++
    "(NODE_AUTH_TOKEN / .npmrc _authToken)."))
  else if status = 403 then .snpm (.auth ("access to '" ++ name ++ "' is forbidden (403). " ++
    "Your token may lack permission for this package or scope."))
  else if status = 429 then .registry ("the registry is rate-limiting requests for '" ++ name ++
    "' (429). Retry shortly.")
  else .registry ("registry returned " ++ shown ++ " for '" ++ name ++ "' (" ++ url ++ ")")

def isSuccess (status : Nat) : Bool := 200 ≤ status ∧ status < 300

def responseHeaders (etag lastModified : Option String) : Option CachedHeaders :=
  if etag.isSome || lastModified.isSome then some ⟨etag, lastModified⟩ else none

def uncachedReason (name url : String) : String :=
  "registry returned 304 Not Modified for " ++ name ++ " (" ++ url ++ ") but no cached metadata " ++
    "is available — delete the local metadata cache or re-run with a fresh registry to recover"

variable {Bytes : Type} (codec : Bincode Bytes) (config : MetadataConfig)
  (showStatus : Nat → String)

def handleRegistryResponse (disk : Disk Bytes) (now : Nat) (name url : String) :
    Response → Except FetchError RegistryPackage × Disk Bytes
  | .unreachable source => (.error (.snpm (.http url source)), disk)
  | .answered status etag lastModified body =>
      if status = 304 then
        match loadMetadataWithOffline codec config disk now name .offline with
        | some cached => (.ok cached, saveMetadata codec disk now name cached)
        | none => (.error (.snpm (.internal (uncachedReason name url))), disk)
      else if !isSuccess status then
        (.error (registryStatusError name url status (showStatus status)), disk)
      else
        match body with
        | .error source => (.error (.snpm (.http url source)), disk)
        | .ok package =>
            (.ok package, saveMetadataWithHeaders codec disk now name package
              (responseHeaders etag lastModified))

end Response

section Fetch

variable {Bytes : Type} (codec : Bincode Bytes) (config : MetadataConfig) (world : Surroundings)
  (showStatus : Nat → String) (isHeaderValue : String → Bool) (registry : Registry)

/-- A fetch, with the times at which it begins, the registry answers and it ends. -/
structure Call where
  name : String
  protocolName : String
  mode : OfflineMode
  asked : Nat
  answered : Nat
  ended : Nat

def Call.url (call : Call) : String := registryUrl world config call.protocolName call.name

def fetchRegistryPackage (disk : Disk Bytes) (call : Call) :
    Except FetchError RegistryPackage × Disk Bytes :=
  match loadMetadataWithOffline codec config disk call.asked call.name call.mode with
  | some cached => (.ok cached, disk)
  | none =>
      if call.mode = .offline then
        (.error (.snpm (.offlineRequired ("package metadata for " ++ call.name))), disk)
      else
        handleRegistryResponse codec config showStatus disk call.ended call.name
          (call.url config world)
          (registry call.answered (call.url config world)
            (requestConditions isHeaderValue (loadCachedHeaders codec disk call.name)))

inductive Run : Disk Bytes → List (Call × Except FetchError RegistryPackage) → Disk Bytes → Prop
  where
  | nil (disk : Disk Bytes) : Run disk [] disk
  | step {first last : Disk Bytes} {log : List (Call × Except FetchError RegistryPackage)}
      (call : Call) : Run first log last →
        Run first
          (log ++ [(call, (fetchRegistryPackage codec config world showStatus isHeaderValue
            registry last call).1)])
          (fetchRegistryPackage codec config world showStatus isHeaderValue registry last call).2

end Fetch

end Snpm.Protocols.Npm
