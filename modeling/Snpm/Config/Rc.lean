import Mathlib
import Snpm.Config.Env
import Snpm.Project

/-!
The rc files: how a line is read as an entry, how an entry changes the registry
configuration, and the host under which a credential is filed.
-/
namespace Snpm.Config

inductive AuthScheme where
  | bearer
  | basic
deriving DecidableEq, Repr

structure RegistryConfig where
  defaultRegistry : String
  scopedRegistries : BTreeMap String String
  registryAuth : BTreeMap String String
  registryAuthSchemes : BTreeMap String AuthScheme
  defaultAuthToken : Option String
  hoisting : Option HoistingMode
  disableGlobalVirtualStoreForPackages : Option (BTreeSet String)
  defaultAuthBasic : Bool
  alwaysAuth : Bool
  saveExact : Option Bool
  savePrefix : Option String

section Url

def stripDefaultPort (hostport scheme : String) : String :=
  match Text.splitOnce hostport (· = ':') with
  | none => hostport
  | some (host, port) =>
      if (scheme = "https" ∧ port = "443") ∨ (scheme = "http" ∧ port = "80") then host
      else hostport

/-- The host of a text without its scheme, lower-cased. -/
def hostOfRest (rest : String) (scheme : Option String) : Option String :=
  let hostport := Text.trim (Text.firstPart rest (· = '/'))
  if hostport = "" then none
  else
    let lowered := Text.toAsciiLowercase hostport
    let host := match scheme with
      | some scheme => stripDefaultPort lowered scheme
      | none => lowered
    if host = "" then none else some host

def hostFromUrl (url : String) : Option String :=
  let trimmed := Text.trim url
  match Text.stripPrefix trimmed "https://", Text.stripPrefix trimmed "http://" with
  | some rest, _ => hostOfRest rest (some "https")
  | none, some rest => hostOfRest rest (some "http")
  | none, none => hostOfRest trimmed none

/-- The parts of a registry URL joined again, the host lower-cased. -/
def normalizeRest (scheme rest : String) : String :=
  let (hostport, suffix) := (Text.splitOnce rest (· = '/')).getD (rest, "")
  let host := stripDefaultPort (Text.toAsciiLowercase hostport) scheme
  if suffix = "" then scheme ++ "://" ++ host else scheme ++ "://" ++ host ++ "/" ++ suffix

def normalizeRegistryUrl (value : String) : String :=
  let url := if Text.startsWith value "//" then "https:" ++ value else value
  let url := (Text.stripSuffix url "/").getD url
  match Text.stripPrefix url "https://", Text.stripPrefix url "http://", Text.stripPrefix url "//" with
  | some rest, _, _ => normalizeRest "https" rest
  | none, some rest, _ => normalizeRest "http" rest
  | none, none, some rest => normalizeRest "https" rest
  | none, none, none => url

end Url

section Entries

/-- The text between the two slashes and the name of the credential. -/
def parseScopedAuthKey (rest : String) : Option (String × AuthScheme) :=
  match Text.stripSuffix rest "/:_authToken", Text.stripSuffix rest ":_authToken",
    Text.stripSuffix rest "/:_auth", Text.stripSuffix rest ":_auth" with
  | some host, _, _, _ => some (host, .bearer)
  | none, some host, _, _ => some (host, .bearer)
  | none, none, some host, _ => some (host, .basic)
  | none, none, none, some host => some (host, .basic)
  | none, none, none, none => none

def normalizeAuthHost (hostAndPath : String) : String :=
  let rawHost := Text.trimEndMatches (Text.trim (Text.firstPart hostAndPath (· = '/'))) '/'
  let host := Text.toAsciiLowercase rawHost
  match Text.splitOnce host (· = ':') with
  | none => host
  | some (name, port) => if port = "80" ∨ port = "443" then name else host

/-- The host, the token and the scheme of an entry that is a host's credential. -/
def scopedCredential (rest value : String) : Option (String × String × AuthScheme) :=
  (parseScopedAuthKey rest).bind fun (hostAndPath, scheme) =>
    let host := normalizeAuthHost hostAndPath
    if value = "" ∨ host = "" then none else some (host, value, scheme)

def applyScopedAuth (config : RegistryConfig) (rest value : String) : RegistryConfig :=
  match scopedCredential rest value with
  | none => config
  | some (host, token, scheme) =>
      { config with
        registryAuth := config.registryAuth.insert host token
        registryAuthSchemes := config.registryAuthSchemes.insert host scheme }

/-- The entries that are recognised by their whole key. -/
def applyPlainEntry (config : RegistryConfig) (key value : String) : RegistryConfig :=
  if key = "_authToken" ∧ value ≠ "" then { config with defaultAuthToken := some value }
  else if key = "_auth" ∧ value ≠ "" then
    { config with defaultAuthToken := some value, defaultAuthBasic := true }
  else if key ∈ ["always-auth", "always_auth", "always.auth"] then
    { config with alwaysAuth := envFlagIsEnabled value }
  else if key ∈ ["save-exact", "save_exact"] then
    { config with saveExact := some (envFlagIsEnabled value) }
  else if key ∈ ["save-prefix", "save_prefix"] then
    { config with savePrefix := some (Text.trim value) }
  else config

def applyScopeRegistry (config : RegistryConfig) (scope value : String) : RegistryConfig :=
  if Text.trim scope ≠ "" ∧ value ≠ "" then
    { config with
      scopedRegistries :=
        config.scopedRegistries.insert (Text.trim scope) (normalizeRegistryUrl value) }
  else config

def hoistKeys : List String := ["snpm-hoist", "snpm.hoist", "snpm_hoist"]

def virtualStoreKeys : List String :=
  ["disableGlobalVirtualStoreForPackages", "disable-global-virtual-store-for-packages",
    "disable_global_virtual_store_for_packages"]

def applyRcEntry (config : RegistryConfig) (key value : String) : RegistryConfig :=
  if key = "registry" then
    if value = "" then config else { config with defaultRegistry := normalizeRegistryUrl value }
  else if key ∈ hoistKeys then
    match HoistingMode.parse value with
    | some mode => { config with hoisting := some mode }
    | none => config
  else if key ∈ virtualStoreKeys then
    { config with disableGlobalVirtualStoreForPackages := some (parsePackageNameList value) }
  else
    match Text.stripSuffix key ":registry", Text.stripPrefix key "//" with
    | some scope, _ => applyScopeRegistry config scope value
    | none, some rest => applyScopedAuth config rest value
    | none, none => applyPlainEntry config key value

end Entries

section Files

def parseRcEntry (env : Env) (line : String) : Option (String × String) :=
  match Text.splitOnce line (· = '=') with
  | none =>
      let key := Text.trim line
      if key = "" ∨ Text.startsWith key "//" then none else some (key, "true")
  | some (key, value) =>
      let key := Text.trim key
      let value := expandEnvVars env (Text.trim value)
      if Text.endsWith value "/" ∧ ¬ Text.startsWith key "//" then
        some (key, (Text.stripSuffix value "/").getD value)
      else some (key, value)

/-- The entry of a line; blank lines and comments have none. -/
def rcLineEntry (env : Env) (line : String) : Option (String × String) :=
  let trimmed := Text.trim line
  if trimmed = "" ∨ Text.startsWith trimmed "#" ∨ Text.startsWith trimmed ";" then none
  else parseRcEntry env trimmed

/-- The entries of a file; one that is missing or unreadable has none. -/
def rcFileEntries (env : Env) (file : Option String) : List (String × String) :=
  (Text.lines (file.getD "")).filterMap (rcLineEntry env)

def applyRcEntries (config : RegistryConfig) (entries : List (String × String)) : RegistryConfig :=
  entries.foldl (fun config e => applyRcEntry config e.1 e.2) config

def applyRcFile (env : Env) (config : RegistryConfig) (file : Option String) : RegistryConfig :=
  applyRcEntries config (rcFileEntries env file)

def defaultRegistryConfig : RegistryConfig where
  defaultRegistry := "https://registry.npmjs.org/"
  scopedRegistries := ∅
  registryAuth := ∅
  registryAuthSchemes := ∅
  defaultAuthToken := none
  hoisting := none
  disableGlobalVirtualStoreForPackages := none
  defaultAuthBasic := false
  alwaysAuth := false
  saveExact := none
  savePrefix := none

/-- The user's files first, then those of the directories from the root down to
the current one. -/
def readRegistryConfig (env : Env) (userFiles ancestorFiles : List (Option String)) :
    RegistryConfig :=
  ancestorFiles.foldl (applyRcFile env) (userFiles.foldl (applyRcFile env) defaultRegistryConfig)

/-- Every entry in the order in which the files give it. -/
def rcEntries (env : Env) (files : List (Option String)) : List (String × String) :=
  files.flatMap (rcFileEntries env)

theorem applyRcEntries_append (config : RegistryConfig) (first second : List (String × String)) :
    applyRcEntries config (first ++ second) =
      applyRcEntries (applyRcEntries config first) second :=
  List.foldl_append

theorem foldl_applyRcFile (env : Env) (files : List (Option String)) (config : RegistryConfig) :
    files.foldl (applyRcFile env) config = applyRcEntries config (rcEntries env files) := by
  induction files generalizing config with
  | nil => rfl
  | cons file files ih =>
      have hentries : rcEntries env (file :: files) =
          rcFileEntries env file ++ rcEntries env files := List.flatMap_cons
      rw [List.foldl_cons, ih, hentries, applyRcEntries_append]
      rfl

/-- Reading the files is applying their entries in order. -/
theorem readRegistryConfig_eq (env : Env) (userFiles ancestorFiles : List (Option String)) :
    readRegistryConfig env userFiles ancestorFiles =
      applyRcEntries defaultRegistryConfig (rcEntries env (userFiles ++ ancestorFiles)) := by
  rw [readRegistryConfig, foldl_applyRcFile, foldl_applyRcFile, ← applyRcEntries_append,
    rcEntries, rcEntries, rcEntries, List.flatMap_append]

end Files

end Snpm.Config
