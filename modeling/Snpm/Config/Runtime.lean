import Mathlib
import Snpm.Config.Rc

/-!
The configuration of a run, from the rc files and the environment, and the
authorization that it attaches to a request.
-/
namespace Snpm.Config

structure RuntimeConfig extends SnpmConfig where
  defaultRegistry : String
  scopedRegistries : BTreeMap String String
  registryAuth : BTreeMap String String
  defaultRegistryAuthToken : Option String
  defaultRegistryAuthScheme : AuthScheme
  registryAuthSchemes : BTreeMap String AuthScheme
  alwaysAuth : Bool

section FromEnv

variable (env : Env)

/-- The registry and the token after the environment's registry, which drops a
token that belongs to another host. -/
def applyDefaultRegistryEnv (registry : String) (token : Option String) :
    String × Option String :=
  match readConfigEnv env "registry" allFamilies with
  | none => (registry, token)
  | some newDefault =>
      (normalizeRegistryUrl newDefault,
        if hostFromUrl registry = hostFromUrl newDefault then token else none)

def authTokenVariable : Option String :=
  ((readNonEmptyEnv env "SNPM_AUTH_TOKEN").or (readNonEmptyEnv env "NODE_AUTH_TOKEN")).or
    (readNonEmptyEnv env "NPM_TOKEN")

def applyAuthEnv (token : Option String) (scheme : AuthScheme) : Option String × AuthScheme :=
  match authTokenVariable env, readConfigEnv env "_auth" allFamilies with
  | some token, _ => (some token, .bearer)
  | none, some token => (some token, .basic)
  | none, none => (token, scheme)

def hoistingEnv (hoisting : HoistingMode) : HoistingMode :=
  (((readNonEmptyEnv env "SNPM_HOIST").or (readConfigEnv env "hoist" [.snpm, .pnpm])).bind
    fun value => HoistingMode.parse (Text.trim value)).getD hoisting

def alwaysAuthEnv (alwaysAuth : Bool) : Bool :=
  alwaysAuth || ((readNonEmptyEnv env "SNPM_ALWAYS_AUTH").or
    (readConfigEnv env "always_auth" allFamilies)).any envFlagIsEnabled

def defaultDisableGlobalVirtualStoreForPackages : BTreeSet String :=
  Std.ExtTreeSet.ofList ["next", "nuxt", "vite", "vitepress", "parcel"] compare

/-- The data directory; `localData` is the platform's directory for it. -/
def resolveDataDir (localData : Option PathBuf) : PathBuf :=
  match env "SNPM_HOME", localData with
  | some home, _ => PathBuf.join home "data"
  | none, some dir => dir
  | none, none => PathBuf.join ".snpm" "data"

/-- `from_env` after the rc files are read. -/
def fromRegistryConfig (localData : Option PathBuf) (rc : RegistryConfig) : RuntimeConfig :=
  let registry := applyDefaultRegistryEnv env rc.defaultRegistry rc.defaultAuthToken
  let auth := applyAuthEnv env registry.2 .bearer
  { hoisting := hoistingEnv env (rc.hoisting.getD .singleVersion)
    allowScripts := readAllowScriptsFromEnv env
    disableGlobalVirtualStoreForPackages :=
      (readDisableGlobalVirtualStoreForPackagesFromEnv env).getD
        (rc.disableGlobalVirtualStoreForPackages.getD defaultDisableGlobalVirtualStoreForPackages)
    dataDir := resolveDataDir env localData
    minPackageAgeDays := readMinPackageAgeFromEnv env
    saveExact :=
      ((readConfigEnv env "save_exact" allFamilies).map envFlagIsEnabled).getD
        (rc.saveExact.getD false)
    savePrefix :=
      ((readConfigEnv env "save_prefix" allFamilies).map Text.trim).getD (rc.savePrefix.getD "^")
    defaultRegistry := registry.1
    scopedRegistries := rc.scopedRegistries
    registryAuth := rc.registryAuth
    defaultRegistryAuthToken := auth.1
    defaultRegistryAuthScheme := if rc.defaultAuthBasic then .basic else auth.2
    registryAuthSchemes := rc.registryAuthSchemes
    alwaysAuth := alwaysAuthEnv env rc.alwaysAuth }

def fromEnv (localData : Option PathBuf) (userFiles ancestorFiles : List (Option String)) :
    RuntimeConfig :=
  fromRegistryConfig env localData (readRegistryConfig env userFiles ancestorFiles)

end FromEnv

section Access

variable (config : RuntimeConfig)

def registryUrlForPackageName (name : String) : String :=
  match Text.splitOnce name (· = '/') with
  | some (scopeName, _) =>
      if Text.startsWith scopeName "@" then
        (config.scopedRegistries[scopeName]?).getD config.defaultRegistry
      else config.defaultRegistry
  | none => config.defaultRegistry

def authTokenForUrl (url : String) : Option String :=
  (hostFromUrl url).bind fun host =>
    (config.registryAuth[host]?).or
      (if hostFromUrl config.defaultRegistry = some host then config.defaultRegistryAuthToken
        else none)

def authSchemeForUrl (url : String) : AuthScheme :=
  ((hostFromUrl url).bind fun host => config.registryAuthSchemes[host]?).getD
    config.defaultRegistryAuthScheme

def AuthScheme.header : AuthScheme → String → String
  | .bearer, token => "Bearer " ++ token
  | .basic, token => "Basic " ++ token

def authorizationHeaderForUrl (url : String) : Option String :=
  (authTokenForUrl config url).map (authSchemeForUrl config url).header

inductive UrlScheme where
  | https
  | http
deriving DecidableEq

def schemeOf (url : String) : Option UrlScheme :=
  let trimmed := Text.trim url
  match Text.stripPrefix trimmed "https://", Text.stripPrefix trimmed "http://" with
  | some rest, _ => if rest = "" then none else some .https
  | none, some rest => if rest = "" then none else some .http
  | none, none => none

/-- A tarball gets the credential of its own registry only, on the same scheme. -/
def authorizationHeaderForTarball (packageName tarballUrl : String) : Option String :=
  let registryUrl := registryUrlForPackageName config packageName
  (hostFromUrl registryUrl).bind fun registryHost =>
    (hostFromUrl tarballUrl).bind fun tarballHost =>
      if registryHost ≠ tarballHost ∨ schemeOf registryUrl ≠ schemeOf tarballUrl then none
      else authorizationHeaderForUrl config tarballUrl

end Access

end Snpm.Config
