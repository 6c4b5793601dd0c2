import Mathlib
import Snpm.Library.Utf8
import Snpm.Library.OrderedMap
import Snpm.Library.TextParts

/-!
Environment variables as the configuration reads them, and their expansion in
the text of an rc file.
-/
namespace Snpm.Config

/-- The variables of the process; a value that is no Unicode text is as good as
absent. -/
abbrev Env := String → Option String

inductive ConfigEnvPrefix where
  | snpm
  | pnpm
  | npm
deriving DecidableEq

def ConfigEnvPrefix.lower : ConfigEnvPrefix → String
  | .snpm => "snpm_config_"
  | .pnpm => "pnpm_config_"
  | .npm => "npm_config_"

def ConfigEnvPrefix.upper : ConfigEnvPrefix → String
  | .snpm => "SNPM_CONFIG_"
  | .pnpm => "PNPM_CONFIG_"
  | .npm => "NPM_CONFIG_"

def readNonEmptyEnv (env : Env) (name : String) : Option String :=
  ((env name).map Text.trim).filter (· ≠ "")

def readConfigEnv (env : Env) (key : String) (families : List ConfigEnvPrefix) : Option String :=
  families.findSome? fun family =>
    (readNonEmptyEnv env (family.lower ++ key)).or
      (readNonEmptyEnv env (family.upper ++ Text.toAsciiUppercase key))

/-- Every family of configuration variables, the program's own first. -/
def allFamilies : List ConfigEnvPrefix := [.snpm, .pnpm, .npm]

/-- The bytes of a character, each pushed as a character of its own. -/
def pushBytes (c : Char) : List Char :=
  (String.utf8EncodeChar c).map fun byte => Char.ofNat byte.toNat

section PushBytes

variable {c d : Char}

theorem pushBytes_ascii (h : c.toNat < 128) : pushBytes c = [c] := by
  have hnat : (UInt8.ofNat c.toNat).toNat = c.toNat := by
    rw [UInt8.toNat_ofNat']
    omega
  rw [pushBytes, Text.utf8EncodeChar_ascii h, List.map_singleton, hnat, Char.ofNat_toNat]

theorem toNat_ofByte (byte : UInt8) : (Char.ofNat byte.toNat).toNat = byte.toNat := by
  have hvalid : byte.toNat.isValidChar := .inl (by have := byte.toNat_lt; omega)
  rw [Char.toNat_ofNat, if_pos hvalid]

theorem wide_of_mem_pushBytes (h : 128 ≤ c.toNat) (hd : d ∈ pushBytes c) : 128 ≤ d.toNat := by
  obtain ⟨byte, hbyte, heq⟩ := List.mem_map.mp hd
  rw [← heq, toNat_ofByte]
  exact (Text.utf8EncodeChar_wide h).2 byte hbyte

/-- An ASCII character among what is pushed is the character itself. -/
theorem eq_of_mem_pushBytes (hascii : d.toNat < 128) (hd : d ∈ pushBytes c) : d = c := by
  by_cases hc : c.toNat < 128
  · rw [pushBytes_ascii hc, List.mem_singleton] at hd
    exact hd
  · have hwide := wide_of_mem_pushBytes (by omega) hd
    omega

end PushBytes

/-- A reference in braces after the dollar sign: its name, its fallback, and how
many characters it has. -/
def bracedEnvReference : List Char → Option (String × Option String × Nat)
  | '{' :: cs =>
      let body := cs.takeWhile (· ≠ '}')
      if '}' ∈ cs ∧ body ≠ [] then
        match Text.splitSeq (String.ofList body) ":-" with
        | name :: fallback :: more =>
            some (name, some (String.intercalate ":-" (fallback :: more)), body.length + 2)
        | _ => some (String.ofList body, none, body.length + 2)
      else none
  | _ => none

/-- What stands for a dollar sign and the reference after it, if there is one,
and how many characters the reference has. -/
def expandReference (env : Env) (cs : List Char) : List Char × Nat :=
  match bracedEnvReference cs with
  | some (name, fallback, length) =>
      (((env name).filter (· ≠ "")).getD (fallback.getD "") |>.toList, length)
  | none =>
      let name := cs.takeWhile fun c => c = '_' || Text.isAsciiAlphanumeric c
      if name = [] then (['$'], 0)
      else (((env (String.ofList name)).getD "").toList, name.length)

/-- The first argument counts the characters of a reference still to be passed. -/
def expandFrom (env : Env) : Nat → List Char → List Char
  | _, [] => []
  | skip + 1, _ :: cs => expandFrom env skip cs
  | 0, c :: cs =>
      if c = '$' then
        let (text, length) := expandReference env cs
        text ++ expandFrom env length cs
      else pushBytes c ++ expandFrom env 0 cs

def expandEnvVars (env : Env) (text : String) : String :=
  String.ofList (expandFrom env 0 text.toList)

def parsePackageNameList (value : String) : BTreeSet String :=
  let trimmed := Text.trim value
  let inner :=
    if Text.startsWith trimmed "[" && Text.endsWith trimmed "]" then
      String.ofList trimmed.toList.dropLast.tail
    else trimmed
  Std.ExtTreeSet.ofList
    (((Text.split inner (· = ',')).map fun part =>
      Text.trimAll (Text.trim part) fun c => c = '"' || c = '\'').filter (· ≠ "")) compare

def envFlagIsEnabled (value : String) : Bool :=
  Text.toAsciiLowercase (Text.trim value) ∈ ["1", "true", "yes", "y", "on"]

def parsePositiveU32Env (env : Env) (key : String) : Option Nat :=
  (env key).bind fun value => (Text.parseU64 (Text.trim value)).filter fun n => 0 < n ∧ n < 2 ^ 32

def readAllowScriptsFromEnv (env : Env) : BTreeSet String :=
  ((env "SNPM_ALLOW_SCRIPTS").map parsePackageNameList).getD ∅

def readDisableGlobalVirtualStoreForPackagesFromEnv (env : Env) : Option (BTreeSet String) :=
  ((env "SNPM_DISABLE_GLOBAL_VIRTUAL_STORE_FOR_PACKAGES").or
    (readConfigEnv env "disable_global_virtual_store_for_packages" allFamilies)).map
    parsePackageNameList

def readMinPackageAgeFromEnv (env : Env) : Option Nat :=
  parsePositiveU32Env env "SNPM_MIN_PACKAGE_AGE_DAYS"

example : expandEnvVars (fun name => if name = "A" then some "x" else none) "${A}_$A$B${B:-y}$" =
    "x_xy$" := by
  decide +kernel

end Snpm.Config
