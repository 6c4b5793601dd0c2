import Mathlib

/-!
Text operations with the behaviour of their Rust namesakes, on sequences of
code points. Positions are never byte offsets: an operation that would return
an offset returns the two parts of the text instead.
-/
namespace Text

/-- The `White_Space` property. -/
def isWhitespace (c : Char) : Bool :=
  let n := c.toNat
  (9 ≤ n && n ≤ 13) || n == 32 || n == 0x85 || n == 0xA0 || n == 0x1680 ||
    (0x2000 ≤ n && n ≤ 0x200A) || n == 0x2028 || n == 0x2029 || n == 0x202F ||
    n == 0x205F || n == 0x3000

def trim (s : String) : String :=
  String.ofList ((s.toList.dropWhile isWhitespace).reverse.dropWhile isWhitespace).reverse

def startsWith (s p : String) : Bool :=
  p.toList.isPrefixOf s.toList

def endsWith (s p : String) : Bool :=
  p.toList.isSuffixOf s.toList

def stripPrefix (s p : String) : Option String :=
  if startsWith s p then some (String.ofList (s.toList.drop p.toList.length)) else none

def stripSuffix (s p : String) : Option String :=
  if endsWith s p then
    some (String.ofList (s.toList.take (s.toList.length - p.toList.length)))
  else none

def containsChar (s : String) (p : Char → Bool) : Bool :=
  s.toList.any p

/-- The text before the first hit, and the text from the hit on. -/
def find (s : String) (p : Char → Bool) : Option (String × String) :=
  if s.toList.any p then
    some (String.ofList (s.toList.takeWhile (!p ·)), String.ofList (s.toList.dropWhile (!p ·)))
  else none

/-- The texts on the two sides of the first hit. -/
def splitOnce (s : String) (p : Char → Bool) : Option (String × String) :=
  (find s p).map fun (before, rest) => (before, String.ofList rest.toList.tail)

/-- The texts on the two sides of the last hit. -/
def rsplitOnce (s : String) (p : Char → Bool) : Option (String × String) :=
  if s.toList.any p then
    some (String.ofList (s.toList.reverse.dropWhile (!p ·)).tail.reverse,
      String.ofList (s.toList.reverse.takeWhile (!p ·)).reverse)
  else none

def split (s : String) (p : Char → Bool) : List String :=
  (s.toList.splitOnP p).map String.ofList

def splitWhitespace (s : String) : List String :=
  (split s isWhitespace).filter (· ≠ "")

/-- `skip` counts the characters of a separator that was just recognised. -/
def splitSeqFrom (sep : List Char) : Nat → List Char → List Char → List (List Char)
  | _, acc, [] => [acc.reverse]
  | skip + 1, acc, _ :: cs => splitSeqFrom sep skip acc cs
  | 0, acc, c :: cs =>
      if sep.isPrefixOf (c :: cs) then
        acc.reverse :: splitSeqFrom sep (sep.length - 1) [] cs
      else splitSeqFrom sep 0 (c :: acc) cs

/-- Split at every occurrence of a non-empty separator text. -/
def splitSeq (s sep : String) : List String :=
  (splitSeqFrom sep.toList 0 [] s.toList).map String.ofList

def trimStartMatches (s : String) (c : Char) : String :=
  String.ofList (s.toList.dropWhile (· = c))

def trimMatches (s : String) (c : Char) : String :=
  String.ofList (((s.toList.dropWhile (· = c)).reverse.dropWhile (· = c)).reverse)

def containsSeq (s sub : String) : Bool :=
  s.toList.tails.any sub.toList.isPrefixOf

def replaceChar (s : String) (old new : Char) : String :=
  String.ofList (s.toList.map fun c => if c = old then new else c)

def isAsciiDigit (c : Char) : Bool := '0' ≤ c && c ≤ '9'

def toAsciiLower (c : Char) : Char :=
  if 'A' ≤ c ∧ c ≤ 'Z' then Char.ofNat (c.toNat + 32) else c

def eqIgnoreAsciiCase (s t : String) : Bool :=
  s.toList.map toAsciiLower == t.toList.map toAsciiLower

def digitsValue (cs : List Char) : Nat :=
  cs.foldl (fun n c => 10 * n + (c.toNat - '0'.toNat)) 0

/-- `str::parse::<u64>`: an optional plus sign, then digits that fit 64 bits. -/
def parseU64 (s : String) : Option Nat :=
  let cs := match s.toList with
    | '+' :: rest => rest
    | cs => cs
  if cs ≠ [] ∧ cs.all isAsciiDigit ∧ digitsValue cs < 2 ^ 64 then some (digitsValue cs) else none

/-- The last hit splits a text whose right part has none. -/
theorem rsplitOnce_append (before after : String) (c : Char) (h : c ∉ after.toList) :
    rsplitOnce (before ++ String.singleton c ++ after) (· = c) = some (before, after) := by
  have hfree : ∀ x ∈ after.toList.reverse, (!decide (x = c)) = true := by
    intro x hx
    have hne : x ≠ c := fun heq => h (heq ▸ List.mem_reverse.mp hx)
    simp [hne]
  have hlist : (before ++ String.singleton c ++ after).toList.reverse =
      after.toList.reverse ++ c :: before.toList.reverse := by
    simp
  have hany : (before ++ String.singleton c ++ after).toList.any (· = c) = true := by
    simp
  rw [rsplitOnce, if_pos hany, hlist, List.takeWhile_append_of_pos hfree,
    List.dropWhile_append_of_pos hfree]
  simp

example : trim "  ^1.2.3 \t" = "^1.2.3" := by decide
example : splitSeq "^1 || ^2||3" "||" = ["^1 ", " ^2", "3"] := by decide
example : rsplitOnce "@scope/a@1.0.0" (· = '@') = some ("@scope/a", "1.0.0") := by decide
example : splitWhitespace " >= 1.2  <2" = [">=", "1.2", "<2"] := by decide

end Text
