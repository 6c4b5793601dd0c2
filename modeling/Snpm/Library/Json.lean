import Mathlib

/-!
JSON values. A number is its text, and the members of an object are in the order
of the text.
-/

inductive Json where
  | null
  | bool (value : Bool)
  | number (text : String)
  | string (text : String)
  | array (items : List Json)
  | object (members : List (String × Json))

namespace Json

/-- The value of the last member with a name. -/
def member (members : List (String × Json)) (name : String) : Option Json :=
  (members.reverse.find? fun m => m.1 = name).map (·.2)

end Json
