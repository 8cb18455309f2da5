/-!
One-line written forms of values: records with named fields, tagged values and bracketed lists.
-/

namespace SplitTraversal.Text

/-- A record: its name, then its fields in braces. -/
def record (name : String) (fields : List (String × String)) : String :=
  name ++ " \x7b " ++ ", ".intercalate (fields.map fun (key, value) => key ++ ": " ++ value) ++ " \x7d"

def tagged (name value : String) : String := name ++ "(" ++ value ++ ")"

def list (items : List String) : String := "[" ++ ", ".intercalate items ++ "]"

def option : Option String → String
  | none => "None"
  | some value => tagged "Some" value

def bool (b : Bool) : String := if b then "true" else "false"

end SplitTraversal.Text
