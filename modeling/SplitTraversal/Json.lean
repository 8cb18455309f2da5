/-!
JSON values as checkpoints use them: exact integers are kept apart from all other numbers, and
`render` writes a value without blanks, the members of an object in their order.
-/

namespace SplitTraversal

inductive Json
  | null
  | bool (b : Bool)
  | int (n : Int)
  /-- A number written with a fraction or an exponent. -/
  | decimal (text : String)
  | string (s : String)
  | array (items : List Json)
  | object (members : List (String × Json))
  deriving Inhabited, Repr

namespace Json

def escape (c : Char) : List Char :=
  if c = '"' then ['\\', '"']
  else if c = '\\' then ['\\', '\\']
  else if c = '\n' then ['\\', 'n']
  else if c = '\r' then ['\\', 'r']
  else if c = '\t' then ['\\', 't']
  else if c.toNat = 8 then ['\\', 'b']
  else if c.toNat = 12 then ['\\', 'f']
  else if c.toNat < 32 then
    ['\\', 'u', '0', '0', Nat.digitChar (c.toNat / 16), Nat.digitChar (c.toNat % 16)]
  else [c]

def quote (s : String) : String := "\"" ++ String.ofList (s.toList.flatMap escape) ++ "\""

mutual

def render : Json → String
  | null => "null"
  | bool true => "true"
  | bool false => "false"
  | int n => toString n
  | decimal text => text
  | string s => quote s
  | array items => "[" ++ ",".intercalate (renderItems items) ++ "]"
  | object members => "\x7b" ++ ",".intercalate (renderMembers members) ++ "\x7d"

def renderItems : List Json → List String
  | [] => []
  | v :: rest => render v :: renderItems rest

def renderMembers : List (String × Json) → List String
  | [] => []
  | (key, v) :: rest => (quote key ++ ":" ++ render v) :: renderMembers rest

end

/-- The value of the one member with the name. A name that several members have is no field. -/
def member? (members : List (String × Json)) (name : String) : Option Json :=
  match members.filter (·.1 == name) with
  | [(_, v)] => some v
  | _ => none

/-- The values of the named fields: from an object that has each of them once, whatever else it has, or from
an array of exactly these in order. -/
def fields? (names : List String) : Json → Option (List Json)
  | object members => names.mapM (member? members)
  | array items => if items.length = names.length then some items else none
  | _ => none

end Json

end SplitTraversal
