import TickMachine.Json.Token

/-! Reading JSON values: the tokens are taken one at a time, with a stack of the containers that are
still open. -/

namespace TickMachine.Json

inductive Frame
  | array (elements : List Json)
  | object (members : List (Option String × Json)) (name : Option String)

inductive Goal
  | value
  | element
  | name (members : List (Option String × Json))
  | colon (members : List (Option String × Json)) (name : Option String)
  | rest (value : Json)

def beginValue (stack : List Frame) : Token → Option (Goal × List Frame)
  | .null => some (.rest .null, stack)
  | .bool b => some (.rest (.bool b), stack)
  | .number n => some (.rest (.number n), stack)
  | .string text => some (.rest (.string text), stack)
  | .openArray => some (.element, .array [] :: stack)
  | .openObject => some (.name [], stack)
  | _ => none

def accept : Goal × List Frame → Token → Option (Goal × List Frame)
  | (.value, stack), token => beginValue stack token
  | (.element, .array [] :: stack), .closeArray => some (.rest (.array []), stack)
  | (.element, stack), token => beginValue stack token
  | (.name [], stack), .closeObject => some (.rest (.object []), stack)
  | (.name members, stack), .string name => some (.colon members name, stack)
  | (.colon members name, stack), .colon => some (.value, .object members name :: stack)
  | (.rest v, .array elements :: stack), .comma => some (.value, .array (v :: elements) :: stack)
  | (.rest v, .array elements :: stack), .closeArray =>
    some (.rest (.array (v :: elements).reverse), stack)
  | (.rest v, .object members name :: stack), .comma => some (.name ((name, v) :: members), stack)
  | (.rest v, .object members name :: stack), .closeObject =>
    some (.rest (.object ((name, v) :: members).reverse), stack)
  | _, _ => none

def read? (text : List Char) : Option Json := do
  match ← (← tokens? text).foldlM accept (.value, []) with
  | (.rest v, []) => return v
  | _ => none

end TickMachine.Json
