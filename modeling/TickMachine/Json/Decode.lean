import TickMachine.Json.Basic
import TickMachine.Numeric.Width

/-! Machine values out of JSON values. A record may be written as an object, whose unknown members
are ignored, or as an array of its fields in order. -/

namespace TickMachine.Json

def int? : Json → Option Int
  | .number n => n.toInt?
  | _ => none

def int64? (v : Json) : Option Int64 := v.int? >>= Numeric.signed64?

def uint64? (v : Json) : Option UInt64 := v.int? >>= Numeric.unsigned64?

def bool? : Json → Option Bool
  | .bool b => some b
  | _ => none

def text? : Json → Option String
  | .string text => text
  | _ => none

def char? (v : Json) : Option Char :=
  match v.text?.map String.toList with
  | some [c] => some c
  | _ => none

def list? {α : Type} (decode : Json → Option α) : Json → Option (List α)
  | .array elements => elements.mapM decode
  | _ => none

def valuesOf (name : String) (members : List (Option String × Json)) : List Json :=
  members.filterMap fun (n, v) => if n = some name then some v else none

/-- The fields of a record by name. None may be given twice; one that is missing is `none`, and in
an array only the last ones can be missing. -/
def fields? (names : List String) : Json → Option (List (Option Json))
  | .object members =>
    if members.all (·.1.isSome) then
      names.mapM fun name =>
        match valuesOf name members with
        | [] => some none
        | [v] => some (some v)
        | _ => none
    else none
  | .array elements =>
    if elements.length ≤ names.length then
      some (elements.map some ++ List.replicate (names.length - elements.length) none)
    else none
  | _ => none

end TickMachine.Json
