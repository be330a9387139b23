import SourceChunks.Json

/-!
# Reading fields of documents

A field of a record is read from a value of fitting type: a text from a string, a truth value from
a truth value, a number from any number. A double loses its fraction and a whole number wraps to
the width of the field. A field that is absent may have a default; one that is present must fit.
-/

namespace SourceChunks.Json

/-- The text of a string. -/
def text? : Json → Option Bytes
  | .string t => some t
  | _ => none

/-- A truth value. -/
def truth? : Json → Option Bool
  | .bool b => some b
  | _ => none

/-- The whole number of a number. -/
def whole? : Json → Option Int
  | .int i => some i
  | .double x => some x.truncate
  | _ => none

/-- A signed field of 64 bits. -/
def int64? (v : Json) : Option Int := v.whole?.map fun i => i.bmod UInt64.size

/-- An unsigned field of 64 bits. -/
def nat64? (v : Json) : Option Nat := v.whole?.map fun i => (i.emod UInt64.size).toNat

/-- A signed field of 32 bits, which also takes a truth value. -/
def int32? : Json → Option Int
  | .bool b => some (if b then 1 else 0)
  | v => v.whole?.map fun i => i.bmod UInt32.size

/-- A double, to which a whole number is rounded. -/
def double? : Json → Option Binary64
  | .int i => some (Binary64.ofInt i)
  | .double x => some x
  | _ => none

/-- The texts of an array of strings. -/
def texts? : Json → Option (List Bytes)
  | .array items => items.mapM text?
  | _ => none

/-- A member that must be there and fit. -/
def required? {α : Type} (key : String) (read? : Json → Option α) (v : Json) : Option α :=
  (v.member? (bytes key)).bind read?

/-- A member of an object that must fit if it is there. -/
def optional? {α : Type} (key : String) (read? : Json → Option α) (default : α) (v : Json) :
    Option α :=
  if v.isObject then
    match v.member? (bytes key) with
    | none => some default
    | some m => read? m
  else none

end SourceChunks.Json
