import SourceChunks.Binary64
import SourceChunks.Dict

/-!
# Documents

A JSON value. The members of an object are listed by increasing key and each key occurs once, so
the order in which they were written is not part of the value.
-/

namespace SourceChunks

/-- A JSON value. Whole numbers that fit in 64 bits stay whole numbers; all others are doubles. -/
inductive Json where
  | null
  | bool (value : Bool)
  | int (value : Int)
  | double (value : Binary64)
  | string (text : Bytes)
  | array (items : List Json)
  | object (members : List (Bytes × Json))
  deriving Inhabited, Repr

namespace Json

/-- The object with the given members; of two with one key the later one counts. -/
def ofMembers (members : List (Bytes × Json)) : Json :=
  .object (members.foldl (fun ms m => Entries.insert m.1 m.2 ms) [])

/-- The object without members. -/
def emptyObject : Json := .object []

/-- Whether a value is an object. -/
def isObject : Json → Bool
  | .object _ => true
  | _ => false

/-- The member of an object under a key; what is not an object has no members. -/
def member? (k : Bytes) : Json → Option Json
  | .object members => Entries.get? k members
  | _ => none

/-- The values that a walk through a value meets: the items of an array, the members of an object,
nothing for null, and any other value itself. -/
def elements : Json → List Json
  | .null => []
  | .array items => items
  | .object members => members.map Prod.snd
  | v => [v]

/-- The values of such a walk with their keys. Items are numbered from zero, and a value that is
neither array nor object has the empty key. -/
def keyedElements : Json → List (Bytes × Json)
  | .null => []
  | .array items => items.mapIdx fun i v => (Bytes.ofNat i, v)
  | .object members => members
  | v => [([], v)]

mutual

/-- Equality of documents. Whole numbers are compared as words of 64 bits, so -1 is the same as the
largest one, and a whole number equals the double nearest to it. -/
def same : Json → Json → Bool
  | .null, .null => true
  | .bool a, .bool b => a == b
  | .int a, .int b => a % UInt64.size == b % UInt64.size
  | .int a, .double b => (Binary64.ofInt a).equal b
  | .double a, .int b => a.equal (Binary64.ofInt b)
  | .double a, .double b => a.equal b
  | .string a, .string b => a == b
  | .array as, .array bs => sameItems as bs
  | .object as, .object bs => sameMembers as bs
  | _, _ => false

/-- Equality of arrays, item by item. -/
def sameItems : List Json → List Json → Bool
  | [], [] => true
  | a :: as, b :: bs => same a b && sameItems as bs
  | _, _ => false

/-- Equality of objects, member by member in the order of the keys. -/
def sameMembers : List (Bytes × Json) → List (Bytes × Json) → Bool
  | [], [] => true
  | (k, a) :: as, (k', b) :: bs => k == k' && same a b && sameMembers as bs
  | _, _ => false

end

mutual

/-- Values are compared by their structure. -/
def decEq : (a b : Json) → Decidable (a = b)
  | .null, b => match b with
    | .null => isTrue rfl
    | .bool _ | .int _ | .double _ | .string _ | .array _ | .object _ => isFalse nofun
  | .bool x, b => match b with
    | .bool y => if h : x = y then isTrue (h ▸ rfl) else isFalse fun e => h (Json.bool.inj e)
    | .null | .int _ | .double _ | .string _ | .array _ | .object _ => isFalse nofun
  | .int x, b => match b with
    | .int y => if h : x = y then isTrue (h ▸ rfl) else isFalse fun e => h (Json.int.inj e)
    | .null | .bool _ | .double _ | .string _ | .array _ | .object _ => isFalse nofun
  | .double x, b => match b with
    | .double y => if h : x = y then isTrue (h ▸ rfl) else isFalse fun e => h (Json.double.inj e)
    | .null | .bool _ | .int _ | .string _ | .array _ | .object _ => isFalse nofun
  | .string x, b => match b with
    | .string y => if h : x = y then isTrue (h ▸ rfl) else isFalse fun e => h (Json.string.inj e)
    | .null | .bool _ | .int _ | .double _ | .array _ | .object _ => isFalse nofun
  | .array xs, b => match b with
    | .array ys => match decEqItems xs ys with
      | isTrue h => isTrue (h ▸ rfl)
      | isFalse h => isFalse fun e => h (Json.array.inj e)
    | .null | .bool _ | .int _ | .double _ | .string _ | .object _ => isFalse nofun
  | .object xs, b => match b with
    | .object ys => match decEqMembers xs ys with
      | isTrue h => isTrue (h ▸ rfl)
      | isFalse h => isFalse fun e => h (Json.object.inj e)
    | .null | .bool _ | .int _ | .double _ | .string _ | .array _ => isFalse nofun

/-- Arrays are compared item by item. -/
def decEqItems : (as bs : List Json) → Decidable (as = bs)
  | [], [] => isTrue rfl
  | [], _ :: _ => isFalse nofun
  | _ :: _, [] => isFalse nofun
  | a :: as, b :: bs => match decEq a b with
    | isFalse h => isFalse fun e => h (List.cons.inj e).1
    | isTrue h => match decEqItems as bs with
      | isTrue hs => isTrue (h ▸ hs ▸ rfl)
      | isFalse hs => isFalse fun e => hs (List.cons.inj e).2

/-- Objects are compared member by member. -/
def decEqMembers : (as bs : List (Bytes × Json)) → Decidable (as = bs)
  | [], [] => isTrue rfl
  | [], _ :: _ => isFalse nofun
  | _ :: _, [] => isFalse nofun
  | (k, a) :: as, (k', b) :: bs =>
    if hk : k = k' then match decEq a b with
      | isFalse h => isFalse fun e => h (Prod.mk.inj (List.cons.inj e).1).2
      | isTrue h => match decEqMembers as bs with
        | isTrue hs => isTrue (hk ▸ h ▸ hs ▸ rfl)
        | isFalse hs => isFalse fun e => hs (List.cons.inj e).2
    else isFalse fun e => hk (Prod.mk.inj (List.cons.inj e).1).1

end

instance : DecidableEq Json := decEq

end Json

end SourceChunks
