import AgentScript.Json.Number

/-!
Readers from values to what they describe. A reader knows how many brackets may still be opened, and
whether the value was taken in as a whole before it was looked at. Content that no reader looks at
is not checked; content that is taken in as a whole is.
-/
namespace AgentScript

/-- Where a reader stands in a text. -/
structure ReadAt where
  levels : Nat
  /-- Taken in as a whole, as statements and declarations are. -/
  whole : Bool

abbrev Reader (α : Type) := ReadAt → Json → Option α

/-- So many brackets may be open at once in one text. -/
def maxLevels : Nat := 127

def ReadAt.start : ReadAt := ⟨maxLevels, false⟩

def ReadAt.inner? (p : ReadAt) : Option ReadAt :=
  match p.levels with
  | 0 => none
  | levels + 1 => some { p with levels }

namespace Json

mutual
/-- Whether a value can be taken in as a whole: every string is text, every number is in range, and
no more than `levels` brackets are open. -/
def sound (levels : Nat) : Json → Bool
  | null | bool _ => true
  | number token => (numberParts token).inRange
  | string s => s.isSome
  | array items => levels != 0 && soundItems (levels - 1) items
  | object fs => levels != 0 && soundFields (levels - 1) fs
def soundItems (levels : Nat) : List Json → Bool
  | [] => true
  | item :: items => sound levels item && soundItems levels items
def soundField (levels : Nat) : Option String × Json → Bool
  | (key, value) => key.isSome && sound levels value
def soundFields (levels : Nat) : List (Option String × Json) → Bool
  | [] => true
  | f :: fs => soundField levels f && soundFields levels fs
end

end Json

namespace Reader

open Json

def asBool : Reader Bool
  | _, .bool b => some b
  | _, _ => none

def asText : Reader String
  | _, .string s => s
  | _, _ => none

def asInt : Reader Int
  | _, .number token => (numberParts token).int?
  | _, _ => none

def asIntWithin (low high : Int) : Reader Int := fun p j => do
  let n ← asInt p j
  if low ≤ n ∧ n ≤ high then some n else none

def asUInt8 : Reader UInt8 := fun p j =>
  (asIntWithin 0 (UInt8.size - 1) p j).map fun n => n.toNat.toUInt8

def asUInt16 : Reader UInt16 := fun p j =>
  (asIntWithin 0 (UInt16.size - 1) p j).map fun n => n.toNat.toUInt16

def asUInt32 : Reader UInt32 := fun p j =>
  (asIntWithin 0 (UInt32.size - 1) p j).map fun n => n.toNat.toUInt32

def asInt32 : Reader Int32 := fun p j =>
  (asIntWithin Int32.minValue.toInt Int32.maxValue.toInt p j).map Int32.ofInt

def asSingle : Reader Float32
  | _, .number token => (numberParts token).single?
  | _, _ => none

def nullable (reader : Reader α) : Reader (Option α)
  | _, .null => some none
  | p, j => (reader p j).map some

def list (reader : Reader α) : Reader (List α)
  | p, .array items => do
    let p ← p.inner?
    items.mapM (reader p)
  | _, _ => none

def taken (reader : Reader α) : Reader α := fun p j =>
  if j.sound p.levels then reader { p with whole := true } j else none

/-- The content of a tagged value: an object with one field. -/
def tagged? (p : ReadAt) : Json → Option (String × ReadAt × Json)
  | .object [(some tag, content)] => do return (tag, ← p.inner?, content)
  | _ => none

/-- A choice without content: its name, or its name with an empty content. -/
def oneOf (names : List (String × α)) : Reader α
  | _, .string (some name) => names.lookup name
  | p, j => do
    let (name, p, content) ← tagged? p j
    match content, p.whole with
    | .null, _ | .object [], true => names.lookup name
    | _, _ => none

end Reader

/-- The fields of a record: by name, or a list in their order that may stop early. -/
structure Fields where
  place : ReadAt
  byName : Bool
  values : List (String × Json)

namespace Fields

/-- The known fields of an object. None of them may be repeated, and others are passed over. -/
def select? (names : List String) : List (Option String × Json) → Option (List (String × Json))
  | [] => some []
  | (none, _) :: _ => none
  | (some name, value) :: rest => do
    let found ← select? names rest
    if name ∈ names then
      if (found.lookup name).isSome then none else return (name, value) :: found
    else return found

def read? (names : List String) (p : ReadAt) : Json → Option Fields
  | .object fs => do return ⟨← p.inner?, true, ← select? names fs⟩
  | .array items => do
    let p ← p.inner?
    if items.length ≤ names.length then return ⟨p, false, names.zip items⟩ else none
  | _ => none

def find? (f : Fields) (name : String) : Option Json := f.values.lookup name

def required (f : Fields) (name : String) (reader : Reader α) : Option α := do
  reader f.place (← f.find? name)

/-- A field that may be left out. -/
def withDefault (f : Fields) (name : String) (reader : Reader α) (default : α) : Option α :=
  match f.find? name with
  | none => some default
  | some j => reader f.place j

/-- A field that may be `null`, and left out only where fields are given by name. -/
def optional (f : Fields) (name : String) (reader : Reader α) : Option (Option α) :=
  match f.find? name with
  | none => if f.byName then some none else none
  | some j => Reader.nullable reader f.place j

/-- A field that may be left out or `null`. -/
def nullable (f : Fields) (name : String) (reader : Reader α) : Option (Option α) :=
  f.withDefault name (Reader.nullable reader) none

end Fields

end AgentScript
