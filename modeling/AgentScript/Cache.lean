import AgentScript.Expr

/-!
Copying some slots of a sequence to fresh variables. Neighbouring copied slots are copied together,
in order; the others stay as they are.
-/
namespace AgentScript.Cache

/-- Neighbouring slots that are all copied or all kept. -/
structure Run where
  copied : Bool
  start : Nat
  len : Nat

/-- The longest runs of equal flags, the first flag being that of slot `start`. -/
def runs : (start : Nat) → List Bool → List Run
  | _, [] => []
  | start, b :: rest => match runs (start + 1) rest with
    | [] => [⟨b, start, 1⟩]
    | r :: more => if r.copied = b then ⟨b, start, r.len + 1⟩ :: more
      else ⟨b, start, 1⟩ :: r :: more

/-- What the copies are made of: the type and label of a slot, and a leaf for a variable. -/
structure Source (α : Type) where
  input : Slices α
  readType : Nat → Except Cause TypeId
  label : Nat → String
  leafOf : LocalVar → α

/-- Copies in order, and the sequence with copied slots replaced by their variables. -/
structure Result (α : Type) where
  copies : List (Slices α × List LocalVar)
  output : Slices α

/-- Variables for some slots, with handles from `next` on. Answers the next handle also when a slot
cannot be read. -/
def freshVars (readType : Nat → Except Cause TypeId) (label : Nat → String) :
    List Nat → (next : Nat) → Except Cause (List LocalVar) × Nat
  | [], next => (.ok [], next)
  | i :: rest, next => match readType i with
    | .error e => (.error e, next)
    | .ok ty => match freshVars readType label rest (next + 1) with
      | (.error e, next') => (.error e, next')
      | (.ok vars, next') => (.ok (⟨next, ty, label i⟩ :: vars), next')

section
variable {α : Type} [Slotted α]

/-- The parts of the sequence that the runs stand for, and the copies among them. -/
def pieces (s : Source α) : List Run → (next : Nat) →
    Except Cause (List (Slices α × List LocalVar) × List (Slices α)) × Nat
  | [], next => (.ok ([], []), next)
  | r :: rest, next =>
    let part := Slices.cutWithin s.input r.start r.len
    if r.copied then
      match freshVars s.readType s.label (List.range' r.start r.len) next with
      | (.error e, next) => (.error e, next)
      | (.ok vars, next) => match pieces s rest next with
        | (.error e, next) => (.error e, next)
        | (.ok (copies, parts), next) =>
          (.ok ((part, vars) :: copies, vars.map (fun v => .whole (s.leafOf v)) :: parts), next)
    else
      match pieces s rest next with
      | (.error e, next) => (.error e, next)
      | (.ok (copies, parts), next) => (.ok (copies, part :: parts), next)

def make (s : Source α) (copied : Nat → Bool) (next : Nat) : Except Cause (Result α) × Nat :=
  match pieces s (runs 0 ((List.range (Slices.len s.input)).map copied)) next with
  | (.error e, next) => (.error e, next)
  | (.ok (copies, parts), next) => (.ok ⟨copies, Slices.group parts⟩, next)

end

def ofExpr (e : Expr) (copied : Nat → Bool) (label : Nat → String) (next : Nat) :
    Except Cause (Result Leaf) × Nat :=
  make ⟨e, e.readType, label, LocalVar.leaf⟩ copied next

end AgentScript.Cache
