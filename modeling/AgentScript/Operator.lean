import AgentScript.Value.Basic

/-!
Operators of the language and their meaning on values known before the script runs. Integers wrap
at 32 bits, and other numbers are single precision.
-/
namespace AgentScript

/-- Operators that apply to a chain of operands from the left. -/
inductive ChainOp where
  | add
  | sub
  | mul
  | div
  | or
  | and
  deriving DecidableEq

inductive CompareOp where
  | eq
  | ne
  | lt
  | gt
  | le
  | ge
  deriving DecidableEq

inductive LogicOp where
  | and
  | or
  deriving DecidableEq

/-- The access that a slot permits. -/
inductive Perm where
  | r
  | w
  | rw
  deriving DecidableEq

def Perm.reads : Perm → Bool
  | r | rw => true
  | w => false

def Perm.writes : Perm → Bool
  | w | rw => true
  | r => false

namespace ChainOp

def instruction : ChainOp → String
  | add => "addv"
  | sub => "subv"
  | mul => "mulv"
  | div => "divv"
  | or => "orrv"
  | and => "andv"

def applyInt (op : ChainOp) (a b : Int32) : Int32 :=
  match op with
  | add => a + b
  | sub => a - b
  | mul => a * b
  | div => a / b
  | or => a ||| b
  | and => a &&& b

/-- Bit operators have no meaning on numbers that are not integers. -/
def applySingle? (op : ChainOp) (a b : Float32) : Option Float32 :=
  match op with
  | add => some (a + b)
  | sub => some (a - b)
  | mul => some (a * b)
  | div => some (a / b)
  | or | and => none

/-- Result of folding two values. -/
inductive Folded where
  | value (v : Value)
  | divisionByZero
  /-- The operator is not defined on the pair. -/
  | none

def foldSingles (op : ChainOp) (a b : Value) : Folded :=
  match a.asSingle?, b.asSingle? with
  | some x, some y =>
    if op = div ∧ y == 0.0 then .divisionByZero
    else match op.applySingle? x y with
      | some z => .value (.float z)
      | Option.none => .none
  | _, _ => .none

/-- Adding a string joins texts. Two integers stay integers; any other numbers are singles. -/
def fold (op : ChainOp) (a b : Value) : Folded :=
  match op, a, b with
  | add, .str _, .bytes _ | add, .bytes _, .str _ => .none
  | add, .str s, b => .value (.str (s ++ b.plain))
  | add, a, .str s => .value (.str (a.plain ++ s))
  | op, .int x, .int y =>
    if op = div ∧ y = 0 then .divisionByZero else .value (.int (op.applyInt x y))
  | op, a, b => op.foldSingles a b

end ChainOp

namespace CompareOp

def name : CompareOp → String
  | eq => "eq"
  | ne => "ne"
  | lt => "lt"
  | gt => "gt"
  | le => "le"
  | ge => "ge"

def invert : CompareOp → CompareOp
  | eq => ne
  | ne => eq
  | lt => ge
  | gt => le
  | le => gt
  | ge => lt

def holds : CompareOp → Ordering → Bool
  | eq, o => o == .eq
  | ne, o => o != .eq
  | lt, o => o == .lt
  | gt, o => o == .gt
  | le, o => o != .gt
  | ge, o => o != .lt

/-- Values that are not numbers in any order, such as one that is no number, have none. -/
def orderSingles? (x y : Float32) : Option Ordering :=
  if x < y then some .lt
  else if x == y then some .eq
  else if y < x then some .gt
  else none

/-- Strings are only equal or different. -/
def eval? (op : CompareOp) (a b : Value) : Option Bool :=
  match a, b with
  | .int x, .int y => some (op.holds (compare x.toInt y.toInt))
  | .str s, .str t => match op with
    | eq => some (s == t)
    | ne => some (s != t)
    | _ => none
  | a, b => do
    let o ← orderSingles? (← a.asSingle?) (← b.asSingle?)
    return op.holds o

end CompareOp

namespace LogicOp

def name : LogicOp → String
  | and => "and"
  | or => "or"

def invert : LogicOp → LogicOp
  | and => or
  | or => and

def apply : LogicOp → Bool → Bool → Bool
  | and, a, b => a && b
  | or, a, b => a || b

end LogicOp

end AgentScript
