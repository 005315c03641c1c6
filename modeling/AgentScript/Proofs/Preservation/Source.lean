import AgentScript.Tree.Basic

/-! Statements on integers, and what they do to the variables that they declare. Arithmetic wraps at 32
bits, a comparison is 1 or 0, and a condition is a number that is not 0. -/
namespace AgentScript

/-- What an operator makes of two numbers. -/
def ChainOp.number (op : ChainOp) (a b : Int32) : Int32 :=
  match op with
  | add => a + b
  | sub => a - b
  | mul => a * b
  | div => a / b
  | or => a ||| b
  | and => a &&& b

def ChainOp.chainNumber (op : ChainOp) : List Int32 → Int32
  | [] => 0
  | first :: rest => rest.foldl op.number first

def CompareOp.relates (op : CompareOp) (a b : Int32) : Bool :=
  match op with
  | eq => a = b
  | ne => a ≠ b
  | lt => a < b
  | gt => b < a
  | le => a ≤ b
  | ge => b ≤ a

def LogicOp.connects (op : LogicOp) (a b : Bool) : Bool :=
  match op with
  | and => a && b
  | or => a || b

def truthNumber (b : Bool) : Int32 := if b then 1 else 0

mutual
/-- Terms on integers over the variables in scope. -/
def Term.isNumber (names : List String) : Term → Bool
  | .int _ => true
  | .id name => names.contains name
  | .chain op operands => op != .div && areNumbers names operands
  | .compare _ left right => left.isNumber names && right.isNumber names
  | .logic _ left right => left.isNumber names && right.isNumber names
  | .not t => t.isNumber names
  | _ => false
def areNumbers (names : List String) : List Term → Bool
  | [] => true
  | t :: rest => t.isNumber names && areNumbers names rest
end

mutual
/-- The variables in scope after a statement on integers without loops; none for any other. -/
def Statement.after? (names : List String) : Statement → Option (List String)
  | .mk _ kind => kind.after? names
def StatementKind.after? (names : List String) : StatementKind → Option (List String)
  | .block body closed => (afterAll? names body).map fun after => if closed then names else after
  | .declare [name] _ (some init) => if init.isNumber names then some (name :: names) else none
  | .assign (some (.id name)) source =>
    if names.contains name && source.isNumber names then some names else none
  | .update op (.id name) source =>
    if op != .div && names.contains name && source.isNumber names then some names else none
  | .branch cond yes no =>
    if cond.isNumber names && (yes.after? names).isSome && (otherwise? names no).isSome then some names
    else none
  | _ => none
def otherwise? (names : List String) : Option Statement → Option (List String)
  | none => some names
  | some s => s.after? names
def afterAll? (names : List String) : List Statement → Option (List String)
  | [] => some names
  | s :: rest => (s.after? names).bind fun after => afterAll? after rest
end

/-- Variables and their values, the last declared first. -/
abbrev Valuation := List (String × Int32)

namespace Valuation

def assign (name : String) (v : Int32) : Valuation → Valuation
  | [] => []
  | (other, old) :: rest =>
    if other = name then (other, v) :: rest else (other, old) :: assign name v rest

def number (ε : Valuation) (name : String) : Int32 := (ε.lookup name).getD 0

/-- What is left of the variables inside a scope that was entered with `ε`. -/
def leave (ε inside : Valuation) : Valuation := inside.drop (inside.length - ε.length)

end Valuation

mutual
def Term.number (ε : Valuation) : Term → Int32
  | .int v => v
  | .id name => ε.number name
  | .chain op operands => op.chainNumber (numbers ε operands)
  | .compare op left right => truthNumber (op.relates (left.number ε) (right.number ε))
  | .logic op left right =>
    truthNumber (op.connects (left.number ε != 0) (right.number ε != 0))
  | .not t => truthNumber (t.number ε == 0)
  | _ => 0
def numbers (ε : Valuation) : List Term → List Int32
  | [] => []
  | t :: rest => t.number ε :: numbers ε rest
end

mutual
/-- The variables after a statement on integers. -/
def Statement.exec (ε : Valuation) : Statement → Valuation
  | .mk _ kind => kind.exec ε
def StatementKind.exec (ε : Valuation) : StatementKind → Valuation
  | .block body closed => if closed then ε.leave (execAll ε body) else execAll ε body
  | .declare [name] _ (some init) => (name, init.number ε) :: ε
  | .assign (some (.id name)) source => ε.assign name (source.number ε)
  | .update op (.id name) source => ε.assign name (op.number (ε.number name) (source.number ε))
  | .branch cond yes no =>
    if cond.number ε ≠ 0 then ε.leave (yes.exec ε) else ε.leave (execOtherwise ε no)
  | _ => ε
def execOtherwise (ε : Valuation) : Option Statement → Valuation
  | none => ε
  | some s => s.exec ε
def execAll (ε : Valuation) : List Statement → Valuation
  | [] => ε
  | s :: rest => execAll (s.exec ε) rest
end

end AgentScript
