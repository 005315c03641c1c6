import AgentScript.Code.Slot

/-!
Code of operator chains and conditions. A chain is computed in the register that it is wanted in, if
no later operand mentions that register. Scripts have no brackets for tests, so a test inside one of
the other connective is computed to a register first.
-/
namespace AgentScript

/-! ### Chains -/

/-- A later operand: its code, its type, and the type of the chain up to it. -/
structure OperandCode where
  expr : Code
  ty : TypeId
  after : TypeId

/-- Whether every operand has a form that does not mention `target`. -/
def leaveAlone (target : Arg) (s : Ctx) : List OperandCode → Except Cause Bool
  | [] => .ok true
  | o :: rest => do
    match ← Slot.inlineAt o.expr.slots 0 false s with
    | none => return false
    | some arg =>
      if Text.occursIn target.text arg.text then return false
      leaveAlone target s rest

/-- Applies the operator to the operands in turn. Those without a form share one register. -/
def applyOperands (env : Env) (op : ChainOp) (target : Arg) :
    (before : TypeId) → (scratch : Option Nat) → List OperandCode → Emit Unit
  | _, _, [] => pure ()
  | before, scratch, o :: rest => do
    match ← o.expr.inline false with
    | some arg =>
      Emit.lines (op.lines env.types before o.ty target arg)
      applyOperands env op target o.after scratch rest
    | none =>
      let slot ← match scratch with
        | some slot => pure slot
        | none => Emit.temp
      o.expr.read [Slot.register env slot]
      Emit.lines (op.lines env.types before o.ty target (.register slot))
      applyOperands env op target o.after (some slot) rest

/-- Computes a chain in `target`, the form of the one slot in `out`. -/
def computeChain (env : Env) (op : ChainOp) (head : Code) (headType : TypeId)
    (tail : List OperandCode) (out : List Slot) (target : Arg) : Emit Unit := do
  let first ← head.inline false
  if first.map Arg.text ≠ some target.text then head.read out
  applyOperands env op target headType none tail

/-- The register of the output, if the chain can be computed there. -/
def chainTarget? (tail : List OperandCode) (out : List Slot) : Emit (Option Arg) := do
  if Slot.roleAt out 0 ≠ .register then return none
  match ← Emit.inspect (Slot.inlineAt out 0 true) with
  | none => return none
  | some target =>
    if ← Emit.inspect fun s => leaveAlone target s tail then return some target else return none

def chainCode (env : Env) (what : String) (op : ChainOp) (head : Code) (headType : TypeId)
    (tail : List OperandCode) (ty : TypeId) : LeafCode :=
  .ofSlot env (.computed what) fun out => do
    match ← chainTarget? tail out with
    | some target => Emit.inScope (computeChain env op head headType tail out target)
    | none => Emit.inScope do
      let slot ← Emit.temp
      computeChain env op head headType tail [Slot.register env slot] (.register slot)
      Slot.put out (.register slot) ty

/-! ### Conditions -/

/-- What a condition can be asked for. The flags say whether its negation is meant. -/
structure CondCode where
  constant : Option Bool
  /-- The connective of the condition. -/
  connective : Bool → Option LogicOp
  /-- Evaluates the operands and answers the test. -/
  test : Bool → Emit Test

namespace CondCode

def const (b : Bool) : CondCode :=
  ⟨some b, fun _ => none, fun invert => pure (.atom (.int 1) .eq (.int (if b != invert then 1 else 0)))⟩

def compare (env : Env) (op : CompareOp) (left right : Code) : CondCode :=
  ⟨none, fun _ => none, fun invert => do
    let l ← left.toArg env
    let r ← right.toArg env
    return .atom l (if invert then op.invert else op) r⟩

def not (c : CondCode) : CondCode :=
  ⟨none, fun invert => c.connective !invert, fun invert => c.test !invert⟩

def writeValue (c : CondCode) (out : List Slot) (invert : Bool) : Emit Unit :=
  match c.constant with
  | some b => Slot.writeAt out 0 (.int (if b != invert then 1 else 0)) Registry.boolean
  | none => Emit.inScope do
    let test ← c.test invert
    Emit.code 0 (.doif test) 1
    Slot.writeAt out 0 (.int 1) Registry.boolean
    Emit.code (-1) .otherwise 1
    Slot.writeAt out 0 (.int 0) Registry.boolean
    Emit.code (-1) .endi 0

/-- A part of a test whose connective is `parent`. -/
def clause (env : Env) (parent : LogicOp) (c : CondCode) (invert : Bool) : Emit Test :=
  if (c.connective invert).all (· = parent) then c.test invert
  else do
    let slot ← Emit.temp
    c.writeValue [Slot.register env slot] invert
    return .atom (.register slot) .eq (.int 1)

def logic (env : Env) (op : LogicOp) (left right : CondCode) : CondCode :=
  let meant (invert : Bool) := if invert then op.invert else op
  ⟨none, fun invert => some (meant invert), fun invert => do
    let l ← left.clause env (meant invert) invert
    let r ← right.clause env (meant invert) invert
    return l.join (meant invert) r⟩

end CondCode

def testCode (env : Env) (what : String) (c : CondCode) : LeafCode :=
  .ofSlot env
    ⟨.pure .plain,
      fun forWrite _ => .ok (if forWrite then none
        else c.constant.map fun b => .int (if b then 1 else 0)),
      Slot.noWrite what⟩
    fun out => c.writeValue out false

end AgentScript
