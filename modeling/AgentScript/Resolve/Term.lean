import AgentScript.Resolve.Macro

/-!
What a term means in a scope: a constant if it can be computed there and then, a value, and a
condition. A term that has a constant value is that constant.
-/
namespace AgentScript

structure Meaning where
  const : Resolve (Option Constant)
  value : Resolve Expr
  cond : Resolve Cond

def Value.literalType : Value → TypeId
  | int _ => Registry.integer
  | float _ => Registry.float
  | str _ => Registry.string
  | bytes _ => Registry.bytes

/-- A constant with the type that its literal has. -/
def Constant.ofValue (v : Value) : Constant := ⟨v, v.literalType⟩

def Expr.int (n : Int32) : Expr := Expr.const (.ofValue (.int n))

namespace Meaning

/-- The condition that a value is not zero, known at once for a constant number. -/
def truth (const : Resolve (Option Constant)) (value : Resolve Expr) : Resolve Cond := do
  match (← const).bind (·.value.isTrue?) with
  | some b => return .const b
  | none =>
    let e ← value
    Resolve.ofExcept (Cond.truth (← Resolve.types) e)

/-- A term that may be a constant and else has some value. -/
def ofConstOr (const : Resolve (Option Constant)) (otherwise : Resolve Expr) : Meaning :=
  let value : Resolve Expr := do
    match ← const with
    | some c => return Expr.const c
    | none => otherwise
  ⟨const, value, truth const value⟩

def ofConst (c : Resolve Constant) : Meaning :=
  let const : Resolve (Option Constant) := return some (← c)
  let value : Resolve Expr := return Expr.const (← c)
  ⟨const, value, truth const value⟩

def ofValue (value : Resolve Expr) : Meaning :=
  ⟨return none, value, truth (return none) value⟩

def ofCond (cond : Resolve Cond) : Meaning :=
  ⟨return none, return Expr.leaf (.test (← cond) Registry.boolean), cond⟩

def literal (v : Value) : Meaning := ofConst (return .ofValue v)

def values : List Meaning → Resolve (List Expr)
  | [] => return []
  | m :: rest => do
    let first ← m.value
    return first :: (← values rest)

def grouped (items : List Meaning) : Resolve Expr := return Slices.group (← values items)

/-! ### Names and groups -/

/-- A name means a variable if one is in scope. -/
def name (name : String) : Meaning :=
  ofConstOr
    (do
      if (← Resolve.scope).isBound name then return none
      return (← Resolve.types).constant? name)
    (do
      match (← Resolve.scope).lookup? name with
      | some e => return e
      | none => Resolve.fail (.unknownIdentifier name))

/-- A group of one is its item. -/
def group (items : List Meaning) : Meaning :=
  ofConstOr
    (match items with
      | [item] => item.const
      | _ => return none)
    (grouped items)

/-! ### Chains -/

def constants : List Meaning → Resolve (Option (List Value))
  | [] => return some []
  | m :: rest => do
    match ← m.const with
    | none => return none
    | some c => return (← constants rest).map (c.value :: ·)

def foldValues (op : ChainOp) (acc : Value) : List Value → Except Cause (Option Value)
  | [] => .ok (some acc)
  | v :: rest => match op.fold acc v with
    | .value acc => foldValues op acc rest
    | .divisionByZero => .error .divisionByZero
    | .none => .ok none

def foldChain (op : ChainOp) : List Value → Except Cause (Option Constant)
  | [] => .ok none
  | v :: rest => return (← foldValues op v rest).map .ofValue

def chain (op : ChainOp) (operands : List Meaning) : Meaning :=
  ofConstOr
    (do
      match ← constants operands with
      | none => return none
      | some vs => Resolve.ofExcept (foldChain op vs))
    (do
      match ← values operands with
      | [e] => return e
      | es => return Expr.leaf (← Resolve.ofExcept (Leaf.mkChain (← Resolve.types) op es)))

/-! ### Calls, members and casts -/

def call (nested : Nested) (name : String) (args : List Meaning) : Meaning := ofValue do
  let args ← grouped args
  let m ← Resolve.ofExcept ((← Resolve.world).findMacro name (Slices.len args))
  m.expand nested args

def field (base : Meaning) (name : String) : Meaning := ofValue do
  let e ← base.value
  let ty ← Resolve.ofExcept e.singleReadType
  Resolve.checkCast ty Registry.agentOrNull
  let types ← Resolve.types
  match types.field? ty name with
  | some f => return Expr.leaf (.field e f)
  | none => Resolve.fail (.unknownField (types.name ty) name)

def cast (base : Meaning) (ty : TypeRef) : Meaning := ofValue do
  let e ← base.value
  let ty ← Resolve.typeRef ty
  return Expr.leaf (← Resolve.ofExcept (Leaf.mkCast e ty))

def nonNullable (ty : TypeId) : TypeM TypeId := do
  match (← get).byNonNullable ty with
  | .ok (t, r) =>
    set r
    return t
  | .error e => TypeM.fail e

def denull (base : Meaning) : Meaning := ofValue do
  let e ← base.value
  let ty ← Resolve.ofExcept e.singleReadType
  let ty ← Resolve.inWorld (WorldM.inTypes (nonNullable ty))
  return Expr.leaf (← Resolve.ofExcept (Leaf.mkCast e ty))

def numberOf (types : Registry) (ty : TypeId) (name : String) (script : Bool) :
    Except Cause UInt16 :=
  if script then
    match types.scriptNumber? ty name with
    | some n => .ok n
    | none => .error (.unknownScript (types.name ty) name)
  else
    match types.messageNumber? ty name with
    | some n => .ok n
    | none => .error (.unknownMessage (types.name ty) name)

def messageId (ty : TypeRef) (name : String) (script : Bool) : Meaning := ofConst do
  let ty ← Resolve.typeRef ty
  let n ← Resolve.ofExcept (numberOf (← Resolve.types) ty name script)
  return .ofValue (.int (Int32.ofNat n.toNat))

/-- Every agent is of the most general class, so that only `null` is not. -/
def isInstance (base : Meaning) (cls : Classifier) : Meaning := ofValue do
  let e ← base.value
  let types ← Resolve.types
  let ty ← Resolve.ofExcept e.singleReadType
  Resolve.checkCast ty Registry.agentOrNull
  let nullable := types.canCast Registry.null ty
  if cls.family ≠ 0 then return Expr.leaf (.isInstance e cls nullable Registry.boolean)
  if !nullable then return Expr.const ⟨.int 1, Registry.boolean⟩
  match (← Resolve.scope).lookup? "null" with
  | none => Resolve.fail (.unknownIdentifier "null")
  | some null =>
    let cond ← Resolve.ofExcept (Cond.comparison types .ne e null)
    return Expr.leaf (.test cond Registry.boolean)

/-! ### Conditions -/

def compare (op : CompareOp) (left right : Meaning) : Meaning := ofCond do
  let l ← left.const
  let r ← right.const
  let known : Option Bool := do op.eval? (← l).value (← r).value
  match known with
  | some b => return .const b
  | none =>
    let l ← left.value
    let r ← right.value
    Resolve.ofExcept (Cond.comparison (← Resolve.types) op l r)

def logic (op : LogicOp) (left right : Meaning) : Meaning := ofCond do
  let l ← left.cond
  let r ← right.cond
  return Cond.join op l r

def not (m : Meaning) : Meaning := ofCond do return (← m.cond).negate

/-! ### Text and statements -/

def inline (parts : Resolve (List Part)) (ty : TypeRef) : Meaning := ofValue do
  let parts ← parts
  let ty ← Resolve.typeRef ty
  return Expr.leaf (.inline parts ty)

def seq (body : Resolve (List Action)) (result : Meaning) : Meaning := ofValue do
  Resolve.inFrame Scope.innerFrame do
    let body ← body
    let result ← result.value
    return Expr.leaf (.seq (← Resolve.freshKey) body result)

end Meaning

end AgentScript
