import AgentScript.Resolve.Term

/-! What a statement means in a scope. -/
namespace AgentScript.Statement

/-- The source has as many slots as the targets, and each casts to its own. -/
def checkAssignable (source targets : Expr) : Resolve Unit := do
  if Slices.len source ≠ Slices.len targets then
    Resolve.fail (.arity (Slices.len targets) (Slices.len source))
  (List.range (Slices.len source)).forM fun i => do
    let ty ← Resolve.ofExcept (source.readType i)
    Resolve.checkCast ty (← Resolve.ofExcept (targets.writeType i))

/-! ### Variables -/

/-- The type of a variable with a declared type, an initial value, or both. -/
def varType (name : String) (i : Nat) (declared : Option TypeId) (init : Option Expr) :
    Resolve TypeId := do
  match declared, init with
  | some ty, some e =>
    Resolve.checkCast (← Resolve.ofExcept (e.readType i)) ty
    return ty
  | some ty, none => return ty
  | none, some e => Resolve.ofExcept (e.readType i)
  | none, none =>
    Resolve.fail (.invalid ("variable " ++ name ++ " has neither a type nor an initializer"))

def declaredType (types : List (Option TypeRef)) (i : Nat) : Resolve (Option TypeId) :=
  match (types[i]?).bind id with
  | some t => return some (← Resolve.typeRef t)
  | none => return none

def makeVars (types : List (Option TypeRef)) (init : Option Expr) : (i : Nat) → List String →
    Resolve (List LocalVar)
  | _, [] => return []
  | i, name :: rest => do
    let ty ← varType name i (← declaredType types i) init
    let v : LocalVar := ⟨← Resolve.freshHandle, ty, name⟩
    return v :: (← makeVars types init (i + 1) rest)

/-- The variables are in scope after their initial values are resolved. -/
def declare (names : List String) (types : List (Option TypeRef)) (init : Option Meaning) :
    Resolve ActionKind := do
  let init ← match init with
    | some m => some <$> m.value
    | none => pure none
  match init with
  | some e =>
    if Slices.len e ≠ names.length then Resolve.fail (.arity names.length (Slices.len e))
  | none => pure ()
  let vars ← makeVars types init 0 names
  vars.forM fun v => Resolve.bind v.label (Expr.leaf v.leaf)
  return .declare vars init

def assign (targets : Option Meaning) (source : Meaning) : Resolve ActionKind := do
  let source ← source.value
  let targets ← match targets with
    | some m => m.value
    | none => do
      let key ← Resolve.freshKey
      pure (Expr.leaf (.sink key (Slices.len source) Registry.any))
  checkAssignable source targets
  return .assign targets source

def update (op : ChainOp) (target source : Meaning) : Resolve ActionKind := do
  let target ← target.value
  let source ← source.value
  let before ← Resolve.ofExcept target.singleReadType
  let slot ← Resolve.ofExcept (target.writeType 0)
  let operand ← Resolve.ofExcept source.singleReadType
  let after ← Resolve.ofType (op.stepType (← Resolve.types) before operand)
  Resolve.checkCast after slot
  return .update op target source before operand after

def synonym (name : String) (target : Meaning) : Resolve ActionKind := do
  let target ← target.value
  Resolve.bind name target
  return .synonym name target

/-! ### Branches and loops -/

/-- A branch that is known becomes the statement that is taken. -/
def branch (cond : Meaning) (yes : Resolve Action) (no : Option (Resolve Action)) :
    Resolve ActionKind := do
  let cond ← cond.cond
  let within (x : Resolve Action) := Resolve.inFrame Scope.innerFrame x
  match cond.constant?, no with
  | some true, _ => return (← within yes).kind
  | some false, some x => return (← within x).kind
  | some false, none => return .nop
  | none, some x =>
    let yes ← within yes
    return .branch cond yes (some (← within x))
  | none, none => return .branch cond (← within yes) none

def loop (body : Resolve Action) : Resolve ActionKind :=
  return .loop (← Resolve.inFrame Scope.loopFrame body)

def breakLoop : Resolve ActionKind := do
  if (← Resolve.scope).breakable then return .breakLoop else Resolve.fail .cannotBreak

def continueLoop : Resolve ActionKind := do
  if (← Resolve.scope).breakable then return .continueLoop else Resolve.fail .cannotContinue

/-- The line that opens an enumeration. Without parameters it visits a class, with three the class
that they are the numbers of. -/
def starter (kind : EnumKind) (agent : TypeId) (params : Expr) : Resolve (List Part) := do
  Resolve.checkCast agent Registry.agent
  let head := kind.name ++ " "
  match decide (kind = .econ), Slices.len params with
  | true, 1 =>
    Resolve.checkCast (← Resolve.ofExcept (params.readType 0)) Registry.agent
    return [.text head, .expr params]
  | true, n => Resolve.fail (.arity 1 n)
  | false, 0 =>
    let types ← Resolve.types
    match types.classifierOf agent with
    | some c => return [.text (head ++ c.arguments)]
    | none => Resolve.fail (.invalid
        ("cannot " ++ kind.name ++ " over " ++ types.name agent ++ ": it is not a classifier type"))
  | false, 3 =>
    (List.range 3).forM fun i => do
      Resolve.checkCast (← Resolve.ofExcept (params.readType i)) Registry.integer
    return [.text head, .expr params]
  | false, n => Resolve.fail (.arity 3 n)

/-- In the body `targ` is an agent of the visited class; afterwards it may be anything. -/
def enumerate (kind : EnumKind) (agent : TypeRef) (params : List Meaning)
    (body : Resolve Action) : Resolve ActionKind := do
  let agent ← Resolve.typeRef agent
  let result ← Resolve.inFrame Scope.loopFrame do
    let params ← Meaning.grouped params
    let starter ← starter kind agent params
    Resolve.bind "targ" (Scope.targetVar agent)
    return ActionKind.enumerate starter (← body)
  Resolve.bind "targ" (Scope.targetVar Registry.agentOrNull)
  return result

/-! ### Messages -/

/-- The message of a send or the script of a call. -/
inductive Number where
  | name (name : String)
  | value (m : Meaning)

def Number.resolve (number : Number) (receiver : TypeId) (script : Bool) : Resolve Expr :=
  match number with
  | .name text => do
    let n ← Resolve.ofExcept (Meaning.numberOf (← Resolve.types) receiver text script)
    return Expr.int (Int32.ofNat n.toNat)
  | .value m => do
    let e ← m.value
    Resolve.checkSingle e Registry.integer
    return e

def twoParams (params : List Meaning) : Resolve Expr := do
  let params ← Meaning.grouped params
  if 2 < Slices.len params then Resolve.fail (.arity 2 (Slices.len params))
  return Slices.group (params :: List.replicate (2 - Slices.len params) (Expr.int 0))

def send (agent : Meaning) (message : Number) (params : List Meaning) (delay : Option Meaning) :
    Resolve ActionKind := do
  let agent ← agent.value
  let receiver ← Resolve.ofExcept agent.singleReadType
  Resolve.checkCast receiver Registry.agent
  let number ← message.resolve receiver false
  match params, delay with
  | [], none => return .inline [.text "mesg writ ", .expr (Slices.group [agent, number])]
  | params, delay =>
    let params ← twoParams params
    let delay ← match delay with
      | some m => do
        let e ← m.value
        Resolve.checkSingle e Registry.integer
        pure e
      | none => pure (Expr.int 0)
    return .inline [.text "mesg wrt+ ", .expr (Slices.group [agent, number, params, delay])]

def call (script : Number) (params : List Meaning) : Resolve ActionKind := do
  let number ← script.resolve (← Resolve.scope).script.owner true
  let params ← twoParams params
  return .inline [.text "call ", .expr (Slices.group [number, params])]

end AgentScript.Statement
