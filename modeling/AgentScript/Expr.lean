import AgentScript.Error
import AgentScript.Operator
import AgentScript.Slices
import AgentScript.Types.Registry

/-!
Resolved scripts. An expression is a sequence of slots, each of which may be read, written or both
with a type for each direction. Actions are resolved statements.
-/
namespace AgentScript

/-- Slots that code generation treats in a way of their own. -/
inductive Role where
  | plain
  | owner
  | target
  | register
  | discard
  deriving DecidableEq

/-- A variable that a register is bound to for some part of a script. -/
structure LocalVar where
  handle : Nat
  ty : TypeId
  label : String

mutual
inductive Leaf where
  | const (c : Constant)
  /-- A local variable, held in the register that its handle is bound to. -/
  | var (handle : Nat) (ty : TypeId) (writable : Bool)
  /-- A variable with a name of its own in scripts. -/
  | builtin (code : String) (ty : TypeId) (writable : Bool) (role : Role)
  /-- Takes any value and drops it. -/
  | sink (key : Nat) (len : Nat) (ty : TypeId)
  | field (base : List (Piece Leaf)) (field : Field)
  | isInstance (base : List (Piece Leaf)) (cls : Classifier) (nullable : Bool) (ty : TypeId)
  /-- The same slot with another type. -/
  | cast (base : List (Piece Leaf)) (ty : TypeId)
  /-- The same slot, written with a fixed type. -/
  | retype (target : List (Piece Leaf)) (ty : TypeId)
  | chain (op : ChainOp) (head : List (Piece Leaf)) (headType : TypeId) (tail : List Operand)
  | test (cond : Cond) (ty : TypeId)
  | inline (parts : List Part) (ty : TypeId)
  /-- Stands for an expression that is known once the call it belongs to is resolved. -/
  | deferred (key : Nat) (id : Nat) (params : List (TypeId × Perm))
  /-- A macro body behind the copies of its arguments. -/
  | call (key : Nat) (copies : List Copy) (body : List (Piece Leaf))
  | seq (key : Nat) (body : List Action) (result : List (Piece Leaf))
/-- A later operand of a chain: its type, and the type of the chain up to it. -/
inductive Operand where
  | mk (expr : List (Piece Leaf)) (ty : TypeId) (after : TypeId)
inductive Cond where
  | const (b : Bool)
  | compare (op : CompareOp) (left right : List (Piece Leaf))
  | logic (op : LogicOp) (left right : Cond)
  | not (c : Cond)
inductive Part where
  | text (s : String)
  | expr (e : List (Piece Leaf))
/-- Slots and the fresh variables that their values are copied to. -/
inductive Copy where
  | mk (source : List (Piece Leaf)) (vars : List LocalVar)
inductive Action where
  | mk (pos : Position) (kind : ActionKind)
inductive ActionKind where
  | nop
  | block (body : List Action) (closed : Bool)
  | declare (vars : List LocalVar) (init : Option (List (Piece Leaf)))
  | assign (targets source : List (Piece Leaf))
  /-- The types are those of the target before, of the source, and of the target after. -/
  | update (op : ChainOp) (target source : List (Piece Leaf)) (before operand after : TypeId)
  | synonym (name : String) (target : List (Piece Leaf))
  | branch (cond : Cond) (yes : Action) (no : Option Action)
  | loop (body : Action)
  | breakLoop
  | continueLoop
  | enumerate (starter : List Part) (body : Action)
  | inline (parts : List Part)
end

def Action.kind : Action → ActionKind
  | .mk _ kind => kind

abbrev Expr := Slices Leaf

namespace Leaf

def label : Leaf → String
  | const _ => "ConstSlice"
  | var .. => "VaVar"
  | builtin .. => "FixedVar"
  | sink .. => "Discard"
  | field .. => "FieldSlice"
  | isInstance .. => "InstanceofSlice"
  | cast .. => "CastSlice"
  | retype .. => "Retype"
  | chain .. => "ChainSlice"
  | test .. => "CondSlice"
  | inline .. => "InlineExpr"
  | deferred .. => "DeferredSlice"
  | call .. => "MacroCall"
  | seq .. => "StmtExpr"

/-- Leaves with more than one slot are told apart by a key. -/
def key : Leaf → Option Nat
  | sink key .. | deferred key .. | call key .. | seq key .. => some key
  | _ => none

def resultType (headType : TypeId) : List Operand → TypeId
  | [] => headType
  | .mk _ _ after :: rest => resultType after rest

end Leaf

/-- How a slot may be used. -/
structure Access where
  read : Option TypeId
  write : Option TypeId
  label : String

def Access.perm (a : Access) : Option Perm :=
  match a.read.isSome, a.write.isSome with
  | true, true => some .rw
  | true, false => some .r
  | false, true => some .w
  | false, false => none

def viewOf (base len : Nat) (list : List β) : List β := (list.drop base).take len

mutual
def Leaf.accesses : Leaf → List Access
  | .const c => [⟨some c.ty, none, (Leaf.const c).label⟩]
  | .var h ty writable =>
    [⟨some ty, if writable then some ty else none, (Leaf.var h ty writable).label⟩]
  | .builtin code ty writable role =>
    [⟨some ty, if writable then some ty else none, (Leaf.builtin code ty writable role).label⟩]
  | .sink key len ty => List.replicate len ⟨none, some ty, (Leaf.sink key len ty).label⟩
  | .field base f => [⟨some f.ty, some f.ty, (Leaf.field base f).label⟩]
  | .isInstance base cls nullable ty => [⟨some ty, none, (Leaf.isInstance base cls nullable ty).label⟩]
  | .cast base ty =>
    let first := (accessesAll base)[0]?
    [⟨(first.bind (·.read)).map fun _ => ty, (first.bind (·.write)).map fun _ => ty,
      (Leaf.cast base ty).label⟩]
  | .retype target ty =>
    [⟨none, (accessesAll target)[0]?.bind (·.write), (Leaf.retype target ty).label⟩]
  | .chain op head headType tail =>
    [⟨some (Leaf.resultType headType tail), none, (Leaf.chain op head headType tail).label⟩]
  | .test cond ty => [⟨some ty, none, (Leaf.test cond ty).label⟩]
  | .inline parts ty => [⟨some ty, none, (Leaf.inline parts ty).label⟩]
  | .deferred key id params => params.map fun (ty, perm) =>
    ⟨if perm.reads then some ty else none, if perm.writes then some ty else none,
      (Leaf.deferred key id params).label⟩
  | .call key copies body => (accessesAll body).map fun a =>
    ⟨a.read, a.write, (Leaf.call key copies body).label⟩
  | .seq key body result => (accessesAll result).map fun a =>
    ⟨a.read, none, (Leaf.seq key body result).label⟩
def accessesPiece : Piece Leaf → List Access
  | .whole leaf => leaf.accesses
  | .view leaf base len => viewOf base len leaf.accesses
def accessesAll : List (Piece Leaf) → List Access
  | [] => []
  | p :: rest => accessesPiece p ++ accessesAll rest
end

instance : Slotted Leaf where
  count leaf := leaf.accesses.length
  key := Leaf.key

namespace Expr

def leaf (l : Leaf) : Expr := [.whole l]

def const (c : Constant) : Expr := leaf (.const c)

def accesses (e : Expr) : List Access := accessesAll e

def access (e : Expr) (i : Nat) : Except Cause Access :=
  match Slices.locate? e i with
  | some (owner, place) => match owner.accesses[place]? with
    | some a => .ok a
    | none => .error (.slotOutOfRange i (Slices.len e))
  | none => .error (.slotOutOfRange i (Slices.len e))

def readType (e : Expr) (i : Nat) : Except Cause TypeId := do
  let a ← e.access i
  match a.read with
  | some ty => .ok ty
  | none => .error (.notReadable a.label)

def writeType (e : Expr) (i : Nat) : Except Cause TypeId := do
  let a ← e.access i
  match a.write with
  | some ty => .ok ty
  | none => .error (.notWritable a.label)

def perm (e : Expr) (i : Nat) : Except Cause (Option Perm) := do
  return (← e.access i).perm

def readTypes (e : Expr) : Except Cause (List TypeId) :=
  (List.range (Slices.len e)).mapM e.readType

def singleReadType (e : Expr) : Except Cause TypeId :=
  if Slices.len e = 1 then e.readType 0 else .error (.notSingle (Slices.len e))

def cut (e : Expr) (base n : Nat) : Except Cause Expr :=
  match Slices.cut e base n with
  | .ok part => .ok part
  | .error c => .error (.invalidSlice c.base c.len c.total)

def singles (e : Expr) : Except Cause (List Expr) :=
  (List.range (Slices.len e)).mapM fun i => e.cut i 1

end Expr

namespace LocalVar

def leaf (v : LocalVar) : Leaf := .var v.handle v.ty true

/-- The expression whose slots are the variables. -/
def targets (vars : List LocalVar) : Expr := vars.map fun v => .whole v.leaf

end LocalVar

namespace Cond

def constant? : Cond → Option Bool
  | const b => some b
  | _ => none

def join (op : LogicOp) (left right : Cond) : Cond :=
  match left.constant?, right.constant? with
  | some l, some r => const (op.apply l r)
  | _, _ => logic op left right

def negate : Cond → Cond
  | const b => const !b
  | not c => c
  | c => not c

/-- Compares two single values of one storage class. -/
def comparison (types : Registry) (op : CompareOp) (left right : Expr) : Except Cause Cond := do
  let lt ← left.singleReadType
  let rt ← right.singleReadType
  let lm := types.major lt
  let rm := types.major rt
  if lm ≠ .unknown ∧ rm ≠ .unknown ∧ lm ≠ rm then
    .error (.majorMismatch (types.name lt) (types.name rt))
  else .ok (compare op left right)

/-- A number is true when it is not zero. -/
def truth (types : Registry) (value : Expr) : Except Cause Cond := do
  let ty ← value.singleReadType
  match types.checkCast ty Registry.number with
  | .error e => .error (.type e)
  | .ok () => .ok (compare .ne value (Expr.const ⟨.int 0, Registry.integer⟩))

end Cond

namespace ChainOp

/-- Integers stay integers, a float makes a float, and other numbers make a number. -/
def numberType (types : Registry) (lt rt : TypeId) : TypeId :=
  if types.canCast lt Registry.integer ∧ types.canCast rt Registry.integer then Registry.integer
  else if types.canCast lt Registry.float ∨ types.canCast rt Registry.float then Registry.float
  else Registry.number

/-- The type of applying the operator to operands of two types. -/
def stepType (types : Registry) (op : ChainOp) (lt rt : TypeId) : Except TypeError TypeId := do
  match op with
  | add =>
    let lstr := types.canCast lt Registry.string
    let rstr := types.canCast rt Registry.string
    if !lstr then types.checkCast lt Registry.number
    if !rstr then types.checkCast rt Registry.number
    if lstr || rstr then return Registry.string else return numberType types lt rt
  | sub | mul | div =>
    types.checkCast lt Registry.number
    types.checkCast rt Registry.number
    return numberType types lt rt
  | or | and =>
    types.checkCast lt Registry.integer
    types.checkCast rt Registry.integer
    return Registry.integer

end ChainOp

namespace Leaf

def chainTail (types : Registry) (op : ChainOp) : (before : TypeId) → List Expr →
    Except Cause (List Operand)
  | _, [] => .ok []
  | before, e :: rest => do
    let ty ← e.singleReadType
    match op.stepType types before ty with
    | .error err => .error (.type err)
    | .ok after => return .mk e ty after :: (← chainTail types op after rest)

/-- A chain of single values that the operator is defined on. -/
def mkChain (types : Registry) (op : ChainOp) : List Expr → Except Cause Leaf
  | [] => .error (.invalid "empty operator chain")
  | head :: rest => do
    let ty ← head.singleReadType
    return chain op head ty (← chainTail types op ty rest)

def mkCast (base : Expr) (ty : TypeId) : Except Cause Leaf :=
  if Slices.len base = 1 then .ok (cast base ty) else .error (.notSingle (Slices.len base))

end Leaf

end AgentScript
