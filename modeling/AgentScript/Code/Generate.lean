import AgentScript.Code.Action

/-!
The code that resolved scripts denote, by recursion on their structure. Placeholders are looked up
in a table, which in turn may hold expressions with placeholders.
-/
namespace AgentScript

mutual
def Leaf.code (env : Env) (table : Placeholder) : Leaf → LeafCode
  | .const c => constCode env (Leaf.const c).label c
  | .var handle ty writable => varCode env handle ty writable
  | .builtin name ty writable role => builtinCode env name ty writable role
  | .sink key len ty => sinkCode env (Leaf.sink key len ty).label len
  | .field base f => fieldCode env (codeOf env table base) f
  | .isInstance base cls nullable ty =>
    isInstanceCode env (Leaf.isInstance base cls nullable ty).label (codeOf env table base) cls
      nullable ty
  | .cast base ty => castCode env (codeOf env table base) ty
  | .retype target ty =>
    retypeCode env (Leaf.retype target ty).label (codeOf env table target) ty
  | .chain op head headType tail =>
    chainCode env (Leaf.chain op head headType tail).label op (codeOf env table head) headType
      (operandCodes env table tail) (Leaf.resultType headType tail)
  | .test cond ty => testCode env (Leaf.test cond ty).label (Cond.code env table cond)
  | .inline parts ty =>
    inlineCode env (Leaf.inline parts ty).label (partCodes env table parts) ty
  | .deferred key id params =>
    deferredCode (Leaf.deferred key id params).label table id (params.map (·.2))
  | .call _ copies body => callCode env (copyCodes env table copies) (codeOf env table body)
  | .seq key body result =>
    seqCode env (Leaf.seq key body result).label (runAll env table body) (codeOf env table result)
def pieceCode (env : Env) (table : Placeholder) : Piece Leaf → Piece LeafCode
  | .whole leaf => .whole (Leaf.code env table leaf)
  | .view leaf base len => .view (Leaf.code env table leaf) base len
def codeOf (env : Env) (table : Placeholder) : List (Piece Leaf) → Code
  | [] => []
  | p :: rest => pieceCode env table p :: codeOf env table rest
def operandCode (env : Env) (table : Placeholder) : Operand → OperandCode
  | .mk expr ty after => ⟨codeOf env table expr, ty, after⟩
def operandCodes (env : Env) (table : Placeholder) : List Operand → List OperandCode
  | [] => []
  | o :: rest => operandCode env table o :: operandCodes env table rest
def Cond.code (env : Env) (table : Placeholder) : Cond → CondCode
  | .const b => .const b
  | .compare op left right => .compare env op (codeOf env table left) (codeOf env table right)
  | .logic op left right => .logic env op (Cond.code env table left) (Cond.code env table right)
  | .not c => .not (Cond.code env table c)
def partCode (env : Env) (table : Placeholder) : Part → PartCode
  | .text s => .text s
  | .expr e => .expr (Expr.readType e) (codeOf env table e)
def partCodes (env : Env) (table : Placeholder) : List Part → List PartCode
  | [] => []
  | p :: rest => partCode env table p :: partCodes env table rest
def copyCode (env : Env) (table : Placeholder) : Copy → Code × List LocalVar
  | .mk source vars => (codeOf env table source, vars)
def copyCodes (env : Env) (table : Placeholder) : List Copy → List (Code × List LocalVar)
  | [] => []
  | c :: rest => copyCode env table c :: copyCodes env table rest
def Action.run (env : Env) (table : Placeholder) : Action → Emit Unit
  | .mk pos kind => Action.located env pos (ActionKind.run env table kind)
def runAll (env : Env) (table : Placeholder) : List Action → Emit Unit
  | [] => pure ()
  | a :: rest => do
    Action.run env table a
    runAll env table rest
def initCode (env : Env) (table : Placeholder) : Option (List (Piece Leaf)) → Option Code
  | none => none
  | some e => some (codeOf env table e)
def otherwiseCode (env : Env) (table : Placeholder) : Option Action → Option (Emit Unit)
  | none => none
  | some a => some (Action.run env table a)
def ActionKind.run (env : Env) (table : Placeholder) : ActionKind → Emit Unit
  | .nop => pure ()
  | .block body closed =>
    if closed then Emit.inScope (runAll env table body) else runAll env table body
  | .declare vars init => Action.declare env vars (initCode env table init)
  | .assign targets source => Action.assign (codeOf env table targets) (codeOf env table source)
  | .update op target source before operand after =>
    Action.update env op (codeOf env table target) (codeOf env table source) before operand after
  | .synonym name target => Action.synonym env name (codeOf env table target)
  | .branch cond yes no =>
    Action.branch (Cond.code env table cond) (Action.run env table yes)
      (otherwiseCode env table no)
  | .loop body => Action.loop (Action.run env table body)
  | .breakLoop => Action.breakLoop
  | .continueLoop => Action.continueLoop
  | .enumerate starter body =>
    Action.enumerate env (partCodes env table starter) (Action.run env table body)
  | .inline parts => Action.inline env (partCodes env table parts)
end

/-- The placeholders that can be replaced in at most `rounds` steps. -/
def placeholders (env : Env) (deferred : List (Option Expr)) : (rounds : Nat) → Placeholder
  | 0, _ => none
  | rounds + 1, id => match deferred[id]? with
    | some (some e) => some (codeOf env (placeholders env deferred rounds) e)
    | _ => none

/-- A placeholder stands for an expression over others, and none stands for itself, so as many steps
as there are placeholders replace them all. -/
def placeholderTable (env : Env) (deferred : List (Option Expr)) : Placeholder :=
  placeholders env deferred deferred.length

end AgentScript
