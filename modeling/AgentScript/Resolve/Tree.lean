import AgentScript.Resolve.Statement

/-!
The meaning of trees, by recursion on their structure. Macro bodies are not part of the tree that
calls them, so there is a bound on how far bodies are resolved inside each other. No more bodies may
be nested than the bound allows.
-/
namespace AgentScript

mutual
def Term.meaning (nested : Nested) : Term → Meaning
  | .int v => .literal (.int v)
  | .float v => .literal (.float v)
  | .str s => .literal (.str s)
  | .bytes bs => .literal (.bytes bs)
  | .id name => .name name
  | .group items => .group (meanings nested items)
  | .chain op operands => .chain op (meanings nested operands)
  | .call name args => .call nested name (meanings nested args)
  | .field base name => .field (Term.meaning nested base) name
  | .cast base ty => .cast (Term.meaning nested base) ty
  | .denull base => .denull (Term.meaning nested base)
  | .compare op left right => .compare op (Term.meaning nested left) (Term.meaning nested right)
  | .logic op left right => .logic op (Term.meaning nested left) (Term.meaning nested right)
  | .not t => .not (Term.meaning nested t)
  | .inline parts ty => .inline (resolveParts nested parts) ty
  | .messageId ty name script => .messageId ty name script
  | .isInstance base cls => .isInstance (Term.meaning nested base) cls
  | .seq body result => .seq (resolveBody nested body) (Term.meaning nested result)
def meanings (nested : Nested) : List Term → List Meaning
  | [] => []
  | t :: rest => Term.meaning nested t :: meanings nested rest
def meaning? (nested : Nested) : Option Term → Option Meaning
  | none => none
  | some t => some (Term.meaning nested t)
def Fragment.resolve (nested : Nested) : Fragment → Resolve Part
  | .text s => return .text s
  | .term t => return .expr (← (Term.meaning nested t).value)
def resolveParts (nested : Nested) : List Fragment → Resolve (List Part)
  | [] => return []
  | p :: rest => do
    let first ← Fragment.resolve nested p
    return first :: (← resolveParts nested rest)
def Selector.meaning (nested : Nested) : Selector → Statement.Number
  | .name name => .name name
  | .number t => .value (Term.meaning nested t)
def Statement.resolve (nested : Nested) : Statement → Resolve Action
  | .mk pos kind => return .mk pos (← Resolve.located pos (StatementKind.resolve nested kind))
def resolveBody (nested : Nested) : List Statement → Resolve (List Action)
  | [] => return []
  | s :: rest => do
    let first ← Statement.resolve nested s
    return first :: (← resolveBody nested rest)
def resolve? (nested : Nested) : Option Statement → Option (Resolve Action)
  | none => none
  | some s => some (Statement.resolve nested s)
def StatementKind.resolve (nested : Nested) : StatementKind → Resolve ActionKind
  | .block body closed => do
    if closed then return .block (← Resolve.inFrame Scope.innerFrame (resolveBody nested body)) closed
    else return .block (← resolveBody nested body) closed
  | .declare names types init => Statement.declare names types (meaning? nested init)
  | .assign targets source =>
    Statement.assign (meaning? nested targets) (Term.meaning nested source)
  | .update op target source =>
    Statement.update op (Term.meaning nested target) (Term.meaning nested source)
  | .synonym name target => Statement.synonym name (Term.meaning nested target)
  | .branch cond yes no =>
    Statement.branch (Term.meaning nested cond) (Statement.resolve nested yes) (resolve? nested no)
  | .loop body => Statement.loop (Statement.resolve nested body)
  | .breakLoop => Statement.breakLoop
  | .continueLoop => Statement.continueLoop
  | .enumerate kind agent params body =>
    Statement.enumerate kind agent (meanings nested params) (Statement.resolve nested body)
  | .inline parts => return .inline (← resolveParts nested parts)
  | .send agent message params delay =>
    Statement.send (Term.meaning nested agent) (Selector.meaning nested message)
      (meanings nested params) (meaning? nested delay)
  | .call script params =>
    Statement.call (Selector.meaning nested script) (meanings nested params)
end

/-- Resolves a macro body, with `levels - 1` more bodies inside each other in it. -/
def nestedCalls : (levels : Nat) → Nested
  | 0, _ => Resolve.fail (.macroDepth macroLevels)
  | levels + 1, body => (Term.meaning (nestedCalls levels) body).value

namespace Resolve

def term (t : Term) : Meaning := t.meaning (nestedCalls macroLevels)

def statement (s : Statement) : Resolve Action := s.resolve (nestedCalls macroLevels)

end Resolve

end AgentScript
