import AgentScript.Cache
import AgentScript.Resolve.Basic

/-!
Macro calls. The body is resolved anew for each call, in a scope that holds only the variables of
scripts and the parameters. Parameters are bound to a placeholder: one for a value becomes a variable
that the argument is copied to before the body runs, once and from left to right; an inline one
becomes the argument itself.
-/
namespace AgentScript

/-- Resolves a macro body one level deeper. -/
abbrev Nested := Term → Resolve Expr

namespace MacroParam

def perm (p : MacroParam) : Perm := p.inline.getD .rw

/-- A parameter that is read takes what casts to it; one that is written casts to what it stands
for. -/
def check (p : MacroParam) (args : Expr) (i : Nat) : Resolve Unit := do
  if p.inline.all Perm.reads then Resolve.checkCast (← Resolve.ofExcept (args.readType i)) p.ty
  if p.inline.any Perm.writes then Resolve.checkCast p.ty (← Resolve.ofExcept (args.writeType i))

def checkAll (args : Expr) : (i : Nat) → List MacroParam → Resolve Unit
  | _, [] => pure ()
  | i, p :: rest => do
    p.check args i
    checkAll args (i + 1) rest

end MacroParam

namespace Macro

def placeholder (m : Macro) (key id : Nat) : Leaf :=
  .deferred key id (m.params.map fun p => (p.ty, p.perm))

def bindParams (placeholder : Leaf) : (i : Nat) → List MacroParam → Scope → Scope
  | _, [], scope => scope
  | i, p :: rest, scope =>
    bindParams placeholder (i + 1) rest (scope.bind p.name [Piece.run placeholder i 1])

def bodyScope (m : Macro) (script : ScriptTypes) (placeholder : Leaf) : Scope :=
  bindParams placeholder 0 m.params (Scope.root script)

def isValue (m : Macro) (i : Nat) : Bool := m.params[i]?.any (·.inline.isNone)

def paramName (m : Macro) (i : Nat) : String := m.params[i]?.elim "" (·.name)

def copyArgs (m : Macro) (args : Expr) : Resolve (Cache.Result Leaf) := do
  let (result, next) := Cache.ofExpr args m.isValue m.paramName (← Resolve.world).nextHandle
  Resolve.useHandles next
  Resolve.ofExcept result

/-- The body over a placeholder, and the copies that stand in front of it. -/
def expandBody (nested : Nested) (m : Macro) (args : Expr) :
    Resolve (Expr × List (Expr × List LocalVar)) :=
  Resolve.deferring fun id => do
    let placeholder := m.placeholder (← Resolve.freshKey) id
    let scope := m.bodyScope (← Resolve.scope).script placeholder
    let body ← Resolve.inBody scope (nested m.body)
    let copied ← m.copyArgs args
    return ((body, copied.copies), copied.output)

def expand (nested : Nested) (m : Macro) (args : Expr) : Resolve Expr := do
  if Slices.len args ≠ m.params.length then
    Resolve.fail (.arity m.params.length (Slices.len args))
  MacroParam.checkAll args 0 m.params
  let (body, copies) ← m.expandBody nested args
  if copies.isEmpty then return body
  return Expr.leaf (.call (← Resolve.freshKey) (copies.map fun (source, vars) => .mk source vars) body)

end Macro

end AgentScript
