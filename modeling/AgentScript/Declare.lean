import AgentScript.Resolve.Tree

/-! Declarations of types, members, constants and macros. -/
namespace AgentScript

namespace WorldM

def typeRef (t : TypeRef) : WorldM TypeId := inTypes t.resolve

end WorldM

namespace Declaration

/-- What a report about the declaration names. -/
def subject : Declaration → String
  | cls name _ | interface name | field _ name _ _ | message _ name _ | script _ name _
  | const name _ | typedef name _ => name
  | implements _ _ => "implements"

/-- The value of a term that has to be constant. -/
def constantOf (name : String) (value : Term) : WorldM Constant := do
  let scope := Scope.root (.ofOwner Registry.null)
  match ← Resolve.inScope scope (Resolve.term value).const with
  | some c => return c
  | none => WorldM.fail (.invalid (name ++ " is not a constant"))

def declareClass (name : String) (c : Classifier) : WorldM Unit := do
  let (result, types) := (← WorldM.current).types.declareClass c name
  WorldM.setTypes types
  let _ ← WorldM.ofType result

def apply : Declaration → WorldM Unit
  | cls name c => declareClass name c
  | interface name => WorldM.declare fun r => do return (← r.declareInterface name).2
  | implements ty super => do
    let child ← WorldM.typeRef ty
    let parent ← WorldM.typeRef super
    WorldM.declare fun r => r.addParent child parent
  | field owner name ty slot => do
    let owner ← WorldM.typeRef owner
    let ty ← WorldM.typeRef ty
    WorldM.declare fun r => r.declareField owner name ty slot
  | message owner name number => do
    let owner ← WorldM.typeRef owner
    WorldM.declare fun r => r.declareMessage owner name number
  | script owner name number => do
    let owner ← WorldM.typeRef owner
    WorldM.declare fun r => r.declareScript owner name number
  | const name value => do
    let c ← constantOf name value
    WorldM.declare fun r => r.declareConstant name c
  | typedef name ty => do
    let ty ← WorldM.typeRef ty
    WorldM.declare fun r => r.declareTypedef name ty

end Declaration

namespace MacroDef

def resolveParams : List ParamDef → WorldM (List MacroParam)
  | [] => return []
  | p :: rest => do
    let first : MacroParam := ⟨p.name, ← WorldM.typeRef p.ty, p.inline⟩
    return first :: (← resolveParams rest)

def declare (d : MacroDef) : WorldM Unit := do
  let params ← resolveParams d.params
  WorldM.setMacros (← WorldM.ofExcept ((← WorldM.current).addMacro ⟨d.name, params, d.body, d.pos⟩))

end MacroDef

end AgentScript
