import AgentScript.Tree.Basic

/-! A unit: the declarations, macros and scripts of one file. -/
namespace AgentScript

inductive Declaration where
  | cls (name : String) (classifier : Classifier)
  | interface (name : String)
  | implements (ty interface : TypeRef)
  | field (owner : TypeRef) (name : String) (ty : TypeRef) (slot : UInt8)
  | message (owner : TypeRef) (name : String) (number : UInt16)
  | script (owner : TypeRef) (name : String) (number : UInt16)
  | const (name : String) (value : Term)
  | typedef (name : String) (ty : TypeRef)

structure ParamDef where
  name : String
  ty : TypeRef
  /-- An inline parameter stands for its argument; any other is a copy of its value. -/
  inline : Option Perm

structure MacroDef where
  name : String
  params : List ParamDef
  body : Term
  pos : Position

/-- A script of an event, by number or by name. -/
inductive ScriptRef where
  | number (n : UInt16)
  | name (name : String)

structure EventScript where
  pos : Position
  classifier : Classifier
  script : ScriptRef
  body : Statement

structure Document where
  declarations : List Declaration
  macros : List MacroDef
  install : Option Statement
  events : List EventScript
  remove : Option Statement

def Document.empty : Document := ⟨[], [], none, [], none⟩

end AgentScript
