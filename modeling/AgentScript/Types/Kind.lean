import AgentScript.Classifier
import AgentScript.Value.Basic

/-!
What the type registry stores: storage classes, kinds of types, the interfaces that agent types
contribute, and named constants. Types and interfaces are numbered in order of creation.
-/
namespace AgentScript

abbrev TypeId := Nat

abbrev InterfaceId := Nat

/-- The storage class of a value, which decides how it is stored. -/
inductive Major where
  | unknown
  | agent
  | string
  | value
  | byteString
  deriving DecidableEq

def Major.name : Major → String
  | unknown => "unknown"
  | agent => "agent"
  | string => "string"
  | value => "value"
  | byteString => "byte_string"

def Major.common (majors : List Major) : Major :=
  match majors.filter (· ≠ unknown) with
  | [] => unknown
  | first :: rest => if rest.all (· = first) then first else unknown

structure Constant where
  value : Value
  ty : TypeId

/-- A variable that every agent of a type has. -/
structure Field where
  name : String
  ty : TypeId
  slot : UInt8

inductive Kind where
  | primitive (name : String) (parent : Option TypeId)
  /-- At least two members, in order of creation. -/
  | union (members : List TypeId)
  | interface (name : String) (own : InterfaceId) (parents : List TypeId)
  /-- The agents of a classifier. The type of the next more general classifier is the first parent. -/
  | classified (name : String) (classifier : Classifier) (own : InterfaceId) (parents : List TypeId)

namespace Kind

def isAgent : Kind → Bool
  | interface .. | classified .. => true
  | _ => false

def own? : Kind → Option InterfaceId
  | interface _ own _ | classified _ _ own _ => some own
  | _ => none

def parents : Kind → List TypeId
  | primitive _ parent => parent.toList
  | union _ => []
  | interface _ _ parents | classified _ _ _ parents => parents

def members : Kind → List TypeId
  | union members => members
  | _ => []

/-- The types that the kind is built on. -/
def supers (k : Kind) : List TypeId := k.parents ++ k.members

def classifier? : Kind → Option Classifier
  | classified _ c _ _ => some c
  | _ => none

def name : Kind → String
  | primitive name _ | interface name _ _ | classified name _ _ _ => name
  | union _ => ""

def isUnionOf (members : List TypeId) : Kind → Bool
  | union ms => ms = members
  | _ => false

def rename (name : String) : Kind → Kind
  | primitive _ parent => primitive name parent
  | union members => union members
  | interface _ own parents => interface name own parents
  | classified _ c own parents => classified name c own parents

def addParent (parent : TypeId) : Kind → Kind
  | interface name own parents => interface name own (parents ++ [parent])
  | classified name c own parents => classified name c own (parents ++ [parent])
  | k => k

end Kind

end AgentScript
