import AgentScript.Classifier
import AgentScript.Operator
import AgentScript.Position

/-!
The tree of a script as it is written: types, terms and statements without any type information.
-/
namespace AgentScript

inductive TypeRef where
  | named (name : String)
  | classifier (c : Classifier)
  | nullable (t : TypeRef)
  | union (members : List TypeRef)

/-- Which agents an enumeration visits. -/
inductive EnumKind where
  | enum
  | epas
  | esee
  | etch
  | econ
  deriving DecidableEq

def EnumKind.name : EnumKind → String
  | enum => "enum"
  | epas => "epas"
  | esee => "esee"
  | etch => "etch"
  | econ => "econ"

mutual
inductive Term where
  | int (v : Int32)
  | float (v : Float32)
  | str (s : String)
  | bytes (bs : List UInt8)
  /-- A variable or a named constant. -/
  | id (name : String)
  /-- The slots of each item in order. -/
  | group (items : List Term)
  /-- One operator between all operands, from the left. -/
  | chain (op : ChainOp) (operands : List Term)
  | call (name : String) (args : List Term)
  | field (base : Term) (name : String)
  | cast (base : Term) (ty : TypeRef)
  /-- The value with `null` removed from its type. -/
  | denull (base : Term)
  | compare (op : CompareOp) (left right : Term)
  | logic (op : LogicOp) (left right : Term)
  | not (t : Term)
  | inline (parts : List Fragment) (ty : TypeRef)
  /-- The number of a message or script of a type. -/
  | messageId (ty : TypeRef) (name : String) (script : Bool)
  | isInstance (base : Term) (cls : Classifier)
  /-- Statements in a scope of their own, then a result. -/
  | seq (body : List Statement) (result : Term)
inductive Fragment where
  | text (s : String)
  | term (t : Term)
/-- The message of a send or the script of a call. -/
inductive Selector where
  | name (name : String)
  | number (t : Term)
inductive Statement where
  | mk (pos : Position) (kind : StatementKind)
inductive StatementKind where
  | block (body : List Statement) (closed : Bool)
  /-- New variables, each with a type of its own or that of its part of `init`. -/
  | declare (names : List String) (types : List (Option TypeRef)) (init : Option Term)
  /-- Without targets the source is evaluated for its effects. -/
  | assign (targets : Option Term) (source : Term)
  | update (op : ChainOp) (target source : Term)
  | synonym (name : String) (target : Term)
  | branch (cond : Term) (yes : Statement) (no : Option Statement)
  | loop (body : Statement)
  | breakLoop
  | continueLoop
  | enumerate (kind : EnumKind) (agent : TypeRef) (params : List Term) (body : Statement)
  | inline (parts : List Fragment)
  | send (agent : Term) (message : Selector) (params : List Term) (delay : Option Term)
  /-- Runs a script of the owner. -/
  | call (script : Selector) (params : List Term)
end

namespace Statement

def pos : Statement → Position
  | mk pos _ => pos

def kind : Statement → StatementKind
  | mk _ kind => kind

end Statement

end AgentScript
