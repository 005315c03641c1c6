import AgentScript.Types.Error
import AgentScript.Types.Kind

/-!
The fields, messages and scripts that one agent type contributes. Messages and scripts have a name
and a number; either one finds the other.
-/
namespace AgentScript

structure Interface where
  name : String
  fields : List Field
  messages : List (String × UInt16)
  scripts : List (String × UInt16)

/-- An agent has this many variables for its fields. -/
def fieldSlots : UInt8 := 100

namespace Interface

def empty (name : String) : Interface := ⟨name, [], [], []⟩

def numberOf (table : List (String × UInt16)) (name : String) : Option UInt16 :=
  (table.find? fun entry => entry.1 == name).map (·.2)

def nameOf (table : List (String × UInt16)) (number : UInt16) : Option String :=
  (table.find? fun entry => entry.2 == number).map (·.1)

/-- Whether the name or the number is in use. -/
def taken (table : List (String × UInt16)) (name : String) (number : UInt16) : Bool :=
  table.any fun entry => entry.1 == name || entry.2 == number

def field? (i : Interface) (name : String) : Option Field :=
  i.fields.find? (·.name == name)

def fieldAt? (i : Interface) (slot : UInt8) : Option Field :=
  i.fields.find? (·.slot == slot)

def declareField (i : Interface) (field : Field) : Except TypeError Interface :=
  match i.field? field.name with
  | some _ => .error (.duplicateField i.name field.name)
  | none => match i.fieldAt? field.slot with
    | some other => .error (.duplicateFieldSlot i.name field.slot other.name)
    | none => .ok { i with fields := i.fields ++ [field] }

def declareMessage (i : Interface) (name : String) (number : UInt16) :
    Except TypeError Interface :=
  if taken i.messages name number then .error (.duplicateMessage i.name name number)
  else .ok { i with messages := i.messages ++ [(name, number)] }

def declareScript (i : Interface) (name : String) (number : UInt16) :
    Except TypeError Interface :=
  if taken i.scripts name number then .error (.duplicateScript i.name name number)
  else .ok { i with scripts := i.scripts ++ [(name, number)] }

end Interface

end AgentScript
