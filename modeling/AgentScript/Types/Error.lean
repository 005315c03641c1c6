import AgentScript.Text

/-! Why a type declaration or a type check is refused. -/
namespace AgentScript

inductive TypeError where
  | duplicateType (name : String)
  | unknownType (name : String)
  | notAnAgent (name : String)
  | duplicateField (interface field : String)
  | duplicateFieldSlot (interface : String) (slot : UInt8) (field : String)
  | fieldSlotOutOfRange (slot : UInt8)
  | duplicateMessage (interface name : String) (id : UInt16)
  | duplicateScript (interface name : String) (id : UInt16)
  | duplicateConstant (name : String)
  | cannotCast (source target : String)
  | notNullable (name : String)
  | cyclicParent (child parent : String)

def TypeError.message : TypeError → String
  | duplicateType name => "type `" ++ name ++ "` already declared"
  | unknownType name => "unknown type `" ++ name ++ "`"
  | notAnAgent name => "`" ++ name ++ "` is not an agent type"
  | duplicateField interface field =>
    "field `" ++ field ++ "` already declared on `" ++ interface ++ "`"
  | duplicateFieldSlot interface slot field =>
    "field slot " ++ Text.nat slot.toNat ++ " on `" ++ interface ++ "` is already used by `" ++
      field ++ "`"
  | fieldSlotOutOfRange slot => "field slot " ++ Text.nat slot.toNat ++ " out of range (0..100)"
  | duplicateMessage interface name id =>
    "message `" ++ name ++ "` (" ++ Text.nat id.toNat ++
      ") collides with an existing message on `" ++ interface ++ "`"
  | duplicateScript interface name id =>
    "script `" ++ name ++ "` (" ++ Text.nat id.toNat ++
      ") collides with an existing script on `" ++ interface ++ "`"
  | duplicateConstant name => "constant `" ++ name ++ "` already declared"
  | cannotCast source target => "cannot implicitly cast " ++ source ++ " to " ++ target
  | notNullable name => "cannot remove null from non-union type " ++ name
  | cyclicParent child parent =>
    "making " ++ parent ++ " a parent of " ++ child ++ " would create a cycle"

end AgentScript
