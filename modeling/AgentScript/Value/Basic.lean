import AgentScript.Value.Quoted
import AgentScript.Value.Single

/-! Values known before a script runs, and their text in scripts. -/
namespace AgentScript

inductive Value where
  | int (v : Int32)
  | float (v : Float32)
  | str (s : String)
  | bytes (bs : List UInt8)

namespace Value

def asSingle? : Value → Option Float32
  | int v => some (Single.ofInt v)
  | float v => some v
  | _ => none

/-- A number is true when it is not zero. -/
def isTrue? : Value → Option Bool
  | int v => some (v != 0)
  | float v => some (v != 0.0)
  | _ => none

def isNumeric : Value → Bool
  | int _ | float _ => true
  | _ => false

def bytesText (bs : List UInt8) : String :=
  "[" ++ Text.words (bs.map fun b => Text.nat b.toNat) ++ "]"

/-- The literal that denotes the value in a script. -/
def literal : Value → String
  | int v => Text.int v.toInt
  | float v => Single.scriptText v
  | str s => Quoted.text s
  | bytes bs => bytesText bs

/-- The text a value contributes when it is joined to a string. -/
def plain : Value → String
  | str s => s
  | v => v.literal

end Value

end AgentScript
