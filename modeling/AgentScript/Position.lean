import AgentScript.Text

/-! Places in source files. -/
namespace AgentScript

/-- Lines start at 1. Line 0 marks a node without a place. -/
structure Position where
  file : String
  line : UInt32
  column : UInt32

namespace Position

def unknown : Position := ⟨"", 0, 0⟩

def isKnown (p : Position) : Bool := p.line != 0

def display (p : Position) : String :=
  p.file ++ ":" ++ Text.nat p.line.toNat ++ ":" ++ Text.nat p.column.toNat

end Position

end AgentScript
