import AgentScript.Text

/-!
Classes of agents. A classifier is a family, genus and species; a zero stands for any, so every
classifier lies under a chain of more general ones that ends at `0 0 0`.
-/
namespace AgentScript

structure Classifier where
  family : UInt8
  genus : UInt8
  species : UInt16
  deriving DecidableEq

namespace Classifier

def root : Classifier := ⟨0, 0, 0⟩

def parent? (c : Classifier) : Option Classifier :=
  if c.species ≠ 0 then some { c with species := 0 }
  else if c.genus ≠ 0 then some { c with genus := 0, species := 0 }
  else if c.family ≠ 0 then some root
  else none

def above (c : Classifier) : List Classifier :=
  (if c.species ≠ 0 then [{ c with species := 0 }] else []) ++
  (if c.genus ≠ 0 then [{ c with genus := 0, species := 0 }] else []) ++
  (if c.family ≠ 0 then [root] else [])

def ancestors (c : Classifier) : List Classifier := c :: c.above

def arguments (c : Classifier) : String :=
  Text.words [Text.nat c.family.toNat, Text.nat c.genus.toNat, Text.nat c.species.toNat]

def display (c : Classifier) : String := "[" ++ c.arguments ++ "]"

end Classifier

end AgentScript
