import AgentScript.Json.Read
import AgentScript.Toml.Parse

/-! How generated code is commented and how its labels begin. -/
namespace AgentScript

structure Config where
  /-- A comment for each variable that is given a register. -/
  varComments : Bool
  /-- A comment with the position of each statement. -/
  sourceComments : Bool
  labelPrefix : String

def Config.standard : Config := ⟨true, false, "_RAL_"⟩

def Reader.config : Reader Config := fun p j => do
  let f ← Fields.read? ["var_comments", "source_comments", "label_prefix"] p j
  let base := Config.standard
  return ⟨← f.withDefault "var_comments" asBool base.varComments,
    ← f.withDefault "source_comments" asBool base.sourceComments,
    ← f.withDefault "label_prefix" asText base.labelPrefix⟩

/-- The text of a settings file. Other settings in it are passed over. -/
def Config.parse? (text : String) : Option Config := do
  let lines ← Toml.parse? text
  let base := standard
  return ⟨← Toml.setting? lines "var_comments" Toml.Scalar.asBool? base.varComments,
    ← Toml.setting? lines "source_comments" Toml.Scalar.asBool? base.sourceComments,
    ← Toml.setting? lines "label_prefix" Toml.Scalar.asText? base.labelPrefix⟩

end AgentScript
