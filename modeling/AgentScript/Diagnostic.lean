import AgentScript.Error
import AgentScript.Tree.Read

/-! Problems as they are reported, one for each script or declaration that is refused. -/
namespace AgentScript

inductive Severity where
  | error
  | warning
  deriving DecidableEq

def Severity.name : Severity → String
  | error => "error"
  | warning => "warning"

structure Diagnostic where
  severity : Severity
  pos : Option Position
  message : String

namespace Diagnostic

/-- The report of a failure in some part of a unit. -/
def ofFailure (subject : String) (f : Failure) : Diagnostic :=
  ⟨.error, f.pos, subject ++ ": " ++ f.cause.message⟩

def text (d : Diagnostic) : String :=
  let report := d.severity.name ++ ": " ++ d.message
  match d.pos with
  | some pos => pos.display ++ ": " ++ report
  | none => report

def json (d : Diagnostic) : Json :=
  .fields <| [("severity", Json.text d.severity.name)] ++
    (d.pos.map fun pos => ("pos", pos.json)).toList ++ [("message", Json.text d.message)]

end Diagnostic

def Reader.severity : Reader Severity := oneOf [("error", .error), ("warning", .warning)]

def Reader.diagnostic : Reader Diagnostic := fun p j => do
  let f ← Fields.read? ["severity", "pos", "message"] p j
  return ⟨← f.required "severity" severity, ← f.optional "pos" position,
    ← f.required "message" asText⟩

end AgentScript
