import AgentScript.Main
import AgentScript.Proofs.Arguments.Once
import AgentScript.Proofs.Branches
import AgentScript.Proofs.Cached
import AgentScript.Proofs.Casts
import AgentScript.Proofs.Engine.Classes
import AgentScript.Proofs.Engine.Conditions
import AgentScript.Proofs.Engine.Paths
import AgentScript.Proofs.Expansion
import AgentScript.Proofs.Folding
import AgentScript.Proofs.Independence.Scripts
import AgentScript.Proofs.Json.RoundTrip
import AgentScript.Proofs.Jumps.Aim
import AgentScript.Proofs.Layout.Blocks
import AgentScript.Proofs.Layout.Comments
import AgentScript.Proofs.Literals
import AgentScript.Proofs.Refusals
import AgentScript.Proofs.Ropes
import AgentScript.Proofs.Targets
import AgentScript.Proofs.Types.Fields
import AgentScript.Proofs.Types.Inheritance
import AgentScript.Proofs.Types.Nullable
import AgentScript.Proofs.Types.Operators
import AgentScript.Proofs.Types.Tables
import AgentScript.Proofs.Types.Classes
