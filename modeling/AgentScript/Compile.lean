import AgentScript.Code.Generate
import AgentScript.Declare
import AgentScript.Diagnostic

/-!
Compiling a unit. Each script is resolved and written on its own: one that fails is reported and left
out. All scripts are resolved before the first is written, so that the variables of code generation
have numbers of their own.
-/
namespace AgentScript

inductive ScriptKind where
  | install
  | event (comment header : String)
  | remove

structure Script where
  kind : ScriptKind
  body : Action
  /-- What a report about the script names. -/
  label : String

structure Output where
  code : String
  diagnostics : List Diagnostic

def Output.isOk (o : Output) : Bool := o.diagnostics.isEmpty

/-! ### Resolving -/

def resolveScript (owner : TypeId) (body : Statement) : WorldM Action :=
  Resolve.inScope (Scope.root (.ofOwner owner)) (Resolve.statement body)

def installScript (body : Statement) : WorldM Script :=
  return ⟨.install, ← resolveScript Registry.null body, "install script"⟩

def removeScript (body : Statement) : WorldM Script :=
  return ⟨.remove, ← resolveScript Registry.null body, "remove script"⟩

namespace EventScript

/-- The number of the script, and its name if it has one. -/
def number (e : EventScript) (types : Registry) (owner : TypeId) :
    Except Cause (UInt16 × Option String) :=
  match e.script with
  | .number n => .ok (n, types.scriptName? owner n)
  | .name name => match types.scriptNumber? owner name with
    | some n => .ok (n, some name)
    | none => .error (.unknownScript (types.name owner) name)

def resolve (e : EventScript) : WorldM Script := do
  let owner ← WorldM.inTypes (TypeM.make fun r => r.byClassifier e.classifier)
  let types := (← WorldM.current).types
  let (n, name) ← WorldM.ofExcept (e.number types owner)
  let title := types.name owner ++ (name.elim "" fun name => ":" ++ name)
  let body ← resolveScript owner e.body
  return ⟨.event (title ++ " " ++ Text.nat n.toNat)
      (Text.words ["scrp", e.classifier.arguments, Text.nat n.toNat]),
    body, Text.words ["script", e.classifier.display, Text.nat n.toNat]⟩

end EventScript

/-! ### Writing -/

def Script.emit (env : Env) (table : Placeholder) (script : Script) : Emit Unit :=
  match script.kind with
  | .install => script.body.run env table
  | .event comment header => do
    Emit.comment comment
    Emit.code 0 (.script header) 1
    script.body.run env table
    Emit.code (-1) .endScript 0
  | .remove => do
    Emit.code 0 .remove 1
    script.body.run env table

/-- The code of a script, with labels from `firstLabel` on, and the next label. -/
def Script.write (env : Env) (table : Placeholder) (script : Script)
    (firstLabel firstHandle : Nat) : Except Failure String × Nat :=
  let (result, s) := (script.emit env table).run (Ctx.start firstLabel firstHandle)
  (result.map fun _ => s.listing.render (Instr.text env.config.labelPrefix), s.nextLabel)

/-- The code of all scripts that can be written, and reports on the others. -/
def writeScripts (env : Env) (table : Placeholder) (firstHandle : Nat) : (firstLabel : Nat) →
    List Script → Output
  | _, [] => ⟨"", []⟩
  | firstLabel, script :: rest =>
    let (result, next) := script.write env table firstLabel firstHandle
    let others := writeScripts env table firstHandle next rest
    match result with
    | .ok code => ⟨code ++ others.code, others.diagnostics⟩
    | .error f => ⟨others.code, Diagnostic.ofFailure script.label f :: others.diagnostics⟩

/-! ### Units -/

/-- Runs a step, and reports it under `subject` if it fails. -/
def attempt (subject : String) (x : WorldM α) (w : World) :
    Option α × List Diagnostic × World :=
  match x.run w with
  | (.ok a, w) => (some a, [], w)
  | (.error f, w) => (none, [Diagnostic.ofFailure subject f], w)

/-- Runs steps in order, and keeps the results of those that succeed. -/
def attemptAll : List (String × WorldM α) → World → List α × List Diagnostic × World
  | [], w => ([], [], w)
  | (subject, x) :: rest, w =>
    let (first, reports, w) := attempt subject x w
    let (others, more, w) := attemptAll rest w
    (first.toList ++ others, reports ++ more, w)

namespace Document

def declarationSteps (d : Document) : List (String × WorldM Unit) :=
  d.declarations.map (fun decl => (decl.subject, decl.apply)) ++
    d.macros.map fun m => ("macro " ++ m.name, WorldM.located m.pos m.declare)

def scriptSteps (d : Document) : List (String × WorldM Script) :=
  (d.install.map fun body => ("install script", installScript body)).toList ++
    d.events.map (fun e =>
      ("script " ++ e.classifier.display, WorldM.located e.pos e.resolve)) ++
    (d.remove.map fun body => ("remove script", removeScript body)).toList

/-- The scripts that can be resolved, reports on what cannot, and the world that they leave. -/
def resolve (d : Document) : List Script × List Diagnostic × World :=
  let (_, declared, w) := attemptAll d.declarationSteps World.initial
  let (scripts, resolved, w) := attemptAll d.scriptSteps w
  (scripts, declared ++ resolved, w)

def compile (config : Config) (d : Document) : Output :=
  let (scripts, reports, w) := d.resolve
  let env : Env := ⟨w.types, config⟩
  let written := writeScripts env (placeholderTable env w.deferred) w.nextHandle 0 scripts
  ⟨written.code, reports ++ written.diagnostics⟩

end Document

end AgentScript
