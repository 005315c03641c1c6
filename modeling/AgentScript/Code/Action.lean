import AgentScript.Code.Compute
import AgentScript.Code.Parts

/-! Code of statements. -/
namespace AgentScript.Action

/-- A statement at a position. The position can be shown before the first line of its code. -/
def located (env : Env) (pos : Position) (x : Emit Unit) : Emit Unit := do
  if env.config.sourceComments && pos.isKnown then Emit.queue ("@ " ++ pos.display)
  x.located pos

def declare (env : Env) (vars : List LocalVar) (init : Option Code) : Emit Unit := do
  bindVars env vars
  match init with
  | some e => Emit.inScope (e.read (varSlots env vars))
  | none => pure ()

def assign (targets source : Code) : Emit Unit := Emit.inScope (source.read targets.slots)

/-- A target without a form for writing is changed in a copy, which is then stored. -/
def update (env : Env) (op : ChainOp) (target source : Code) (before operand after : TypeId) :
    Emit Unit := Emit.inScope do
  match ← target.inline true with
  | some place =>
    let r ← source.toArg env
    Emit.lines (op.lines env.types before operand place r)
  | none =>
    let copy ← target.toRegister env
    let r ← source.toArg env
    Emit.lines (op.lines env.types before operand copy r)
    target.write copy after

/-- Another name has no code, only a comment. -/
def synonym (env : Env) (name : String) (target : Code) : Emit Unit :=
  if env.config.varComments then do
    match ← Emit.inspect fun s => Slot.inlineAll s target.slots with
    | some args => Emit.comment (argsText args ++ ": alias " ++ name)
    | none => Emit.comment ("alias " ++ name)
  else pure ()

def branch (cond : CondCode) (yes : Emit Unit) (no : Option (Emit Unit)) : Emit Unit :=
  Emit.inScope do
    let test ← cond.test false
    Emit.code 0 (.doif test) 1
    Emit.inScope yes
    match no with
    | some x =>
      Emit.code (-1) .otherwise 1
      Emit.inScope x
    | none => pure ()
    Emit.code (-1) .endi 0

def loop (body : Emit Unit) : Emit Unit := do
  let top ← Emit.freshLabel
  let exit ← Emit.freshLabel
  Emit.line (.goto top)
  Emit.code 0 (.subr top) 1
  Emit.inLoop ⟨exit, none, top⟩ body
  Emit.code (-1) (.goto top) 0
  Emit.line (.subr exit)

def breakLoop : Emit Unit := do
  match (← Emit.current).loop with
  | none => Emit.refuse .cannotBreak
  | some target =>
    match target.flag with
    | some flag => Emit.line (.store .value flag (.int 1))
    | none => pure ()
    Emit.line (.goto target.label)

def continueLoop : Emit Unit := do
  match (← Emit.current).loop with
  | none => Emit.refuse .cannotContinue
  | some target => Emit.line (.goto target.continueLabel)

/-- An enumeration runs to its end, so that leaving it early raises a flag that skips the body for
the agents that remain. The label stands at the end of the body. -/
def enumerate (env : Env) (starter : List PartCode) (body : Emit Unit) : Emit Unit :=
  Emit.inScope do
    let exit ← Emit.freshLabel
    let slot ← Emit.temp
    let flag := Arg.register slot
    if env.config.varComments then Emit.comment (flag.text ++ ": integer break flag")
    Emit.line (.store .value flag (.int 0))
    let text ← PartCode.render env starter
    Emit.code 0 (.enumerate text) 1
    Emit.code 0 (.doif (.atom flag .eq (.int 0))) 1
    Emit.inLoop ⟨exit, some flag, exit⟩ body
    Emit.code (-1) .endi 0
    Emit.line (.goto exit)
    Emit.line (.subr exit)
    Emit.code (-1) .next 0

def inline (env : Env) (parts : List PartCode) : Emit Unit := Emit.inScope do
  let text ← PartCode.render env parts
  Emit.line (.raw text)

end AgentScript.Action
