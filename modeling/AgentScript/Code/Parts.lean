import AgentScript.Cache
import AgentScript.Code.Access

/-!
Code of given text with expressions in it, of macro calls, and of expressions that stand for others.
Slots that text cannot name are copied to registers first, from left to right.
-/
namespace AgentScript

/-- The comment for a variable that was given a register. -/
def registerNote (env : Env) (slot : Nat) (ty : TypeId) (label : String) : Emit Unit :=
  if env.config.varComments then
    Emit.comment (Arg.registerName slot ++ ": " ++ env.types.name ty ++ " " ++ label)
  else pure ()

def bindVars (env : Env) : List LocalVar → Emit Unit
  | [] => pure ()
  | v :: rest => do
    registerNote env (← Emit.bind v.handle) v.ty v.label
    bindVars env rest

def varSlots (env : Env) (vars : List LocalVar) : List Slot :=
  vars.map fun v => varSlot env v.handle true

def writeCopies (env : Env) : List (Code × List LocalVar) → Emit Unit
  | [] => pure ()
  | (source, vars) :: rest => do
    bindVars env vars
    source.read (varSlots env vars)
    writeCopies env rest

/-! ### Text with expressions -/

inductive PartCode where
  | text (s : String)
  /-- An expression and the types that its slots are read with. -/
  | expr (readType : Nat → Except Cause TypeId) (code : Code)

def argsText (args : List Arg) : String := Text.words (args.map Arg.text)

namespace PartCode

/-- The text of parts that need no code. -/
def tryText (s : Ctx) : List PartCode → Except Cause (Option String)
  | [] => .ok (some "")
  | text t :: rest => return (← tryText s rest).map (t ++ ·)
  | expr _ code :: rest => do
    match ← Slot.inlineAll s code.slots with
    | none => return none
    | some args => return (← tryText s rest).map (argsText args ++ ·)

/-- The sequence with copies in place of the slots that have no form. -/
def cached (env : Env) (readType : Nat → Except Cause TypeId) (code : Code) :
    Emit (Cache.Result LeafCode) := do
  let copied ← Emit.inspect fun s => Slot.needCode s code.slots
  let source : Cache.Source LeafCode :=
    ⟨code, readType, fun i => "inline #" ++ Text.nat i, fun v => varCode env v.handle v.ty true⟩
  let (result, next) := Cache.make source (fun i => copied.getD i false) (← Emit.current).nextHandle
  Emit.perform (.handles next)
  Emit.ofExcept result

/-- The text of an expression, after the copies that it needs. -/
def exprText (env : Env) (readType : Nat → Except Cause TypeId) (code : Code) : Emit String := do
  let result ← cached env readType code
  writeCopies env result.copies
  match ← Emit.inspect fun s => Slot.inlineAll s (Code.slots result.output) with
  | some args => return argsText args
  | none => Emit.refuse (.notReadable "Expr")

def render (env : Env) : List PartCode → Emit String
  | [] => return ""
  | text t :: rest => return t ++ (← render env rest)
  | expr readType code :: rest => do
    let first ← exprText env readType code
    return first ++ (← render env rest)

end PartCode

def inlineCode (env : Env) (what : String) (parts : List PartCode) (ty : TypeId) : LeafCode :=
  .ofSlot env
    ⟨.pure .plain,
      fun forWrite s => if forWrite then .ok none
        else return (← PartCode.tryText s parts).map Arg.raw,
      Slot.noWrite what⟩
    fun out => Emit.inScope do
      let text ← PartCode.render env parts
      Slot.writeAt out 0 (.raw text) ty

/-! ### Expressions around others -/

/-- The expression that a placeholder stands for. -/
abbrev Placeholder := Nat → Option Code

def Placeholder.get (table : Placeholder) (id : Nat) : Except Cause Code :=
  match table id with
  | some e => .ok e
  | none => .error (.unboundDeferred id)

def deferredSlot (what : String) (table : Placeholder) (id i : Nat) (perm : Perm) : Slot :=
  ⟨.mk fun _ => match table id with
      | some e => Slot.roleAt e.slots i
      | none => .plain,
    fun forWrite s =>
      if (if forWrite then perm.writes else perm.reads) then do
        Slot.inlineAt (← table.get id).slots i forWrite s
      else .ok none,
    fun input exact =>
      if perm.writes then do
        Slot.writeAt (← Emit.ofExcept (table.get id)).slots i input exact
      else Emit.refuse (.notWritable what)⟩

def deferredCode (what : String) (table : Placeholder) (id : Nat) (perms : List Perm) : LeafCode :=
  ⟨perms.mapIdx fun i perm => deferredSlot what table id i perm,
    fun out => do (← Emit.ofExcept (table.get id)).read out,
    fun base len out => do
      let e ← Emit.ofExcept (table.get id)
      (← Emit.ofExcept (e.cut base len)).read out⟩

def callCode (env : Env) (copies : List (Code × List LocalVar)) (body : Code) : LeafCode :=
  .ofSlots env
    (body.slots.map fun slot =>
      ⟨.pure .plain, Slot.noInline, fun input exact => Emit.outsideLoops do
        writeCopies env copies
        slot.write input exact⟩)
    fun out => Emit.outsideLoops do
      writeCopies env copies
      body.read out

def seqCode (env : Env) (what : String) (body : Emit Unit) (result : Code) : LeafCode :=
  .ofSlots env (result.slots.map fun _ => .computed what) fun out => Emit.inScope do
    body
    result.read out

end AgentScript
