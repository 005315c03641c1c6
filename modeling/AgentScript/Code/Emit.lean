import AgentScript.Code.Instr
import AgentScript.Code.Listing
import AgentScript.Code.Pool
import AgentScript.Config
import AgentScript.Error

/-!
Writing the code of one script. A routine is a tree of operations on a context, so that nothing else
can happen to one. What was written and which labels and handles were used stays when writing fails.
Registers, bindings and the place that `break` leads to belong to a scope and are given back when the
scope is left, however it is left.
-/
namespace AgentScript

/-- What all scripts of a unit share while their code is written. -/
structure Env where
  types : Registry
  config : Config

/-- Where `break` and `continue` jump to, and the flag that `break` raises first. -/
structure LoopTarget where
  label : Label
  flag : Option Arg
  continueLabel : Label

structure Ctx where
  listing : Listing Instr
  pool : Pool
  /-- The register of each bound handle. -/
  bound : List (Nat × Nat)
  loop : Option LoopTarget
  nextLabel : Nat
  nextHandle : Nat

/-- The start of a script, with numbers that no other script has used. -/
def Ctx.start (firstLabel firstHandle : Nat) : Ctx :=
  ⟨.empty, .initial, [], none, firstLabel, firstHandle⟩

namespace Ctx

def registerOf? (s : Ctx) (handle : Nat) : Option Nat := s.bound.lookup handle

/-- What a scope gives back to the one around it. -/
structure Outside where
  bound : List (Nat × Nat)
  loop : Option LoopTarget

def outside (s : Ctx) : Outside := ⟨s.bound, s.loop⟩

/-- Gives a handle a register; the one that it had before is out of sight. -/
def bindTo (s : Ctx) (handle slot : Nat) (pool : Pool) : Ctx :=
  { s with pool, bound := (handle, slot) :: s.bound.filter (·.1 != handle) }

def enter (s : Ctx) (loop : Option LoopTarget → Option LoopTarget) : Ctx :=
  { s with pool := s.pool.openScope, loop := loop s.loop }

def leave (s : Ctx) (o : Outside) : Ctx :=
  { s with pool := s.pool.closeScope, bound := o.bound, loop := o.loop }

end Ctx

/-- A single operation on a context. -/
inductive Op where
  | code (before : Int) (i : Instr) (after : Int)
  | comment (text : String)
  | queue (text : String)
  | label
  /-- Handles below `next` are in use. -/
  | handles (next : Nat)
  /-- Gives a handle a register of the current scope, if one is left. -/
  | bind (handle : Nat)

def Op.perform (s : Ctx) : Op → Ctx
  | code before i after => { s with listing := s.listing.code before i after }
  | comment text => { s with listing := s.listing.comment text }
  | queue text => { s with listing := s.listing.queue text }
  | label => { s with nextLabel := s.nextLabel + 1 }
  | handles next => { s with nextHandle := max s.nextHandle next }
  | bind handle => match s.pool.allocate? with
    | some (slot, pool) => s.bindTo handle slot pool
    | none => s

inductive Routine where
  | done
  | fail (f : Failure)
  | look (next : Ctx → Routine)
  | act (op : Op) (next : Routine)
  /-- A scope, in which `break` leads to what `loop` makes of the target outside. -/
  | scope (loop : Option LoopTarget → Option LoopTarget) (body next : Routine)

namespace Routine

def run : Routine → Ctx → Except Failure Unit × Ctx
  | done, s => (.ok (), s)
  | fail f, s => (.error f, s)
  | look next, s => (next s).run s
  | act op next, s => next.run (op.perform s)
  | scope loop body next, s =>
    match body.run (s.enter loop) with
    | (.ok (), t) => next.run (t.leave s.outside)
    | (.error f, t) => (.error f, t.leave s.outside)

def located (pos : Position) : Routine → Routine
  | done => done
  | fail f => fail (f.locate pos)
  | look next => look fun s => (next s).located pos
  | act op next => act op (next.located pos)
  | scope loop body next => scope loop (body.located pos) (next.located pos)

end Routine

/-- A routine that answers a value. -/
inductive Emit (α : Type) where
  | pure (a : α)
  | fail (f : Failure)
  | look (next : Ctx → Emit α)
  | act (op : Op) (next : Emit α)
  | scope (loop : Option LoopTarget → Option LoopTarget) (body : Routine) (next : Emit α)

namespace Emit

def run : Emit α → Ctx → Except Failure α × Ctx
  | pure a, s => (.ok a, s)
  | fail f, s => (.error f, s)
  | look next, s => (next s).run s
  | act op next, s => next.run (op.perform s)
  | scope loop body next, s =>
    match body.run (s.enter loop) with
    | (.ok (), t) => next.run (t.leave s.outside)
    | (.error f, t) => (.error f, t.leave s.outside)

def andThen (x : Emit α) (f : α → Emit β) : Emit β :=
  match x with
  | pure a => f a
  | fail e => fail e
  | look next => look fun s => (next s).andThen f
  | act op next => act op (next.andThen f)
  | scope loop body next => scope loop body (next.andThen f)

instance : Monad Emit where
  pure := Emit.pure
  bind := andThen

def routine : Emit α → Routine
  | pure _ => .done
  | fail f => .fail f
  | look next => .look fun s => (next s).routine
  | act op next => .act op next.routine
  | scope loop body next => .scope loop body next.routine

def located (pos : Position) : Emit α → Emit α
  | pure a => pure a
  | fail f => fail (f.locate pos)
  | look next => look fun s => (next s).located pos
  | act op next => act op (next.located pos)
  | scope loop body next => scope loop (body.located pos) (next.located pos)

def refuse (cause : Cause) : Emit α := fail (Failure.of cause)

def ofExcept : Except Cause α → Emit α
  | .ok a => pure a
  | .error cause => refuse cause

def current : Emit Ctx := look pure

/-- What can be said from the state alone. -/
def inspect (question : Ctx → Except Cause α) : Emit α := look fun s => ofExcept (question s)

def perform (op : Op) : Emit Unit := act op (pure ())

def code (before : Int) (i : Instr) (after : Int) : Emit Unit := perform (.code before i after)

def line (i : Instr) : Emit Unit := code 0 i 0

def lines : List Instr → Emit Unit
  | [] => pure ()
  | i :: rest => do
    line i
    lines rest

def comment (text : String) : Emit Unit := perform (.comment text)

def queue (text : String) : Emit Unit := perform (.queue text)

def freshLabel : Emit Label := do
  let s ← current
  perform .label
  return .numbered s.nextLabel

def freshHandle : Emit Nat := do
  let s ← current
  perform (.handles (s.nextHandle + 1))
  return s.nextHandle

def bind (handle : Nat) : Emit Nat := do
  match (← current).pool.allocate? with
  | none => refuse (.outOfSlots registerCount)
  | some (slot, _) =>
    perform (.bind handle)
    return slot

/-- A register for an intermediate value, until the current scope is left. -/
def temp : Emit Nat := do bind (← freshHandle)

/-- Runs `x` in a scope of its own, in which `break` leads to what `loop` makes of the target
outside. -/
def within (loop : Option LoopTarget → Option LoopTarget) (x : Emit Unit) : Emit Unit :=
  scope loop x.routine (pure ())

def inScope (x : Emit Unit) : Emit Unit := within id x

def inLoop (target : LoopTarget) (x : Emit Unit) : Emit Unit := within (fun _ => some target) x

/-- Code that the loops around it do not concern. -/
def outsideLoops (x : Emit Unit) : Emit Unit := within (fun _ => none) x

end Emit

def storeInstr (types : Registry) (exact : TypeId) (target input : Arg) : Except Cause Instr :=
  match types.major exact with
  | .agent => .ok (.store .agent target input)
  | .string => .ok (.store .string target input)
  | .value => .ok (.store .value target input)
  | .byteString => .error .byteStringStore
  | .unknown => .error (.unknownMajor (types.name exact) input.text)

def Emit.store (env : Env) (exact : TypeId) (target input : Arg) : Emit Unit := do
  line (← ofExcept (storeInstr env.types exact target input))

end AgentScript
