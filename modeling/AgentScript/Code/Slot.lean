import AgentScript.Code.Emit
import AgentScript.Expr

/-!
What code generation can do with slots. A slot can be named, if it has a form that needs no code, and
written. A leaf is read as a whole into the slots of an output; reading a view reads its leaf and
drops what the view does not show.
-/
namespace AgentScript

structure Slot where
  role : Thunk Role
  /-- The form that reads the slot, or with `true` writes it, without any code. -/
  inline : Bool → Ctx → Except Cause (Option Arg)
  /-- Stores an argument of a given type. -/
  write : Arg → TypeId → Emit Unit

structure LeafCode where
  slots : List Slot
  read : List Slot → Emit Unit
  readView : (base len : Nat) → List Slot → Emit Unit

instance : Slotted LeafCode where
  count leaf := leaf.slots.length
  key _ := none

abbrev Code := Slices LeafCode

namespace Slot

def get (slots : List Slot) (i : Nat) : Except Cause Slot :=
  match slots[i]? with
  | some slot => .ok slot
  | none => .error (.slotOutOfRange i slots.length)

def roleAt (slots : List Slot) (i : Nat) : Role :=
  match slots[i]? with
  | some slot => slot.role.get
  | none => .plain

def inlineAt (slots : List Slot) (i : Nat) (forWrite : Bool) (s : Ctx) :
    Except Cause (Option Arg) := do
  (← get slots i).inline forWrite s

def writeAt (slots : List Slot) (i : Nat) (input : Arg) (exact : TypeId) : Emit Unit := do
  (← Emit.ofExcept (get slots i)).write input exact

/-- Writes a value that took no code to find, unless it would be dropped. -/
def put (out : List Slot) (input : Arg) (ty : TypeId) : Emit Unit :=
  if roleAt out 0 = .discard then pure () else writeAt out 0 input ty

/-- The forms of all slots, if each of them has one. -/
def inlineAll (s : Ctx) : List Slot → Except Cause (Option (List Arg))
  | [] => .ok (some [])
  | slot :: rest => do
    match ← slot.inline false s with
    | none => return none
    | some arg => return (← inlineAll s rest).map (arg :: ·)

/-- Whether each slot is without a form that reads it. -/
def needCode (s : Ctx) : List Slot → Except Cause (List Bool)
  | [] => .ok []
  | slot :: rest => do
    let form ← slot.inline false s
    return form.isNone :: (← needCode s rest)

def noInline (_ : Bool) (_ : Ctx) : Except Cause (Option Arg) := .ok none

def noWrite (what : String) (_ : Arg) (_ : TypeId) : Emit Unit := Emit.refuse (.notWritable what)

def computed (what : String) : Slot := ⟨.pure .plain, noInline, noWrite what⟩

/-- A register that stays bound for as long as the slot is used. -/
def register (env : Env) (slot : Nat) : Slot :=
  ⟨.pure .register, fun _ _ => .ok (some (.register slot)),
    fun input exact => Emit.store env exact (.register slot) input⟩

def discard (env : Env) : Slot :=
  ⟨.pure .discard, noInline, fun input exact => do
    let slot ← Emit.temp
    Emit.store env exact (.register slot) input⟩

end Slot

/-- Reads all slots of a leaf, those outside the view into nothing. -/
def readPadded (env : Env) (total : Nat) (read : List Slot → Emit Unit) (base len : Nat)
    (out : List Slot) : Emit Unit :=
  read (List.replicate base (Slot.discard env) ++ out ++
    List.replicate (total - base - len) (Slot.discard env))

def LeafCode.ofSlots (env : Env) (slots : List Slot) (read : List Slot → Emit Unit) : LeafCode :=
  ⟨slots, read, readPadded env slots.length read⟩

def LeafCode.ofSlot (env : Env) (slot : Slot) (read : List Slot → Emit Unit) : LeafCode :=
  ofSlots env [slot] read

namespace Code

def pieceSlots : Piece LeafCode → List Slot
  | .whole leaf => leaf.slots
  | .view leaf base len => viewOf base len leaf.slots

def slots (e : Code) : List Slot := e.flatMap pieceSlots

def readPiece (p : Piece LeafCode) (out : List Slot) : Emit Unit :=
  match p with
  | .whole leaf => leaf.read out
  | .view leaf base len => leaf.readView base len out

/-- Each piece is read into its part of the output. -/
def readPieces : Code → List Slot → Emit Unit
  | [], _ => pure ()
  | p :: rest, out => do
    readPiece p (out.take p.len)
    readPieces rest (out.drop p.len)

/-- Evaluates the expression into as many slots as it has. -/
def read (e : Code) (out : List Slot) : Emit Unit :=
  if out.length = Slices.len e then readPieces e out
  else Emit.refuse (.arity out.length (Slices.len e))

def cut (e : Code) (base n : Nat) : Except Cause Code :=
  match Slices.cut e base n with
  | .ok part => .ok part
  | .error c => .error (.invalidSlice c.base c.len c.total)

def role (e : Code) : Role := Slot.roleAt e.slots 0

def inline (e : Code) (forWrite : Bool) : Emit (Option Arg) :=
  Emit.inspect (Slot.inlineAt e.slots 0 forWrite)

def write (e : Code) (input : Arg) (exact : TypeId) : Emit Unit :=
  Slot.writeAt e.slots 0 input exact

def toRegister (env : Env) (e : Code) : Emit Arg := do
  let slot ← Emit.temp
  e.read [Slot.register env slot]
  return .register slot

/-- Evaluates an expression to an argument, in a register if it has no form of its own. -/
def toArg (env : Env) (e : Code) : Emit Arg := do
  match ← e.inline false with
  | some arg => return arg
  | none => e.toRegister env

end Code

end AgentScript
