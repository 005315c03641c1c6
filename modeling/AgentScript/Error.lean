import AgentScript.Position
import AgentScript.Types.Error

/-!
Why a unit is refused. A failure is a cause and, once some statement with a known position has
seen it, that position.
-/
namespace AgentScript

inductive Cause where
  | type (e : TypeError)
  | arity (expected got : Nat)
  | notSingle (got : Nat)
  | slotOutOfRange (index len : Nat)
  | invalidSlice (base len total : Nat)
  | notReadable (what : String)
  | notWritable (what : String)
  | unknownMajor (ty input : String)
  | byteStringStore
  | majorMismatch (left right : String)
  | outOfSlots (limit : Nat)
  | unknownIdentifier (name : String)
  | unknownField (ty field : String)
  | unknownMacro (name : String)
  | unknownMacroArity (name : String) (arity : Nat)
  | duplicateMacro (name : String) (arity : Nat)
  | macroDepth (limit : Nat)
  | unknownMessage (ty name : String)
  | unknownScript (ty name : String)
  | cannotBreak
  | cannotContinue
  | divisionByZero
  | unboundDeferred (id : Nat)
  | escapedHandle (handle : Nat)
  | invalid (text : String)

def Cause.message : Cause → String
  | type e => e.message
  | arity expected got => "expected " ++ Text.nat expected ++ " values, got " ++ Text.nat got
  | notSingle got => "expected a single value, got " ++ Text.nat got
  | slotOutOfRange index len =>
    "slot " ++ Text.nat index ++ " out of range for a slice of length " ++ Text.nat len
  | invalidSlice base len total =>
    "invalid slice [" ++ Text.nat base ++ "; " ++ Text.nat len ++ "] of a slice of length " ++
      Text.nat total
  | notReadable what => "cannot read from " ++ what
  | notWritable what => "cannot write to " ++ what
  | unknownMajor ty input => "no store instruction for `" ++ input ++ "` of type " ++ ty
  | byteStringStore => "byte strings cannot be stored in variables"
  | majorMismatch left right =>
    "major type mismatch in comparison (" ++ left ++ " vs " ++ right ++ ")"
  | outOfSlots limit => "out of VA slots (limit " ++ Text.nat limit ++ ")"
  | unknownIdentifier name => "unknown identifier `" ++ name ++ "`"
  | unknownField ty field => "no field `" ++ field ++ "` on " ++ ty
  | unknownMacro name => "no macro named `" ++ name ++ "`"
  | unknownMacroArity name count =>
    "macro `" ++ name ++ "` has no " ++ Text.nat count ++ "-argument variant"
  | duplicateMacro name count =>
    "macro `" ++ name ++ "` already has a " ++ Text.nat count ++ "-argument variant"
  | macroDepth limit => "macro expansion deeper than " ++ Text.nat limit ++ " levels"
  | unknownMessage ty name => "no message `" ++ name ++ "` on " ++ ty
  | unknownScript ty name => "no script `" ++ name ++ "` on " ++ ty
  | cannotBreak => "cannot break here"
  | cannotContinue => "cannot continue here"
  | divisionByZero => "division by zero in constant expression"
  | unboundDeferred id => "deferred expression #" ++ Text.nat id ++ " used before it was bound"
  | escapedHandle handle =>
    "VA handle #" ++ Text.nat handle ++ " used outside the scope that allocated it"
  | invalid text => text

structure Failure where
  cause : Cause
  pos : Option Position

namespace Failure

def of (cause : Cause) : Failure := ⟨cause, none⟩

/-- Attaches a known position, unless there is one already. -/
def locate (f : Failure) (pos : Position) : Failure :=
  match f.pos with
  | some _ => f
  | none => if pos.isKnown then { f with pos := some pos } else f

end Failure

end AgentScript
