import AgentScript.Expr

/-!
Names in scope. A scope is a stack of frames; a frame that is left takes its bindings with it. The
outermost frame of every script and of every macro body holds the variables that scripts have.
-/
namespace AgentScript

/-- The types of the variables that a script starts with. -/
structure ScriptTypes where
  owner : TypeId
  sender : TypeId
  first : TypeId
  second : TypeId

def ScriptTypes.ofOwner (owner : TypeId) : ScriptTypes :=
  ⟨owner, Registry.agentOrNull, Registry.any, Registry.any⟩

structure Frame where
  bindings : List (String × Expr)
  /-- Whether a loop of the same script or macro body is around. -/
  breakable : Bool

/-- Frames inside each other, the innermost first. -/
structure Scope where
  script : ScriptTypes
  frames : List Frame

namespace Scope

def ownerVar (ty : TypeId) : Expr := Expr.leaf (.builtin "ownr" ty false .owner)

def targetVar (ty : TypeId) : Expr := Expr.leaf (.builtin "targ" ty true .target)

def builtins (script : ScriptTypes) : List (String × Expr) :=
  let fixed (name : String) (ty : TypeId) := (name, Expr.leaf (.builtin name ty false .plain))
  [("ownr", ownerVar script.owner),
    fixed "from" script.sender,
    fixed "_it_" Registry.agentOrNull,
    fixed "_p1_" script.first,
    fixed "_p2_" script.second,
    fixed "null" Registry.null,
    ("targ", targetVar Registry.agentOrNull),
    ("_", Expr.leaf (.sink 0 1 Registry.any))]

def root (script : ScriptTypes) : Scope := ⟨script, [⟨builtins script, false⟩]⟩

def breakable (s : Scope) : Bool := s.frames.head?.any (·.breakable)

def lookup? (s : Scope) (name : String) : Option Expr :=
  s.frames.findSome? fun f => f.bindings.lookup name

def isBound (s : Scope) (name : String) : Bool := (s.lookup? name).isSome

def bind (s : Scope) (name : String) (e : Expr) : Scope :=
  match s.frames with
  | f :: outer => { s with frames := { f with bindings := (name, e) :: f.bindings } :: outer }
  | [] => s

def push (s : Scope) (f : Frame) : Scope := { s with frames := f :: s.frames }

def innerFrame (s : Scope) : Frame := ⟨[], s.breakable⟩

def loopFrame (_ : Scope) : Frame := ⟨[], true⟩

def leave (s : Scope) : Scope := { s with frames := s.frames.tail }

/-- Nothing but the innermost frame has changed. -/
structure Around (s t : Scope) : Prop where
  script : t.script = s.script
  outer : t.frames.tail = s.frames.tail

namespace Around

theorem refl (s : Scope) : Around s s := ⟨rfl, rfl⟩

theorem trans (first : Around s t) (second : Around t u) : Around s u :=
  ⟨second.script.trans first.script, second.outer.trans first.outer⟩

theorem bind (s : Scope) (name : String) (e : Expr) : Around s (s.bind name e) := by
  unfold Scope.bind
  split
  · next same => exact ⟨rfl, by simp [same]⟩
  · exact refl s

theorem leave (around : Around (s.push f) t) : t.leave = s := by
  obtain ⟨script, outer⟩ := around
  cases s
  cases t
  simp_all [Scope.leave, push]

end Around

end Scope

end AgentScript
