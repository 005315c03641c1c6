/-!
The registers of a script. They are handed out by nested scopes: a scope that has no free register
borrows one from the scope around it, and hands back all that it borrowed when it is closed.
-/
namespace AgentScript

/-- A script has this many registers. -/
def registerCount : Nat := 100

namespace Pool

structure Scope where
  /-- Free registers, the next one first. -/
  free : List Nat
  /-- Every register that the scope took from the one around it. -/
  all : List Nat

end Pool

/-- Scopes, the innermost first. The outermost owns all registers. -/
structure Pool where
  scopes : List Pool.Scope

namespace Pool

def initial : Pool := ⟨[⟨List.range registerCount, List.range registerCount⟩]⟩

def depth (p : Pool) : Nat := p.scopes.length

/-- Takes the next register of the innermost scope that has one, through all scopes inside it. -/
def takeFrom? : List Scope → Option (Nat × List Scope)
  | [] => none
  | s :: outer => match s.free with
    | id :: free => some (id, { s with free } :: outer)
    | [] => match takeFrom? outer with
      | some (id, outer) => some (id, { s with all := s.all ++ [id] } :: outer)
      | none => none

def allocate? (p : Pool) : Option (Nat × Pool) :=
  (takeFrom? p.scopes).map fun (id, scopes) => (id, ⟨scopes⟩)

/-- Gives a register back to the innermost scope that took it. -/
def releaseIn? (id : Nat) : List Scope → Option (List Scope)
  | [] => none
  | s :: outer =>
    if id ∈ s.all then some ({ s with free := s.free ++ [id] } :: outer)
    else (releaseIn? id outer).map (s :: ·)

/-- A register that no scope took goes to the innermost one. -/
def release (p : Pool) (id : Nat) : Pool :=
  match releaseIn? id p.scopes with
  | some scopes => ⟨scopes⟩
  | none => match p.scopes with
    | s :: outer => ⟨{ s with free := s.free ++ [id] } :: outer⟩
    | [] => p

def openScope (p : Pool) : Pool := ⟨⟨[], []⟩ :: p.scopes⟩

/-- Closes the innermost scope. The outermost is never closed. -/
def closeScope (p : Pool) : Pool :=
  match p.scopes with
  | s :: outer :: rest => ⟨{ outer with free := outer.free ++ s.all } :: rest⟩
  | _ => p

def freeCount (p : Pool) : Nat := (p.scopes.flatMap Scope.free).length

def liveCount (p : Pool) : Nat := registerCount - p.freeCount

end Pool

/-- Numbers handed out one after the other, up to the number of registers. -/
structure Counter where
  next : Nat

def Counter.allocate? (c : Counter) : Option (Nat × Counter) :=
  if c.next < registerCount then some (c.next, ⟨c.next + 1⟩) else none

end AgentScript
