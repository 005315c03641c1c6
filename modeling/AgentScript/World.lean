import AgentScript.Expr
import AgentScript.Tree.Document
import AgentScript.Types.Declare

/-!
What the scripts of a unit are resolved against: types, macros, and the numbers given to variables,
placeholders and leaves so far.
-/
namespace AgentScript

structure MacroParam where
  name : String
  ty : TypeId
  /-- An inline parameter stands for its argument; any other is a copy of its value. -/
  inline : Option Perm

structure Macro where
  name : String
  params : List MacroParam
  body : Term
  pos : Position

structure World where
  types : Registry
  macros : List Macro
  /-- The expression of each placeholder that was reserved, once it is known. -/
  deferred : List (Option Expr)
  nextHandle : Nat
  nextKey : Nat
  /-- How many macro bodies are around what is being resolved. -/
  depth : Nat

/-- Macro bodies may be nested this deep. -/
def macroLevels : Nat := 64

namespace World

def initial : World := ⟨.initial, [], [], 0, 1, 0⟩

def hasMacro (w : World) (name : String) : Bool := w.macros.any (·.name == name)

/-- Macros of one name are told apart by their number of parameters. -/
def findMacro (w : World) (name : String) (count : Nat) : Except Cause Macro :=
  match w.macros.find? fun m => m.name == name && m.params.length == count with
  | some m => .ok m
  | none => .error (if w.hasMacro name then .unknownMacroArity name count else .unknownMacro name)

def addMacro (w : World) (m : Macro) : Except Cause (List Macro) :=
  match w.findMacro m.name m.params.length with
  | .ok _ => .error (.duplicateMacro m.name m.params.length)
  | .error _ => .ok (m :: w.macros)

def reserve (w : World) : Nat × World :=
  (w.deferred.length, { w with deferred := w.deferred ++ [none] })

def bindDeferred (w : World) (id : Nat) (e : Expr) : World :=
  { w with deferred := w.deferred.set id (some e) }

/-- Placeholders and numbers are only added, and macro bodies are left again. -/
structure Later (w v : World) : Prop where
  deferred : w.deferred <+: v.deferred
  handles : w.nextHandle ≤ v.nextHandle
  keys : w.nextKey ≤ v.nextKey
  depth : v.depth = w.depth

namespace Later

theorem refl (w : World) : Later w w := ⟨List.prefix_rfl, Nat.le_refl _, Nat.le_refl _, rfl⟩

theorem trans (first : Later w v) (second : Later v u) : Later w u :=
  ⟨first.deferred.trans second.deferred, Nat.le_trans first.handles second.handles,
    Nat.le_trans first.keys second.keys, second.depth.trans first.depth⟩

theorem reserve (w : World) : Later w w.reserve.2 :=
  ⟨List.prefix_append _ _, Nat.le_refl _, Nat.le_refl _, rfl⟩

theorem bindDeferred (later : Later w v) (e : Expr) : Later w (v.bindDeferred w.deferred.length e) := by
  obtain ⟨⟨rest, same⟩, handles, keys, depth⟩ := later
  refine ⟨⟨rest.set 0 (some e), ?_⟩, handles, keys, depth⟩
  simp [World.bindDeferred, ← same]

end Later

def unboundCount (w : World) : Nat := w.deferred.countP (·.isNone)

end World

end AgentScript
