import AgentScript.Scope
import AgentScript.World

/-!
Steps of resolution. A step may fail; types, numbers and bindings made before that stay. Frames and
macro bodies leave the scope as it was, however they are left.
-/
namespace AgentScript

abbrev TypeM := ExceptT TypeError (StateM Registry)

structure WorldM (α : Type) where
  run : World → Except Failure α × World
  later : ∀ w : World, w.Later (run w).2

structure Resolving where
  world : World
  scope : Scope

structure Resolving.Later (s t : Resolving) : Prop where
  world : s.world.Later t.world
  scope : s.scope.Around t.scope

theorem Resolving.Later.refl (s : Resolving) : s.Later s := ⟨.refl _, .refl _⟩

theorem Resolving.Later.trans {s t u : Resolving} (first : s.Later t) (second : t.Later u) :
    s.Later u :=
  ⟨first.world.trans second.world, first.scope.trans second.scope⟩

structure Resolve (α : Type) where
  run : Resolving → Except Failure α × Resolving
  later : ∀ s : Resolving, s.Later (run s).2

namespace TypeM

def fail (e : TypeError) : TypeM α := throw e

def make (f : Registry → α × Registry) : TypeM α := modifyGet f

end TypeM

mutual
/-- The type that a reference denotes. Classifiers and unions are made on first use. -/
def TypeRef.resolve : TypeRef → TypeM TypeId
  | .named name => do
    match (← get).byName name with
    | .ok t => return t
    | .error e => TypeM.fail e
  | .classifier c => TypeM.make fun r => r.byClassifier c
  | .nullable t => do
    let t ← TypeRef.resolve t
    TypeM.make fun r => r.byNullable t
  | .union members => do
    let members ← TypeRef.resolveAll members
    TypeM.make fun r => r.byUnion members
def TypeRef.resolveAll : List TypeRef → TypeM (List TypeId)
  | [] => return []
  | t :: rest => do
    let first ← TypeRef.resolve t
    return first :: (← TypeRef.resolveAll rest)
end

namespace WorldM

def andThen (x : WorldM α) (f : α → WorldM β) : WorldM β where
  run w := match x.run w with
    | (.ok a, v) => (f a).run v
    | (.error e, v) => (.error e, v)
  later w := by
    have first := x.later w
    split
    · next ran =>
      rw [ran] at first
      exact first.trans ((f _).later _)
    · next ran =>
      rw [ran] at first
      exact first

instance : Monad WorldM where
  pure a := ⟨fun w => (.ok a, w), .refl⟩
  bind := andThen

theorem run_bind (x : WorldM α) (f : α → WorldM β) (w : World) :
    (x >>= f).run w = match x.run w with
      | (.ok a, v) => (f a).run v
      | (.error e, v) => (.error e, v) := rfl

def fail (cause : Cause) : WorldM α := ⟨fun w => (.error (.of cause), w), .refl⟩

def ofExcept : Except Cause α → WorldM α
  | .ok a => pure a
  | .error cause => fail cause

def ofType : Except TypeError α → WorldM α
  | .ok a => pure a
  | .error e => fail (.type e)

def current : WorldM World := ⟨fun w => (.ok w, w), .refl⟩

def setTypes (types : Registry) : WorldM Unit :=
  ⟨fun w => (.ok (), { w with types }), fun _ => ⟨List.prefix_rfl, Nat.le_refl _, Nat.le_refl _, rfl⟩⟩

def setMacros (macros : List Macro) : WorldM Unit :=
  ⟨fun w => (.ok (), { w with macros }), fun _ => ⟨List.prefix_rfl, Nat.le_refl _, Nat.le_refl _, rfl⟩⟩

def inTypes (x : TypeM α) : WorldM α := do
  let (result, types) := x.run (← current).types
  setTypes types
  ofType result

theorem run_inTypes (x : TypeM α) (w : World) :
    (inTypes x).run w =
      ((x.run w.types).1.mapError (.of ∘ .type), { w with types := (x.run w.types).2 }) := by
  change (ofType (x.run w.types).1).run _ = _
  cases (x.run w.types).1 <;> rfl

/-- A declaration, which changes nothing when it is refused. -/
def declare (f : Registry → Except TypeError Registry) : WorldM Unit := do
  setTypes (← ofType (f (← current).types))

def located (pos : Position) (x : WorldM α) : WorldM α :=
  ⟨fun w =>
    let (result, v) := x.run w
    (result.mapError (·.locate pos), v), x.later⟩

end WorldM

namespace Resolve

def andThen (x : Resolve α) (f : α → Resolve β) : Resolve β where
  run s := match x.run s with
    | (.ok a, t) => (f a).run t
    | (.error e, t) => (.error e, t)
  later s := by
    have first := x.later s
    split
    · next ran =>
      rw [ran] at first
      exact first.trans ((f _).later _)
    · next ran =>
      rw [ran] at first
      exact first

instance : Monad Resolve where
  pure a := ⟨fun s => (.ok a, s), .refl⟩
  bind := andThen

theorem run_bind (x : Resolve α) (f : α → Resolve β) (s : Resolving) :
    (x >>= f).run s = match x.run s with
      | (.ok a, t) => (f a).run t
      | (.error e, t) => (.error e, t) := rfl

def fail (cause : Cause) : Resolve α := ⟨fun s => (.error (.of cause), s), .refl⟩

def ofExcept : Except Cause α → Resolve α
  | .ok a => pure a
  | .error cause => fail cause

def ofType : Except TypeError α → Resolve α
  | .ok a => pure a
  | .error e => fail (.type e)

def located (pos : Position) (x : Resolve α) : Resolve α :=
  ⟨fun s =>
    let (result, t) := x.run s
    (result.mapError (·.locate pos), t), x.later⟩

def world : Resolve World := ⟨fun s => (.ok s.world, s), .refl⟩

def types : Resolve Registry := return (← world).types

def scope : Resolve Scope := ⟨fun s => (.ok s.scope, s), .refl⟩

def inWorld (x : WorldM α) : Resolve α :=
  ⟨fun s =>
    let (result, world) := x.run s.world
    (result, { s with world }), fun s => ⟨x.later s.world, .refl _⟩⟩

def typeRef (t : TypeRef) : Resolve TypeId := inWorld (WorldM.inTypes t.resolve)

/-- Resolves in a scope of its own, of which nothing stays. -/
def inScope (scope : Scope) (x : Resolve α) : WorldM α :=
  ⟨fun world =>
    let (result, s) := x.run ⟨world, scope⟩
    (result, s.world), fun world => (x.later ⟨world, scope⟩).world⟩

/-- Resolves a macro body, in a scope of its own and one level deeper. -/
def inBody (scope : Scope) (x : Resolve α) : Resolve α where
  run s :=
    if macroLevels ≤ s.world.depth then (.error (.of (.macroDepth macroLevels)), s)
    else
      let (result, t) := x.run ⟨{ s.world with depth := s.world.depth + 1 }, scope⟩
      (result, { s with world := { t.world with depth := t.world.depth - 1 } })
  later s := by
    split
    · exact .refl s
    · have inside := (x.later ⟨{ s.world with depth := s.world.depth + 1 }, scope⟩).world
      refine ⟨⟨inside.deferred, inside.handles, inside.keys, ?_⟩, .refl _⟩
      dsimp only
      rw [inside.depth, Nat.add_sub_cancel]

/-- A macro body is refused because it is too deep, or resolved inside. -/
theorem run_inBody (scope : Scope) (x : Resolve α) (s : Resolving) :
    (inBody scope x).run s =
      if macroLevels ≤ s.world.depth then (.error (.of (.macroDepth macroLevels)), s)
      else
        let (result, t) := x.run ⟨{ s.world with depth := s.world.depth + 1 }, scope⟩
        (result, { s with world := { t.world with depth := s.world.depth } }) := by
  have inside := (x.later ⟨{ s.world with depth := s.world.depth + 1 }, scope⟩).world.depth
  simp only [inBody, inside, Nat.add_sub_cancel]

theorem inBody_ok {scope : Scope} {x : Resolve α} {s t : Resolving}
    (ran : (inBody scope x).run s = (.ok a, t)) :
    ∃ u, x.run ⟨{ s.world with depth := s.world.depth + 1 }, scope⟩ = (.ok a, u) ∧
      t = { s with world := { u.world with depth := s.world.depth } } := by
  rw [run_inBody] at ran
  split at ran
  · cases ran
  · obtain ⟨result, rfl⟩ := Prod.mk.inj ran
    exact ⟨_, Prod.ext result rfl, rfl⟩

theorem inBody_error {scope : Scope} {x : Resolve α} {s t : Resolving}
    (ran : (inBody scope x).run s = (.error f, t)) :
    f = .of (.macroDepth macroLevels) ∧ t = s ∨
      ∃ u, x.run ⟨{ s.world with depth := s.world.depth + 1 }, scope⟩ = (.error f, u) ∧
        t = { s with world := { u.world with depth := s.world.depth } } := by
  rw [run_inBody] at ran
  split at ran
  · cases ran
    exact .inl ⟨rfl, rfl⟩
  · obtain ⟨result, rfl⟩ := Prod.mk.inj ran
    exact .inr ⟨_, Prod.ext result rfl, rfl⟩

def bind (name : String) (e : Expr) : Resolve Unit :=
  ⟨fun s => (.ok (), { s with scope := s.scope.bind name e }), fun _ => ⟨.refl _, .bind _ name e⟩⟩

def inFrame (frame : Scope → Frame) (x : Resolve α) : Resolve α where
  run s :=
    let (result, t) := x.run { s with scope := s.scope.push (frame s.scope) }
    (result, { t with scope := t.scope.leave })
  later s := by
    have inside := x.later { s with scope := s.scope.push (frame s.scope) }
    refine ⟨inside.world, ?_⟩
    dsimp only
    rw [inside.scope.leave]
    exact .refl _

/-- Handles below `next` are in use. -/
def useHandles (next : Nat) : Resolve Unit :=
  ⟨fun s => (.ok (), { s with world.nextHandle := max s.world.nextHandle next }),
    fun _ => ⟨⟨List.prefix_rfl, Nat.le_max_left _ _, Nat.le_refl _, rfl⟩, .refl _⟩⟩

def freshHandle : Resolve Nat := do
  let handle := (← world).nextHandle
  useHandles (handle + 1)
  return handle

def freshKey : Resolve Nat :=
  ⟨fun s => (.ok s.world.nextKey, { s with world.nextKey := s.world.nextKey + 1 }),
    fun _ => ⟨⟨List.prefix_rfl, Nat.le_refl _, Nat.le_succ _, rfl⟩, .refl _⟩⟩

/-- Reserves a placeholder and binds it to the expression that `x` finds for it. -/
def deferring (x : Nat → Resolve (α × Expr)) : Resolve α where
  run s :=
    let id := s.world.deferred.length
    match (x id).run { s with world := s.world.reserve.2 } with
    | (.ok (a, e), t) => (.ok a, { t with world := t.world.bindDeferred id e })
    | (.error f, t) => (.error f, t)
  later s := by
    have after := (x s.world.deferred.length).later { s with world := s.world.reserve.2 }
    have reserved := (World.Later.reserve s.world).trans after.world
    dsimp only
    split
    · next ran =>
      rw [ran] at after reserved
      exact ⟨reserved.bindDeferred _, after.scope⟩
    · next ran =>
      rw [ran] at after reserved
      exact ⟨reserved, after.scope⟩

def checkCast (source target : TypeId) : Resolve Unit := do
  ofType ((← types).checkCast source target)

def checkSingle (e : Expr) (target : TypeId) : Resolve Unit := do
  checkCast (← ofExcept e.singleReadType) target

end Resolve

end AgentScript
