import AgentScript.Code.Generate
import AgentScript.Proofs.Context
import AgentScript.Types.Declare

/-! Statements give back what they use. One that declares no variable leaves handles, registers and
the target of `break` as it found them, whether it fails or not; one that declares variables binds
these and no others. -/
namespace AgentScript

def Ctx.Holds (s : Ctx) (handles : List Nat) : Prop := ∀ h ∈ handles, (s.registerOf? h).isSome

namespace Emit

/-- Code that gives back what it uses. -/
structure Restores (x : Emit α) : Prop where
  restored : ∀ s, Ctx.Restored s (x.run s).2

namespace Restores

theorem pure (a : α) : Restores (Pure.pure a) := ⟨.refl⟩

theorem refuse (c : Cause) : Restores (Emit.refuse c : Emit α) := ⟨.refl⟩

theorem current : Restores Emit.current := ⟨.refl⟩

theorem inspect (question : Ctx → Except Cause α) : Restores (Emit.inspect question) := by
  refine ⟨fun s => ?_⟩
  rw [run_inspect]
  exact .refl s

theorem bind {x : Emit α} {f : α → Emit β} (first : Restores x) (next : ∀ a, Restores (f a)) :
    Restores (x >>= f) := by
  refine ⟨fun s => ?_⟩
  have here := first.restored s
  rw [run_bind]
  split
  · next ran =>
    rw [ran] at here
    exact here.trans ((next _).restored _)
  · next ran =>
    rw [ran] at here
    exact here

theorem ite {c : Prop} [Decidable c] {x y : Emit α} (first : Restores x) (second : Restores y) :
    Restores (if c then x else y) := by
  split
  · exact first
  · exact second

theorem located (pos : Position) {x : Emit α} (restores : Restores x) : Restores (x.located pos) := by
  refine ⟨fun s => ?_⟩
  rw [run_located]
  exact restores.restored s

theorem code (before : Int) (i : Instr) (after : Int) : Restores (Emit.code before i after) :=
  ⟨fun _ => ⟨rfl, rfl, id⟩⟩

theorem line (i : Instr) : Restores (Emit.line i) := code 0 i 0

theorem comment (text : String) : Restores (Emit.comment text) := ⟨fun _ => ⟨rfl, rfl, id⟩⟩

theorem queue (text : String) : Restores (Emit.queue text) := ⟨fun _ => ⟨rfl, rfl, id⟩⟩

theorem freshLabel : Restores Emit.freshLabel := ⟨fun _ => ⟨rfl, rfl, id⟩⟩

theorem within (loop : Option LoopTarget → Option LoopTarget) (x : Emit Unit) :
    Restores (Emit.within loop x) :=
  ⟨within_restored loop x⟩

theorem inScope (x : Emit Unit) : Restores x.inScope := within id x

end Restores

structure Binds (handles : List Nat) (x : Emit α) : Prop where
  bound : ∀ s a, (x.run s).1 = .ok a → (x.run s).2.Holds handles

namespace Binds

theorem nothing (x : Emit α) : Binds [] x := ⟨by simp [Ctx.Holds]⟩

theorem bind {x : Emit α} {f : α → Emit β} (first : Binds hs x) (next : ∀ a, Binds ks (f a)) :
    Binds (hs ++ ks) (x >>= f) := by
  refine ⟨fun s b ok h declared => ?_⟩
  rw [run_bind] at ok ⊢
  split at ok
  · next a t ran =>
    have here := first.bound s a (by rw [ran]) h
    simp only [ran] at here ⊢
    rcases List.mem_append.mp declared with inFirst | inNext
    · exact (f a).run_bound (here inFirst)
    · exact (next a).bound t b ok h inNext
  · cases ok

end Binds

/-- Code that binds some handles, if it does not fail, and leaves all others alone. -/
structure Declares (handles : List Nat) (x : Emit α) : Prop where
  others : ∀ s h, h ∉ handles → (x.run s).2.registerOf? h = s.registerOf? h
  bound : ∀ s a, (x.run s).1 = .ok a → ∀ h ∈ handles, ((x.run s).2.registerOf? h).isSome
  held : ∀ {s a ids rest}, (x.run s).1 = .ok a → s.pool.Balanced (ids :: rest) →
    ∃ more, more.length = handles.length ∧ (x.run s).2.pool.Balanced ((more ++ ids) :: rest)

namespace Declares

theorem binds {x : Emit α} (declares : Declares hs x) : Binds hs x := ⟨declares.bound⟩

theorem of_restores {x : Emit α} (restores : Restores x) : Declares [] x where
  others s h _ := congrArg (List.lookup h) (restores.restored s).bound
  bound := by simp
  held {s _ _ _} _ balanced := ⟨[], rfl, (restores.restored s).balance balanced⟩

theorem bind {x : Emit α} {f : α → Emit β} (first : Declares hs x) (next : ∀ a, Declares ks (f a)) :
    Declares (hs ++ ks) (x >>= f) where
  others s h notDeclared := by
    obtain ⟨notFirst, notNext⟩ := not_or.mp (mt List.mem_append.mpr notDeclared)
    have here := first.others s h notFirst
    rw [run_bind]
    split
    · next ran =>
      rw [ran] at here
      exact ((next _).others _ h notNext).trans here
    · next ran =>
      rw [ran] at here
      exact here
  bound := (first.binds.bind fun a => (next a).binds).bound
  held {s b ids rest} ok balanced := by
    rw [run_bind] at ok ⊢
    split at ok
    · next a t ran =>
      have here := first.held (a := a) (congrArg Prod.fst ran) balanced
      rw [ran] at here
      obtain ⟨more, count, balanced⟩ := here
      obtain ⟨further, count', balanced⟩ := (next a).held ok balanced
      refine ⟨further ++ more, ?_, by rwa [List.append_assoc]⟩
      rw [List.length_append, List.length_append, count, count', Nat.add_comm]
    · cases ok

theorem located (pos : Position) {x : Emit α} (declares : Declares hs x) :
    Declares hs (x.located pos) := by
  refine ⟨fun s h other => ?_, fun s a ok h declared => ?_, fun {s a ids rest} ok balanced => ?_⟩
  · rw [run_located]
    exact declares.others s h other
  · rw [run_located] at ok ⊢
    exact declares.bound s a (mapError_ok ok) h declared
  · rw [run_located] at ok ⊢
    exact declares.held (mapError_ok ok) balanced

theorem register (handle : Nat) : Declares [handle] (Emit.bind handle) where
  others s h notDeclared := by
    have other : h ≠ handle := by simpa using notDeclared
    unfold Emit.bind
    rw [run_bind, run_current]
    dsimp only
    split
    · rfl
    · next allocated =>
      simp [run_bind, Op.perform, allocated, Ctx.registerOf_bindTo, other]
  bound s a ok h declared := by
    cases List.mem_singleton.mp declared
    unfold Emit.bind at ok ⊢
    rw [run_bind, run_current] at ok ⊢
    dsimp only at ok ⊢
    split at ok
    · cases ok
    · next allocated =>
      simp [allocated, run_bind, Op.perform, Ctx.registerOf_bindTo]
  held {s a ids rest} ok balanced := by
    unfold Emit.bind at ok ⊢
    rw [run_bind, run_current] at ok ⊢
    dsimp only at ok ⊢
    split at ok
    · cases ok
    · next slot _ allocated =>
      refine ⟨[slot], rfl, ?_⟩
      simpa [allocated, run_bind, Op.perform, Ctx.bindTo] using balanced.allocate allocated

end Declares

end Emit

theorem registerNote_restores (env : Env) (slot : Nat) (ty : TypeId) (label : String) :
    (registerNote env slot ty label).Restores :=
  .ite (.comment _) (.pure ())

theorem bindVars_declares (env : Env) (vars : List LocalVar) :
    (bindVars env vars).Declares (vars.map (·.handle)) := by
  induction vars with
  | nil => exact .of_restores (.pure ())
  | cons v rest ih =>
    refine (Emit.Declares.register v.handle).bind fun slot => ?_
    exact (Emit.Declares.of_restores (registerNote_restores ..)).bind fun _ => ih

mutual
/-- The handles of the variables that a statement leaves bound. -/
def Action.declared : Action → List Nat
  | .mk _ kind => kind.declared
def ActionKind.declared : ActionKind → List Nat
  | .declare vars _ => vars.map (·.handle)
  | .block body false => declaredAll body
  | _ => []
def declaredAll : List Action → List Nat
  | [] => []
  | a :: rest => a.declared ++ declaredAll rest
end

/-- Statements that declare variables for those that follow them. -/
def ActionKind.declares : ActionKind → Bool
  | .declare _ _ | .block _ false => true
  | _ => false

namespace Action

/-- An enumeration, once its label and the register of its flag are made. -/
def enumeration (env : Env) (starter : List PartCode) (exit : Label) (slot : Nat) (body : Emit Unit) :
    Emit Unit := do
  Emit.line (.store .value (.register slot) (.int 0))
  let text ← PartCode.render env starter
  Emit.code 0 (.enumerate text) 1
  Emit.code 0 (.doif (.atom (.register slot) .eq (.int 0))) 1
  Emit.inLoop ⟨exit, some (.register slot), exit⟩ body
  Emit.code (-1) .endi 0
  Emit.line (.goto exit)
  Emit.line (.subr exit)
  Emit.code (-1) .next 0

theorem located_restores (env : Env) (pos : Position) {x : Emit Unit} (restores : x.Restores) :
    (located env pos x).Restores :=
  .ite ((Emit.Restores.queue _).bind fun _ => restores.located pos) (restores.located pos)

theorem synonym_restores (env : Env) (name : String) (target : Code) :
    (synonym env name target).Restores := by
  refine .ite ((Emit.Restores.inspect _).bind fun form => ?_) (.pure ())
  cases form with
  | some | none => exact .comment _

theorem loop_restores (body : Emit Unit) : (loop body).Restores := by
  refine Emit.Restores.freshLabel.bind fun top => Emit.Restores.freshLabel.bind fun exit => ?_
  refine (Emit.Restores.line _).bind fun _ => (Emit.Restores.code ..).bind fun _ => ?_
  exact (Emit.Restores.within ..).bind fun _ => (Emit.Restores.code ..).bind fun _ => .line _

theorem breakLoop_restores : breakLoop.Restores := by
  refine Emit.Restores.current.bind fun s => ?_
  cases s.loop with
  | none => exact .refuse _
  | some target =>
    dsimp only
    cases target.flag with
    | some flag => exact (Emit.Restores.line _).bind fun _ => .line _
    | none => exact .line _

theorem continueLoop_restores : continueLoop.Restores := by
  refine Emit.Restores.current.bind fun s => ?_
  cases s.loop with
  | none => exact .refuse _
  | some target => exact .line _

end Action

section
variable (env : Env) (table : Placeholder)

theorem ActionKind.run_restores {kind : ActionKind} (declaresNone : kind.declares = false) :
    (kind.run env table).Restores := by
  cases kind with
  | nop => exact .pure ()
  | block body closed =>
    cases closed with
    | true => exact .inScope _
    | false => cases declaresNone
  | declare vars init => cases declaresNone
  | assign | update | branch | enumerate | inline => exact .inScope _
  | synonym name target => exact Action.synonym_restores ..
  | loop body => exact Action.loop_restores _
  | breakLoop => exact Action.breakLoop_restores
  | continueLoop => exact Action.continueLoop_restores

theorem Action.declare_declares (vars : List LocalVar) (init : Option Code) :
    (Action.declare env vars init).Declares (vars.map (·.handle)) := by
  have bound := bindVars_declares env vars
  rw [← List.append_nil (vars.map (·.handle))]
  refine bound.bind fun _ => ?_
  cases init with
  | some e => exact .of_restores (.inScope _)
  | none => exact .of_restores (.pure ())

mutual
theorem Action.run_declares : (a : Action) → (a.run env table).Declares a.declared
  | .mk pos kind => by
    have inner := (ActionKind.run_declares kind).located pos
    rw [Action.run, Action.declared, Action.located]
    split
    · exact (Emit.Declares.of_restores (.queue _)).bind fun _ => inner
    · exact inner
theorem runAll_declares : (body : List Action) → (runAll env table body).Declares (declaredAll body)
  | [] => .of_restores (.pure ())
  | a :: rest => by
    rw [runAll, declaredAll]
    exact (Action.run_declares a).bind fun _ => runAll_declares rest
theorem ActionKind.run_declares : (kind : ActionKind) → (kind.run env table).Declares kind.declared
  | .declare vars init => by
    rw [ActionKind.run, ActionKind.declared]
    exact Action.declare_declares env vars _
  | .block body false => by
    rw [ActionKind.run, ActionKind.declared]
    exact runAll_declares body
  | .block _ true | .nop | .assign .. | .update .. | .synonym .. | .branch .. | .loop _ | .breakLoop
  | .continueLoop | .enumerate .. | .inline _ => .of_restores (ActionKind.run_restores env table rfl)
end

end

theorem Action.run_restores (env : Env) (table : Placeholder) {a : Action}
    (declaresNone : a.kind.declares = false) : (a.run env table).Restores := by
  cases a with
  | mk pos kind =>
    rw [Action.run]
    exact Action.located_restores env pos (ActionKind.run_restores env table declaresNone)

end AgentScript
