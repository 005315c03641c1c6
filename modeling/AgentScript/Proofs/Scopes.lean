import AgentScript.Proofs.Discipline
import AgentScript.Proofs.Layout.Law

/-! Scopes around scopes. A scope that has nothing of its own makes no difference to the code inside of
another one: what is taken from it comes from further out, and what is given back to it goes there in
the end. So a statement that is written in a scope is written alike in two. -/
namespace AgentScript

namespace Pool

/-- Another scope around the one at `n`. It took `before`, and all that the scope inside took from it. -/
def padScopes (before : List Nat) : (n : Nat) → List Scope → List Scope
  | _, [] => []
  | 0, s :: outer => s :: ⟨[], before ++ s.all⟩ :: outer
  | n + 1, s :: outer => s :: padScopes before n outer

def pad (before : List Nat) (n : Nat) (p : Pool) : Pool := ⟨padScopes before n p.scopes⟩

variable {before : List Nat} {n : Nat} {p q : Pool}

theorem takeFrom_pad (scopes : List Scope) (inside : n < scopes.length) :
    takeFrom? (padScopes before n scopes) =
      (takeFrom? scopes).map fun (id, rest) => (id, padScopes before n rest) := by
  induction scopes generalizing n with
  | nil => cases inside
  | cons s outer ih =>
    cases n with
    | zero =>
      simp only [padScopes, takeFrom?]
      cases s.free with
      | cons id free => rfl
      | nil => cases takeFrom? outer <;> simp [padScopes]
    | succ n =>
      simp only [padScopes, takeFrom?, ih (Nat.lt_of_succ_lt_succ inside)]
      cases s.free with
      | cons id free => rfl
      | nil => cases takeFrom? outer <;> rfl

theorem allocate_pad (inside : n < p.depth) :
    (p.pad before n).allocate? = p.allocate?.map fun (id, q) => (id, q.pad before n) := by
  rw [allocate?, pad, takeFrom_pad p.scopes inside, allocate?, Option.map_map, Option.map_map]
  rfl

theorem takeFrom_length {id : Nat} {scopes rest : List Scope} (taken : takeFrom? scopes = some (id, rest)) :
    rest.length = scopes.length := by
  induction scopes generalizing id rest with
  | nil => cases taken
  | cons s outer ih =>
    rw [takeFrom?] at taken
    split at taken
    · cases taken
      rfl
    · split at taken <;> cases taken
      next more => rw [List.length_cons, List.length_cons, ih more]

theorem allocate_depth {id : Nat} (allocated : p.allocate? = some (id, q)) : q.depth = p.depth := by
  obtain ⟨⟨_, rest⟩, taken, same⟩ := Option.map_eq_some_iff.mp allocated
  cases same
  exact takeFrom_length taken

theorem closeScope_pad (inside : n + 1 < p.depth) :
    (p.pad before (n + 1)).closeScope = p.closeScope.pad before n := by
  obtain ⟨scopes⟩ := p
  match scopes, inside with
  | s :: outer :: rest, _ => cases n <;> rfl

theorem closeScope_depth (inside : 1 < p.depth) : p.closeScope.depth + 1 = p.depth := by
  obtain ⟨scopes⟩ := p
  match scopes, inside with
  | s :: outer :: rest, _ => rfl

theorem closeScope_openScope (inside : 0 < p.depth) : p.openScope.closeScope = p := by
  obtain ⟨scopes⟩ := p
  match scopes, inside with
  | s :: rest, _ => simp [openScope, closeScope]

/-- The scope around and the scope inside give back the same. -/
theorem closeScope_twice (inside : 1 < p.depth) : (p.pad [] 0).closeScope.closeScope = p.closeScope := by
  obtain ⟨scopes⟩ := p
  match scopes, inside with
  | s :: outer :: rest, _ => rfl

end Pool

def Ctx.pad (before : List Nat) (n : Nat) (s : Ctx) : Ctx := { s with pool := s.pool.pad before n }

theorem Ctx.leave_enter {s : Ctx} (inside : 0 < s.pool.depth) : (s.enter id).leave s.outside = s := by
  simp only [Ctx.leave, Ctx.enter, Pool.closeScope_openScope inside]
  rfl

/-- A run that another scope around makes no difference to. -/
def Padded (run : Ctx → Except Failure α × Ctx) : Prop := ∀ before n s, n < s.pool.depth →
  run (s.pad before n) = ((run s).1, (run s).2.pad before n) ∧ (run s).2.pool.depth = s.pool.depth

namespace Emit

/-- Another scope around makes no difference to the code, nor to the scope that it begins with. -/
structure Pads (x : Emit α) : Prop where
  runs : Padded x.run
  head : ∀ {loop body next}, x = .scope loop body next → Padded body.run

namespace Pads
variable {x : Emit α} {f : α → Emit β}

theorem pure (a : α) : Pads (Pure.pure a) := ⟨fun _ _ _ _ => ⟨rfl, rfl⟩, nofun⟩

theorem refuse (c : Cause) : Pads (Emit.refuse c : Emit α) := ⟨fun _ _ _ _ => ⟨rfl, rfl⟩, nofun⟩

theorem bind (first : Pads x) (next : ∀ a, Pads (f a)) : Pads (x >>= f) := by
  refine ⟨fun before n s inside => ?_, fun {loop body rest} same => ?_⟩
  · obtain ⟨ran, depth⟩ := first.runs before n s inside
    rw [run_bind, run_bind, ran]
    rcases here : x.run s with ⟨e | a, t⟩ <;> rw [here] at depth
    · exact ⟨rfl, depth⟩
    · obtain ⟨more, deeper⟩ := (next a).runs before n t (depth ▸ inside)
      exact ⟨more, deeper.trans depth⟩
  · cases x with
    | pure a => exact (next a).head same
    | scope =>
      cases same
      exact first.head rfl
    | _ => cases same

theorem look {f : Ctx → Emit α} (each : ∀ s, Pads (f s)) (same : ∀ {s t}, s.Matches .same t → f t = f s) :
    Pads (.look f) := by
  refine ⟨fun before n s inside => ?_, nofun⟩
  have alike : f (s.pad before n) = f s := same (Ctx.matches_same rfl rfl rfl rfl)
  change (f (s.pad before n)).run (s.pad before n) = _ ∧ _
  rw [alike]
  exact (each s).runs before n s inside

theorem perform {op : Op} (other : ∀ handle, op ≠ .bind handle) : Pads (Emit.perform op) := by
  refine ⟨fun before n s inside => ?_, nofun⟩
  cases op with
  | bind handle => exact absurd rfl (other handle)
  | _ => exact ⟨rfl, rfl⟩

theorem register (handle : Nat) : Pads (Emit.bind handle) := by
  refine ⟨fun before n s inside => ?_, nofun⟩
  have taken : (s.pad before n).pool.allocate? = _ := Pool.allocate_pad inside
  rw [run_register, run_register, taken]
  cases allocated : s.pool.allocate? with
  | none => exact ⟨rfl, rfl⟩
  | some taken => exact ⟨rfl, Pool.allocate_depth allocated⟩

theorem located (pos : Position) (pads : Pads x) : Pads (x.located pos) := by
  refine ⟨fun before n s inside => ?_, fun {loop body rest} same => ?_⟩
  · obtain ⟨ran, depth⟩ := pads.runs before n s inside
    rw [run_located, run_located, ran]
    exact ⟨rfl, depth⟩
  · cases x with
    | scope =>
      cases same
      intro before n s inside
      obtain ⟨ran, depth⟩ := pads.head rfl before n s inside
      rw [Routine.run_located, Routine.run_located, ran]
      exact ⟨rfl, depth⟩
    | _ => cases same

theorem within {x : Emit Unit} (loop : Option LoopTarget → Option LoopTarget) (pads : Pads x) :
    Pads (Emit.within loop x) := by
  refine ⟨fun before n s inside => ?_, fun same => ?_⟩
  · have deeper : n + 1 < (s.enter loop).pool.depth := Nat.succ_lt_succ inside
    obtain ⟨ran, depth⟩ := pads.runs before (n + 1) (s.enter loop) deeper
    rw [run_within, run_within]
    change ((x.run ((s.enter loop).pad before (n + 1))).1,
      (x.run ((s.enter loop).pad before (n + 1))).2.leave s.outside) = _ ∧ _
    rw [ran]
    rw [← depth] at deeper
    have closed := Pool.closeScope_depth (Nat.lt_of_le_of_lt (Nat.le_add_left 1 n) deeper)
    refine ⟨?_, Nat.succ.inj (closed.trans depth)⟩
    simp only [Ctx.leave, Ctx.pad, Pool.closeScope_pad deeper]
  · cases same
    intro before n s inside
    obtain ⟨ran, depth⟩ := pads.runs before n s inside
    rw [run_routine, run_routine, ran]
    exact ⟨rfl, depth⟩

end Pads

theorem Pads.law (env : Env) : OwnLaw env Pads where
  pure := .pure
  refuse := .refuse
  bind := .bind
  look := .look
  perform := .perform
  register := .register
  located pos _ _ pads := pads.located pos
  within loop _ pads := pads.within loop

abbrev SamePads : Comparison := Own Pads

theorem samePads_law (env : Env) : LoopLaw .same env env (fun _ => True) SamePads := (Pads.law env).law

/-- In a scope of its own, the code does the same. -/
def Settled (x : Emit Unit) : Prop := ∀ s, 0 < s.pool.depth → (inScope x).run s = x.run s

/-- Code that registers have no part in. -/
structure Aside (x : Emit α) : Prop where
  runs : ∀ s p, x.run { s with pool := p } = ((x.run s).1, { (x.run s).2 with pool := p })
  outside : ∀ s, (x.run s).2.outside = s.outside

namespace Aside
variable {x : Emit α} {f : α → Emit β}

theorem pool (aside : Aside x) (s : Ctx) : (x.run s).2.pool = s.pool := by
  have same := aside.runs s s.pool
  rw [show { s with pool := s.pool } = s from rfl] at same
  rw [same]

theorem entered (aside : Aside x) (s : Ctx) : x.run (s.enter id) = ((x.run s).1, (x.run s).2.enter id) := by
  rw [Ctx.enter, Ctx.enter, aside.pool]
  exact aside.runs s _

theorem pure (a : α) : Aside (Pure.pure a) := ⟨fun _ _ => rfl, fun _ => rfl⟩

theorem refuse (c : Cause) : Aside (Emit.refuse c : Emit α) := ⟨fun _ _ => rfl, fun _ => rfl⟩

theorem code (before : Int) (i : Instr) (after : Int) : Aside (Emit.code before i after) :=
  ⟨fun _ _ => rfl, fun _ => rfl⟩

theorem bind (first : Aside x) (next : ∀ a, Aside (f a)) : Aside (x >>= f) := by
  refine ⟨fun s p => ?_, fun s => ?_⟩
  · rw [run_bind, run_bind, first.runs]
    rcases x.run s with ⟨e | a, t⟩
    · rfl
    · exact (next a).runs t p
  · have here := first.outside s
    rw [run_bind]
    rcases ran : x.run s with ⟨e | a, t⟩ <;> rw [ran] at here
    · exact here
    · exact ((next a).outside t).trans here

theorem look {f : Ctx → Emit α} (each : ∀ s, Aside (f s)) (same : ∀ s p, f { s with pool := p } = f s) :
    Aside (.look f) := by
  refine ⟨fun s p => ?_, fun s => (each s).outside s⟩
  change (f { s with pool := p }).run { s with pool := p } = _
  rw [same]
  exact (each s).runs s p

theorem freshLabel : Aside Emit.freshLabel := ⟨fun _ _ => rfl, fun _ => rfl⟩

end Aside

namespace Settled
variable {x : Emit Unit}

theorem before {x : Emit α} {f : α → Emit Unit} (first : Aside x) (next : ∀ a, Settled (f a)) :
    Settled (x >>= f) := by
  intro s inside
  rw [← first.pool s] at inside
  rw [inScope, run_within, run_bind, run_bind, first.entered, ← first.outside s]
  generalize x.run s = ran at inside ⊢
  obtain ⟨e | a, t⟩ := ran
  · exact congrArg _ (Ctx.leave_enter inside)
  · have rest := next a t inside
    rwa [inScope, run_within] at rest

theorem ofAside (aside : Aside x) : Settled x := by
  intro s inside
  rw [← aside.pool s] at inside
  rw [inScope, run_within, aside.entered, ← aside.outside]
  exact congrArg _ (Ctx.leave_enter inside)

theorem code_after (settled : Settled x) (before : Int) (i : Instr) (after : Int) :
    Settled (x >>= fun _ => Emit.code before i after) := by
  intro s inside
  have here := settled s inside
  rw [inScope, run_within] at here
  rw [inScope, run_within, run_bind, run_bind, ← here]
  rcases x.run (s.enter id) with ⟨e | a, t⟩ <;> rfl

theorem scope {loop : Option LoopTarget → Option LoopTarget} (pads : Pads (Emit.within loop x)) :
    Settled (Emit.within loop x) := by
  have ran (s : Ctx) : (Emit.within loop x).run s =
      ((x.routine.run (s.enter loop)).1, (x.routine.run (s.enter loop)).2.leave s.outside) := by
    simp only [Emit.within, run]
    rcases x.routine.run (s.enter loop) with ⟨_ | _, t⟩ <;> rfl
  intro s inside
  obtain ⟨twice, depth⟩ := pads.head rfl [] 0 (s.enter loop) (Nat.succ_pos _)
  rw [inScope, run_within, ran, ran]
  change ((x.routine.run ((s.enter loop).pad [] 0)).1, Ctx.leave (Ctx.leave
    (x.routine.run ((s.enter loop).pad [] 0)).2 s.outside) s.outside) = _
  rw [twice]
  have deeper : 1 < (x.routine.run (s.enter loop)).2.pool.depth := depth ▸ Nat.succ_lt_succ inside
  simp only [Ctx.leave, Ctx.pad, Pool.closeScope_twice deeper]

end Settled

/-- Code that takes registers through a scope around it that has none, and gives none back. -/
def Borrows (x : Emit α) : Prop := ∀ s taken, ∃ more,
  x.run { s with pool := ⟨⟨[], taken⟩ :: s.pool.scopes⟩ } =
    ((x.run s).1, { (x.run s).2 with pool := ⟨⟨[], more⟩ :: (x.run s).2.pool.scopes⟩ })

namespace Borrows
variable {x : Emit α} {f : α → Emit β}

theorem bind (first : Borrows x) (next : ∀ a, Borrows (f a)) : Borrows (x >>= f) := by
  intro s taken
  obtain ⟨more, ran⟩ := first s taken
  rw [run_bind, run_bind, ran]
  rcases x.run s with ⟨e | a, t⟩
  · exact ⟨more, rfl⟩
  · exact next a t more

theorem ofAside (aside : Aside x) : Borrows x := by
  intro s taken
  refine ⟨taken, ?_⟩
  rw [aside.pool]
  exact aside.runs s _

theorem register (handle : Nat) : Borrows (Emit.bind handle) := by
  intro s taken
  rw [run_register, run_register]
  have through : Pool.allocate? ⟨⟨[], taken⟩ :: s.pool.scopes⟩ =
      s.pool.allocate?.map fun (id, q) => (id, ⟨⟨[], taken ++ [id]⟩ :: q.scopes⟩) := by
    simp only [Pool.allocate?, Pool.takeFrom?]
    cases Pool.takeFrom? s.pool.scopes <;> rfl
  rw [through]
  cases s.pool.allocate? with
  | none => exact ⟨taken, rfl⟩
  | some found => exact ⟨taken ++ [found.1], rfl⟩

end Borrows

/-- In a scope of its own, the same is written. -/
structure SameText (x : Emit Unit) (s : Ctx) : Prop where
  answer : ((inScope x).run s).1 = (x.run s).1
  listing : ((inScope x).run s).2.listing = (x.run s).2.listing
  nextLabel : ((inScope x).run s).2.nextLabel = (x.run s).2.nextLabel

/-- A scope changes nothing that is written by code that borrows registers and then uses a scope. -/
theorem SameText.ofBorrows {x : Emit α} {f : α → Emit Unit} (borrows : Borrows x) (s : Ctx)
    (rest : ∀ a, f a = Pure.pure () ∨ ∃ y, f a = inScope y ∧ Pads y) : SameText (x >>= f) s := by
  obtain ⟨more, ran⟩ := borrows s []
  suffices same : ((x >>= f).run (s.enter id)).1 = ((x >>= f).run s).1 ∧
      ((x >>= f).run (s.enter id)).2.listing = ((x >>= f).run s).2.listing ∧
      ((x >>= f).run (s.enter id)).2.nextLabel = ((x >>= f).run s).2.nextLabel by
    constructor <;> rw [inScope, run_within]
    exacts [same.1, same.2.1, same.2.2]
  have opened : s.enter id = { s with pool := ⟨⟨[], []⟩ :: s.pool.scopes⟩ } := rfl
  rw [run_bind, run_bind, opened, ran]
  rcases x.run s with ⟨e | a, t⟩
  · exact ⟨rfl, rfl, rfl⟩
  · dsimp only
    rcases rest a with done | ⟨y, inner, pads⟩
    · rw [done]
      exact ⟨rfl, rfl, rfl⟩
    · have padded : Ctx.enter { t with pool := ⟨⟨[], more⟩ :: t.pool.scopes⟩ } id = (t.enter id).pad more 0 := by
        simp [Ctx.enter, Ctx.pad, Pool.openScope, Pool.pad, Pool.padScopes]
      obtain ⟨same, _⟩ := pads.runs more 0 (t.enter id) (Nat.succ_pos _)
      rw [inner, inScope, run_within, run_within, padded, same]
      exact ⟨rfl, rfl, rfl⟩

end Emit

namespace Action

theorem loop_settled {body : Emit Unit} (pads : body.Pads) : (loop body).Settled := by
  refine .before .freshLabel fun top => .before .freshLabel fun exit => .before (.code ..) fun _ => ?_
  refine .before (.code ..) fun _ => ?_
  rw [← Emit.bind_assoc]
  exact .code_after (.code_after (.scope (pads.within _)) _ _ _) _ _ _

theorem breakLoop_aside : breakLoop.Aside := by
  refine .look (fun s => ?_) fun _ _ => rfl
  dsimp only [Emit.andThen]
  cases s.loop with
  | none => exact .refuse _
  | some target =>
    dsimp only
    cases target.flag with
    | none => exact .code ..
    | some flag => exact .bind (.code ..) fun _ => .code ..

theorem continueLoop_aside : continueLoop.Aside := by
  refine .look (fun s => ?_) fun _ _ => rfl
  dsimp only [Emit.andThen]
  cases s.loop with
  | none => exact .refuse _
  | some target => exact .code ..

theorem synonym_aside {env : Env} {target : Code} (name : String)
    (slots : SlotsAlike .same (fun _ => True) R target.slots target.slots) :
    (synonym env name target).Aside := by
  have asked {s t : Ctx} (matched : s.Matches .same t) :
      Slot.inlineAll t target.slots = Slot.inlineAll s target.slots := by
    have answers := (Slot.inlineAll_alike slots).answers matched
    generalize Slot.inlineAll s target.slots = answer, Slot.inlineAll t target.slots = answer' at answers
    cases answers with
    | error cause => exact congrArg _ cause.1.symm
    | ok known => exact congrArg _ known.1
  unfold synonym
  split
  · refine .look (fun s => ?_) fun s p => ?_
    · dsimp only
      cases Slot.inlineAll s target.slots with
      | error c => exact .refuse c
      | ok form => cases form <;> exact ⟨fun _ _ => rfl, fun _ => rfl⟩
    · exact congrArg (Emit.andThen · _) (congrArg _ (asked (Ctx.matches_same rfl rfl rfl rfl)))
  · exact .pure ()

end Action

section
variable {env : Env} {table : Placeholder}
  (tables : Placeholder.Alike .same (fun _ => True) Emit.SamePads table table)
include tables

theorem codeOf_pads (e : Expr) : Code.Alike .same (fun _ => True) Emit.SamePads Emit.SamePads
    (codeOf env table e) (codeOf env table e) :=
  codeOf_alike (Emit.samePads_law env) Likeness.same_keyed tables e e (expr_like_same e) fun _ _ => trivial

theorem ActionKind.run_pads (kind : ActionKind) : (kind.run env table).Pads :=
  (ActionKind.run_alike (Emit.samePads_law env) Likeness.same_keyed tables kind kind kind.like_same
    fun _ _ => trivial).2

theorem ActionKind.run_settled {kind : ActionKind} (declaresNone : kind.declares = false) :
    (kind.run env table).Settled := by
  have pads : (kind.run env table).Pads := ActionKind.run_pads tables kind
  cases kind with
  | nop => exact .ofAside (.pure ())
  | block body closed =>
    cases closed with
    | true => exact .scope pads
    | false => cases declaresNone
  | declare vars init => cases declaresNone
  | assign | update | branch | enumerate | inline => exact .scope pads
  | synonym name target => exact .ofAside (Action.synonym_aside name (codeOf_pads tables target).slots)
  | loop body =>
    exact Action.loop_settled (Action.run_alike (Emit.samePads_law env) Likeness.same_keyed tables body body
      body.like_same fun _ _ => trivial).2
  | breakLoop => exact .ofAside Action.breakLoop_aside
  | continueLoop => exact .ofAside Action.continueLoop_aside

/-- The registers of its variables are all that a scope would take back from a declaration. -/
theorem ActionKind.declare_text (vars : List LocalVar) (init : Option Expr) (s : Ctx) :
    Emit.SameText ((ActionKind.declare vars init).run env table) s := by
  have borrows : (bindVars env vars).Borrows := by
    induction vars with
    | nil => exact .ofAside (.pure ())
    | cons v rest ih =>
      refine .bind (.register v.handle) fun slot => .bind (.ofAside ?_) fun _ => ih
      unfold registerNote
      split
      · exact ⟨fun _ _ => rfl, fun _ => rfl⟩
      · exact .pure ()
  have law := (Emit.samePads_law env).anywhere
  cases init with
  | none => exact .ofBorrows borrows s fun _ => .inl rfl
  | some e =>
    refine .ofBorrows borrows s fun _ => .inr ⟨_, rfl, ?_⟩
    exact ((codeOf_pads tables e).read law (varSlots_alike law.away (LocalVar.Like.refls vars))).2

end

end AgentScript
