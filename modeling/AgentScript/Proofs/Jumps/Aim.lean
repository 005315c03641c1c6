import AgentScript.Proofs.Jumps.Placed

/-! Jumps are lexical in units. Writing a script looks up the loop that a jump leads to. Where jumps stand
in the bodies of loops, what it finds is the loop that is around the jump in the source tree. -/
namespace AgentScript

/-- Whether a context is one for code at a place: inside of a loop it knows where jumps lead. -/
def Place.Sees (t : Option LoopTarget) (s : Ctx) : Place → Prop
  | anywhere => False
  | outside => True
  | inside _ => s.loop = t ∧ t.isSome = true

namespace Emit

/-- The first routine does what the second one is told to, and does not fail because of a jump. -/
structure Aims (p : Place) (t : Option LoopTarget) {α : Type} (x y : Emit α) : Prop where
  runs : ∀ s, p.Sees t s →
    x.run s = y.run s ∧ ∀ f, (x.run s).1 = .error f → f.cause.isJump = false

namespace Aims
variable {p : Place} {t : Option LoopTarget} {pos : Position} {x y : Emit Unit}

theorem pure (a : α) : Aims p t (Pure.pure a) (Pure.pure a) := ⟨fun _ _ => ⟨rfl, nofun⟩⟩

theorem refuse {cause : Cause} (other : cause.isJump = false) :
    Aims p t (Emit.refuse cause : Emit α) (Emit.refuse cause) := by
  refine ⟨fun s _ => ⟨rfl, fun f failed => ?_⟩⟩
  cases failed
  exact other

theorem sees_run {s : Ctx} (sees : p.Sees t s) (x : Emit α) : p.Sees t (x.run s).2 := by
  cases p with
  | anywhere => exact sees
  | outside => trivial
  | inside loop => exact ⟨(x.run_loop s).trans sees.1, sees.2⟩

theorem bind {x y : Emit α} {f g : α → Emit β} (first : Aims p t x y)
    (next : ∀ a, Aims p t (f a) (g a)) : Aims p t (x >>= f) (y >>= g) := by
  refine ⟨fun s sees => ?_⟩
  obtain ⟨same, calm⟩ := first.runs s sees
  have after := sees_run sees x
  rw [Emit.run_bind, Emit.run_bind, ← same]
  rcases ran : x.run s with ⟨e | a, u⟩
  · rw [ran] at calm
    refine ⟨rfl, fun f failed => ?_⟩
    cases failed
    exact calm e rfl
  · rw [ran] at after
    exact (next a).runs u after

theorem look {f g : Ctx → Emit α} (each : ∀ s, Aims p t (f s) (g s)) :
    Aims p t (.look f) (.look g) :=
  ⟨fun s sees => (each s).runs s sees⟩

theorem perform (op : Op) : Aims p t (Emit.perform op) (Emit.perform op) := ⟨fun _ _ => ⟨rfl, nofun⟩⟩

theorem located {x y : Emit α} (aims : Aims p t x y) : Aims p t (x.located pos) (y.located pos) := by
  refine ⟨fun s sees => ?_⟩
  obtain ⟨same, calm⟩ := aims.runs s sees
  rw [Emit.run_located, Emit.run_located, same]
  refine ⟨rfl, fun f failed => ?_⟩
  obtain ⟨e, ran, cause⟩ := locate_error failed
  rw [cause]
  exact calm e (same ▸ ran)

/-- A scope, in which a context for code at the place inside is found. -/
theorem within {loop : Option LoopTarget → Option LoopTarget} {q : Place} {t' : Option LoopTarget}
    (enters : ∀ s, p.Sees t s → q.Sees t' (s.enter loop)) (aims : Aims q t' x y) :
    Aims p t (Emit.within loop x) (Emit.within loop y) := by
  refine ⟨fun s sees => ?_⟩
  obtain ⟨same, calm⟩ := aims.runs _ (enters s sees)
  rw [Emit.run_within, Emit.run_within, same]
  exact ⟨rfl, same ▸ calm⟩

theorem inScope (aims : Aims p t x y) : Aims p t (Emit.inScope x) (Emit.inScope y) :=
  within (fun s sees => by cases p <;> exact sees) aims

theorem apart {t' : Option LoopTarget} {x y : Emit α} (aims : Aims p.apart t' x y) : Aims p t x y := by
  refine ⟨fun s sees => ?_⟩
  cases p with
  | anywhere => exact sees.elim
  | outside | inside loop => exact aims.runs s trivial

theorem inLoop {target : LoopTarget} (aims : Aims (p.body pos) (some target) x y) :
    Aims p t (Emit.inLoop target x) (Emit.inLoop target y) := by
  refine within (fun s sees => ?_) aims
  cases p with
  | anywhere => exact sees.elim
  | outside | inside loop => exact ⟨rfl, rfl⟩

theorem line (i : Instr) : Aims p t (Emit.line i) (Emit.line i) := perform _

theorem code (before : Int) (i : Instr) (after : Int) :
    Aims p t (Emit.code before i after) (Emit.code before i after) := perform _

theorem current_bind {f g : Ctx → Emit α} (each : ∀ s, Aims p t (f s) (g s)) :
    Aims p t (Emit.current >>= f) (Emit.current >>= g) :=
  look each

theorem freshLabel : Aims p t Emit.freshLabel Emit.freshLabel :=
  current_bind fun _ => bind (perform _) fun _ => pure _

theorem breakTo (target : LoopTarget) :
    Aims p t (Action.breakTo (some target)) (Action.breakTo (some target)) := by
  obtain ⟨label, flag, continueLabel⟩ := target
  cases flag with
  | some flag => exact bind (line _) fun _ => line _
  | none => exact line _

theorem lookup {jump : Option LoopTarget → Emit Unit} (other : p ≠ .outside)
    (each : ∀ target, Aims p t (jump (some target)) (jump (some target))) :
    Aims p t (.look fun s => jump s.loop) (jump t) := by
  refine ⟨fun s sees => ?_⟩
  cases p with
  | anywhere => exact sees.elim
  | outside => exact absurd rfl other
  | inside loop =>
    obtain ⟨target, rfl⟩ := Option.isSome_iff_exists.mp sees.2
    change (jump s.loop).run s = _ ∧ ∀ f, ((jump s.loop).run s).1 = .error f → _
    rw [sees.1]
    exact (each target).runs s sees

theorem loop {y : LoopTarget → Emit Unit} (body : ∀ inner, Aims (p.body pos) (some inner) x (y inner)) :
    Aims p t (Action.loop x) (Action.loopTo y) := by
  rw [Action.loop_eq]
  refine bind freshLabel fun top => bind freshLabel fun exit => bind (line _) fun _ => ?_
  refine bind (code ..) fun _ => bind (inLoop (body _)) fun _ => ?_
  exact bind (code ..) fun _ => line _

theorem temp : Aims p t Emit.temp Emit.temp := by
  have freshHandle : Aims p t Emit.freshHandle Emit.freshHandle :=
    current_bind fun _ => bind (perform _) fun _ => pure _
  refine bind freshHandle fun handle => current_bind fun s => ?_
  split
  · exact refuse rfl
  · exact bind (perform _) fun _ => pure _

theorem enumerate {env : Env} {a b : List PartCode} {y : LoopTarget → Emit Unit}
    (parts : Aims p t (PartCode.render env a) (PartCode.render env b))
    (body : ∀ inner, Aims (p.body pos) (some inner) x (y inner)) :
    Aims p t (Action.enumerate env a x) (Action.enumerateTo env b y) := by
  rw [Action.enumerate_eq]
  refine inScope ?_
  refine bind freshLabel fun exit => bind temp fun slot => ?_
  have lines : Aims p t (Action.enumeration env a exit slot x)
      (Action.enumeration env b exit slot (y ⟨exit, some (.register slot), exit⟩)) := by
    refine bind (line _) fun _ => bind parts fun text => bind (code ..) fun _ => bind (code ..) fun _ => ?_
    refine bind (inLoop (body _)) fun _ => bind (code ..) fun _ => bind (line _) fun _ => ?_
    exact bind (line _) fun _ => code ..
  dsimp only
  split
  · exact bind (perform _) fun _ => lines
  · exact lines

theorem law : JumpLaw Aims where
  pure := pure
  refuse := refuse
  bind := bind
  look := look
  perform _ := perform _
  located := located
  inScope := inScope
  outsideLoops {p _ _ _ _} aims := by
    refine within (fun s sees => ?_) aims
    cases p with
    | anywhere => exact sees
    | outside | inside loop => trivial
  apart := apart
  breakLoop other := by
    rw [Action.breakLoop_eq]
    exact lookup other breakTo
  continueLoop other := by
    rw [Action.continueLoop_eq]
    exact lookup other fun _ => line _
  loop := loop
  enumerate := enumerate

end Aims

end Emit

section
variable {J : Position → Position → Bool} {strict : Bool} {d : Document} {deferred : List (Option Expr)}

/-- Whether jumps are placed well in all scripts and macros. At the spot `outer` jumps may also stand
outside of loops, but not where they are not resolved in the place that they are read in; at `barred`
they may not. -/
def Document.placed (J : Position → Position → Bool) (spot : Spot) (d : Document) : Bool :=
  d.macros.all (·.body.placed J spot) && d.bodies.all (·.placed J spot [])

theorem Document.placed_meets (placed : d.placed J (.root strict) = true) : d.Meets (jumpsPlaced J strict) := by
  rw [Document.placed, Bool.and_eq_true] at placed
  refine ⟨fun decl _ => ?_, fun m among _ _ => List.all_eq_true.mp placed.1 m among, fun body member => ?_⟩
  · cases decl <;> trivial
  · exact ⟨Spot.root_admits strict, List.all_eq_true.mp placed.2 body member⟩

/-- A script whose jumps all stand in the bodies of loops. -/
abbrev Script.Fits (J : Position → Position → Bool) (script : Script) : Prop :=
  script.body.fits J .outside = true

theorem Document.scripts_lexical (placed : d.placed J (.root strict) = true) :
    (∀ r ∈ d.scripts.1, (∀ script, r = .ok script → script.Fits J) ∧
      ∀ f, r = .error f → strict = true → f.cause.isJump = false) ∧
      ∀ e, some e ∈ d.scripts.2.deferred → exprFits J .outside e = true := by
  obtain ⟨each, meets⟩ := scripts_meet jumpsPlaced_lawful (placed_meets placed)
  refine ⟨fun r member => ⟨fun script ok => ?_, (each r member).2⟩, meets.deferred⟩
  exact ((each r member).1 script ok .outside (Spot.root_means strict)).1

/-- The code of a script whose jumps lead to the innermost loops around them. -/
def Script.aimed (env : Env) (deferred : List (Option Expr)) (script : Script) : Emit Unit :=
  script.body.aimed env (aimedPlaceholders env deferred deferred.length) none

theorem Script.body_aims (env : Env) {script : Script}
    (bound : ∀ e, some e ∈ deferred → exprFits J .outside e = true) (fits : script.Fits J) :
    Emit.Aims .outside none (script.body.run env (placeholderTable env deferred))
      (script.aimed env deferred) :=
  Action.run_match env Emit.Aims.law
    (placeholders_match (p := .outside) env Emit.Aims.law bound deferred.length) none script.body fits

theorem Script.emit_calm (env : Env) {script : Script}
    (bound : ∀ e, some e ∈ deferred → exprFits J .outside e = true) (fits : script.Fits J) :
    Emit.Aims .outside none (script.emit env (placeholderTable env deferred))
      (script.emit env (placeholderTable env deferred)) := by
  have body : Emit.Aims .outside none (script.body.run env (placeholderTable env deferred))
      (script.body.run env (placeholderTable env deferred)) :=
    ⟨fun s sees => ⟨rfl, ((script.body_aims env bound fits).runs s sees).2⟩⟩
  unfold Script.emit
  cases script.kind with
  | install => exact body
  | event comment header =>
    exact .bind (.perform _) fun _ => .bind (.perform _) fun _ => body.bind fun _ => .perform _
  | remove => exact .bind (.perform _) fun _ => body

theorem itemsEach_calm (env : Env) (firstHandle : Nat)
    (bound : ∀ e, some e ∈ deferred → exprFits J .outside e = true)
    {scripts : List (Except Failure Script)} (firstLabel : Nat)
    (each : ∀ r ∈ scripts, (∀ script, r = .ok script → script.Fits J) ∧
      ∀ f, r = .error f → f.cause.isJump = false) :
    ∀ f, .error f ∈ itemsEach env (placeholderTable env deferred) firstHandle firstLabel scripts →
      f.cause.isJump = false := by
  induction scripts generalizing firstLabel with
  | nil => exact nofun
  | cons r rest ih =>
    obtain ⟨here, others⟩ := List.forall_mem_cons.mp each
    intro f member
    cases r with
    | error e =>
      rcases List.mem_cons.mp member with first | later
      · cases first
        exact here.2 f rfl
      · exact ih firstLabel others f later
    | ok script =>
      have calm := ((script.emit_calm env bound (here.1 script rfl)).runs
        (Ctx.start firstLabel firstHandle) trivial).2
      simp only [itemsEach, Script.items] at member
      rcases ran : (script.emit env (placeholderTable env deferred)).run
        (Ctx.start firstLabel firstHandle) with ⟨e | _, s⟩
      · rw [ran] at calm member
        rcases List.mem_cons.mp member with first | later
        · cases first
          exact calm f rfl
        · exact ih _ others f later
      · rw [ran] at member
        rcases List.mem_cons.mp member with first | later
        · cases first
        · exact ih _ others f later

end

/-- Jumps that do not stand in an argument of a macro, in what a name stands for, in a target of an
assignment or in a parameter of an enumeration outside of loops are lexical. The jumps of a script that
can be resolved stand in the bodies of loops, in those that they stand in as a source tree, and writing
the script makes them lead to the innermost ones. No script is left out because of a jump if all jumps
stand in the bodies of loops. -/
theorem Document.jumps_lexical (config : Config) (d : Document) (J : Position → Position → Bool)
    (placed : d.placed J .outer = true) :
    let w := d.scripts.2
    let env : Env := ⟨w.types, config⟩
    (∀ script, .ok script ∈ d.scripts.1 → script.body.fits J .outside = true ∧
      ∀ s, (script.body.run env (placeholderTable env w.deferred)).run s =
          (script.aimed env w.deferred).run s ∧
        ∀ f, ((script.body.run env (placeholderTable env w.deferred)).run s).1 = .error f →
          f.cause.isJump = false) ∧
    (d.placed J .barred = true → ∀ f, .error f ∈ d.items config → f.cause.isJump = false) := by
  intro w env
  refine ⟨fun script resolved => ?_, fun barred => ?_⟩
  · obtain ⟨each, bound⟩ := scripts_lexical (show d.placed J (.root false) = true from placed)
    have fits := (each _ resolved).1 script rfl
    exact ⟨fits, fun s => (script.body_aims env bound fits).runs s trivial⟩
  · obtain ⟨each, bound⟩ := scripts_lexical (show d.placed J (.root true) = true from barred)
    refine itemsEach_calm env w.nextHandle bound 0 fun r member => ?_
    exact ⟨(each r member).1, fun f failed => (each r member).2 f failed rfl⟩

/-- Two loops inside each other, with a jump out of each. -/
theorem Document.jumps_lexical_nested :
    let line (n : UInt32) : Position := ⟨"", n, 1⟩
    let J (jump loop : Position) : Bool :=
      jump.line == 3 && loop.line == 2 || jump.line == 4 && loop.line == 1
    let inner : Statement := .mk (line 2) (.loop (.mk (line 3) .breakLoop))
    let both : Statement := .mk .unknown (.block [inner, .mk (line 4) .breakLoop] true)
    let d : Document := { Document.empty with install := some (.mk (line 1) (.loop both)) }
    d.placed J .outer = true ∧ d.placed J .barred = true ∧
      (∃ script, .ok script ∈ d.scripts.1 ∧ script.body.fits J .outside = true) ∧
      ∀ f, .error f ∈ d.items .standard → f.cause.isJump = false := by
  intro line J inner both d
  have placed : d.placed J .outer = true := by decide +kernel
  have barred : d.placed J .barred = true := by decide +kernel
  have lexical := jumps_lexical .standard d J placed
  have resolved : (succeeded d.scripts.1).isEmpty = false := by decide +kernel
  obtain ⟨script, isScript⟩ := List.exists_mem_of_ne_nil _ (List.isEmpty_eq_false_iff.mp resolved)
  obtain ⟨r, member, isOk⟩ := List.mem_filterMap.mp isScript
  cases r with
  | error f => cases isOk
  | ok script' =>
    cases isOk
    exact ⟨placed, barred, ⟨script, member, (lexical.1 script member).1⟩, lexical.2 barred⟩

/-- A jump in an argument of a macro is resolved, but not written; one that a name stands for leads out of
the loop that the name is used in, label 3, and not out of the loop that it is written in, label 1. -/
theorem Document.jumps_elsewhere :
    let statement := Statement.mk .unknown
    let jump : Term := .seq [statement .breakLoop] (.int 1)
    let keep : MacroDef := ⟨"keep", [⟨"value", .named "integer", none⟩], .id "value", .unknown⟩
    let argument : Statement := statement (.declare ["x"] [] (some (.call "keep" [jump])))
    let inner : Statement := statement (.loop (statement (.declare ["x"] [] (some (.id "stop")))))
    let named : Statement := statement (.block [statement (.synonym "stop" jump), inner] true)
    let passed : Document :=
      { Document.empty with macros := [keep], install := some (statement (.loop argument)) }
    let bound : Document := { Document.empty with install := some (statement (.loop named)) }
    let refusal (r : Except Failure (List (Item Instr))) : Option String :=
      match r with
      | .ok _ => none
      | .error f => some f.cause.message
    passed.scripts.1.map Except.isOk = [true] ∧
      (passed.items .standard).map refusal = [some "cannot break here"] ∧
      (succeeded (bound.items .standard)).map (fun items => (Item.lines items).map (Instr.text "")) =
        [["goto 0", "subr 0", "goto 2", "subr 2", "goto 3", "setv va00 1", "goto 2", "subr 3", "goto 0",
          "subr 1"]] := by
  decide +kernel

end AgentScript
