import AgentScript.Compile
import AgentScript.Proofs.Resolution.Trees
import AgentScript.Proofs.Safety.Resolution

/-! Scripts are written without internal errors. What resolution finds for a statement is code that is
safe wherever the variables in scope are bound, so that writing a script that was resolved can only
fail for a reason that a user can act on. -/
namespace AgentScript
variable {w : World}

open Resolve Facts.Kept

variable {o : Outcome} {k : Known} {n : Nat}

theorem Action.run_safe (env : Env) (table : Placeholder) {a : Action}
    (safe : (a.kind.run env table).Safe hs) : (a.run env table).Safe hs := by
  cases a with
  | mk pos kind =>
    exact Action.located_safe env pos safe

theorem Paired.self {x : Except ε α} {A : α → α → Prop} (known : ∀ a, x = .ok a → A a a) :
    Paired (fun _ _ => True) A x x := by
  cases x with
  | ok a => exact .ok (known a rfl)
  | error c => exact .error trivial

namespace Outcome
variable {k k' : Known × Nat}

theorem Writes.quiet {code : Placeholder → Emit Unit}
    (safe : ∀ rounds ≥ k.2, (code (o.table rounds)).Safe k.1.handles) (declared : List Nat) :
    o.Writes k k code declared :=
  ⟨safe, List.subset_append_right _ _⟩

theorem Writes.since {code : Placeholder → Emit Unit} (same : k.1.handles = l.1.handles)
    (writes : o.Writes k k' code declared) : o.Writes l k' code declared := by
  rw [Writes, ← same]
  exact writes

theorem bindVars {vars : List LocalVar} (bound : ∀ v ∈ vars, v.handle ∈ k.1.handles) :
    o.course.Step b i k (fun k' _ _ => k' = k) (vars.forM fun v => Resolve.bind v.label (Expr.leaf v.leaf))
      (vars.forM fun v => Resolve.bind v.label (Expr.leaf v.leaf)) := by
  induction vars with
  | nil => exact o.rules.pure rfl
  | cons v rest ih =>
    obtain ⟨here, others⟩ := List.forall_mem_cons.mp bound
    exact o.rules.after (bindName v.label (var_sound here v.ty true)) fun _ => ih others

theorem jump {kind : ActionKind} (safe : ∀ table, (kind.run o.env table).Safe k.1.handles) (cause : Cause) :
    o.reading.Step true i k (o.reading.kind i k)
      (do if (← Resolve.scope).breakable then return kind else Resolve.fail cause)
      (do if (← Resolve.scope).breakable then return kind else Resolve.fail cause) := by
  refine .scope fun met => ?_
  rw [met.1]
  exact .ite (o.rules.pure ⟨rfl, .quiet (fun _ _ => safe _) _⟩) (o.rules.fail trivial)

theorem steps (o : Outcome) (nested : Nested) : o.reading.Steps nested nested where
  toRules := o.rules
  inner _ _ := trivial
  meetsApart _ := rfl
  meetsAlone _ := rfl
  meetsParams _ := rfl
  typeLater _ known := known
  varLater _ known := known
  exprLater grown known := ⟨known.1, known.2.mono grown.1 grown.2.1⟩
  condLater grown known := ⟨known.1, known.2.mono grown.1 grown.2.1⟩
  partsLater grown known := ⟨known.1, fun p member => (known.2 p member).mono grown.1 grown.2.1⟩
  armLater grown known :=
    ⟨known.1, fun rounds enough => (known.2 rounds (Nat.le_trans grown.2.1 enough)).mono grown.1.handles⟩
  since grown known := ⟨known.1, known.2.since (grown.2.2 rfl)⟩
  builtin _ _ := rfl
  len known := by rw [known.1]
  readType known j := by
    rw [known.1]
    exact .self fun _ _ => rfl
  writeType known j := by
    rw [known.1]
    exact .self fun _ _ => rfl
  checkCast met first second := by
    rw [met.1, first, second]
    exact .self fun _ _ => trivial
  nullable met same := by rw [met.1, same]
  stepType op met first second := by
    rw [met.1, first, second]
    exact .self fun _ _ => rfl
  classifier met same := by rw [met.1, same]
  constant name met := ⟨by rw [met.1], fun _ _ => rfl⟩
  number name script met same := by
    rw [met.1, same]
    exact .self fun _ _ => rfl
  named _ _ _ _ := trivial
  lookup := by
    rintro i k _ s name ⟨rfl, count, describes⟩
    cases found : s.scope.lookup? name with
    | none => exact .none
    | some e => exact .some ⟨rfl, count ▸ describes.scope.lookup found⟩
  owner met := by
    rw [met.1]
    rfl
  typeRef _ _ _ := inTypes _
  nonNullable _ same := by
    rw [same]
    exact inTypes _
  freshKey _ _ size := freshKey size
  freshVar _ _ same := by
    refine still fun ran => ?_
    cases ran
    exact ⟨rfl, rfl, rfl, by rw [same]; rfl⟩
  declare := by
    intro i names types t k vars vars' init init' _ labels same inits count
    have same : vars' = vars := (diagonal (R := fun _ => True) (same.imp fun _ _ same => ⟨same, trivial⟩)).1
    obtain ⟨rfl, sound⟩ := diagonal? inits
    rw [same]
    refine binding (vars.map (·.handle)) ((bindVars fun v isVar => ?_).imp fun _ same => ?_)
    · exact List.mem_append_left _ (List.mem_map_of_mem isVar)
    subst same
    refine ⟨rfl, fun rounds enough => Action.declare_safe o.env fun code isInit => ?_, List.Subset.refl _⟩
    cases init' with
    | none =>
      rw [initCode] at isInit
      cases isInit
    | some e =>
      rw [initCode] at isInit
      cases isInit
      refine ⟨(sound e rfl).code enough, ?_⟩
      rw [codeOf_len, count e rfl, ← labels, List.length_map]
  synonym := by
    rintro i name t k _ e _ ⟨rfl, sound⟩
    refine (bindName (b := true) name sound).imp fun _ same => ?_
    obtain ⟨rfl, _⟩ := same
    exact ⟨rfl, .quiet (fun _ enough => Action.synonym_safe o.env name (sound.code enough)) _⟩
  bindTarget _ _ same := by
    rw [same]
    exact bindName "targ" (builtin_sound _ _ _ _)
  innerFrame _ := framed fun _ => rfl
  loopFrame _ := framed fun _ => rfl
  breakLoop _ := jump (fun _ => Action.breakLoop_safe) _
  continueLoop _ := jump (fun _ => Action.continueLoop_safe) _
  statement _ step := o.rules.andThen (.located (fun _ => trivial) step) fun _ known => o.rules.pure
    ⟨by rw [known.1], known.2⟩
  apart known := known
  group same := ⟨by rw [(diagonal same).1], .group (diagonal same).2⟩
  literal _ _ := ⟨rfl, const_sound _⟩
  sink _ key := ⟨by rw [key.1], sink_sound key.2 _⟩
  field := by
    rintro i k _ s _ e _ a name ⟨rfl, _⟩ ⟨rfl, sound⟩ one rfl
    cases s.world.types.field? a name with
    | none => exact .none
    | some f => exact .some ⟨rfl, field_sound sound one f⟩
  cast known same := by
    rw [known.1, same]
    exact .self fun _ made => ⟨rfl, mkCast_sound known.2 made⟩
  chain op met same := by
    rw [met.1, (diagonal same).1]
    exact .self fun _ made => ⟨rfl, mkChain_sound (diagonal same).2 made⟩
  isInstance cls nullable known one := ⟨by rw [known.1], isInstance_sound known.2 one cls nullable _⟩
  test known := ⟨by rw [known.1], test_sound known.2 _⟩
  inline known same := ⟨by rw [known.1, same], inline_sound known.2 _⟩
  seq actions grown result key := by
    refine ⟨by rw [actions.1, result.1, key.1], seq_sound key.2 (fun rounds enough => ?_) ?_⟩
    · exact actions.2.1 rounds (Nat.le_trans grown.2.1 enough)
    · exact result.2.mono ⟨List.prefix_rfl, grown.2.2 rfl ▸ actions.2.2⟩ (Nat.le_refl _)
  known _ _ b := ⟨rfl, const_cond_sound b⟩
  truth met known := by
    rw [met.1, known.1]
    exact .self fun _ made => ⟨rfl, truth_sound known.2 made⟩
  comparison op met left right := by
    rw [met.1, left.1, right.1]
    exact .self fun _ made => ⟨rfl, comparison_sound left.2 right.2 made⟩
  constant? known := by rw [known.1]
  join op left right := ⟨by rw [left.1, right.1], join_sound left.2 right.2 op⟩
  negate known := ⟨by rw [known.1], negate_sound known.2⟩
  noParts _ _ := ⟨rfl, List.forall_mem_nil _⟩
  fragment _ known := ⟨by rw [known.1], List.forall_mem_cons.mpr ⟨text_sound _, known.2⟩⟩
  line _ known := ⟨by rw [known.1], List.forall_mem_cons.mpr ⟨text_sound _, known.2⟩⟩
  exprPart first others :=
    ⟨by rw [first.1, others.1], List.forall_mem_cons.mpr ⟨expr_part_sound first.2, others.2⟩⟩
  noActions _ _ := ⟨rfl, .quiet (fun _ _ => .pure ()) _⟩
  consActions := by
    rintro i k k₁ _ a k₂ _ as ⟨rfl, first, bound⟩ grown ⟨rfl, others, bound'⟩
    refine ⟨rfl, fun rounds enough => ?_, ?_⟩
    · have binds := (Action.run_declares o.env (o.table rounds) a).binds
      refine (Action.run_safe _ _ (first rounds (Nat.le_trans grown.2.1 enough))).bind_binds binds fun _ => ?_
      exact (others rounds enough).mono bound
    · rw [declaredAll]
      have reach : k₁.1.handles ⊆ a.declared ++ (declaredAll as ++ k.1.handles) :=
        List.Subset.trans bound (append_subset_of (List.subset_append_right _ _))
      rw [List.append_assoc]
      refine List.Subset.trans bound' (List.append_subset.mpr ⟨?_, reach⟩)
      exact List.Subset.trans (List.subset_append_left _ _) (List.subset_append_right _ _)
  nop _ _ := ⟨rfl, .quiet (fun _ _ => .pure ()) _⟩
  block _ known := ⟨by rw [known.1], fun rounds enough => .inScope (known.2.1 rounds enough), List.subset_append_right _ _⟩
  openBlock known := ⟨by rw [known.1], known.2⟩
  assign left right count := by
    refine ⟨by rw [left.1, right.1], .quiet (fun rounds enough => ?_) _⟩
    exact Action.assign_safe (left.2.code enough) (right.2.code enough) (by rw [codeOf_len, codeOf_len, count])
  update op left right one one' a c d := by
    refine ⟨by rw [left.1, right.1, a, c, d], .quiet (fun rounds enough => ?_) _⟩
    exact Action.update_safe o.env op (left.2.single one enough) (right.2.single one' enough) _ _ _
  leaving _ known := ⟨known.1, known.2.1⟩
  taken known := ⟨by rw [known.1], .quiet known.2 _⟩
  branch := by
    rintro i k _ c _ yes no no' ⟨rfl, test⟩ ⟨rfl, first⟩ other
    obtain ⟨rfl, second⟩ := diagonal? other
    refine ⟨rfl, .quiet (fun rounds enough => ?_) _⟩
    refine Action.branch_safe (test rounds enough) (Action.run_safe _ _ (first rounds enough)) fun code isOther => ?_
    cases no' with
    | none =>
      rw [otherwiseCode] at isOther
      cases isOther
    | some no =>
      rw [otherwiseCode] at isOther
      cases isOther
      exact Action.run_safe _ _ (second no rfl rounds enough)
  loop _ known := ⟨by rw [known.1], fun rounds enough => Action.loop_safe (Action.run_safe _ _ (known.2.1 rounds enough)),
    List.subset_append_right _ _⟩
  enumerate grown parts more body := by
    refine ⟨by rw [parts.1, body.1], fun rounds enough => ?_, List.subset_append_right _ _⟩
    refine Action.enumerate_safe o.env (partCodes_safe (fun p member => ?_) enough) (Action.run_safe _ _ ?_)
    · exact grown.2.2 rfl ▸ (parts.2 p member).mono (.refl _) more.2.1
    · exact grown.2.2 rfl ▸ body.2.1 rounds enough
  write known := by
    refine ⟨by rw [known.1], .quiet (fun rounds enough => ?_) _⟩
    exact Action.inline_safe o.env (partCodes_safe known.2 enough)

/-- A call is sound with the handles of the copies, which are bound for its body alone. -/
theorem lawful {nested : Nested} (resolves : nested.Sound o) : o.reading.Lawful nested nested where
  toSteps := o.steps nested
  calls _ each := by
    refine o.rules.bind (Meaning.grouped_reads (o.steps nested) each) fun _ known => .world fun met => ?_
    rw [met.1, known.1]
    refine o.rules.except (A := fun m m' => m' = m) (.self fun _ _ => rfl) fun same => ?_
    rw [same]
    refine Macro.expand_reads (o.steps nested) ⟨rfl, known.2⟩ (fun _ _ => rfl) fun count => ?_
    refine (Macro.expandBody_sound resolves known.2 count).imp fun _ found => ?_
    obtain ⟨rfl, sources, sound⟩ := found
    refine ⟨rfl, fun isEmpty => ⟨rfl, ?_⟩, fun grown keyed => ⟨by rw [keyed.1], call_sound keyed.2 ?_ ?_⟩⟩
    · rw [List.isEmpty_iff.mp isEmpty] at sound
      exact sound
    · exact fun c isCopy => ⟨(sources c isCopy).1.mono grown.1 grown.2.1, (sources c isCopy).2⟩
    · exact sound.mono ⟨grown.1.sizes, append_subset_of grown.1.handles⟩ grown.2.1

end Outcome

theorem nestedCalls_sound (o : Outcome) (levels : Nat) : Nested.Sound o (nestedCalls levels) := by
  induction levels with
  | zero =>
    intro t k
    exact o.rules.fail trivial
  | succ levels ih =>
    intro t k
    exact (Term.meaning_reads (Outcome.lawful ih) t trivial).value

theorem attemptAll_later (steps : List (String × WorldM α)) (w : World) :
    w.Later (attemptAll steps w).2.2 := by
  induction steps generalizing w with
  | nil => exact .refl w
  | cons step rest ih =>
    obtain ⟨subject, x⟩ := step
    have first := x.later w
    rw [attemptAll, attempt]
    rcases ran : x.run w with ⟨e | a, v⟩
    · rw [ran] at first
      exact first.trans (ih v)
    · rw [ran] at first
      exact first.trans (ih v)

theorem attemptAll_found {steps : List (String × WorldM α)} (member : a ∈ (attemptAll steps w).1) :
    ∃ x ∈ steps, ∃ u u', w.Later u ∧ x.2.run u = (.ok a, u') ∧ u'.Later (attemptAll steps w).2.2 := by
  induction steps generalizing w with
  | nil => cases member
  | cons step rest ih =>
    obtain ⟨subject, x⟩ := step
    have first := x.later w
    rw [attemptAll, attempt] at member ⊢
    rcases ran : x.run w with ⟨e | b, v⟩
    · simp only [ran] at member first ⊢
      obtain ⟨y, isStep, u, u', before, found, after⟩ := ih member
      exact ⟨y, List.mem_cons_of_mem _ isStep, u, u', first.trans before, found, after⟩
    · simp only [ran] at member first ⊢
      rcases List.mem_cons.mp member with rfl | later
      · exact ⟨_, List.mem_cons_self, w, v, .refl w, ran, attemptAll_later rest v⟩
      · obtain ⟨y, isStep, u, u', before, found, after⟩ := ih later
        exact ⟨y, List.mem_cons_of_mem _ isStep, u, u', first.trans before, found, after⟩

/-- A script that was resolved is safe to write in every later world: it starts with no variables and
with no leaves but those of the root scope. -/
theorem resolveScript_safe {owner : TypeId} {body : Statement} {a : Action} {w' v : World}
    (keys : 1 ≤ w.nextKey) (ran : (resolveScript owner body).run w = (.ok a, w')) (later : w'.Later v)
    (env : Env) : (a.run env (placeholderTable env v.deferred)).Safe [] := by
  let o : Outcome := ⟨env, v.deferred⟩
  let k : Known := ⟨1 :: List.replicate (w.nextKey - 1) 0, []⟩
  have describes : o.Describes k ⟨w, Scope.root (.ofOwner owner)⟩ := by
    refine Macro.root_describes _ ?_ rfl
    simp only [k, List.length_cons, List.length_replicate]
    omega
  rcases result : (Resolve.statement body).run ⟨w, Scope.root (.ofOwner owner)⟩ with ⟨e | b, t⟩
  · simp only [resolveScript, Resolve.inScope, result] at ran
    cases ran
  · simp only [resolveScript, Resolve.inScope, result] at ran
    cases ran
    have covers : o.Covers t.world := Outcome.Covers.earlier (fun _ _ same => same) later
    have lawful := Outcome.lawful (nestedCalls_sound o macroLevels)
    obtain ⟨_, _, count, _, _, _, safe, _⟩ := Outcome.found (k := (k, _))
      (Statement.resolve_reads lawful body (i := ()) trivial) rfl describes result covers
    exact Action.run_safe _ _ (safe _ (count ▸ later.deferred.length_le))

/-- A step that resolves the body of the script that it finds. -/
def WorldM.ResolvesBody (x : WorldM Script) : Prop :=
  ∀ w script w', x.run w = (.ok script, w') → ∃ owner body u, w.Later u ∧
    (resolveScript owner body).run u = (.ok script.body, w')

theorem WorldM.run_bind_ok {x : WorldM α} {f : α → WorldM β} {v : World}
    (ran : (x >>= f).run w = (.ok b, v)) : ∃ a u, x.run w = (.ok a, u) ∧ (f a).run u = (.ok b, v) := by
  rw [run_bind] at ran
  split at ran
  · next a u first => exact ⟨a, u, first, ran⟩
  · cases ran

namespace WorldM.ResolvesBody

theorem bind {x : WorldM α} {f : α → WorldM Script} (next : ∀ a, (f a).ResolvesBody) :
    (x >>= f).ResolvesBody := by
  intro w script w' ran
  obtain ⟨a, u, first, rest⟩ := run_bind_ok ran
  obtain ⟨owner, body, v, after, ranBody⟩ := next a u script w' rest
  have before := x.later w
  rw [first] at before
  exact ⟨owner, body, v, before.trans after, ranBody⟩

theorem script (owner : TypeId) (body : Statement) {make : Action → Script}
    (same : ∀ a, (make a).body = a) : (make <$> resolveScript owner body).ResolvesBody := by
  intro w script w' ran
  obtain ⟨a, u, found, last⟩ := run_bind_ok ran
  cases last
  refine ⟨owner, body, w, .refl w, ?_⟩
  rw [same]
  exact found

theorem located (pos : Position) {x : WorldM Script} (resolves : x.ResolvesBody) :
    (x.located pos).ResolvesBody := by
  intro w script w' ran
  obtain ⟨ok, rfl⟩ := Prod.mk.inj ran
  exact resolves w script _ (Prod.ext (mapError_ok ok) rfl)

end WorldM.ResolvesBody

theorem EventScript.resolve_resolvesBody (e : EventScript) : e.resolve.ResolvesBody :=
  .bind fun owner => .bind fun _ => .bind fun _ => .script owner e.body fun _ => rfl

theorem Document.scriptSteps_resolvesBody (d : Document) : ∀ x ∈ d.scriptSteps, x.2.ResolvesBody := by
  intro x member
  simp only [Document.scriptSteps, List.mem_append, Option.mem_toList, List.mem_map,
    Option.map_eq_some_iff] at member
  rcases member with (⟨body, _, rfl⟩ | ⟨e, _, rfl⟩) | ⟨body, _, rfl⟩
  · exact .script _ body fun _ => rfl
  · exact .located e.pos e.resolve_resolvesBody
  · exact .script _ body fun _ => rfl

theorem Script.emit_safe (env : Env) (table : Placeholder) {script : Script}
    (safe : (script.body.run env table).Safe hs) : (script.emit env table).Safe hs := by
  unfold Script.emit
  split
  · exact safe
  · refine (Emit.Safe.comment _).bind fun _ => (Emit.Safe.code ..).bind fun _ => ?_
    exact safe.bind fun _ => .code ..
  · exact (Emit.Safe.code ..).bind fun _ => safe

theorem Document.emit_safe {d : Document} {script : Script} (isResolved : script ∈ d.resolve.1)
    (config : Config) :
    (script.emit ⟨d.resolve.2.2.types, config⟩
      (placeholderTable ⟨d.resolve.2.2.types, config⟩ d.resolve.2.2.deferred)).Safe [] := by
  obtain ⟨x, isStep, u, u', before, found, after⟩ := attemptAll_found isResolved
  obtain ⟨owner, body, v, between, ran⟩ := d.scriptSteps_resolvesBody x isStep u script u' found
  have keys : 1 ≤ v.nextKey :=
    ((attemptAll_later d.declarationSteps World.initial).trans (before.trans between)).keys
  exact Script.emit_safe _ _ (resolveScript_safe keys ran after _)

/-- Writing a script that was resolved does not fail for an internal cause. -/
theorem Document.write_fails_externally (config : Config) (d : Document) {script : Script}
    (isResolved : script ∈ d.resolve.1) :
    let w := d.resolve.2.2
    let env : Env := ⟨w.types, config⟩
    ∀ firstLabel firstHandle f,
      (script.write env (placeholderTable env w.deferred) firstLabel firstHandle).1 = .error f →
        f.cause.isInternal = false := by
  intro w env firstLabel firstHandle f failed
  have safe := Document.emit_safe isResolved config
  have start : (Ctx.start firstLabel firstHandle).Holds [] := List.forall_mem_nil _
  refine safe.external _ start f ?_
  rcases ran : (script.emit env (placeholderTable env w.deferred)).run
    (Ctx.start firstLabel firstHandle) with ⟨f' | _, t⟩
  · simp only [Script.write, ran] at failed
    cases failed
    rfl
  · simp only [Script.write, ran] at failed
    cases failed

/-- The macro copies the value of its argument, which cannot be done for bytes. -/
theorem Document.write_fails_externally_bytes :
    let keep : MacroDef := ⟨"keep", [⟨"value", .named "any", none⟩], .id "value", .unknown⟩
    let body : Statement := .mk .unknown (.declare ["copy"] [] (some (.call "keep" [.bytes [1]])))
    let d : Document := { Document.empty with macros := [keep], install := some body }
    let w := d.resolve.2.2
    let env : Env := ⟨w.types, .standard⟩
    ∃ script ∈ d.resolve.1, ∃ f, f.cause.isInternal = false ∧
      (script.write env (placeholderTable env w.deferred) 0 w.nextHandle).1 = .error f := by
  intro keep body d w env
  have refused : d.resolve.1.any fun script =>
      !(script.write env (placeholderTable env w.deferred) 0 w.nextHandle).1.isOk := by
    decide +kernel
  obtain ⟨script, isResolved, failed⟩ := List.any_eq_true.mp refused
  cases result : (script.write env (placeholderTable env w.deferred) 0 w.nextHandle).1 with
  | ok code => simp [result, Except.isOk, Except.toBool] at failed
  | error f =>
    have external := write_fails_externally .standard d isResolved 0 w.nextHandle f result
    exact ⟨script, isResolved, f, external, result⟩

end AgentScript
