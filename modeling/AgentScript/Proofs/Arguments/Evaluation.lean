import AgentScript.Proofs.Arguments.Copies

/-! How often the statements of a script use a macro call. A call is used when its result is read, when
one of its slots is written, and twice when it is the target of an update. -/
namespace AgentScript

section
variable {w : Watch} {m n : Nat} {css : List (List (Nat × List Nat))} {tail : List OperandCode}
  {out : Slot} {cs cs' : List (Nat × List Nat)}

/-- The operands of a chain, with what their evaluation uses. -/
abbrev OperandsUse (w : Watch) : List (List (Nat × List Nat)) → List OperandCode → Prop :=
  List.Forall₂ fun cs o => o.expr.Lone w cs

theorem applyOperands_uses (env : Env) (op : ChainOp) (target : Arg) (before : TypeId)
    (scratch : Option Nat) (each : OperandsUse w css tail) :
    Emit.Uses w (css.map usesOf).sum (applyOperands env op target before scratch tail) := by
  induction each generalizing before scratch with
  | nil => exact .pure ()
  | @cons cs o css tail first others ih =>
    have plain (operand : Arg) := op.lines_plain env.types before o.ty target operand
    have computed (slot : Nat) := (first.uses.read_register env slot).bind fun _ =>
      (Emit.Uses.lines (plain (.register slot))).before fun _ => ih o.after (some slot)
    rw [List.map_cons, List.sum_cons]
    refine first.inline_bind false (fun arg zero => ?_) ?_
    · rw [zero, Nat.zero_add]
      exact (Emit.Uses.lines (plain arg)).before fun _ => ih _ _
    · cases scratch with
      | some slot => exact (Emit.Uses.pure slot).before computed
      | none => exact Emit.Uses.temp.before computed

/-- A slot that is written by using the call is not one to compute in. -/
theorem chainTarget_bind (uses : out.Uses w m) {f : Option Arg → Emit α}
    (target : ∀ arg, m = 0 → Emit.Uses w n (f (some arg))) (none : Emit.Uses w n (f none)) :
    Emit.Uses w n (chainTarget? tail [out] >>= f) := by
  unfold chainTarget?
  by_cases register : Slot.roleAt [out] 0 ≠ .register
  · rw [if_pos register]
    exact none
  · rw [if_neg register, Emit.bind_assoc]
    have zero : m = 0 := Classical.byContradiction fun some => register (by
      rw [show Slot.roleAt [out] 0 = .plain from (uses.bare some).1]
      decide)
    refine (Emit.Uses.inspect _).before fun form => ?_
    cases form with
    | none => exact none
    | some place =>
      rw [Emit.bind_assoc]
      refine (Emit.Uses.inspect _).before fun alone => ?_
      cases alone with
      | true => exact target place zero
      | false => exact none

theorem computeChain_uses (env : Env) (op : ChainOp) {head : Code} (first : head.Lone w cs)
    (headType : TypeId) (each : OperandsUse w css tail) (outs : out.Uses w 0) (target : Arg) :
    Emit.Uses w (usesOf cs + (css.map usesOf).sum)
      (computeChain env op head headType tail [out] target) := by
  have apply := applyOperands_uses env op target headType none each
  have read : Emit.Uses w (usesOf cs) (head.read [out]) := by
    simpa using first.uses.read (.cons outs .nil)
  refine first.inline_bind false (fun arg zero => ?_) ?_
  · rw [zero] at read ⊢
    exact .ite (read.bind fun _ => apply) ((Nat.zero_add _).symm ▸ apply)
  · exact read.bind fun _ => apply

theorem chainCode_uses (env : Env) (what : String) (op : ChainOp) {head : Code} (first : head.Lone w cs)
    (headType : TypeId) (each : OperandsUse w css tail) (ty : TypeId) :
    (chainCode env what op head headType tail ty).Uses w (usesOf cs + (css.map usesOf).sum) [0] := by
  refine LeafCode.ofSlot_uses env (Slot.computed_uses what) (fun _ => Slot.computed_bare what)
    fun {k out} outs => ?_
  refine chainTarget_bind outs (fun target zero => ?_) ?_
  · subst zero
    exact .inScope (computeChain_uses env op first headType each outs target)
  · refine .inScope (Emit.Uses.temp.before fun slot => Emit.Uses.bind ?_ fun _ => Slot.put_uses outs _ _)
    exact computeChain_uses env op first headType each (Slot.register_uses env slot) _

structure CondCode.Uses (w : Watch) (n : Nat) (c : CondCode) : Prop where
  test : ∀ invert, Emit.Uses w n (c.test invert)
  constant : n ≠ 0 → c.constant = none

namespace CondCode
variable {c : CondCode}

theorem const_uses (known : Bool) : (const known).Uses w 0 :=
  ⟨fun _ => .pure _, fun other => absurd rfl other⟩

theorem compare_uses (env : Env) (op : CompareOp) {left right : Code} (l : left.Lone w cs)
    (r : right.Lone w cs') : (compare env op left right).Uses w (usesOf cs + usesOf cs') :=
  ⟨fun _ => (l.toArg env).bind fun _ => (r.toArg env).after fun _ => .pure _, fun _ => rfl⟩

theorem not_uses (uses : c.Uses w n) : c.not.Uses w n :=
  ⟨fun invert => uses.test !invert, fun _ => rfl⟩

theorem writeValue_uses (uses : c.Uses w n) (outs : out.Uses w m) (invert : Bool) :
    Emit.Uses w (n + m) (c.writeValue [out] invert) := by
  unfold writeValue
  split
  · next known found =>
    have zero : n = 0 := Classical.byContradiction fun some => by
      rw [uses.constant some] at found
      cases found
    rw [zero, Nat.zero_add]
    exact outs.write _ _
  · exact .inScope ((uses.test invert).bind fun _ => .either (outs.write _ _) (outs.write _ _))

theorem clause_uses (env : Env) (parent : LogicOp) (uses : c.Uses w n) (invert : Bool) :
    Emit.Uses w n (c.clause env parent invert) := by
  refine .ite (uses.test invert) (Emit.Uses.temp.before fun slot => ?_)
  exact Emit.Uses.after (writeValue_uses uses (Slot.register_uses env slot) invert) fun _ => .pure _

theorem logic_uses (env : Env) (op : LogicOp) {left right : CondCode} (l : left.Uses w m)
    (r : right.Uses w n) : (logic env op left right).Uses w (m + n) :=
  ⟨fun invert => (clause_uses env _ l invert).bind fun _ =>
    (clause_uses env _ r invert).after fun _ => .pure _, fun _ => rfl⟩

end CondCode

theorem testCode_uses (env : Env) (what : String) {c : CondCode} (uses : c.Uses w n) :
    (testCode env what c).Uses w n [0] := by
  refine LeafCode.ofSlot_uses env ⟨Slot.noWrite_uses what, fun other => absurd rfl other⟩
    (fun some => ⟨rfl, fun forWrite s arg => ?_⟩) fun out => CondCode.writeValue_uses uses out false
  dsimp only
  rw [uses.constant some]
  cases forWrite <;> simp

namespace Action

theorem located_uses (env : Env) (pos : Position) {x : Emit Unit} (uses : Emit.Uses w n x) :
    Emit.Uses w n (located env pos x) :=
  .ite ((Emit.Uses.perform rfl (by simp [Op.marks])).before fun _ => uses.located pos)
    (uses.located pos)

theorem declare_uses (env : Env) {vars : List LocalVar} (other : ∀ v ∈ vars, v.handle ∉ w.handles)
    {e : Code} (uses : Code.Uses w cs e) : Emit.Uses w (usesOf cs) (declare env vars (some e)) :=
  (bindVars_uses env other).before fun _ => .inScope (uses.read_vars env vars)

theorem assign_uses {targets source : Code} (written : Code.Uses w cs targets)
    (uses : Code.Uses w cs' source) :
    Emit.Uses w (usesOf cs' + (cs.flatMap Prod.snd).sum) (assign targets source) :=
  .inScope (uses.read written.slots)

/-- The target is evaluated and then written, which takes one use of it each. -/
theorem update_uses (env : Env) (op : ChainOp) {target source : Code} (written : target.Lone w cs)
    (uses : source.Lone w cs') (before operand after : TypeId) :
    Emit.Uses w (usesOf cs + usesOf cs' + (cs.flatMap Prod.snd).headD 0)
      (update env op target source before operand after) := by
  have plain (place r : Arg) := op.lines_plain env.types before operand place r
  refine .inScope (.inspect_bind fun s found _ answer => ?_)
  cases found with
  | some place =>
    have unused (found : ∃ slot rest, target.slots = slot :: rest ∧ slot.Bare) : False := by
      obtain ⟨slot, rest, slots, bare⟩ := found
      rw [slots] at answer
      exact bare.2 true s place answer
    have zero : usesOf cs = 0 := Classical.byContradiction fun some => unused (written.bare some)
    have zero' : (cs.flatMap Prod.snd).headD 0 = 0 :=
      Classical.byContradiction fun some => unused (Slot.first_bare written.uses.slots some)
    rw [zero, zero', Nat.zero_add, Nat.add_zero]
    exact (uses.toArg env).after fun r => .lines (plain place r)
  | none =>
    rw [Nat.add_assoc]
    refine (written.uses.toRegister env).bind fun copy => (uses.toArg env).bind fun r => ?_
    exact (Emit.Uses.lines (plain copy r)).before fun _ => written.uses.write _ _

theorem synonym_uses (env : Env) (name : String) (target : Code) :
    Emit.Uses w 0 (synonym env name target) := by
  refine .ite ((Emit.Uses.inspect _).before fun form => ?_) (.pure ())
  cases form with
  | some | none => exact .comment _

theorem branch_uses {cond : CondCode} (uses : cond.Uses w n) {yes : Emit Unit}
    (first : Emit.Uses w 0 yes) {no : Option (Emit Unit)} (second : ∀ x ∈ no, Emit.Uses w 0 x) :
    Emit.Uses w n (branch cond yes no) := by
  refine .inScope ((uses.test false).after fun _ => (Emit.Uses.code 0 rfl 1).before fun _ => ?_)
  refine first.inScope.before fun _ => ?_
  cases no with
  | none => exact .code (-1) rfl 0
  | some x =>
    exact (Emit.Uses.code (-1) rfl 1).before fun _ => (second x rfl).inScope.before fun _ =>
      .code (-1) rfl 0

end Action

/-- The variables of the call are left alone. -/
structure Emit.Spares (w : Watch) (x : Emit α) : Prop where
  free : ∀ s a t, w.Below s → x.run s = (.ok a, t) → ∀ h ∈ w.handles, .bound h ∉ x.marks s

namespace Emit.Spares

theorem bind {x : Emit α} {f : α → Emit β} (first : Spares w x) (next : ∀ a, Spares w (f a)) :
    Spares w (x >>= f) := by
  refine ⟨fun s b u below ran h watched => ?_⟩
  rw [run_bind] at ran
  split at ran
  · next a t ranFirst =>
    have later := x.later s
    rw [ranFirst] at later
    rw [marks_bind ranFirst, List.mem_append, not_or]
    exact ⟨first.free s a t below ranFirst h watched, (next a).free t b u
      (fun h watched => Nat.lt_of_lt_of_le (below h watched) later.handles) ran h watched⟩
  · cases ran

theorem ofUses {x : Emit α} (uses : Uses w 0 x) : Spares w x :=
  ⟨fun _ _ _ below ran => uses.free below ran⟩

theorem code (before : Int) (i : Instr) (after : Int) : Spares w (Emit.code before i after) :=
  ⟨fun _ _ _ _ _ _ _ => by simp [Emit.code, perform, marks, Op.marks]⟩

theorem freshLabel : Spares w Emit.freshLabel :=
  ⟨fun s _ _ _ _ _ _ => by simp [show Emit.freshLabel.marks s = [] from rfl]⟩

theorem within (loop : Option LoopTarget → Option LoopTarget) {x : Emit Unit} (spares : Spares w x) :
    Spares w (Emit.within loop x) := by
  refine ⟨fun s a t below ran h watched => ?_⟩
  rw [run_within] at ran
  rw [marks_within]
  exact spares.free (s.enter loop) a _ below (Prod.ext (Prod.mk.inj ran).1 rfl) h watched

end Emit.Spares

namespace Action
variable {body : Emit Unit}

theorem loop_uses (shaped : body.Shaped) (uses : Emit.Uses w 0 body) : Emit.Uses w 0 (loop body) := by
  have spares : Emit.Spares w (loop body) :=
    Emit.Spares.freshLabel.bind fun _ => Emit.Spares.freshLabel.bind fun _ =>
      (Emit.Spares.code ..).bind fun _ => (Emit.Spares.code ..).bind fun _ =>
        (Emit.Spares.within _ (.ofUses uses)).bind fun _ => (Emit.Spares.code ..).bind fun _ => .code ..
  exact .idle (Emit.Shaped.loop shaped).woven spares.free

theorem breakLoop_uses : Emit.Uses w 0 breakLoop := by
  refine .idle (Emit.Shaped.law.breakLoop (p := .anywhere) (t := none) nofun).woven ?_
  refine fun s a t _ _ h _ => ?_
  rw [breakLoop_eq]
  change .bound h ∉ Emit.marks (breakTo s.loop) s
  rcases s.loop with _ | ⟨label, _ | flag, continueLabel⟩
  · exact List.not_mem_nil
  · change .bound h ∉ [Mark.line (.goto label)]
    simp
  · change .bound h ∉ [Mark.line (.store .value flag (.int 1)), .line (.goto label)]
    simp

theorem continueLoop_uses : Emit.Uses w 0 continueLoop := by
  refine .idle (Emit.Shaped.law.continueLoop (p := .anywhere) (t := none) nofun).woven ?_
  refine fun s a t _ _ h _ => ?_
  rw [continueLoop_eq]
  change .bound h ∉ Emit.marks (continueTo s.loop) s
  cases s.loop with
  | none => exact List.not_mem_nil
  | some target =>
    change .bound h ∉ [Mark.line (.goto target.continueLabel)]
    simp

theorem enumeration_uses (shaped : body.Shaped) (uses : Emit.Uses w 0 body) (text : String) (flag : Arg)
    (exit : Label) :
    Emit.Uses w 0 (do
      Emit.code 0 (.enumerate text) 1
      Emit.code 0 (.doif (.atom flag .eq (.int 0))) 1
      Emit.inLoop ⟨exit, some flag, exit⟩ body
      Emit.code (-1) .endi 0
      Emit.line (.goto exit)
      Emit.line (.subr exit)
      Emit.code (-1) .next 0) := by
  refine .idle (fun s => ?_) ?_
  · refine Emit.Emits.bind (.code 0 _ 1) fun _ t₁ _ ⟨opening, first⟩ => ?_
    refine Emit.Emits.bind (.code 0 _ 1) fun _ t₂ _ ⟨check, second⟩ => ?_
    refine Emit.Emits.bind (.within _ (shaped _)) fun _ t₃ lines ⟨u, ⟨_, inside⟩, third⟩ => ?_
    refine Emit.Emits.bind (.code (-1) _ 0) fun _ t₄ _ ⟨last, fourth⟩ => ?_
    refine Emit.Emits.bind (.code 0 _ 0) fun _ t₅ _ ⟨jump, fifth⟩ => ?_
    refine Emit.Emits.bind (.code 0 _ 0) fun _ t₆ _ ⟨leave, sixth⟩ => ?_
    refine Emit.Emits.mono (.code (-1) _ 0) fun _ t₇ _ ⟨closing, seventh⟩ => ?_
    subst opening check last jump leave closing
    have head : Woven s.loop ([.enumerate text] ++ [.doif (.atom flag .eq (.int 0))]) :=
      .append (.plain rfl) (.plain rfl)
    simpa using Woven.enumeration head inside.woven
  · have spares := (Emit.Spares.code (w := w) 0 (.enumerate text) 1).bind fun _ =>
      (Emit.Spares.code 0 (.doif (.atom flag .eq (.int 0))) 1).bind fun _ =>
        (Emit.Spares.within (fun _ => some ⟨exit, some flag, exit⟩) (.ofUses uses)).bind fun _ =>
          (Emit.Spares.code (-1) .endi 0).bind fun _ => (Emit.Spares.code 0 (.goto exit) 0).bind fun _ =>
            (Emit.Spares.code 0 (.subr exit) 0).bind fun _ => Emit.Spares.code (-1) .next 0
    exact spares.free

theorem enumerate_uses (env : Env) {starter : List PartCode} {ns : List Nat}
    (parts : List.Forall₂ (PartCode.Uses w) ns starter) (shaped : body.Shaped) (uses : Emit.Uses w 0 body) :
    Emit.Uses w ns.sum (enumerate env starter body) := by
  have label : Emit.Uses w 0 Emit.freshLabel := by
    refine .idle (fun s => ⟨fun a t ran => ⟨[], ?_, .nil⟩⟩) Emit.Spares.freshLabel.free
    cases ran
    exact (List.append_nil _).symm
  have lines (exit : Label) (slot : Nat) : Emit.Uses w ns.sum (enumeration env starter exit slot body) :=
    (Emit.Uses.line rfl).before fun _ => (PartCode.render_uses env parts).after fun text =>
      enumeration_uses shaped uses text (.register slot) exit
  refine .inScope (label.before fun exit => Emit.Uses.temp.before fun slot => ?_)
  exact .ite ((Emit.Uses.comment _).before fun _ => lines exit slot) (lines exit slot)

theorem inline_uses (env : Env) {parts : List PartCode} {ns : List Nat}
    (each : List.Forall₂ (PartCode.Uses w) ns parts) : Emit.Uses w ns.sum (inline env parts) :=
  .inScope ((PartCode.render_uses env each).after fun _ => .line rfl)

end Action

end

end AgentScript
