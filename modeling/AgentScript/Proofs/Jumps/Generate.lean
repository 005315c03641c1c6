import AgentScript.Proofs.Jumps.Law

/-! The two ways to write a script are related by every law of jumps, by recursion on its structure. -/
namespace AgentScript

section
variable {R : Emit.Relation} {a b : Placeholder}

/-- Codes that are related at a place, and whose values may be written anywhere. -/
abbrev LeafCode.Match (R : Emit.Relation) (p : Place) (t : Option LoopTarget) : LeafCode → LeafCode → Prop :=
  LeafCode.Alike .calm (fun _ => True) (R p.apart none) (R p t)

abbrev Code.Match (R : Emit.Relation) (p : Place) (t : Option LoopTarget) : Code → Code → Prop :=
  Code.Alike .calm (fun _ => True) (R p.apart none) (R p t)

/-- Placeholders that stand for related expressions, which have no jumps to the loops around them. -/
abbrev Placeholder.Match (R : Emit.Relation) (p : Place) (a b : Placeholder) : Prop :=
  Placeholder.Alike .calm (fun _ => True) (R p.apart none) a b

theorem Placeholder.Match.apart (tables : Placeholder.Match R p a b) :
    Placeholder.Match R p.apart a b := by
  rw [Placeholder.Match, Place.apart_apart]
  exact tables

theorem Placeholder.Match.body (tables : Placeholder.Match R p a b) :
    Placeholder.Match R (p.body pos) a b := by
  rw [Placeholder.Match, Place.body_apart]
  exact tables

/-- Wherever jumps would lead, code without jumps to the loops around it may stand anywhere. -/
theorem Code.Match.apart (law : Emit.JumpLaw R) {p : Place} {a b : Code} (same : Code.Match R p.apart t a b) :
    Code.Alike .calm (fun _ => True) (R p.apart none) (R p.apart none) a b := by
  simpa using Code.Alike.imp law.retarget same

theorem Calm.paired {x : Except Cause TypeId} (calm : Calm x) :
    Paired Correspondence.calm.causes Correspondence.calm.types x x := by
  cases x with
  | ok ty => exact .ok rfl
  | error c => exact .error ⟨rfl, Cause.notJump (calm c rfl)⟩

theorem LocalVar.calm_vars (vars : List LocalVar) :
    List.Forall₂ (LocalVar.Like Correspondence.calm.toLikeness) vars vars :=
  List.forall₂_same.mpr fun _ _ => ⟨rfl, rfl, rfl⟩

section
variable (env : Env) {J : Position → Position → Bool} (law : Emit.JumpLaw R)
include law

set_option linter.unusedSectionVars false in
mutual
theorem Leaf.code_match (tables : Placeholder.Match R p a b) (t : Option LoopTarget) :
    (leaf : Leaf) → leaf.fits J p = true → LeafCode.Match R p t (leaf.code env a) (leaf.aimed env b t)
  | .const c, _ => constCode_alike (law.placed env p t) _ rfl
  | .var handle ty writable, _ => varCode_alike (law.placed env p t) rfl rfl _
  | .builtin name ty writable role, _ => builtinCode_alike (law.placed env p t) trivial rfl ..
  | .sink key len ty, _ => sinkCode_alike (law.placed env p t) ..
  | .field base f, fits => fieldCode_alike (law.placed env p t) (codeOf_match tables t base fits) rfl
  | .isInstance base cls nullable ty, fits =>
    isInstanceCode_alike (law.placed env p t) _ (codeOf_match tables t base fits) cls nullable rfl
  | .cast base ty, fits => castCode_alike (law.placed env p t) (codeOf_match tables t base fits) rfl
  | .retype target ty, fits =>
    retypeCode_alike (law.placed env p t) _ (codeOf_match tables t target fits) rfl
  | .chain op head headType tail, fits => by
    obtain ⟨first, others⟩ := Bool.and_eq_true_iff.mp fits
    exact chainCode_alike (law.placed env p t) _ op (codeOf_match tables t head first) rfl
      (operandCodes_match tables t tail others) rfl
  | .test cond ty, fits => testCode_alike (law.placed env p t) _ (Cond.code_match tables t cond fits)
  | .inline parts ty, fits =>
    inlineCode_alike (law.placed env p t) _ (partCodes_match tables t parts fits) rfl
  | .deferred key id params, _ => deferredCode_alike (law.placed env p t) _ tables rfl _
  | .call key copies body, fits => by
    obtain ⟨first, others⟩ := Bool.and_eq_true_iff.mp fits
    have copied := copyCodes_match tables.apart t copies first
    exact callCode_alike (law.placed env p t) (copied.imp fun _ _ copy => ⟨Code.Match.apart law copy.1, copy.2⟩)
      (fun _ _ _ _ => trivial) (Code.Match.apart law (codeOf_match tables.apart none body others))
  | .seq key body result, fits => by
    obtain ⟨first, others⟩ := Bool.and_eq_true_iff.mp fits
    exact seqCode_alike (law.placed env p t) _ (runAll_match tables t body first)
      (codeOf_match tables t result others)
theorem pieceCode_match (tables : Placeholder.Match R p a b) (t : Option LoopTarget) :
    (q : Piece Leaf) → pieceFits J p q = true →
      Piece.Match (LeafCode.Match R p t) (pieceCode env a q) (aimedPiece env b t q)
  | .whole leaf, fits => .whole (Leaf.code_match tables t leaf fits)
  | .view leaf _ _, fits => .view (Leaf.code_match tables t leaf fits)
theorem codeOf_match (tables : Placeholder.Match R p a b) (t : Option LoopTarget) :
    (e : List (Piece Leaf)) → exprFits J p e = true →
      Code.Match R p t (codeOf env a e) (aimedCode env b t e)
  | [], _ => .nil
  | q :: rest, fits => by
    obtain ⟨first, others⟩ := Bool.and_eq_true_iff.mp fits
    exact .cons (pieceCode_match tables t q first) (codeOf_match tables t rest others)
theorem operandCodes_match (tables : Placeholder.Match R p a b) (t : Option LoopTarget) :
    (tail : List Operand) → operandsFit J p tail = true →
      List.Forall₂ (OperandCode.Alike .calm (fun _ => True) (R p.apart none) (R p t))
        (operandCodes env a tail) (aimedOperands env b t tail)
  | [], _ => .nil
  | .mk expr ty after :: rest, fits => by
    obtain ⟨first, others⟩ := Bool.and_eq_true_iff.mp fits
    exact .cons ⟨codeOf_match tables t expr first, rfl, rfl⟩ (operandCodes_match tables t rest others)
theorem Cond.code_match (tables : Placeholder.Match R p a b) (t : Option LoopTarget) :
    (c : Cond) → c.fits J p = true → CondCode.Alike (R p t) (c.code env a) (c.aimed env b t)
  | .const known, _ => ⟨rfl, rfl, fun _ => law.pure _⟩
  | .compare op left right, fits => by
    obtain ⟨first, others⟩ := Bool.and_eq_true_iff.mp fits
    exact CondCode.compare_alike (law.placed env p t) op (codeOf_match tables t left first)
      (codeOf_match tables t right others)
  | .logic op left right, fits => by
    obtain ⟨first, others⟩ := Bool.and_eq_true_iff.mp fits
    exact CondCode.logic_alike (law.placed env p t) op (Cond.code_match tables t left first)
      (Cond.code_match tables t right others)
  | .not c, fits => CondCode.not_alike (Cond.code_match tables t c fits)
theorem partCodes_match (tables : Placeholder.Match R p a b) (t : Option LoopTarget) :
    (parts : List Part) → partsFit J p parts = true →
      List.Forall₂ (PartCode.Alike .calm (fun _ => True) (R p.apart none) (R p t))
        (partCodes env a parts) (aimedParts env b t parts)
  | [], _ => .nil
  | .text s :: rest, fits => .cons (.text trivial) (partCodes_match tables t rest fits)
  | .expr e :: rest, fits => by
    obtain ⟨first, others⟩ := Bool.and_eq_true_iff.mp fits
    exact .cons (.expr (fun i => (readType_calm e i).paired) (codeOf_match tables t e first))
      (partCodes_match tables t rest others)
theorem copyCodes_match (tables : Placeholder.Match R p a b) (t : Option LoopTarget) :
    (copies : List Copy) → copiesFit J p copies = true →
      CopiesAlike .calm (fun _ => True) (R p.apart none) (R p t) (copyCodes env a copies)
        (aimedCopies env b t copies)
  | [], _ => .nil
  | .mk source vars :: rest, fits => by
    obtain ⟨first, others⟩ := Bool.and_eq_true_iff.mp fits
    exact .cons ⟨codeOf_match tables t source first, LocalVar.calm_vars vars⟩
      (copyCodes_match tables t rest others)
theorem Action.run_match (tables : Placeholder.Match R p a b) (t : Option LoopTarget) :
    (action : Action) → action.fits J p = true → R p t (action.run env a) (action.aimed env b t)
  | .mk pos kind, fits =>
    Action.located_alike (law.placed env p t) trivial (ActionKind.run_match tables t pos kind fits)
theorem runAll_match (tables : Placeholder.Match R p a b) (t : Option LoopTarget) :
    (body : List Action) → actionsFit J p body = true →
      R p t (runAll env a body) (aimedRunAll env b t body)
  | [], _ => law.pure ()
  | action :: rest, fits => by
    obtain ⟨first, others⟩ := Bool.and_eq_true_iff.mp fits
    exact law.bind (Action.run_match tables t action first) fun _ => runAll_match tables t rest others
theorem initCode_match (tables : Placeholder.Match R p a b) (t : Option LoopTarget) :
    (init : Option (List (Piece Leaf))) → initFits J p init = true →
      Option.Rel (Code.Match R p t) (initCode env a init) (aimedInit env b t init)
  | none, _ => .none
  | some e, fits => .some (codeOf_match tables t e fits)
theorem otherwiseCode_match (tables : Placeholder.Match R p a b) (t : Option LoopTarget) :
    (no : Option Action) → otherwiseFits J p no = true →
      Option.Rel (R p t) (otherwiseCode env a no) (aimedOtherwise env b t no)
  | none, _ => .none
  | some action, fits => .some (Action.run_match tables t action fits)
theorem ActionKind.run_match (tables : Placeholder.Match R p a b) (t : Option LoopTarget) :
    (pos : Position) → (kind : ActionKind) → kind.fits J p pos = true →
      R p t (kind.run env a) (kind.aimed env b t)
  | pos, .nop, _ => law.pure ()
  | pos, .block body closed, fits => by
    have inner := runAll_match tables t body fits
    exact (law.placed env p t).ite (law.inScope inner) inner
  | pos, .declare vars init, fits =>
    Action.declare_alike (law.placed env p t) (LocalVar.calm_vars vars) (fun _ _ => trivial)
      (initCode_match tables t init fits)
  | pos, .assign targets source, fits => by
    obtain ⟨first, others⟩ := Bool.and_eq_true_iff.mp fits
    exact Action.assign_alike (law.placed env p t)
      (Code.Match.apart law (codeOf_match tables.apart t targets first)) (codeOf_match tables t source others)
  | pos, .update op target source before operand after, fits => by
    obtain ⟨first, others⟩ := Bool.and_eq_true_iff.mp fits
    exact Action.update_alike (law.placed env p t) op (codeOf_match tables t target first)
      (codeOf_match tables t source others) rfl rfl rfl
  | pos, .synonym name target, fits =>
    law.apart (Action.synonym_alike (law.placed env p.apart t) trivial
      (codeOf_match tables.apart t target fits))
  | pos, .branch cond yes no, fits => by
    obtain ⟨arms, last⟩ := Bool.and_eq_true_iff.mp fits
    obtain ⟨first, others⟩ := Bool.and_eq_true_iff.mp arms
    exact Action.branch_alike (law.placed env p t) (Cond.code_match tables t cond first)
      (Action.run_match tables t yes others) (otherwiseCode_match tables t no last)
  | pos, .loop body, fits => law.loop fun inner => Action.run_match tables.body (some inner) body fits
  | pos, .breakLoop, fits => law.breakLoop (Place.ne_outside fits)
  | pos, .continueLoop, fits => law.continueLoop (Place.ne_outside fits)
  | pos, .enumerate starter body, fits => by
    obtain ⟨first, others⟩ := Bool.and_eq_true_iff.mp fits
    rw [ActionKind.run, ActionKind.aimed]
    exact law.enumerate (PartCode.render_alike (law.placed env p t) (partCodes_match tables t starter first))
      fun inner => Action.run_match tables.body (some inner) body others
  | pos, .inline parts, fits =>
    Action.inline_alike (law.placed env p t) (partCodes_match tables t parts fits)
end

/-- Placeholders are replaced alike if they stand for expressions without jumps to loops around. -/
theorem placeholders_match {deferred : List (Option Expr)}
    (fits : ∀ e, some e ∈ deferred → exprFits J p.apart e = true) (rounds : Nat) :
    Placeholder.Match R p (placeholders env deferred rounds)
      (aimedPlaceholders env deferred rounds) := by
  induction rounds with
  | zero => exact fun _ _ _ => .none
  | succ rounds ih =>
    rintro id _ rfl
    unfold placeholders aimedPlaceholders
    cases found : deferred[id]? with
    | none => exact .none
    | some entry =>
      cases entry with
      | none => exact .none
      | some e =>
        exact .some (Code.Match.apart law
          (codeOf_match env law ih.apart none e (fits e (List.mem_of_getElem? found))))

end

end

end AgentScript
