import AgentScript.Proofs.Arguments.Evaluation

/-! The evaluation of macro arguments. Each use of a call evaluates its arguments once, in order, before
the body. How often a statement uses a call can be read off its structure: once for each time that its
result is read, once for each of its slots that is assigned to, and twice where it is updated. -/
namespace AgentScript
variable {copies : List (Code × List LocalVar)}

section
variable (env : Env) {s t : Ctx}

/-- The variables of an argument get registers, and then its code fills them. -/
def Argument (copy : Code × List LocalVar) (ms : List Mark) : Prop :=
  ∃ s t, (copy.1.read (varSlots env copy.2)).run s = (.ok (), t) ∧
    ms = copy.2.map (fun v => .bound v.handle) ++ (copy.1.read (varSlots env copy.2)).marks s

/-- The code of a body is that of its evaluation, or of writing to one of its slots. -/
def Work (body : Code) (ms : List Mark) : Prop :=
  ∃ (x : Emit Unit) (s t : Ctx), x.run s = (.ok (), t) ∧ ms = x.marks s ∧
    ((∃ out, x = body.read out) ∨ ∃ slot ∈ body.slots, ∃ input exact, x = slot.write input exact)

theorem Emit.bind_marks {handle slot : Nat} (ran : (Emit.bind handle).run s = (.ok slot, t)) :
    (Emit.bind handle).marks s = [.bound handle] := by
  rw [run_register] at ran
  cases found : s.pool.allocate? with
  | none =>
    rw [found] at ran
    cases ran
  | some register =>
    rw [Emit.bind, marks_bind (run_current s), found]
    rfl

theorem registerNote_marks (slot : Nat) (ty : TypeId) (label : String) (s : Ctx) :
    (registerNote env slot ty label).marks s = [] := by
  unfold registerNote
  split <;> rfl

theorem bindVars_marks {vars : List LocalVar} (ran : (bindVars env vars).run s = (.ok (), t)) :
    (bindVars env vars).marks s = vars.map fun v => .bound v.handle := by
  induction vars generalizing s with
  | nil => rfl
  | cons v rest ih =>
    change (Emit.bind v.handle >>= fun slot => registerNote env slot v.ty v.label >>= fun _ =>
      bindVars env rest).run s = _ at ran
    change (Emit.bind v.handle >>= fun slot => registerNote env slot v.ty v.label >>= fun _ =>
      bindVars env rest).marks s = _
    rw [Emit.run_bind] at ran
    split at ran
    · next slot t₁ bound =>
      rw [Emit.run_bind] at ran
      split at ran
      · next _ t₂ noted =>
        rw [Emit.marks_bind bound, Emit.marks_bind noted, Emit.bind_marks bound, registerNote_marks,
          ih ran]
        rfl
      · cases ran
    · cases ran

theorem writeCopies_marks (ran : (writeCopies env copies).run s = (.ok (), t)) :
    ∃ parts, (writeCopies env copies).marks s = parts.flatten ∧
      List.Forall₂ (Argument env) copies parts := by
  induction copies generalizing s with
  | nil => exact ⟨[], rfl, .nil⟩
  | cons copy rest ih =>
    obtain ⟨source, vars⟩ := copy
    change (bindVars env vars >>= fun _ => source.read (varSlots env vars) >>= fun _ =>
      writeCopies env rest).run s = _ at ran
    rw [Emit.run_bind] at ran
    split at ran
    · next _ t₁ bound =>
      rw [Emit.run_bind] at ran
      split at ran
      · next _ t₂ read =>
        obtain ⟨parts, marks, each⟩ := ih ran
        refine ⟨_ :: parts, ?_, .cons ⟨t₁, t₂, read, rfl⟩ each⟩
        change (bindVars env vars >>= fun _ => source.read (varSlots env vars) >>= fun _ =>
          writeCopies env rest).marks s = _
        rw [Emit.marks_bind bound, Emit.marks_bind read, marks, bindVars_marks env bound]
        simp
      · cases ran
    · cases ran

end

structure Call where
  key : Nat
  copies : List Copy
  body : Expr

def Copy.vars : Copy → List LocalVar
  | mk _ vars => vars

def Call.handles (c : Call) : List Nat := c.copies.flatMap fun copy => copy.vars.map LocalVar.handle

/-- What a use of the call looks like: the codes of its arguments in order, and then that of its
body. -/
def Call.watch (env : Env) (table : Placeholder) (c : Call) : Watch where
  handles := c.handles
  arguments ms := ∃ parts, ms = parts.flatten ∧
    List.Forall₂ (Argument env) (copyCodes env table c.copies) parts
  body := Work (codeOf env table c.body)

theorem Emit.Uses.use {w : Watch} {env : Env} {body : Code}
    (arguments : ∀ parts, List.Forall₂ (Argument env) copies parts → w.arguments parts.flatten)
    (work : ∀ ms, Work body ms → w.body ms) {x : Emit Unit} (uses : Emit.Uses w n x)
    (inBody : (∃ out, x = body.read out) ∨
      ∃ slot ∈ body.slots, ∃ input exact, x = slot.write input exact) :
    Emit.Uses w (n + 1) (writeCopies env copies >>= fun _ => x) := by
  refine ⟨fun s a u below ran => ?_⟩
  rw [run_bind] at ran
  split at ran
  · next _ t copied =>
    obtain ⟨parts, marks, each⟩ := writeCopies_marks env copied
    have later := (writeCopies env copies).later s
    rw [copied] at later
    rw [marks_bind copied, marks]
    have there := uses.path t a u (fun h watched => Nat.lt_of_lt_of_le (below h watched) later.handles) ran
    rw [show t.loop = s.loop from later.loop] at there
    exact .use (arguments parts each) (work _ ⟨x, t, u, ran, rfl, inBody⟩) there
  · cases ran

theorem callCode_watched {w : Watch} {env : Env} {body : Code}
    (arguments : ∀ parts, List.Forall₂ (Argument env) copies parts → w.arguments parts.flatten)
    (work : ∀ ms, Work body ms → w.body ms) {cs : List (Nat × List Nat)} (uses : Code.Uses w cs body) :
    (callCode env copies body).Uses w (1 + usesOf cs) ((cs.flatMap Prod.snd).map (1 + ·)) := by
  refine LeafCode.ofSlots_uses env ?_ (fun _ slot member => ?_) fun {ms out} outs _ => ?_
  · refine List.forall₂_of_length_eq_of_get (by simp [uses.slots.length_eq]) fun i inside inside' => ?_
    have here := uses.slots.get (by simpa using inside) (by simpa using inside')
    simp only [List.get_eq_getElem, List.getElem_map] at here ⊢
    rw [Nat.add_comm]
    refine ⟨fun input exact => .outsideLoops (.use arguments work (here.write input exact) ?_), fun _ => ?_⟩
    · exact .inr ⟨_, List.getElem_mem _, input, exact, rfl⟩
    · exact ⟨rfl, fun _ _ _ => by simp [Slot.noInline]⟩
  · obtain ⟨_, _, rfl⟩ := List.mem_map.mp member
    exact ⟨rfl, fun _ _ _ => by simp [Slot.noInline]⟩
  · rw [show 1 + usesOf cs + ms.sum = usesOf cs + ms.sum + 1 by omega]
    exact .outsideLoops (.use arguments work (uses.read outs) (.inl ⟨out, rfl⟩))

mutual
/-- How often the call with a key is used when a leaf is evaluated. -/
def Leaf.uses (key : Nat) : Leaf → Nat
  | .const _ | .var .. | .builtin .. | .sink .. | .retype .. | .deferred .. => 0
  | .field base _ => usesOf (exprCosts key base)
  | .isInstance base _ _ _ => usesOf (exprCosts key base)
  | .cast base _ => usesOf (exprCosts key base)
  | .chain _ head _ tail => usesOf (exprCosts key head) + operandsUses key tail
  | .test cond _ => Cond.uses key cond
  | .inline parts _ => partsUses key parts
  | .call k copies body =>
    (if k = key then 1 else copiesUses key copies) + usesOf (exprCosts key body)
  | .seq _ body result => actionsUses key body + usesOf (exprCosts key result)
/-- How often it is used when a slot of a leaf is written. -/
def Leaf.writes (key : Nat) : Leaf → List Nat
  | .const _ | .var .. | .builtin .. | .isInstance .. | .chain .. | .test .. | .inline .. => [0]
  | .sink _ len _ => List.replicate len 0
  | .field base _ => [usesOf (exprCosts key base)]
  | .cast base _ => [((exprCosts key base).flatMap Prod.snd).headD 0]
  | .retype target _ => [((exprCosts key target).flatMap Prod.snd).headD 0]
  | .deferred _ _ params => List.replicate params.length 0
  | .call k copies body => ((exprCosts key body).flatMap Prod.snd).map
    ((if k = key then 1 else copiesUses key copies) + ·)
  | .seq _ _ result => ((exprCosts key result).flatMap Prod.snd).map fun _ => 0
def pieceCost (key : Nat) : Piece Leaf → Nat × List Nat
  | .whole leaf => (Leaf.uses key leaf, Leaf.writes key leaf)
  | .view leaf base len => (Leaf.uses key leaf, viewOf base len (Leaf.writes key leaf))
def exprCosts (key : Nat) : List (Piece Leaf) → List (Nat × List Nat)
  | [] => []
  | p :: rest => pieceCost key p :: exprCosts key rest
def operandCosts (key : Nat) : Operand → List (Nat × List Nat)
  | .mk expr _ _ => exprCosts key expr
def operandsUses (key : Nat) : List Operand → Nat
  | [] => 0
  | o :: rest => usesOf (operandCosts key o) + operandsUses key rest
def Cond.uses (key : Nat) : Cond → Nat
  | .const _ => 0
  | .compare _ left right => usesOf (exprCosts key left) + usesOf (exprCosts key right)
  | .logic _ left right => Cond.uses key left + Cond.uses key right
  | .not c => Cond.uses key c
def partUses (key : Nat) : Part → Nat
  | .text _ => 0
  | .expr e => usesOf (exprCosts key e)
def partsUses (key : Nat) : List Part → Nat
  | [] => 0
  | p :: rest => partUses key p + partsUses key rest
def copyUses (key : Nat) : Copy → Nat
  | .mk source _ => usesOf (exprCosts key source)
def copiesUses (key : Nat) : List Copy → Nat
  | [] => 0
  | c :: rest => copyUses key c + copiesUses key rest
/-- How often it is used when a statement runs. -/
def Action.uses (key : Nat) : Action → Nat
  | .mk _ kind => ActionKind.uses key kind
def actionsUses (key : Nat) : List Action → Nat
  | [] => 0
  | a :: rest => Action.uses key a + actionsUses key rest
def initUses (key : Nat) : Option (List (Piece Leaf)) → Nat
  | none => 0
  | some e => usesOf (exprCosts key e)
def ActionKind.uses (key : Nat) : ActionKind → Nat
  | .nop | .synonym .. | .loop _ | .breakLoop | .continueLoop => 0
  | .block body _ => actionsUses key body
  | .declare _ init => initUses key init
  | .assign targets source =>
    usesOf (exprCosts key source) + ((exprCosts key targets).flatMap Prod.snd).sum
  | .update _ target source _ _ _ =>
    usesOf (exprCosts key target) + usesOf (exprCosts key source) +
      ((exprCosts key target).flatMap Prod.snd).headD 0
  | .branch cond _ _ => Cond.uses key cond
  | .enumerate starter _ => partsUses key starter
  | .inline parts => partsUses key parts
end

/-- An expression for one value: if its evaluation uses the call, its first piece does. -/
def Leads (key : Nat) : List (Piece Leaf) → Prop
  | [] => True
  | p :: rest => usesOf (exprCosts key (p :: rest)) ≠ 0 → (pieceCost key p).1 ≠ 0 ∧ p.len ≠ 0

/-- The variables of the call are bound by the call only. -/
def Call.Apart (c : Call) (vars : List LocalVar) : Prop := ∀ v ∈ vars, v.handle ∉ c.handles

mutual
/-- The call `c` stands in a statement where control passes it once, not in the arm of a test nor in the
body of a loop, and neither in a placeholder. With `own` unset it does not occur at all. -/
def Leaf.Direct (c : Call) (own : Prop) (free : Nat → Prop) : Leaf → Prop
  | .const _ | .var .. | .builtin .. | .sink .. => True
  | .field base _ => exprDirect c own free base ∧ Leads c.key base
  | .isInstance base _ _ _ => exprDirect c own free base ∧ Leads c.key base
  | .cast base _ => exprDirect c own free base ∧ Leads c.key base
  | .retype target _ => exprDirect c own free target
  | .chain _ head _ tail =>
    (exprDirect c own free head ∧ Leads c.key head) ∧ operandsDirect c own free tail
  | .test cond _ => Cond.Direct c own free cond
  | .inline parts _ => partsDirect c own free parts
  | .deferred _ id _ => free id
  | .call k copies body =>
    (if k = c.key then own ∧ copies = c.copies ∧ body = c.body else copiesDirect c own free copies) ∧
      exprDirect c own free body
  | .seq _ body result => actionsDirect c own free body ∧ exprDirect c own free result
def pieceDirect (c : Call) (own : Prop) (free : Nat → Prop) : Piece Leaf → Prop
  | .whole leaf => Leaf.Direct c own free leaf
  | .view leaf base len => Leaf.Direct c own free leaf ∧ base + len ≤ leaf.accesses.length
def exprDirect (c : Call) (own : Prop) (free : Nat → Prop) : List (Piece Leaf) → Prop
  | [] => True
  | p :: rest => pieceDirect c own free p ∧ exprDirect c own free rest
def operandDirect (c : Call) (own : Prop) (free : Nat → Prop) : Operand → Prop
  | .mk expr _ _ => exprDirect c own free expr ∧ Leads c.key expr
def operandsDirect (c : Call) (own : Prop) (free : Nat → Prop) : List Operand → Prop
  | [] => True
  | o :: rest => operandDirect c own free o ∧ operandsDirect c own free rest
def Cond.Direct (c : Call) (own : Prop) (free : Nat → Prop) : Cond → Prop
  | .const _ => True
  | .compare _ left right =>
    (exprDirect c own free left ∧ Leads c.key left) ∧ exprDirect c own free right ∧ Leads c.key right
  | .logic _ left right => Cond.Direct c own free left ∧ Cond.Direct c own free right
  | .not cond => Cond.Direct c own free cond
def partDirect (c : Call) (own : Prop) (free : Nat → Prop) : Part → Prop
  | .text _ => True
  | .expr e => exprDirect c own free e ∧ ∀ p ∈ e, (pieceCost c.key p).1 ≠ 0 → p.len ≠ 0
def partsDirect (c : Call) (own : Prop) (free : Nat → Prop) : List Part → Prop
  | [] => True
  | p :: rest => partDirect c own free p ∧ partsDirect c own free rest
def copyDirect (c : Call) (own : Prop) (free : Nat → Prop) : Copy → Prop
  | .mk source vars => exprDirect c own free source ∧ c.Apart vars
def copiesDirect (c : Call) (own : Prop) (free : Nat → Prop) : List Copy → Prop
  | [] => True
  | copy :: rest => copyDirect c own free copy ∧ copiesDirect c own free rest
def Action.Direct (c : Call) (own : Prop) (free : Nat → Prop) : Action → Prop
  | .mk _ kind => ActionKind.Direct c own free kind
def actionsDirect (c : Call) (own : Prop) (free : Nat → Prop) : List Action → Prop
  | [] => True
  | a :: rest => Action.Direct c own free a ∧ actionsDirect c own free rest
def initDirect (c : Call) (own : Prop) (free : Nat → Prop) : Option (List (Piece Leaf)) → Prop
  | none => True
  | some e => exprDirect c own free e
def otherwiseDirect (c : Call) (own : Prop) (free : Nat → Prop) : Option Action → Prop
  | none => True
  | some a => Action.Direct c own free a ∧ a.uses c.key = 0
def ActionKind.Direct (c : Call) (own : Prop) (free : Nat → Prop) : ActionKind → Prop
  | .nop | .synonym .. | .breakLoop | .continueLoop => True
  | .block body _ => actionsDirect c own free body
  | .declare vars init => c.Apart vars ∧ initDirect c own free init
  | .assign targets source => exprDirect c own free targets ∧ exprDirect c own free source
  | .update _ target source _ _ _ =>
    (exprDirect c own free target ∧ Leads c.key target) ∧ exprDirect c own free source ∧ Leads c.key source
  | .branch cond yes no =>
    Cond.Direct c own free cond ∧ (Action.Direct c own free yes ∧ yes.uses c.key = 0) ∧
      otherwiseDirect c own free no
  | .loop body => Action.Direct c own free body ∧ body.uses c.key = 0
  | .enumerate starter body =>
    partsDirect c own free starter ∧ Action.Direct c own free body ∧ body.uses c.key = 0
  | .inline parts => partsDirect c own free parts
end

/-- What the code around a script has to provide for its uses of the call to be counted. -/
structure Watching (env : Env) (table : Placeholder) (w : Watch) (c : Call) (own : Prop)
    (free : Nat → Prop) : Prop where
  handles : w.handles = c.handles
  shaped : ∀ a : Action, (a.run env table).Shaped
  tables : ∀ id, free id → ∀ e, table id = some e → e.Idle w
  arguments : own → ∀ parts, List.Forall₂ (Argument env) (copyCodes env table c.copies) parts →
    w.arguments parts.flatten
  work : own → ∀ ms, Work (codeOf env table c.body) ms → w.body ms

section
variable {env : Env} {table : Placeholder} {w : Watch} {c : Call} {own : Prop} {free : Nat → Prop}

theorem Watching.apart (watching : Watching env table w c own free) {vars : List LocalVar}
    (apart : c.Apart vars) : ∀ v ∈ vars, v.handle ∉ w.handles := by
  rw [watching.handles]
  exact apart

/-- If the first piece of an expression uses the call, its first slot has no other form. -/
theorem Leads.lone {e : List (Piece Leaf)} (leads : Leads c.key e)
    (uses : Code.Uses w (exprCosts c.key e) (codeOf env table e)) :
    (codeOf env table e).Lone w (exprCosts c.key e) := by
  refine ⟨uses, fun some => ?_⟩
  cases e with
  | nil =>
    rw [exprCosts] at some
    exact absurd rfl some
  | cons p rest =>
    rw [Leads] at leads
    obtain ⟨here, count⟩ := leads some
    rw [exprCosts, codeOf] at uses
    rw [codeOf]
    cases uses with
    | cons first _ =>
      have length := first.length
      rw [pieceCode_len] at length
      obtain ⟨slot, more, slots⟩ := List.exists_cons_of_length_pos
        (l := Code.pieceSlots (pieceCode env table p)) (by omega)
      refine ⟨slot, more ++ Code.slots (codeOf env table rest), ?_, first.bare here slot ?_⟩
      · change Code.pieceSlots (pieceCode env table p) ++ _ = _
        rw [slots]
        rfl
      · rw [slots]
        exact List.mem_cons_self

theorem filled_of_uses : {e : List (Piece Leaf)} →
    Code.Uses w (exprCosts c.key e) (codeOf env table e) →
    (∀ p ∈ e, (pieceCost c.key p).1 ≠ 0 → p.len ≠ 0) →
    List.Forall₂ (Piece.Filled w) (exprCosts c.key e) (codeOf env table e)
  | [], _, _ => by
    rw [exprCosts, codeOf]
    exact .nil
  | p :: rest, uses, each => by
    rw [exprCosts, codeOf] at uses ⊢
    obtain ⟨here, others⟩ := List.forall_mem_cons.mp each
    cases uses with
    | cons first later =>
      exact .cons ⟨first, by rwa [pieceCode_len]⟩ (filled_of_uses later others)

variable (watching : Watching env table w c own free)
include watching

set_option linter.unusedSectionVars false in
mutual
theorem Leaf.code_uses : (leaf : Leaf) →
    leaf.Direct c own free → (leaf.code env table).Uses w (leaf.uses c.key) (leaf.writes c.key)
  | .const .., _ => constCode_uses ..
  | .var .., _ => varCode_uses ..
  | .builtin .., _ => builtinCode_uses ..
  | .sink .., _ => sinkCode_uses ..
  | .field base f, direct => fieldCode_uses env (codeOf_lone base direct) f
  | .isInstance base cls nullable ty, direct =>
    isInstanceCode_uses env _ (codeOf_lone base direct) cls nullable ty
  | .cast base ty, direct => castCode_uses env (codeOf_lone base direct) ty
  | .retype target ty, direct => retypeCode_uses env _ (codeOf_uses target direct) ty
  | .chain op head headType tail, direct => by
    obtain ⟨css, each, total⟩ := operandCodes_uses tail direct.2
    rw [Leaf.uses, ← total]
    exact chainCode_uses env _ op (codeOf_lone head direct.1) headType each _
  | .test cond ty, direct => testCode_uses env _ (Cond.code_uses cond direct)
  | .inline parts ty, direct => by
    obtain ⟨ns, each, total⟩ := partCodes_uses parts direct
    rw [Leaf.uses, ← total]
    exact inlineCode_uses env _ each ty
  | .deferred key id params, direct => by
    simpa [Leaf.code, Leaf.uses, Leaf.writes] using
      deferredCode_uses (w := w) _ (watching.tables id direct) (params.map Prod.snd)
  | .call key copies body, direct => by
    rw [Leaf.Direct] at direct
    rw [Leaf.code, Leaf.uses, Leaf.writes]
    have inner := codeOf_uses body direct.2
    split
    · next same =>
      rw [if_pos same] at direct
      obtain ⟨⟨own, rfl, rfl⟩, _⟩ := direct
      exact callCode_watched (watching.arguments own) (watching.work own) inner
    · next other =>
      rw [if_neg other] at direct
      obtain ⟨ns, each, total⟩ := copyCodes_uses copies direct.1
      rw [← total]
      exact callCode_uses env each inner
  | .seq key body result, direct => by
    have inner := codeOf_uses result direct.2
    rw [Leaf.writes, List.map_const', inner.slots.length_eq]
    exact seqCode_uses env _ (runAll_uses body direct.1) inner
theorem pieceCode_uses : (p : Piece Leaf) →
    pieceDirect c own free p → Piece.Uses w (pieceCost c.key p) (pieceCode env table p)
  | .whole leaf, direct => .whole (Leaf.code_uses leaf direct)
  | .view leaf base len, direct =>
    .view (Leaf.code_uses leaf direct.1) (by rw [Leaf.code_count]; exact direct.2)
theorem codeOf_uses : (e : List (Piece Leaf)) →
    exprDirect c own free e → Code.Uses w (exprCosts c.key e) (codeOf env table e)
  | [], _ => .nil
  | p :: rest, direct => .cons (pieceCode_uses p direct.1) (codeOf_uses rest direct.2)
theorem codeOf_lone : (e : List (Piece Leaf)) →
    exprDirect c own free e ∧ Leads c.key e → (codeOf env table e).Lone w (exprCosts c.key e)
  | e, direct => direct.2.lone (codeOf_uses e direct.1)
theorem operandCodes_uses : (tail : List Operand) →
    operandsDirect c own free tail → ∃ css, OperandsUse w css (operandCodes env table tail) ∧
      (css.map usesOf).sum = operandsUses c.key tail
  | [], _ => ⟨[], .nil, rfl⟩
  | .mk expr ty after :: rest, direct => by
    obtain ⟨css, each, total⟩ := operandCodes_uses rest direct.2
    exact ⟨_ :: css, .cons (codeOf_lone expr direct.1) each, by simp [operandsUses, operandCosts, total]⟩
theorem Cond.code_uses : (cond : Cond) →
    cond.Direct c own free → (cond.code env table).Uses w (cond.uses c.key)
  | .const known, _ => CondCode.const_uses known
  | .compare op left right, direct =>
    CondCode.compare_uses env op (codeOf_lone left direct.1) (codeOf_lone right direct.2)
  | .logic op left right, direct =>
    CondCode.logic_uses env op (Cond.code_uses left direct.1) (Cond.code_uses right direct.2)
  | .not cond, direct => CondCode.not_uses (Cond.code_uses cond direct)
theorem partCodes_uses : (parts : List Part) →
    partsDirect c own free parts → ∃ ns, List.Forall₂ (PartCode.Uses w) ns (partCodes env table parts) ∧
      ns.sum = partsUses c.key parts
  | [], _ => ⟨[], .nil, rfl⟩
  | .text s :: rest, direct => by
    obtain ⟨ns, each, total⟩ := partCodes_uses rest direct.2
    exact ⟨0 :: ns, .cons (.text s) each, by simp [partsUses, partUses, total]⟩
  | .expr e :: rest, direct => by
    obtain ⟨ns, each, total⟩ := partCodes_uses rest direct.2
    exact ⟨_ :: ns, .cons (.expr (filled_of_uses (codeOf_uses e direct.1.1) direct.1.2)) each,
      by simp [partsUses, partUses, total]⟩
theorem copyCodes_uses : (copies : List Copy) →
    copiesDirect c own free copies → ∃ ns, List.Forall₂ (CopyUses w) ns (copyCodes env table copies) ∧
      ns.sum = copiesUses c.key copies
  | [], _ => ⟨[], .nil, rfl⟩
  | .mk source vars :: rest, direct => by
    obtain ⟨ns, each, total⟩ := copyCodes_uses rest direct.2
    exact ⟨_ :: ns, .cons ⟨⟨_, codeOf_uses source direct.1.1, rfl⟩, watching.apart direct.1.2⟩ each,
      by simp [copiesUses, copyUses, total]⟩
theorem Action.run_uses : (a : Action) →
    a.Direct c own free → Emit.Uses w (a.uses c.key) (a.run env table)
  | .mk pos kind, direct => Action.located_uses env pos (ActionKind.run_uses kind direct)
theorem runAll_uses : (body : List Action) →
    actionsDirect c own free body → Emit.Uses w (actionsUses c.key body) (runAll env table body)
  | [], _ => .pure ()
  | a :: rest, direct => (Action.run_uses a direct.1).bind fun _ => runAll_uses rest direct.2
theorem declare_uses {vars : List LocalVar}
    (apart : c.Apart vars) : (init : Option (List (Piece Leaf))) → initDirect c own free init →
    Emit.Uses w (initUses c.key init) (Action.declare env vars (initCode env table init))
  | none, _ => (bindVars_uses env (watching.apart apart)).before fun _ => .pure ()
  | some e, direct => Action.declare_uses env (watching.apart apart) (codeOf_uses e direct)
theorem otherwise_uses : (no : Option Action) →
    otherwiseDirect c own free no → ∀ x ∈ otherwiseCode env table no, Emit.Uses w 0 x
  | none, _ => nofun
  | some a, direct => by
    rintro x ⟨⟩
    exact direct.2 ▸ Action.run_uses a direct.1
theorem ActionKind.run_uses : (kind : ActionKind) →
    kind.Direct c own free → Emit.Uses w (kind.uses c.key) (kind.run env table)
  | .nop, _ => .pure ()
  | .block body closed, direct => by
    have inner := runAll_uses body direct
    exact .ite inner.inScope inner
  | .declare vars init, direct => declare_uses direct.1 init direct.2
  | .assign targets source, direct =>
    Action.assign_uses (codeOf_uses targets direct.1) (codeOf_uses source direct.2)
  | .update op target source before operand after, direct =>
    Action.update_uses env op (codeOf_lone target direct.1) (codeOf_lone source direct.2) before
      operand after
  | .synonym .., _ => Action.synonym_uses ..
  | .branch cond yes no, direct => by
    obtain ⟨test, ⟨first, zero⟩, second⟩ := direct
    exact Action.branch_uses (Cond.code_uses cond test)
      (zero ▸ Action.run_uses yes first) (otherwise_uses no second)
  | .loop body, direct =>
    Action.loop_uses (watching.shaped body) (direct.2 ▸ Action.run_uses body direct.1)
  | .breakLoop, _ => Action.breakLoop_uses
  | .continueLoop, _ => Action.continueLoop_uses
  | .enumerate starter body, direct => by
    obtain ⟨ns, each, total⟩ := partCodes_uses starter direct.1
    rw [ActionKind.uses, ← total]
    exact Action.enumerate_uses env each (watching.shaped body)
      (direct.2.2 ▸ Action.run_uses body direct.2.1)
  | .inline parts, direct => by
    obtain ⟨ns, each, total⟩ := partCodes_uses parts direct
    rw [ActionKind.uses, ← total]
    exact Action.inline_uses env each
end

end

end AgentScript
