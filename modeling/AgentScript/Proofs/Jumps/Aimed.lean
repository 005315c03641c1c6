import AgentScript.Proofs.Preservation.Emission
import AgentScript.Code.Generate
import Mathlib.Data.List.Forall2

/-! Code whose jumps are told where they lead. `Action.run` lets `break` and `continue` look up the loop
around them while code is written; `Action.aimed` passes that loop down the tree instead, so that a jump
leads to the innermost loop that is written around it and to no other. `Emit.JumpLaw` collects what a
relation between two routines has to respect to hold between the two ways to write a script. -/
namespace AgentScript

namespace Action

def breakTo : Option LoopTarget → Emit Unit
  | none => Emit.refuse .cannotBreak
  | some target => do
    match target.flag with
    | some flag => Emit.line (.store .value flag (.int 1))
    | none => pure ()
    Emit.line (.goto target.label)

def continueTo : Option LoopTarget → Emit Unit
  | none => Emit.refuse .cannotContinue
  | some target => Emit.line (.goto target.continueLabel)

def loopTo (body : LoopTarget → Emit Unit) : Emit Unit := do
  let top ← Emit.freshLabel
  let exit ← Emit.freshLabel
  Emit.line (.goto top)
  Emit.code 0 (.subr top) 1
  Emit.inLoop ⟨exit, none, top⟩ (body ⟨exit, none, top⟩)
  Emit.code (-1) (.goto top) 0
  Emit.line (.subr exit)

/-- An enumeration whose body is told where its jumps lead. -/
def enumerateTo (env : Env) (starter : List PartCode) (body : LoopTarget → Emit Unit) : Emit Unit :=
  Emit.inScope do
    let exit ← Emit.freshLabel
    let slot ← Emit.temp
    let flag := Arg.register slot
    if env.config.varComments then Emit.comment (flag.text ++ ": integer break flag")
    Emit.line (.store .value flag (.int 0))
    let text ← PartCode.render env starter
    Emit.code 0 (.enumerate text) 1
    Emit.code 0 (.doif (.atom flag .eq (.int 0))) 1
    Emit.inLoop ⟨exit, some flag, exit⟩ (body ⟨exit, some flag, exit⟩)
    Emit.code (-1) .endi 0
    Emit.line (.goto exit)
    Emit.line (.subr exit)
    Emit.code (-1) .next 0

theorem loop_eq (body : Emit Unit) : loop body = loopTo fun _ => body := rfl

theorem enumerate_eq (env : Env) (starter : List PartCode) (body : Emit Unit) :
    enumerate env starter body = enumerateTo env starter fun _ => body := rfl

theorem breakLoop_eq : breakLoop = .look fun s => breakTo s.loop := by
  refine congrArg Emit.look (funext fun s => ?_)
  change (match s.loop with | none => _ | some target => _) = breakTo s.loop
  cases s.loop <;> rfl

theorem continueLoop_eq : continueLoop = .look fun s => continueTo s.loop := by
  refine congrArg Emit.look (funext fun s => ?_)
  change (match s.loop with | none => _ | some target => _) = continueTo s.loop
  cases s.loop <;> rfl

end Action

mutual
def Leaf.aimed (env : Env) (table : Placeholder) (target : Option LoopTarget) : Leaf → LeafCode
  | .const c => constCode env (Leaf.const c).label c
  | .var handle ty writable => varCode env handle ty writable
  | .builtin name ty writable role => builtinCode env name ty writable role
  | .sink key len ty => sinkCode env (Leaf.sink key len ty).label len
  | .field base f => fieldCode env (aimedCode env table target base) f
  | .isInstance base cls nullable ty =>
    isInstanceCode env (Leaf.isInstance base cls nullable ty).label (aimedCode env table target base)
      cls nullable ty
  | .cast base ty => castCode env (aimedCode env table target base) ty
  | .retype inner ty =>
    retypeCode env (Leaf.retype inner ty).label (aimedCode env table target inner) ty
  | .chain op head headType tail =>
    chainCode env (Leaf.chain op head headType tail).label op (aimedCode env table target head)
      headType (aimedOperands env table target tail) (Leaf.resultType headType tail)
  | .test cond ty => testCode env (Leaf.test cond ty).label (Cond.aimed env table target cond)
  | .inline parts ty =>
    inlineCode env (Leaf.inline parts ty).label (aimedParts env table target parts) ty
  | .deferred key id params =>
    deferredCode (Leaf.deferred key id params).label table id (params.map (·.2))
  | .call _ copies body =>
    callCode env (aimedCopies env table target copies) (aimedCode env table none body)
  | .seq key body result =>
    seqCode env (Leaf.seq key body result).label (aimedRunAll env table target body)
      (aimedCode env table target result)
def aimedPiece (env : Env) (table : Placeholder) (target : Option LoopTarget) :
    Piece Leaf → Piece LeafCode
  | .whole leaf => .whole (Leaf.aimed env table target leaf)
  | .view leaf base len => .view (Leaf.aimed env table target leaf) base len
def aimedCode (env : Env) (table : Placeholder) (target : Option LoopTarget) :
    List (Piece Leaf) → Code
  | [] => []
  | p :: rest => aimedPiece env table target p :: aimedCode env table target rest
def aimedOperand (env : Env) (table : Placeholder) (target : Option LoopTarget) :
    Operand → OperandCode
  | .mk expr ty after => ⟨aimedCode env table target expr, ty, after⟩
def aimedOperands (env : Env) (table : Placeholder) (target : Option LoopTarget) :
    List Operand → List OperandCode
  | [] => []
  | o :: rest => aimedOperand env table target o :: aimedOperands env table target rest
def Cond.aimed (env : Env) (table : Placeholder) (target : Option LoopTarget) : Cond → CondCode
  | .const b => .const b
  | .compare op left right =>
    .compare env op (aimedCode env table target left) (aimedCode env table target right)
  | .logic op left right =>
    .logic env op (Cond.aimed env table target left) (Cond.aimed env table target right)
  | .not c => .not (Cond.aimed env table target c)
def aimedPart (env : Env) (table : Placeholder) (target : Option LoopTarget) : Part → PartCode
  | .text s => .text s
  | .expr e => .expr (Expr.readType e) (aimedCode env table target e)
def aimedParts (env : Env) (table : Placeholder) (target : Option LoopTarget) :
    List Part → List PartCode
  | [] => []
  | p :: rest => aimedPart env table target p :: aimedParts env table target rest
def aimedCopy (env : Env) (table : Placeholder) (target : Option LoopTarget) :
    Copy → Code × List LocalVar
  | .mk source vars => (aimedCode env table target source, vars)
def aimedCopies (env : Env) (table : Placeholder) (target : Option LoopTarget) :
    List Copy → List (Code × List LocalVar)
  | [] => []
  | c :: rest => aimedCopy env table target c :: aimedCopies env table target rest
/-- The code of a statement in which jumps lead to `target`. -/
def Action.aimed (env : Env) (table : Placeholder) (target : Option LoopTarget) :
    Action → Emit Unit
  | .mk pos kind => Action.located env pos (ActionKind.aimed env table target kind)
def aimedRunAll (env : Env) (table : Placeholder) (target : Option LoopTarget) :
    List Action → Emit Unit
  | [] => pure ()
  | a :: rest => do
    Action.aimed env table target a
    aimedRunAll env table target rest
def aimedInit (env : Env) (table : Placeholder) (target : Option LoopTarget) :
    Option (List (Piece Leaf)) → Option Code
  | none => none
  | some e => some (aimedCode env table target e)
def aimedOtherwise (env : Env) (table : Placeholder) (target : Option LoopTarget) :
    Option Action → Option (Emit Unit)
  | none => none
  | some a => some (Action.aimed env table target a)
def ActionKind.aimed (env : Env) (table : Placeholder) (target : Option LoopTarget) :
    ActionKind → Emit Unit
  | .nop => pure ()
  | .block body closed =>
    if closed then Emit.inScope (aimedRunAll env table target body)
    else aimedRunAll env table target body
  | .declare vars init => Action.declare env vars (aimedInit env table target init)
  | .assign targets source =>
    Action.assign (aimedCode env table target targets) (aimedCode env table target source)
  | .update op place source before operand after =>
    Action.update env op (aimedCode env table target place) (aimedCode env table target source)
      before operand after
  | .synonym name other => Action.synonym env name (aimedCode env table target other)
  | .branch cond yes no =>
    Action.branch (Cond.aimed env table target cond) (Action.aimed env table target yes)
      (aimedOtherwise env table target no)
  | .loop body => Action.loopTo fun inner => Action.aimed env table (some inner) body
  | .breakLoop => Action.breakTo target
  | .continueLoop => Action.continueTo target
  | .enumerate starter body =>
    Action.enumerateTo env (aimedParts env table target starter) fun inner =>
      Action.aimed env table (some inner) body
  | .inline parts => Action.inline env (aimedParts env table target parts)
end

/-- Arguments of macros are written outside of all loops. -/
def aimedPlaceholders (env : Env) (deferred : List (Option Expr)) : (rounds : Nat) → Placeholder
  | 0, _ => none
  | rounds + 1, id => match deferred[id]? with
    | some (some e) => some (aimedCode env (aimedPlaceholders env deferred rounds) none e)
    | _ => none

/-- What is known of the loops around some code: nothing, that none is meant by a jump in it, or that the
one at some position is. -/
inductive Place where
  | anywhere
  | outside
  | inside (loop : Position)

namespace Place

def body (loop : Position) : Place → Place
  | anywhere => anywhere
  | _ => inside loop

/-- The place of code that runs wherever its value is used. -/
def apart : Place → Place
  | anywhere => anywhere
  | _ => outside

/-- Whether a jump may stand here. -/
def takes (J : Position → Position → Bool) (jump : Position) : Place → Bool
  | anywhere => true
  | outside => false
  | inside loop => J jump loop

@[simp] theorem apart_apart (p : Place) : p.apart.apart = p.apart := by cases p <;> rfl

@[simp] theorem body_apart (p : Place) (loop : Position) : (p.body loop).apart = p.apart := by
  cases p <;> rfl

@[simp] theorem apart_body (p : Place) (loop : Position) : p.apart.body loop = p.body loop := by
  cases p <;> rfl

theorem apart_anywhere {p : Place} (any : p = .anywhere) : p.apart = .anywhere := by
  rw [any, apart]

theorem ne_outside {p : Place} (taken : p.takes J jump = true) : p ≠ .outside := by
  rintro rfl
  cases taken

/-- What follows for two parts from each of them follows from both. -/
theorem both {A : Prop} {x y x' y' : Bool} (h : A ∨ (x && y) = true) (first : A ∨ x = true → x' = true)
    (second : A ∨ y = true → y' = true) : (x' && y') = true := by
  rw [Bool.and_eq_true] at h ⊢
  exact ⟨first (h.imp_right And.left), second (h.imp_right And.right)⟩

end Place

mutual
/-- Whether jumps stand only where they may: in the body of a loop to which `J` relates them, or directly
in the statement if its place takes them. -/
def Leaf.fits (J : Position → Position → Bool) (p : Place) : Leaf → Bool
  | .const _ | .var .. | .builtin .. | .sink .. | .deferred .. => true
  | .field base _ | .isInstance base .. | .cast base _ | .retype base _ => exprFits J p base
  | .chain _ head _ tail => exprFits J p head && operandsFit J p tail
  | .test cond _ => Cond.fits J p cond
  | .inline parts _ => partsFit J p parts
  | .call _ copies body => copiesFit J p.apart copies && exprFits J p.apart body
  | .seq _ body result => actionsFit J p body && exprFits J p result
def pieceFits (J : Position → Position → Bool) (p : Place) : Piece Leaf → Bool
  | .whole leaf => Leaf.fits J p leaf
  | .view leaf _ _ => Leaf.fits J p leaf
def exprFits (J : Position → Position → Bool) (p : Place) : List (Piece Leaf) → Bool
  | [] => true
  | q :: rest => pieceFits J p q && exprFits J p rest
def operandFits (J : Position → Position → Bool) (p : Place) : Operand → Bool
  | .mk expr _ _ => exprFits J p expr
def operandsFit (J : Position → Position → Bool) (p : Place) : List Operand → Bool
  | [] => true
  | o :: rest => operandFits J p o && operandsFit J p rest
def Cond.fits (J : Position → Position → Bool) (p : Place) : Cond → Bool
  | .const _ => true
  | .compare _ left right => exprFits J p left && exprFits J p right
  | .logic _ left right => Cond.fits J p left && Cond.fits J p right
  | .not c => Cond.fits J p c
def partFits (J : Position → Position → Bool) (p : Place) : Part → Bool
  | .text _ => true
  | .expr e => exprFits J p e
def partsFit (J : Position → Position → Bool) (p : Place) : List Part → Bool
  | [] => true
  | q :: rest => partFits J p q && partsFit J p rest
def copyFits (J : Position → Position → Bool) (p : Place) : Copy → Bool
  | .mk source _ => exprFits J p source
def copiesFit (J : Position → Position → Bool) (p : Place) : List Copy → Bool
  | [] => true
  | c :: rest => copyFits J p c && copiesFit J p rest
def Action.fits (J : Position → Position → Bool) (p : Place) : Action → Bool
  | .mk pos kind => ActionKind.fits J p pos kind
def actionsFit (J : Position → Position → Bool) (p : Place) : List Action → Bool
  | [] => true
  | a :: rest => Action.fits J p a && actionsFit J p rest
def initFits (J : Position → Position → Bool) (p : Place) : Option (List (Piece Leaf)) → Bool
  | none => true
  | some e => exprFits J p e
def otherwiseFits (J : Position → Position → Bool) (p : Place) : Option Action → Bool
  | none => true
  | some a => Action.fits J p a
def ActionKind.fits (J : Position → Position → Bool) (p : Place) (pos : Position) : ActionKind → Bool
  | .nop => true
  | .block body _ => actionsFit J p body
  | .declare _ init => initFits J p init
  | .assign targets source => exprFits J p.apart targets && exprFits J p source
  | .update _ target source _ _ _ => exprFits J p target && exprFits J p source
  | .synonym _ target => exprFits J p.apart target
  | .branch cond yes no => Cond.fits J p cond && Action.fits J p yes && otherwiseFits J p no
  | .loop body => Action.fits J (p.body pos) body
  | .breakLoop | .continueLoop => p.takes J pos
  | .enumerate starter body => partsFit J p starter && Action.fits J (p.body pos) body
  | .inline parts => partsFit J p parts
end

variable {J : Position → Position → Bool}

mutual
/-- Jumps may stand anywhere, or where a loop is around code that has none for it. -/
theorem Leaf.fits_wider : (leaf : Leaf) →
    p = .anywhere ∨ leaf.fits J p.apart = true → leaf.fits J p = true
  | .const _, _ | .var .., _ | .builtin .., _ | .sink .., _ | .deferred .., _ => rfl
  | .field base _, h | .isInstance base .., h | .cast base _, h | .retype base _, h =>
    exprFits_wider base h
  | .chain _ head _ tail, h => Place.both h (exprFits_wider head) (operandsFit_wider tail)
  | .test cond _, h => Cond.fits_wider cond h
  | .inline parts _, h => partsFit_wider parts h
  | .call _ copies body, h =>
    Place.both (h.imp_left Place.apart_anywhere) (copiesFit_wider copies) (exprFits_wider body)
  | .seq _ body result, h => Place.both h (actionsFit_wider body) (exprFits_wider result)
theorem exprFits_wider : (e : List (Piece Leaf)) →
    p = .anywhere ∨ exprFits J p.apart e = true → exprFits J p e = true
  | [], _ => rfl
  | .whole leaf :: rest, h | .view leaf _ _ :: rest, h =>
    Place.both h (Leaf.fits_wider leaf) (exprFits_wider rest)
theorem operandsFit_wider : (tail : List Operand) →
    p = .anywhere ∨ operandsFit J p.apart tail = true → operandsFit J p tail = true
  | [], _ => rfl
  | .mk expr _ _ :: rest, h => Place.both h (exprFits_wider expr) (operandsFit_wider rest)
theorem Cond.fits_wider : (c : Cond) →
    p = .anywhere ∨ c.fits J p.apart = true → c.fits J p = true
  | .const _, _ => rfl
  | .compare _ left right, h => Place.both h (exprFits_wider left) (exprFits_wider right)
  | .logic _ left right, h => Place.both h (Cond.fits_wider left) (Cond.fits_wider right)
  | .not c, h => Cond.fits_wider c h
theorem partsFit_wider : (parts : List Part) →
    p = .anywhere ∨ partsFit J p.apart parts = true → partsFit J p parts = true
  | [], _ => rfl
  | .text _ :: rest, h => Place.both h (fun _ => rfl) (partsFit_wider rest)
  | .expr e :: rest, h => Place.both h (exprFits_wider e) (partsFit_wider rest)
theorem copiesFit_wider : (copies : List Copy) →
    p = .anywhere ∨ copiesFit J p.apart copies = true → copiesFit J p copies = true
  | [], _ => rfl
  | .mk source _ :: rest, h => Place.both h (exprFits_wider source) (copiesFit_wider rest)
theorem Action.fits_wider : (a : Action) →
    p = .anywhere ∨ a.fits J p.apart = true → a.fits J p = true
  | .mk pos kind, h => ActionKind.fits_wider pos kind h
theorem actionsFit_wider : (body : List Action) →
    p = .anywhere ∨ actionsFit J p.apart body = true → actionsFit J p body = true
  | [], _ => rfl
  | a :: rest, h => Place.both h (Action.fits_wider a) (actionsFit_wider rest)
theorem ActionKind.fits_wider (pos : Position) :
    (kind : ActionKind) → p = .anywhere ∨ kind.fits J p.apart pos = true → kind.fits J p pos = true
  | .nop, _ | .declare _ none, _ => rfl
  | .block body _, h => actionsFit_wider body h
  | .declare _ (some e), h => exprFits_wider e h
  | .assign targets source, h =>
    Place.both h (fun h => exprFits_wider targets (h.imp_left Place.apart_anywhere))
      (exprFits_wider source)
  | .update _ target source _ _ _, h => Place.both h (exprFits_wider target) (exprFits_wider source)
  | .synonym _ target, h => exprFits_wider target (h.imp_left Place.apart_anywhere)
  | .branch cond yes none, h =>
    Place.both h (fun h => Place.both h (Cond.fits_wider cond) (Action.fits_wider yes)) fun _ => rfl
  | .branch cond yes (some no), h =>
    Place.both h (fun h => Place.both h (Cond.fits_wider cond) (Action.fits_wider yes))
      (Action.fits_wider no)
  | .loop body, h => Action.body_fits_wider pos body h
  | .breakLoop, h | .continueLoop, h => by
    rw [ActionKind.fits] at h ⊢
    cases p with
    | anywhere => rfl
    | outside | inside loop => exact absurd h (by simp [Place.apart, Place.takes])
  | .enumerate starter body, h => Place.both h (partsFit_wider starter) (Action.body_fits_wider pos body)
  | .inline parts, h => partsFit_wider parts h
theorem Action.body_fits_wider {p : Place} (pos : Position) :
    (body : Action) → p = .anywhere ∨ body.fits J (p.apart.body pos) = true →
      body.fits J (p.body pos) = true
  | .mk pos' kind, h => by
    rw [Place.apart_body] at h
    rcases h with rfl | fits
    · exact ActionKind.fits_wider pos' kind (.inl rfl)
    · exact fits
end

end AgentScript
