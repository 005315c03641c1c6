import AgentScript.Code.Generate
import AgentScript.Proofs.Running.Chains
import AgentScript.Proofs.Safety.Expression
import AgentScript.Proofs.Types.Reachable

/-! Chains of numbers and texts. The lines of a chain leave its value in the register that is wanted,
and it is the left fold of what the operands were worth before the first line was run, even if the
register is that of a variable among the operands. This does not depend on what the instructions make
of numbers and texts. -/
namespace AgentScript

/-- What a register holds. -/
inductive Cell (N S A : Type) where
  | number (n : N)
  | text (s : S)
  | agent (a : A)
  deriving DecidableEq

abbrev Cells (N S A : Type) := Nat → Cell N S A

def StoreOp.takes : StoreOp → Cell N S A → Bool
  | value, .number _ | string, .text _ | agent, .agent _ => true
  | _, _ => false

/-- What literals are, and what instructions make of numbers and texts. -/
structure Interpretation (N S : Type) where
  int : Int32 → N
  str : String → S
  arith : ChainOp → N → N → N
  /-- The text of a number. -/
  spell : N → S
  join : S → S → S

namespace Interpretation
variable (I : Interpretation N S) (ρ : Cells N S A)

/-- Applies an operator. A number that is added to a text, or a text to a number, becomes a text. -/
def combine (op : ChainOp) (a b : Cell N S A) : Option (Cell N S A) :=
  match op, a, b with
  | .add, .text s, .text t => some (.text (I.join s t))
  | .add, .text s, .number n => some (.text (I.join s (I.spell n)))
  | .add, .number n, .text t => some (.text (I.join (I.spell n) t))
  | op, .number m, .number n => some (.number (I.arith op m n))
  | _, _, _ => none

/-- The value of an argument. Other arguments are not for this machine. -/
def arg? : Arg → Option (Cell N S A)
  | .register slot => if slot < registerCount then some (ρ slot) else none
  | .literal (.int n) => some (.number (I.int n))
  | .literal (.str s) => some (.text (I.str s))
  | _ => none

def result? : Instr → Option (Cell N S A)
  | .store op _ input => (I.arg? ρ input).filter op.takes
  | .arith op target operand => do
    match ← I.arg? ρ target, ← I.arg? ρ operand with
    | .number m, .number n => some (.number (I.arith op m n))
    | _, _ => none
  | .toText target => do
    match ← I.arg? ρ target with
    | .number n => some (.text (I.spell n))
    | _ => none
  | .append target operand => do
    match ← I.arg? ρ target, ← I.arg? ρ operand with
    | .text s, .text t => some (.text (I.join s t))
    | _, _ => none
  | .appendNumber target operand => do
    match ← I.arg? ρ target, ← I.arg? ρ operand with
    | .text s, .number n => some (.text (I.join s (I.spell n)))
    | _, _ => none
  | _ => none

end Interpretation

def Instr.target? : Instr → Option Nat
  | store _ (.register slot) _ | arith _ (.register slot) _ | toText (.register slot)
  | append (.register slot) _ | appendNumber (.register slot) _ => some slot
  | _ => none

namespace Interpretation
variable (I : Interpretation N S)

def step (ρ : Cells N S A) (i : Instr) : Option (Cells N S A) := do
  let slot ← i.target?
  if slot < registerCount then return Function.update ρ slot (← I.result? ρ i) else none

def run (ρ : Cells N S A) : List Instr → Option (Cells N S A)
  | [] => some ρ
  | i :: rest => do run (← I.step ρ i) rest

theorem run_append (ρ : Cells N S A) (first second : List Instr) :
    I.run ρ (first ++ second) = (I.run ρ first).bind (I.run · second) := by
  induction first generalizing ρ with
  | nil => rfl
  | cons i rest ih =>
    simp only [List.cons_append, run, Option.bind_eq_bind]
    cases I.step ρ i with
    | none => rfl
    | some next => exact ih next

end Interpretation

section
variable (I : Interpretation N S) (vars : Nat → Option (Cell N S A))

mutual
/-- The value of a leaf, which for a chain is the left fold of the values of its operands. -/
def Leaf.cell? : Leaf → Option (Cell N S A)
  | .const ⟨.int n, _⟩ => some (.number (I.int n))
  | .const ⟨.str s, _⟩ => some (.text (I.str s))
  | .var handle _ _ => vars handle
  | .chain op head _ tail => do (← operandCells? tail).foldlM (I.combine op) (← exprCell? head)
  | _ => none
def pieceCell? : Piece Leaf → Option (Cell N S A)
  | .whole leaf => Leaf.cell? leaf
  | .view .. => none
def exprCell? : List (Piece Leaf) → Option (Cell N S A)
  | [p] => pieceCell? p
  | _ => none
def operandCell? : Operand → Option (Cell N S A)
  | .mk expr _ _ => exprCell? expr
def operandCells? : List Operand → Option (List (Cell N S A))
  | [] => some []
  | o :: rest => do
    let first ← operandCell? o
    return first :: (← operandCells? rest)
end

end

/-- A number is of type `integer`, and a text of type `string`. -/
def Cell.Has (ty : TypeId) : Cell N S A → Prop
  | number _ => ty = Registry.integer
  | text _ => ty = Registry.string
  | agent _ => False

/-- Whole numbers, texts, variables that hold what their type says, and chains of such. -/
inductive Expr.Chains (types : Registry) (vars : Nat → Option (Cell N S A)) : Expr → Prop
  | int (n : Int32) : Chains types vars (Expr.const ⟨.int n, Registry.integer⟩)
  | str (s : String) : Chains types vars (Expr.const ⟨.str s, Registry.string⟩)
  | var {handle : Nat} {ty : TypeId} {c : Cell N S A} (writable : Bool) :
    vars handle = some c → c.Has ty → Chains types vars (Expr.leaf (.var handle ty writable))
  | chain {op : ChainOp} {operands : List Expr} {leaf : Leaf} :
    Leaf.mkChain types op operands = .ok leaf → (∀ e ∈ operands, Chains types vars e) →
    Chains types vars (Expr.leaf leaf)

namespace Registry

/-- What chains ask of the types of numbers and texts. -/
structure Separates (r : Registry) : Prop where
  integer_integer : r.canCast integer integer = true
  integer_number : r.canCast integer number = true
  integer_text : r.canCast integer string = false
  text_text : r.canCast string string = true
  text_number : r.canCast string number = false
  text_integer : r.canCast string integer = false
  integer_major : r.major integer = .value
  text_major : r.major string = .string

theorem Casts.of_text {r : Registry} (sound : r.Sound) (casts : r.Casts string b) :
    b = any ∨ b = string ∨ (r.members? b).isSome := by
  cases casts with
  | toAny => exact .inl rfl
  | refl => exact .inr (.inl rfl)
  | ofUnion isUnion => simp [sound.text.members?] at isUnion
  | toUnion isUnion => exact .inr (.inr (by rw [isUnion]; rfl))
  | parent isParent => simp [sound.text.parents] at isParent

theorem Sound.separates {r : Registry} (sound : r.Sound) (ordered : r.Ordered) : r.Separates := by
  have whole := sound.numbers (integer, some number) (by simp [numberTypes])
  have numbers := sound.numbers (number, none) (by simp [numberTypes])
  have casts (t : TypeId) : r.canCast t t = true := ordered.canCast_iff.mpr (.refl t)
  have apart {t : TypeId} (notAny : t ≠ any) (notText : t ≠ string) (notUnion : r.members? t = none) :
      r.canCast string t = false := by
    refine Bool.eq_false_iff.mpr fun casts => ?_
    rcases (ordered.canCast_iff.mp casts).of_text sound with isAny | isText | isUnion
    · exact notAny isAny
    · exact notText isText
    · simp [notUnion] at isUnion
  have parent : number ∈ r.parents integer := by simp [whole.parents]
  refine ⟨casts _, ordered.canCast_iff.mpr (.parent parent (.refl _)), ?_, casts _, ?_, ?_, whole.major,
    sound.text.major⟩
  · exact ((Numeric.of_mem (by simp)).stores sound).notText
  · exact apart (by decide) (by decide) numbers.members?
  · exact apart (by decide) (by decide) whole.members?

end Registry

section
variable {N S A : Type} {I : Interpretation N S} {env : Env} {limit : Nat} {s : Ctx} {ρ : Cells N S A}
  {target : Nat} {op : ChainOp} {v w result : Cell N S A} {ty lt rt before : TypeId} {types : Registry}

theorem Cell.Has.type (has : v.Has ty) : ty = Registry.integer ∨ ty = Registry.string := by
  cases v with
  | number n => exact .inl has
  | text s => exact .inr has
  | agent a => cases has

/-- Adding to a text or adding a text gives a text; else both operands are numbers. -/
theorem ChainOp.stepType_cases (apart : types.Separates) {after : TypeId}
    (l : lt = Registry.integer ∨ lt = Registry.string) (r : rt = Registry.integer ∨ rt = Registry.string)
    (typed : op.stepType types lt rt = .ok after) :
    op = .add ∧ (lt = Registry.string ∨ rt = Registry.string) ∧ after = Registry.string ∨
      lt = Registry.integer ∧ rt = Registry.integer ∧ after = Registry.integer := by
  have same : numberType types Registry.integer Registry.integer = Registry.integer := by
    simp [numberType, apart.integer_integer]
  rcases l with rfl | rfl <;> rcases r with rfl | rfl <;> cases op <;>
    simp [stepType, Registry.checkCast, same, apart.integer_integer, apart.integer_number,
      apart.integer_text, apart.text_text, apart.text_number, apart.text_integer, bind, Except.bind, pure,
      Except.pure] at typed <;>
    simp [← typed]

/-- The operator is defined on values of types that it is defined on. -/
theorem Interpretation.combine_typed (apart : types.Separates) {after : TypeId} (l : v.Has lt)
    (r : w.Has rt) (typed : op.stepType types lt rt = .ok after) :
    ∃ result, I.combine op v w = some result ∧ result.Has after := by
  rcases op.stepType_cases apart l.type r.type typed with ⟨rfl, isText, rfl⟩ | ⟨rfl, rfl, rfl⟩
  · cases v with
    | agent a => cases l
    | text s => cases w with
      | agent b => cases r
      | number n | text t => exact ⟨_, rfl, rfl⟩
    | number m => cases w with
      | agent b => cases r
      | text t => exact ⟨_, rfl, rfl⟩
      | number n =>
        cases l
        cases r
        exact absurd isText (by decide)
  · cases v with
    | agent a => cases l
    | text s => exact absurd (show Registry.integer = Registry.string from l) (by decide)
    | number m => cases w with
      | agent b => cases r
      | text t => exact absurd (show Registry.integer = Registry.string from r) (by decide)
      | number n => exact ⟨.number (I.arith op m n), by cases op <;> rfl, rfl⟩

namespace Interpretation

theorem arg?_update {a : Arg} (other : a ≠ .register target) (ρ : Cells N S A) (v : Cell N S A) :
    I.arg? (Function.update ρ target v) a = I.arg? ρ a := by
  unfold arg?
  split
  · next slot =>
    have different : slot ≠ target := fun same => other (congrArg Arg.register same)
    rw [Function.update_of_ne different]
  all_goals rfl

theorem run_single {i : Instr} (isTarget : i.target? = some target) (small : target < registerCount)
    (result : I.result? ρ i = some v) : I.run ρ [i] = some (Function.update ρ target v) := by
  simp [run, step, isTarget, small, result]

/-- The lines of an operator leave what it makes of the target and the operand. -/
theorem run_lines (apart : types.Separates) (l : v.Has lt) (r : w.Has rt) {operand : Arg}
    (small : target < registerCount) (holds : ρ target = v) (isOperand : I.arg? ρ operand = some w)
    (other : operand ≠ .register target) (combined : I.combine op v w = some result) :
    I.run ρ (op.lines types lt rt (.register target) operand) = some (Function.update ρ target result) := by
  have here : I.arg? ρ (.register target) = some v := by rw [arg?, if_pos small, holds]
  cases v with
  | agent a => cases l
  | number m => cases w with
    | agent b => cases r
    | number n =>
      cases l
      cases r
      have same : op.lines types Registry.integer Registry.integer (.register target) operand =
          [.arith op (.register target) operand] := by
        cases op <;> simp [ChainOp.lines, apart.integer_text]
      have arith : result = .number (I.arith op m n) := by cases op <;> cases combined <;> rfl
      rw [same, arith]
      exact run_single rfl small (by simp [result?, here, isOperand])
    | text t =>
      cases l
      cases r
      cases op <;> cases combined
      have texts : I.run ρ [.toText (.register target)] =
          some (Function.update ρ target (.text (I.spell m))) :=
        run_single rfl small (by simp [result?, here])
      have joined : I.run (Function.update ρ target (.text (I.spell m))) [.append (.register target) operand] =
          some (Function.update ρ target (.text (I.join (I.spell m) t))) := by
        rw [run_single (v := .text (I.join (I.spell m) t)) rfl small, Function.update_idem]
        rw [result?, arg?_update other, isOperand]
        simp [arg?, small]
      simp only [ChainOp.lines, apart.integer_text, apart.text_text]
      rw [← List.singleton_append, run_append, texts, Option.bind_some, joined]
  | text u => cases w with
    | agent b => cases r
    | number n =>
      cases l
      cases r
      cases op <;> cases combined
      simp only [ChainOp.lines, apart.integer_text, apart.text_text]
      exact run_single rfl small (by simp [result?, here, isOperand])
    | text t =>
      cases l
      cases r
      cases op <;> cases combined
      simp only [ChainOp.lines, apart.text_text]
      exact run_single rfl small (by simp [result?, here, isOperand])

end Interpretation

/-- Whether a value can be stored as one of a type. -/
def Registry.fits (types : Registry) (ty : TypeId) (v : Cell N S A) : Bool :=
  match types.major ty with
  | .agent => StoreOp.agent.takes v
  | .string => StoreOp.string.takes v
  | .value => StoreOp.value.takes v
  | .byteString | .unknown => false

theorem Registry.fits_store (fit : types.fits ty v = true) :
    ∃ op : StoreOp, op.takes v = true ∧
      ∀ place input, storeInstr types ty place input = .ok (.store op place input) := by
  unfold fits at fit
  split at fit
  · next major => exact ⟨.agent, fit, fun _ _ => by rw [storeInstr, major]⟩
  · next major => exact ⟨.string, fit, fun _ _ => by rw [storeInstr, major]⟩
  · next major => exact ⟨.value, fit, fun _ _ => by rw [storeInstr, major]⟩
  · cases fit
  · cases fit

theorem Cell.Has.fits (apart : types.Separates) (has : v.Has ty) : types.fits ty v = true := by
  cases v with
  | agent a => cases has
  | number n =>
    cases has
    simp [Registry.fits, apart.integer_major, StoreOp.takes]
  | text u =>
    cases has
    simp [Registry.fits, apart.text_major, StoreOp.takes]

theorem Instr.place?_of_target {i : Instr} (isTarget : i.target? = some r) : i.place? = some (.register r) := by
  unfold target? at isTarget
  split at isTarget <;> cases isTarget <;> rfl

namespace Interpretation

theorem run_kept {ρ' : Cells N S A} (ran : I.run ρ code = some ρ')
    (other : ∀ i ∈ code, i.place? ≠ some (.register r)) : ρ' r = ρ r := by
  induction code generalizing ρ with
  | nil =>
    cases ran
    rfl
  | cons i rest ih =>
    obtain ⟨first, others⟩ := List.forall_mem_cons.mp other
    obtain ⟨middle, steps, ran⟩ := Option.bind_eq_some_iff.mp ran
    obtain ⟨slot, isTarget, steps⟩ := Option.bind_eq_some_iff.mp steps
    rw [ih ran others]
    split at steps
    · obtain ⟨v, _, isMiddle⟩ := Option.bind_eq_some_iff.mp steps
      cases isMiddle
      refine Function.update_of_ne ?_ _ _
      rintro rfl
      exact first (Instr.place?_of_target isTarget)
    · cases steps

abbrev runner (I : Interpretation N S) : Runner (Cells N S A) (Cell N S A) where
  cells := id
  arg? := I.arg?
  Moves code ρ ρ' := I.run ρ code = some ρ'
  arg?_register _ _ small := if_pos small
  arg?_literal _ _ v := by cases v <;> rfl
  nil _ := rfl
  append first second := by rw [run_append, first, Option.bind_some, second]
  kept := run_kept

def arithmetic (I : Interpretation N S) (apart : types.Separates) :
    (I.runner (A := A)).Arithmetic types (· = .outOfSlots registerCount) where
  Has ty v := v.Has ty
  stored {ty v r ρ a i} has small found made := by
    obtain ⟨op, takes, isInstr⟩ := Registry.fits_store (has.fits apart)
    cases (isInstr ..).symm.trans made
    have found : I.arg? ρ a = some v := found
    have result : I.result? ρ (.store op (.register r) a) = some v := by
      simp [result?, found, Option.filter, takes]
    exact ⟨_, run_single rfl small result, Function.update_self ..⟩
  unstored has made := by
    obtain ⟨op, _, isInstr⟩ := Registry.fits_store (has.fits apart)
    cases (isInstr ..).symm.trans made
  combine := I.combine
  lines l r combined small holds operand other :=
    ⟨_, run_lines apart l r small holds operand other combined, Function.update_self ..⟩
  outOfSlots := rfl

end Interpretation

def Ctx.contents (s : Ctx) (ρ : Cells N S A) (handle : Nat) : Option (Cell N S A) :=
  (s.registerOf? handle).map ρ

section
variable (I : Interpretation N S) (table : Placeholder)

/-- What is known of an operand: its type, its value and its code. -/
structure Expr.Valued (env : Env) (limit : Nat) (s : Ctx) (ρ : Cells N S A) (e : Expr) (ty : TypeId)
    (v : Cell N S A) : Prop where
  type : e.singleReadType = .ok ty
  cell : exprCell? I (s.contents ρ) e = some v
  has : v.Has ty
  yields : (codeOf env table e).Yields I.runner env limit (· = .outOfSlots registerCount) s ρ v

variable {I table}

theorem chainTail_folds (apart : env.types.Separates) (has : v.Has before) {es : List Expr}
    {tail : List Operand} (made : Leaf.chainTail env.types op before es = .ok tail)
    (each : ∀ e ∈ es, ∃ ty w, e.Valued I table env limit s ρ ty w) :
    ∃ ws result, operandCells? I (s.contents ρ) tail = some ws ∧ ws.foldlM (I.combine op) v = some result ∧
      result.Has (Leaf.resultType before tail) ∧
      Folds (I.arithmetic apart) limit s ρ op before v (operandCodes env table tail) result := by
  induction es generalizing before v tail with
  | nil =>
    cases made
    exact ⟨[], v, by rw [operandCells?], rfl, has, by rw [operandCodes]; exact .nil⟩
  | cons e rest ih =>
    obtain ⟨⟨ty, w, valued⟩, others⟩ := List.forall_mem_cons.mp each
    obtain ⟨ty', isType, made⟩ := bind_ok made
    cases valued.type.symm.trans isType
    split at made
    · cases made
    · next after typed =>
      obtain ⟨more, madeRest, made⟩ := bind_ok made
      cases made
      obtain ⟨next, combined, hasNext⟩ := I.combine_typed apart has valued.has typed
      obtain ⟨ws, result, cells, folded, hasResult, folds⟩ := ih hasNext madeRest others
      refine ⟨w :: ws, result, ?_, ?_, hasResult, ?_⟩
      · rw [operandCells?, operandCell?, valued.cell, cells]
        rfl
      · rw [List.foldlM_cons, combined]
        exact folded
      · rw [operandCodes, operandCode]
        exact .cons has valued.yields valued.has combined folds

theorem mkChain_valued (apart : env.types.Separates) {es : List Expr} {leaf : Leaf}
    (made : Leaf.mkChain env.types op es = .ok leaf)
    (each : ∀ e ∈ es, ∃ ty w, e.Valued I table env limit s ρ ty w) :
    ∃ ty v, (Expr.leaf leaf).Valued I table env limit s ρ ty v := by
  obtain ⟨head, rest, headType, tail, rfl, isType, madeTail, rfl⟩ := Leaf.mkChain_cases made
  obtain ⟨⟨headType', v, valued⟩, others⟩ := List.forall_mem_cons.mp each
  cases valued.type.symm.trans isType
  obtain ⟨ws, result, cells, folded, has, folds⟩ := chainTail_folds apart valued.has madeTail others
  refine ⟨Leaf.resultType headType tail, result, rfl, ?_, has, ?_⟩
  · rw [Expr.leaf, exprCell?, pieceCell?, Leaf.cell?, cells, valued.cell]
    exact folded
  · rw [Expr.leaf, codeOf, codeOf, pieceCode, Leaf.code]
    exact chain_yields valued.yields folds has _

theorem Expr.Chains.valued (apart : env.types.Separates) (tidy : s.Tidy limit)
    (older : ∀ h r, s.registerOf? h = some r → h < limit) {e : Expr}
    (chains : e.Chains env.types (s.contents ρ)) : ∃ ty v, e.Valued I table env limit s ρ ty v := by
  let W := (I.arithmetic (A := A) apart).toValues
  induction chains with
  | int n =>
    refine ⟨Registry.integer, .number (I.int n), rfl, ?_, rfl, ?_⟩
    · rw [Expr.const, Expr.leaf, exprCell?, pieceCell?, Leaf.cell?]
    · rw [Expr.const, Expr.leaf, codeOf, codeOf, pieceCode, Leaf.code]
      exact const_yields W _ rfl (fun _ => rfl) trivial
  | str text =>
    refine ⟨Registry.string, .text (I.str text), rfl, ?_, rfl, ?_⟩
    · rw [Expr.const, Expr.leaf, exprCell?, pieceCell?, Leaf.cell?]
    · rw [Expr.const, Expr.leaf, codeOf, codeOf, pieceCode, Leaf.code]
      exact const_yields W _ rfl (fun _ => rfl) trivial
  | @var handle ty c writable known has =>
    obtain ⟨r, bound, holds⟩ := Option.map_eq_some_iff.mp known
    refine ⟨ty, c, rfl, ?_, has, ?_⟩
    · rw [Expr.leaf, exprCell?, pieceCell?, Leaf.cell?, known]
    · rw [Expr.leaf, codeOf, codeOf, pieceCode, Leaf.code]
      refine var_yields W tidy (older handle r bound) has writable (fun {r'} bound' => ?_) fun {c'} failed => ?_
      · cases bound.symm.trans bound'
        exact holds
      · simp [handleArg, bound] at failed
  | chain made _ ih => exact mkChain_valued apart made ih

end

end

/-- Reading a chain into a variable, wherever in a script it stands: the lines that are written leave the
left fold of what the operands are worth before them in the register of the variable, which may be among
the operands at any depth. All other registers that are in use stay as they are. Only a lack of registers
can prevent that. -/
theorem Leaf.read_leaves_fold (I : Interpretation N S) {env : Env}
    (types : Registry.Reachable env.types) (table : Placeholder) {p : Point} (reachable : p.Reachable)
    (older : ∀ h r, p.ctx.registerOf? h = some r → h < p.ctx.nextHandle) (ρ : Cells N S A)
    {op : ChainOp} {operands : List Expr} {leaf : Leaf}
    (made : Leaf.mkChain env.types op operands = .ok leaf)
    (each : ∀ e ∈ operands, e.Chains env.types (p.ctx.contents ρ)) {out target : Nat}
    (isTarget : p.ctx.registerOf? out = some target) :
    let x := (leaf.code env table).read [varSlot env out true]
    (∀ t, x.run p.ctx = (.ok (), t) → ∃ code ρ' v, t.lines = p.ctx.lines ++ code ∧
      leaf.cell? I (p.ctx.contents ρ) = some v ∧ I.run ρ code = some ρ' ∧ ρ' target = v ∧
      ∀ r, p.ctx.pool.Live r → r ≠ target → ρ' r = ρ r) ∧
    ∀ f t, x.run p.ctx = (.error f, t) → f.cause = .outOfSlots registerCount := by
  have tidy := reachable.tidy
  have apart := types.sound.separates types.ordered
  have valued : ∃ ty v, (Expr.leaf leaf).Valued I table env p.ctx.nextHandle p.ctx ρ ty v :=
    mkChain_valued apart made fun e member => (each e member).valued apart tidy older
  obtain ⟨ty, v, valued⟩ := valued
  have targets : (varSlot env out true).Targets env p.ctx.nextHandle p.ctx target :=
    varSlot_targets (older out target isTarget) isTarget
  have runs := valued.yields.read (.refl tidy) .refl targets (tidy.disciplined.live isTarget)
  have cell := valued.cell
  rw [Expr.leaf, exprCell?, pieceCell?] at cell
  have same : ((codeOf env table (Expr.leaf leaf)).read [varSlot env out true]).run p.ctx =
      ((leaf.code env table).read [varSlot env out true]).run p.ctx := by
    obtain ⟨_, _, _, _, _, _, _, rfl⟩ := Leaf.mkChain_cases made
    rw [Expr.leaf, codeOf, codeOf, pieceCode, Leaf.code]
    exact Code.run_read_slot ..
  refine ⟨fun t ran => ?_, fun f t ran => ?_⟩ <;> rw [← same] at ran
  · obtain ⟨code, ρ', lines, _, spares, moves, holds⟩ := runs.found () t ran
    refine ⟨code, ρ', v, lines, cell, moves, holds, fun r live other => ?_⟩
    exact spares.keeps moves r live fun isRegister => other (Arg.register.inj isRegister)
  · exact runs.refused f t ran

/-- The text of a difference is added to another and put into the variable that the difference is of. -/
theorem Leaf.read_leaves_fold_aliased :
    let env : Env := ⟨.initial, .standard⟩
    let s := (Op.bind 1).perform ((Op.bind 0).perform (Ctx.start 0 2))
    let I : Interpretation Int32 String := ⟨id, id, ChainOp.applyInt, fun n => Text.int n.toInt, (· ++ ·)⟩
    let ρ : Cells Int32 String Empty := fun r => .number (if r = 0 then 7 else 2)
    let var (handle : Nat) := Expr.leaf (.var handle Registry.integer true)
    let difference := Leaf.chain .sub (var 0) Registry.integer
      [.mk (var 1) Registry.integer Registry.integer]
    let leaf := Leaf.chain .add (Expr.const ⟨.str "x", Registry.string⟩) Registry.string
      [.mk (Expr.leaf difference) Registry.integer Registry.string]
    let x := (leaf.code env fun _ => none).read [varSlot env 0 true]
    (x.run s).1 = .ok () ∧ ∃ code ρ', (x.run s).2.lines = s.lines ++ code ∧ I.run ρ code = some ρ' ∧
      ρ' 0 = .text "x5" ∧ ρ' 1 = ρ 1 := by
  intro env s I ρ var difference leaf x
  obtain ⟨reachable, older, _, live⟩ := Point.reachable_two
  have known (handle : Nat) (small : handle < 2) :
      (var handle).Chains env.types (s.contents ρ) := by
    refine .var (c := ρ handle) true ?_ rfl
    match handle, small with
    | 0, _ | 1, _ => rfl
  have inner : Leaf.mkChain env.types .sub [var 0, var 1] = .ok difference := rfl
  have nested : (Expr.leaf difference).Chains env.types (s.contents ρ) := .chain inner (by simp [known])
  have made : Leaf.mkChain env.types .add
      [Expr.const ⟨.str "x", Registry.string⟩, Expr.leaf difference] = .ok leaf := rfl
  have isTarget : s.registerOf? 0 = some 0 := rfl
  have each : ∀ e ∈ [Expr.const ⟨.str "x", Registry.string⟩, Expr.leaf difference],
      e.Chains env.types (s.contents ρ) := by simp [Expr.Chains.str, nested]
  have folded : leaf.cell? I (s.contents ρ) = some (.text "x5") := by decide +kernel
  obtain ⟨_, ran⟩ : ∃ a, x.run s = (.ok a, (x.run s).2) := Emit.run_of_toBool (by decide +kernel)
  obtain ⟨runs, _⟩ := Leaf.read_leaves_fold I .initial (fun _ => none) reachable older ρ made each isTarget
  obtain ⟨code, ρ', v, lines, value, ends, holds, kept⟩ := runs _ ran
  exact ⟨congrArg Prod.fst ran, code, ρ', lines, ends, holds.trans (Option.some.inj (value.symm.trans folded)),
    kept 1 live (by decide)⟩

end AgentScript
