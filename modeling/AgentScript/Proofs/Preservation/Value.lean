import AgentScript.Proofs.Running.Chains

/-! Code that computes numbers, on the machine for integers. What it computes depends on the values of
variables. -/
namespace AgentScript

abbrev Machine.runner : Runner Registers Int32 where
  cells := id
  arg? ρ a := a.number? ρ
  Moves := Machine.Moves
  arg?_register _ _ small := if_pos small
  arg?_literal _ _ v := by cases v <;> rfl
  nil := .nil
  append := .append
  kept moves other := Machine.run_kept (moves.run [] rfl) other

/-- A type that is stored as a number, if values of it can be stored at all. -/
structure Registry.Stores (r : Registry) (ty : TypeId) : Prop where
  major : r.major ty = .value ∨ r.major ty = .unknown
  notText : r.canCast ty Registry.string = false

theorem ChainOp.lines_number {types : Registry} {lt rt : TypeId} (l : types.Stores lt)
    (r : types.Stores rt) (op : ChainOp) (target operand : Arg) :
    op.lines types lt rt target operand = [.arith op target operand] := by
  cases op with
  | add => simp [ChainOp.lines, l.notText, r.notText]
  | _ => rfl

/-- Everything but a division can be computed. -/
def Machine.arithmetic (types : Registry) : Machine.runner.Arithmetic types fun _ => True where
  Has ty _ := types.Stores ty
  stored {ty v r ρ a i} stores small found made := by
    unfold storeInstr at made
    rcases stores.major with isValue | isUnknown
    · rw [isValue] at made
      cases made
      exact ⟨_, .store small found, Function.update_self ..⟩
    · rw [isUnknown] at made
      cases made
  unstored _ _ := trivial
  combine op a b := if op = .div then none else some (op.number a b)
  lines {op lt rt v w u r ρ a} l isNumber combined small holds operand _ := by
    rw [Option.ite_none_left_eq_some] at combined
    obtain ⟨known, result⟩ := combined
    have holds : ρ r = v := holds
    rw [ChainOp.lines_number l isNumber, ← Option.some.inj result, ← holds]
    exact ⟨_, .arith known small operand, Function.update_self ..⟩
  outOfSlots := trivial

section
variable {limit : Nat} {env : Env} {s : Ctx} {ρ : Registers} {ty before : TypeId} {v : Store → Int32}
  {op : ChainOp} {vs : List (Store → Int32)} {tail : List OperandCode}

theorem Emit.Runs.codes {causes : Cause → Prop} {out : Arg → Prop} {x : Emit α}
    {post : α → Ctx → Registers → Prop} (runs : Emit.Runs Machine.runner limit causes out s ρ x post) :
    Emit.Codes s ρ x fun a t ρ' => s.Inside limit t ∧ s.Keeps out ρ ρ' ∧ post a t ρ' := by
  refine ⟨fun a t ran => ?_⟩
  obtain ⟨code, ρ', lines, inside, spares, moves, here⟩ := runs.found a t ran
  exact ⟨code, lines, ρ', moves, inside, spares.keeps moves, here⟩

/-- Code for a number that depends on the values of variables. -/
structure Code.Denotes (env : Env) (limit : Nat) (e : Code) (v : Store → Int32) : Prop where
  yields : ∀ {s ρ}, s.Tidy limit →
    e.Yields Machine.runner env limit (fun _ => True) s ρ (v (s.store limit ρ))

theorem const_denotes (stores : env.types.Stores ty) (what : String) (n : Int32) :
    Code.Denotes env limit [.whole (constCode env what ⟨.int n, ty⟩)] fun _ => n :=
  ⟨fun _ => const_yields (Machine.arithmetic env.types).toValues what stores (fun _ => rfl) trivial⟩

theorem var_denotes {handle : Nat} (small : handle < limit) (stores : env.types.Stores ty)
    (writable : Bool) :
    Code.Denotes env limit [.whole (varCode env handle ty writable)] fun σ => σ handle := by
  refine ⟨fun {s ρ} tidy => var_yields (Machine.arithmetic env.types).toValues tidy small stores writable
    (fun {r} bound => ?_) fun _ => trivial⟩
  simp [Ctx.store, small, bound]

structure OperandCode.Denotes (env : Env) (limit : Nat) (o : OperandCode) (v : Store → Int32) :
    Prop where
  expr : o.expr.Denotes env limit v
  ty : env.types.Stores o.ty
  after : env.types.Stores o.after

def chainValue (op : ChainOp) (head : Store → Int32) (tail : List (Store → Int32)) : Store → Int32 :=
  fun σ => (tail.map (· σ)).foldl op.number (head σ)

theorem operands_fold (known : op ≠ .div) (tidy : s.Tidy limit)
    (denote : List.Forall₂ (OperandCode.Denotes env limit) tail vs) (stores : env.types.Stores before)
    (first : Int32) :
    Folds (Machine.arithmetic env.types) limit s ρ op before first tail
      ((vs.map (· (s.store limit ρ))).foldl op.number first) := by
  induction denote generalizing before first with
  | nil => exact .nil
  | cons here _ ih =>
    exact .cons stores (here.expr.yields tidy) here.ty (if_neg known) (ih here.after _)

theorem chain_denotes (known : op ≠ .div) {head : Code} (first : head.Denotes env limit v)
    {headType : TypeId} (stores : env.types.Stores headType)
    (denote : List.Forall₂ (OperandCode.Denotes env limit) tail vs) (result : env.types.Stores ty)
    (what : String) :
    Code.Denotes env limit [.whole (chainCode env what op head headType tail ty)] (chainValue op v vs) :=
  ⟨fun tidy => chain_yields (first.yields tidy) (operands_fold known tidy denote stores _) result what⟩

end

end AgentScript
