import AgentScript.Proofs.Preservation.Value
import AgentScript.Proofs.Running.Conditions

/-! Code that tests conditions on numbers, on the machine for integers. -/
namespace AgentScript

theorem CompareOp.relates_invert (op : CompareOp) (a b : Int32) :
    op.invert.relates a b = !op.relates a b := by
  cases op with
  | eq | ne => simp [CompareOp.invert, CompareOp.relates]
  | _ => simp [CompareOp.invert, CompareOp.relates, ← decide_not, Int32.not_lt, Int32.not_le]

theorem LogicOp.apply_eq (op : LogicOp) (a b : Bool) : op.apply a b = op.connects a b := by
  cases op <;> rfl

theorem Test.holds_eq (ρ : Registers) (t : Test) :
    Machine.runner.test? CompareOp.relates ρ t = t.holds? ρ := by
  have chained (first : Bool) (rest : List (LogicOp × Atom)) :
      Test.evalFrom? (Atom.holds? ρ) first rest = Test.holdsFrom? ρ first rest := by
    induction rest generalizing first with
    | nil => rfl
    | cons p rest ih => simp only [evalFrom?, holdsFrom?, LogicOp.apply_eq, ih]
  change t.eval? (Atom.holds? ρ) = _
  simp only [eval?, holds?, chained]

def Machine.judge : Machine.runner.Judge where
  compare := CompareOp.relates
  truth := truthNumber
  compare_invert := CompareOp.relates_invert
  compare_truth b c := by cases b <;> cases c <;> rfl
  arg?_truth _ _ := rfl
  choice holds yes no := .branch (Test.holds_eq .. ▸ holds) yes no

section
variable {limit : Nat} {env : Env} {c : CondCode} {b : Store → Bool}

/-- Code of a condition that depends on the values of variables. -/
structure CondCode.Denotes (limit : Nat) (c : CondCode) (b : Store → Bool) : Prop where
  constant : ∀ {k}, c.constant = some k → ∀ σ, b σ = k
  decides : ∀ {s ρ}, s.Tidy limit →
    c.Decides Machine.judge limit (fun _ => True) s ρ (b (s.store limit ρ))

namespace CondCode

theorem const_denotes (k : Bool) : (CondCode.const k).Denotes limit fun _ => k :=
  ⟨fun same _ => Option.some.inj same, fun _ => .const k⟩

theorem compare_denotes {left right : Code} {v w : Store → Int32} (l : left.Denotes env limit v)
    (r : right.Denotes env limit w) (op : CompareOp) :
    (CondCode.compare env op left right).Denotes limit fun σ => op.relates (v σ) (w σ) :=
  ⟨nofun, fun tidy => .compare ((l.yields tidy).supplies trivial) ((r.yields tidy).supplies trivial) op⟩

theorem not_denotes (denotes : c.Denotes limit b) : c.not.Denotes limit fun σ => !b σ :=
  ⟨nofun, fun tidy => (denotes.decides tidy).not⟩

theorem logic_denotes {left right : CondCode} {a : Store → Bool} (l : left.Denotes limit a)
    (r : right.Denotes limit b) (stores : env.types.Stores Registry.boolean) (op : LogicOp) :
    (CondCode.logic env op left right).Denotes limit fun σ => op.connects (a σ) (b σ) := by
  refine ⟨nofun, fun tidy => ?_⟩
  rw [← LogicOp.apply_eq]
  exact (l.decides tidy).logic (W := (Machine.arithmetic env.types).toValues) (r.decides tidy) trivial
    (fun _ => stores) op

end CondCode

theorem test_denotes (denotes : c.Denotes limit b) (stores : env.types.Stores Registry.boolean)
    (what : String) :
    Code.Denotes env limit [.whole (testCode env what c)] fun σ => truthNumber (b σ) :=
  ⟨fun tidy => test_yields (W := (Machine.arithmetic env.types).toValues) (denotes.decides tidy)
    (fun _ => stores) what⟩

end

end AgentScript
