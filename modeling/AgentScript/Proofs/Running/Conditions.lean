import AgentScript.Proofs.Running.Chains

/-! Code that tests conditions. Tests have no brackets, so that a test has a single connective, and what
has another one inside is computed first, in a register that stays in use until the test is made. -/
namespace AgentScript

/-- A test whose connectives are all the same one. -/
def Test.Uniform (op : Option LogicOp) (t : Test) : Prop := ∀ p ∈ t.rest, op = some p.1

namespace Test

/-- Connectives are applied from the left. -/
def evalFrom? (atom : Atom → Option Bool) (first : Bool) : List (LogicOp × Atom) → Option Bool
  | [] => some first
  | (op, a) :: rest => do evalFrom? atom (op.apply first (← atom a)) rest

def eval? (atom : Atom → Option Bool) (t : Test) : Option Bool := do
  evalFrom? atom (← atom t.first) t.rest

variable {atom : Atom → Option Bool}

theorem evalFrom?_append (first : Bool) (as bs : List (LogicOp × Atom)) :
    evalFrom? atom first (as ++ bs) = (evalFrom? atom first as).bind (evalFrom? atom · bs) := by
  induction as generalizing first with
  | nil => rfl
  | cons p rest ih =>
    simp only [List.cons_append, evalFrom?, Option.bind_eq_bind]
    cases atom p.2 with
    | none => rfl
    | some b => exact ih _

/-- What stands in front of a test can be connected last. -/
theorem evalFrom?_apply (op : LogicOp) (a c : Bool) {rest : List (LogicOp × Atom)}
    (uniform : ∀ p ∈ rest, some op = some p.1) :
    evalFrom? atom (op.apply a c) rest = (evalFrom? atom c rest).map (op.apply a) := by
  induction rest generalizing c with
  | nil => rfl
  | cons p rest ih =>
    obtain ⟨connective, b⟩ := p
    obtain ⟨same, others⟩ := List.forall_mem_cons.mp uniform
    cases same
    simp only [evalFrom?, Option.bind_eq_bind]
    cases atom b with
    | none => rfl
    | some d =>
      have assoc : connective.apply (connective.apply a c) d = connective.apply a (connective.apply c d) := by
        cases connective <;> simp [LogicOp.apply, Bool.and_assoc, Bool.or_assoc]
      simp only [Option.bind_some, assoc]
      exact ih _ others

theorem eval?_join {left right : Test} {op : LogicOp} (uniform : right.Uniform (some op))
    (l : left.eval? atom = some a) (r : right.eval? atom = some b) :
    (left.join op right).eval? atom = some (op.apply a b) := by
  simp only [eval?, Option.bind_eq_bind, Option.bind_eq_some_iff] at l r ⊢
  obtain ⟨first, leftFirst, leftRest⟩ := l
  obtain ⟨second, rightFirst, rightRest⟩ := r
  refine ⟨first, leftFirst, ?_⟩
  rw [join, evalFrom?_append, leftRest]
  simp only [Option.bind_some, evalFrom?, Option.bind_eq_bind, rightFirst]
  rw [evalFrom?_apply op a second uniform, rightRest]
  rfl

theorem eval?_atom (left : Arg) (op : CompareOp) (right : Arg) :
    (Test.atom left op right).eval? atom = atom ⟨left, op, right⟩ := by
  simp [eval?, Test.atom, evalFrom?]

theorem Uniform.join {left right : Test} {op : LogicOp} (l : left.Uniform (some op))
    (r : right.Uniform (some op)) : (left.join op right).Uniform (some op) := by
  intro p member
  rcases List.mem_append.mp member with inLeft | inRight
  · exact l p inLeft
  · rcases List.mem_cons.mp inRight with rfl | inRest
    · rfl
    · exact r p inRest

end Test

def Runner.test? (R : Runner Q V) (compare : CompareOp → V → V → Bool) (σ : Q) (t : Test) : Option Bool :=
  t.eval? fun a => do return compare a.op (← R.arg? σ a.left) (← R.arg? σ a.right)

theorem Runner.test?_atom {R : Runner Q V} {compare : CompareOp → V → V → Bool} {left right : Arg}
    (l : R.arg? σ left = some v) (r : R.arg? σ right = some w) (op : CompareOp) :
    R.test? compare σ (.atom left op right) = some (compare op v w) := by
  rw [test?, Test.eval?_atom]
  simp [l, r]

/-- How values are compared, and lines that follow tests. -/
structure Runner.Judge (R : Runner Q V) where
  compare : CompareOp → V → V → Bool
  /-- The number that stands for a truth value. -/
  truth : Bool → V
  compare_invert : ∀ op v w, compare op.invert v w = !compare op v w
  compare_truth : ∀ b c, compare .eq (truth b) (truth c) = (b == c)
  arg?_truth : ∀ σ b, R.arg? σ (.int (if b then 1 else 0)) = some (truth b)
  choice : ∀ {σ σ₁ σ₂ test b i i'}, R.test? compare σ test = some b → R.Moves [i] σ σ₁ → R.Moves [i'] σ σ₂ →
    R.Moves [.doif test, i, .otherwise, i', .endi] σ (if b then σ₁ else σ₂)

theorem Runner.Judge.arg?_one {R : Runner Q V} (J : R.Judge) (σ : Q) : R.arg? σ (.int 1) = some (J.truth true) :=
  J.arg?_truth σ true

theorem storeInstr_cases (types : Registry) (ty : TypeId) :
    (∃ op, ∀ place a, storeInstr types ty place a = .ok (.store op place a)) ∨
      ∀ place a, ∃ c, storeInstr types ty place a = .error c := by
  unfold storeInstr
  cases types.major ty with
  | agent | string | value => exact .inl ⟨_, fun _ _ => rfl⟩
  | byteString | unknown => exact .inr fun _ _ => ⟨_, rfl⟩

theorem LogicOp.apply_invert (op : LogicOp) (a b : Bool) :
    op.invert.apply (!a) (!b) = !op.apply a b := by
  cases op <;> simp [LogicOp.invert, LogicOp.apply]

section
variable {Q V : Type} {R : Runner Q V} {J : R.Judge} {limit : Nat} {causes : Cause → Prop} {env : Env}
  {s t : Ctx} {σ σ' : Q} {W : R.Values env.types causes} {out : Slot} {r : Nat} {b : Bool}

/-- A test that tells `b` for as long as the registers in use keep their values. -/
def Test.Tells (J : R.Judge) (s : Ctx) (σ : Q) (test : Test) (b : Bool) : Prop :=
  ∀ {σ'}, s.Keeps (fun _ => False) (R.cells σ) (R.cells σ') → R.test? J.compare σ' test = some b

/-- Code of a condition that is worth `b`, here and further inside. -/
structure CondCode.Decides (J : R.Judge) (limit : Nat) (causes : Cause → Prop) (s : Ctx) (σ : Q)
    (c : CondCode) (b : Bool) : Prop where
  constant : ∀ k, c.constant = some k → k = b
  test : ∀ invert {t σ'}, s.Inside limit t → s.Keeps (fun _ => False) (R.cells σ) (R.cells σ') →
    Emit.Runs R limit causes (fun _ => False) t σ' (c.test invert) fun test u σ₁ =>
      test.Uniform (c.connective invert) ∧ test.Tells J u σ₁ (b != invert)

/-- One of two numbers is stored in a register, as a test says. -/
theorem choice_runs {test : Test} (tidy : s.Tidy limit) (stores : out.Stores env limit s (.register r))
    (live : s.pool.Live r) (has : ∀ b, W.Has Registry.boolean (J.truth b))
    (holds : R.test? J.compare σ test = some b) :
    Emit.Runs R limit causes (· = .register r) s σ (do
      Emit.code 0 (.doif test) 1
      Slot.writeAt [out] 0 (.int 1) Registry.boolean
      Emit.code (-1) .otherwise 1
      Slot.writeAt [out] 0 (.int 0) Registry.boolean
      Emit.code (-1) .endi 0) fun _ _ σ' => R.cells σ' r = J.truth b := by
  have run {i : Instr} {before after : Int} (x : Emit Unit) (t : Ctx) :
      (Emit.code before i after >>= fun _ => x).run t = x.run ((Op.code before i after).perform t) := rfl
  have stored {t : Ctx} (same : s.Alike t) (n : Int32) :
      (Slot.writeAt [out] 0 (.int n) Registry.boolean).run t =
        (Emit.store env Registry.boolean (.register r) (.int n)).run t :=
    stores.write (.of_alike tidy same) (.int n) Registry.boolean
  rcases storeInstr_cases env.types Registry.boolean with ⟨op, makes⟩ | refuses
  · have written {t : Ctx} (same : s.Alike t) (n : Int32) (x : Emit Unit) :
        (Slot.writeAt [out] 0 (.int n) Registry.boolean >>= fun _ => x).run t =
          x.run ((Op.code 0 (.store op (.register r) (.int n)) 0).perform t) := by
      rw [Emit.run_bind, stored same, Emit.store, makes]
      rfl
    have coded (s : Ctx) (before : Int) (i : Instr) (after : Int) :
        ((Op.code before i after).perform s).lines = s.lines ++ [i] := Listing.lines_code ..
    obtain ⟨σ₁, moves, value⟩ := W.stored (has true) live.1 (J.arg?_truth σ true) (makes _ _)
    obtain ⟨σ₂, moves', value'⟩ := W.stored (has false) live.1 (J.arg?_truth σ false) (makes _ _)
    refine .written tidy (by rw [run, written (by rfl), run, written (by rfl)]; rfl) (by rfl) ?_
      (J.choice holds moves moves') (fun i member place isPlace => ?_) ?_
    · simp [coded]
    · simp only [List.mem_cons, List.not_mem_nil, or_false] at member
      rcases member with rfl | rfl | rfl | rfl | rfl <;> cases isPlace <;> rfl
    · cases b with
      | true => exact value
      | false => exact value'
  · obtain ⟨c, made⟩ := refuses (.register r) (.int 1)
    refine ⟨fun a t ran => ?_, fun f t ran => ?_⟩ <;>
      rw [run, Emit.run_bind, stored (by rfl), Emit.store, made] at ran <;> cases ran
    exact W.unstored (has true) made

namespace CondCode.Decides
variable {c left right : CondCode}

/-- The truth of a condition can be written to any register in use, also to one that it is about. -/
theorem writeValue (decides : c.Decides J limit causes s σ b) (has : ∀ b, W.Has Registry.boolean (J.truth b))
    (inside : s.Inside limit t) (kept : s.Keeps (fun _ => False) (R.cells σ) (R.cells σ'))
    (stores : out.Stores env limit t (.register r)) (live : t.pool.Live r) (invert : Bool) :
    Emit.Runs R limit causes (· = .register r) t σ' (c.writeValue [out] invert) fun _ _ σ₁ =>
      R.cells σ₁ r = J.truth (b != invert) := by
  unfold CondCode.writeValue
  split
  · next k isConst =>
    cases decides.constant k isConst
    exact stores.writeAt W inside.tidy live (has _) (J.arg?_truth σ' _)
  · have entered := Ctx.Inside.enter inside.tidy id
    refine .inScope inside.tidy (((decides.test invert (inside.trans entered) kept).widen fun _ => False.elim).bind
      fun test u σ₁ further _ ⟨_, tells⟩ => ?_)
    have within := entered.trans further
    exact choice_runs further.tidy (stores.inside within) (within.live r live) has (tells .refl)

/-- The part of a condition in a test with a given connective. -/
theorem clause (decides : c.Decides J limit causes s σ b) (refused : causes (.outOfSlots registerCount))
    (has : ∀ b, W.Has Registry.boolean (J.truth b)) (inside : s.Inside limit t)
    (kept : s.Keeps (fun _ => False) (R.cells σ) (R.cells σ')) (parent : LogicOp) (invert : Bool) :
    Emit.Runs R limit causes (fun _ => False) t σ' (c.clause env parent invert) fun test u σ₁ =>
      test.Uniform (some parent) ∧ test.Tells J u σ₁ (b != invert) := by
  unfold CondCode.clause
  split
  · next alone =>
    refine (decides.test invert inside kept).mono fun test u σ₁ _ _ ⟨uniform, tells⟩ => ⟨fun p member => ?_, tells⟩
    rw [uniform p member] at alone
    rw [decide_eq_true_eq.mp (Option.all_some.symm.trans alone)]
  · refine .temp_bind inside.tidy refused fun r t' taken live _ => ?_
    refine ((decides.writeValue has (inside.trans taken) kept (Slot.register_targets r).stores live invert).widen
      fun _ => Or.inl).bind fun _ u σ₁ further _ holds => .pure further.tidy ⟨List.forall_mem_nil _, fun {σ₂} same => ?_⟩
    have value : R.arg? σ₂ (.register r) = some (J.truth (b != invert)) := by
      rw [R.arg?_register σ₂ live.1, same r (further.live r live) id, holds]
    rw [Runner.test?_atom value (J.arg?_one σ₂), J.compare_truth, beq_true]

theorem const (b : Bool) : (CondCode.const b).Decides J limit causes s σ b where
  constant k isConst := (Option.some.inj isConst).symm
  test invert t σ' inside _ := by
    refine .pure inside.tidy ⟨List.forall_mem_nil _, fun {σ₁} _ => ?_⟩
    rw [Runner.test?_atom (J.arg?_one σ₁) (J.arg?_truth σ₁ _), J.compare_truth, Bool.true_beq]

theorem compare {e e' : Code} {v w : V} (l : e.Supplies R env limit causes s σ v)
    (r : e'.Supplies R env limit causes s σ w) (op : CompareOp) :
    (CondCode.compare env op e e').Decides J limit causes s σ (J.compare op v w) where
  constant := nofun
  test invert t σ' inside kept := by
    refine (l inside kept).bind fun a u σ₁ first same value => ?_
    refine (r (inside.trans first) (kept.trans inside same)).bind fun a' u' σ₂ second same' value' =>
      .pure second.tidy ⟨List.forall_mem_nil _, fun {σ₃} later => ?_⟩
    rw [Runner.test?_atom (value σ₃ (same'.trans second later)) (value' σ₃ later)]
    cases invert with
    | false => simp
    | true => simp [J.compare_invert]

theorem not (decides : c.Decides J limit causes s σ b) : c.not.Decides J limit causes s σ !b where
  constant := nofun
  test invert t σ' inside kept := by
    have same : (b != !invert) = ((!b) != invert) := by cases b <;> cases invert <;> rfl
    rw [← same]
    exact decides.test (!invert) inside kept

theorem logic {a : Bool} (l : left.Decides J limit causes s σ a) (r : right.Decides J limit causes s σ b)
    (refused : causes (.outOfSlots registerCount)) (has : ∀ b, W.Has Registry.boolean (J.truth b)) (op : LogicOp) :
    (CondCode.logic env op left right).Decides J limit causes s σ (op.apply a b) where
  constant := nofun
  test invert t σ' inside kept := by
    refine (l.clause refused has inside kept _ invert).bind fun test u σ₁ first same ⟨uniform, tells⟩ => ?_
    refine (r.clause refused has (inside.trans first) (kept.trans inside same) _ invert).bind
      fun test' w σ₂ second same' ⟨uniform', tells'⟩ => .pure second.tidy ⟨uniform.join uniform', fun later => ?_⟩
    have truth : (if invert then op.invert else op).apply (a != invert) (b != invert) = (op.apply a b != invert) := by
      cases invert with
      | false => simp
      | true => simp [LogicOp.apply_invert]
    rw [← truth]
    exact Test.eval?_join uniform' (tells (same'.trans second later)) (tells' later)

end CondCode.Decides

theorem test_yields {c : CondCode} (decides : c.Decides J limit causes s σ b)
    (has : ∀ b, W.Has Registry.boolean (J.truth b)) (what : String) :
    Code.Yields R env limit causes s σ [.whole (testCode env what c)] (J.truth b) where
  stable _ := rfl
  refused := nofun
  inline {a} found := by
    obtain ⟨k, isConst, rfl⟩ := Option.map_eq_some_iff.mp (Except.ok.inj found)
    cases decides.constant k isConst
    exact ⟨trivial, J.arg?_truth σ _⟩
  read inside kept targets live := by
    refine .of_run (Code.run_read_slot ..) ?_
    have runs := decides.writeValue has inside kept targets.stores live false
    rwa [Bool.bne_false] at runs

end

end AgentScript
