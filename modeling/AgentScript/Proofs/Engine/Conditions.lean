import AgentScript.Code.Generate
import AgentScript.Proofs.Engine.Emission
import AgentScript.Proofs.Types.Reachable

/-! Conditions on literals and variables, nested in any way. Tests have no brackets, so that a test has a
single connective, and what has another one inside is computed first, in a register that stays in use
until the test is made. Run after the lines before it, the test tells the truth of the condition, or of
its negation where that is meant. -/
namespace AgentScript

section
variable {N S A : Type}

def Engine.truth (E : Engine N S A) (b : Bool) : Datum N S A := .number (E.int (if b then 1 else 0))

theorem Engine.compare_truth (E : Engine N S A) (b c : Bool) :
    E.compare .eq (E.truth b) (E.truth c) = (b == c) := by
  cases b <;> cases c <;> simp [truth, E.compare_int]

/-- The value of a literal or a variable. -/
def Expr.inlineValue? (E : Engine N S A) (s : Ctx) (σ : Scene N S A) : Expr → Option (Datum N S A)
  | [.whole (.const c)] => some (E.value c.value)
  | [.whole (.var handle _ _)] => (s.registerOf? handle).map σ.cells
  | _ => none

/-- The truth of a condition on literals and variables. -/
def Cond.truth? (E : Engine N S A) (s : Ctx) (σ : Scene N S A) : Cond → Option Bool
  | .const b => some b
  | .compare op left right => do
    return E.compare op (← Expr.inlineValue? E s σ left) (← Expr.inlineValue? E s σ right)
  | .logic op left right => do return op.apply (← Cond.truth? E s σ left) (← Cond.truth? E s σ right)
  | .not c => do return !(← Cond.truth? E s σ c)

theorem Registry.Sound.fits_truth {types : Registry} (sound : types.Sound) (E : Engine N S A) (b : Bool) :
    types.fits Registry.boolean (E.truth b) = true := by
  have stored := (sound.numbers (boolean, some integer) (by simp [numberTypes])).major
  rw [fits, stored]
  rfl

end

section
variable {N S A : Type} [DecidableEq A] {E : Engine N S A} {limit : Nat} {env : Env} {causes : Cause → Prop}
  {table : Placeholder} {s t u : Ctx} {σ σ' σ₁ : Scene N S A}

theorem Expr.inlineValue_supplies (env : Env) (table : Placeholder) {e : Expr}
    (found : e.inlineValue? E s σ = some v) (tidy : s.Tidy limit)
    (older : ∀ h r, s.registerOf? h = some r → h < limit) :
    (codeOf env table e).Supplies E.runner env limit causes s σ v := by
  intro t σ' inside kept
  have inline {e : Code} {a : Arg} (answer : Slot.inlineAt e.slots 0 false t = .ok (some a))
      (value : ∀ σ₂, t.Keeps (fun _ => False) σ'.cells σ₂.cells → E.arg? σ₂ a = some v) :
      Emit.Enacts E limit causes (fun _ => False) t σ' (e.toArg env) fun a u σ₁ =>
        ∀ σ₂, u.Keeps (fun _ => False) σ₁.cells σ₂.cells → E.arg? σ₂ a = some v :=
    .inspect_bind answer (.pure inside.tidy value)
  unfold inlineValue? at found
  split at found
  · cases found
    exact inline rfl fun _ _ => rfl
  · next handle ty writable =>
    obtain ⟨r, isBound, rfl⟩ := Option.map_eq_some_iff.mp found
    have live := tidy.disciplined.live isBound
    refine inline (a := .register r) ?_ fun σ₂ later => ?_
    · have bound : t.registerOf? handle = some r :=
        (inside.registers handle (older handle r isBound)).trans isBound
      change (handleArg handle t).map some = _
      rw [handleArg, bound]
      rfl
    · rw [E.arg?_register σ₂ live.1]
      exact congrArg some (kept.trans inside later r live id)
  · cases found

def Engine.judge (E : Engine N S A) : E.runner.Judge where
  compare := E.compare
  truth := E.truth
  compare_invert := E.compare_invert
  compare_truth := E.compare_truth
  arg?_truth _ _ := rfl
  choice := .choice

theorem Cond.decides (tidy : s.Tidy limit) (older : ∀ h r, s.registerOf? h = some r → h < limit)
    (refused : causes (.outOfSlots registerCount))
    (fits : ∀ b, env.types.fits Registry.boolean (E.truth b) = true) : (cond : Cond) → {b : Bool} →
    cond.truth? E s σ = some b → (Cond.code env table cond).Decides E.judge limit causes s σ b
  | .const b, _, found => by
    cases found
    exact .const b
  | .compare op left right, _, found => by
    simp only [truth?, Option.bind_eq_bind, Option.bind_eq_some_iff, Option.pure_def,
      Option.some.injEq] at found
    obtain ⟨v, isLeft, w, isRight, rfl⟩ := found
    exact .compare (Expr.inlineValue_supplies env table isLeft tidy older)
      (Expr.inlineValue_supplies env table isRight tidy older) op
  | .logic op left right, _, found => by
    simp only [truth?, Option.bind_eq_bind, Option.bind_eq_some_iff, Option.pure_def,
      Option.some.injEq] at found
    obtain ⟨a, isLeft, c, isRight, rfl⟩ := found
    exact (Cond.decides tidy older refused fits left isLeft).logic (W := E.values env.types causes)
      (Cond.decides tidy older refused fits right isRight) refused fits op
  | .not c, _, found => by
    simp only [truth?, Option.bind_eq_bind, Option.bind_eq_some_iff, Option.pure_def,
      Option.some.injEq] at found
    obtain ⟨a, isTruth, rfl⟩ := found
    exact (Cond.decides tidy older refused fits c isTruth).not

/-- The test of a condition has one connective, and after the lines before it it tells the truth of the
condition, or of its negation. Those lines write only registers that were free. The truth can be written
to a variable, also to one that the condition is about, and no other register in use is written. -/
theorem Cond.test_tells_truth (E : Engine N S A) {env : Env} (types : env.types.Reachable)
    (table : Placeholder) {p : Point} (reachable : p.Reachable)
    (older : ∀ h r, p.ctx.registerOf? h = some r → h < p.ctx.nextHandle) (σ : Scene N S A) {cond : Cond} {b : Bool}
    (isTruth : cond.truth? E p.ctx σ = some b) (invert : Bool) :
    let c := Cond.code env table cond
    Emit.Enacts E p.ctx.nextHandle (· = .outOfSlots registerCount) (fun _ => False) p.ctx σ (c.test invert)
      (fun test _ σ' => (∃ op, test.Uniform (some op)) ∧ E.test? σ' test = some (b != invert)) ∧
    ∀ out r, p.ctx.registerOf? out = some r →
      Emit.Enacts E p.ctx.nextHandle (· = .outOfSlots registerCount) (· = .register r) p.ctx σ
        (c.writeValue [varSlot env out true] invert) fun _ _ σ' => σ'.cells r = E.truth (b != invert) := by
  intro c
  have fits := types.sound.fits_truth E
  have tidy := reachable.tidy
  have decides : c.Decides E.judge p.ctx.nextHandle (· = .outOfSlots registerCount) p.ctx σ b :=
    Cond.decides tidy older (by rfl) fits cond isTruth
  refine ⟨(decides.test invert (.refl tidy) .refl).mono fun test t σ' _ _ ⟨uniform, tells⟩ =>
    ⟨?_, tells .refl⟩, fun out r isOut => ?_⟩
  · cases connective : c.connective invert with
    | some op => exact ⟨op, connective ▸ uniform⟩
    | none =>
      rw [connective] at uniform
      exact ⟨.and, fun q member => by cases uniform q member⟩
  · have targets : (varSlot env out true).Targets env p.ctx.nextHandle p.ctx r :=
      varSlot_targets (older out r isOut) isOut
    exact decides.writeValue (W := E.values env.types _) fits (.refl tidy) .refl targets.stores
      (tidy.disciplined.live isOut) invert

end

/-- The negation of a conjunction with a disjunction inside. The disjunction is computed first, and the
whole can be written to the variable that both are about. -/
theorem Cond.test_tells_truth_nested :
    let env : Env := ⟨.initial, .standard⟩
    let s := (Op.bind 1).perform ((Op.bind 0).perform (Ctx.start 0 2))
    let σ : Scene Int32 String Nat := ⟨⟨none, fun _ _ => .number 0⟩, fun r => .number (if r = 0 then 7 else 2)⟩
    let x := Expr.leaf (.var 0 Registry.integer true)
    let y := Expr.leaf (.var 1 Registry.integer true)
    let int (n : Int32) := Expr.const ⟨.int n, Registry.integer⟩
    let cond := Cond.not (.logic .and (.compare .eq x (int 7))
      (.logic .or (.compare .lt y (int 2)) (.compare .ne x (int 5))))
    let c := Cond.code env (fun _ => none) cond
    let writes := c.writeValue [varSlot env 0 true] true
    (∃ test code σ', (c.test true).run s = (.ok test, ((c.test true).run s).2) ∧
      ((c.test true).run s).2.lines = s.lines ++ code ∧ Engine.simple.run ⟨σ, []⟩ code = some ⟨σ', []⟩ ∧
        Engine.simple.test? σ' test = some true ∧ σ'.cells 0 = .number 7) ∧
      (writes.run s).1 = .ok () ∧ ∃ code σ', (writes.run s).2.lines = s.lines ++ code ∧
        Engine.simple.run ⟨σ, []⟩ code = some ⟨σ', []⟩ ∧ σ'.cells 0 = .number 1 ∧ σ'.cells 1 = .number 2 := by
  intro env s σ x y int cond c writes
  obtain ⟨reachable, older, live, live'⟩ := Point.reachable_two
  have isTruth : cond.truth? Engine.simple s σ = some false := by decide +kernel
  have types : env.types.Reachable := .initial
  obtain ⟨tested, written⟩ :=
    Cond.test_tells_truth Engine.simple types (fun _ => none) reachable older σ isTruth true
  obtain ⟨test, ran⟩ : ∃ a, (c.test true).run s = (.ok a, ((c.test true).run s).2) :=
    Emit.run_of_toBool (by decide +kernel)
  obtain ⟨_, ran'⟩ : ∃ a, writes.run s = (.ok a, (writes.run s).2) := Emit.run_of_toBool (by decide +kernel)
  obtain ⟨code, σ', lines, _, spares, moves, _, tells⟩ := tested.found test _ ran
  obtain ⟨code', σ'', lines', _, spares', moves', holds⟩ := (written 0 0 rfl).found () _ ran'
  exact ⟨⟨test, code, σ', ran, lines, moves [] rfl, tells, spares.keeps moves 0 live id⟩,
    congrArg Prod.fst ran', code', σ'', lines', moves' [] rfl, holds,
    spares'.keeps moves' 1 live' nofun⟩

end AgentScript
