import AgentScript.Proofs.Context
import AgentScript.Proofs.Preservation.Source

/-! A machine for lines of code on integers. Lines in an arm that is not taken are skipped. -/
namespace AgentScript

abbrev Registers := Nat → Int32

/-- The number of an argument. Other arguments are not for this machine. -/
def Arg.number? (ρ : Registers) : Arg → Option Int32
  | register slot => if slot < registerCount then some (ρ slot) else none
  | literal (.int n) => some n
  | _ => none

def Atom.holds? (ρ : Registers) (a : Atom) : Option Bool := do
  return a.op.relates (← a.left.number? ρ) (← a.right.number? ρ)

/-- Connectives are applied from the left. -/
def Test.holdsFrom? (ρ : Registers) (first : Bool) : List (LogicOp × Atom) → Option Bool
  | [] => some first
  | (op, a) :: rest => do holdsFrom? ρ (op.connects first (← a.holds? ρ)) rest

def Test.holds? (ρ : Registers) (t : Test) : Option Bool := do
  holdsFrom? ρ (← t.first.holds? ρ) t.rest

def Instr.place? : Instr → Option Arg
  | store _ place _ | arith _ place _ | toText place | append place _ | appendNumber place _ => some place
  | _ => none

/-- An open branch: the arm that is read is run, none was run so far, or the rest is skipped. -/
inductive Arm where
  | running
  | waiting
  | finished
  deriving DecidableEq

structure Machine where
  registers : Registers
  arms : List Arm

namespace Machine

def isRunning (m : Machine) : Bool := m.arms.all (· = .running)

/-- A line that writes a register, if it is run. -/
def write (m : Machine) (slot : Nat) (v : Option Int32) : Option Machine :=
  if slot < registerCount then
    if m.isRunning then do return { m with registers := Function.update m.registers slot (← v) }
    else some m
  else none

def step (m : Machine) : Instr → Option Machine
  | .store .value (.register slot) input => m.write slot (input.number? m.registers)
  | .arith op (.register slot) operand =>
    if op = .div then none
    else m.write slot ((operand.number? m.registers).map (op.number (m.registers slot)))
  | .doif test =>
    if m.isRunning then do
      let arm := if ← test.holds? m.registers then Arm.running else .waiting
      return { m with arms := arm :: m.arms }
    else some { m with arms := .finished :: m.arms }
  | .otherwise => match m.arms with
    | [] => none
    | .waiting :: outer => some { m with arms := .running :: outer }
    | _ :: outer => some { m with arms := .finished :: outer }
  | .endi => match m.arms with
    | [] => none
    | _ :: outer => some { m with arms := outer }
  | _ => none

def run (m : Machine) : List Instr → Option Machine
  | [] => some m
  | i :: rest => do (← m.step i).run rest

theorem run_append (m : Machine) (first second : List Instr) :
    m.run (first ++ second) = (m.run first).bind (·.run second) := by
  induction first generalizing m with
  | nil => rfl
  | cons i rest ih =>
    simp only [List.cons_append, run, Option.bind_eq_bind]
    cases m.step i with
    | none => rfl
    | some next => exact ih next

end Machine

/-- Code that leads from some registers to others where it is run, and that can be skipped anywhere. -/
structure Machine.Moves (code : List Instr) (ρ ρ' : Registers) : Prop where
  run : ∀ arms, isRunning ⟨ρ, arms⟩ → Machine.run ⟨ρ, arms⟩ code = some ⟨ρ', arms⟩
  skip : ∀ m : Machine, ¬ m.isRunning → m.run code = some m

namespace Machine.Moves
variable {slot : Nat} {v w : Int32} {test : Test} {b : Bool} {arms : List Arm}

theorem nil (ρ : Registers) : Moves [] ρ ρ := ⟨fun _ _ => rfl, fun _ _ => rfl⟩

theorem append (first : Moves code ρ ρ₁) (second : Moves code' ρ₁ ρ₂) : Moves (code ++ code') ρ ρ₂ where
  run arms running := by
    rw [run_append, first.run arms running, Option.bind_some, second.run arms running]
  skip m skipped := by rw [run_append, first.skip m skipped, Option.bind_some, second.skip m skipped]

theorem write {i : Instr} (inside : slot < registerCount) {g : Registers → Option Int32}
    (steps : ∀ m : Machine, m.step i = m.write slot (g m.registers)) (found : g ρ = some v) :
    Moves [i] ρ (Function.update ρ slot v) where
  run arms running := by simp [Machine.run, steps, Machine.write, inside, running, found]
  skip m skipped := by simp [Machine.run, steps, Machine.write, inside, skipped]

theorem store (inside : slot < registerCount) {input : Arg} (found : input.number? ρ = some v) :
    Moves [.store .value (.register slot) input] ρ (Function.update ρ slot v) :=
  write (g := input.number?) inside (fun _ => rfl) found

theorem arith {op : ChainOp} (known : op ≠ .div) (inside : slot < registerCount) {operand : Arg}
    (found : operand.number? ρ = some w) :
    Moves [.arith op (.register slot) operand] ρ (Function.update ρ slot (op.number (ρ slot) w)) := by
  refine write (g := fun ρ => (operand.number? ρ).map (op.number (ρ slot))) inside (fun m => ?_) ?_
  · simp [Machine.step, known]
  · rw [found, Option.map_some]

theorem run_doif (found : test.holds? ρ = some b) (running : isRunning ⟨ρ, arms⟩) (rest : List Instr) :
    Machine.run ⟨ρ, arms⟩ (.doif test :: rest) =
      Machine.run ⟨ρ, (if b then .running else .waiting) :: arms⟩ rest := by
  simp [Machine.run, Machine.step, running, found]

theorem skip_doif {m : Machine} (skipped : ¬ m.isRunning) (rest : List Instr) :
    m.run (.doif test :: rest) = Machine.run { m with arms := .finished :: m.arms } rest := by
  simp [Machine.run, Machine.step, skipped]

theorem finished_ne : Arm.finished ≠ .running := nofun

theorem waiting_ne : Arm.waiting ≠ .running := nofun

theorem passed (moves : Moves code ρ ρ₁) {arm : Arm} (skipped : arm ≠ .running) (ρ' : Registers) (arms : List Arm) :
    Machine.run ⟨ρ', arm :: arms⟩ code = some ⟨ρ', arm :: arms⟩ :=
  moves.skip _ (by simp [isRunning, skipped])

theorem branch (found : test.holds? ρ = some b) (yes : Moves code ρ ρ₁) (no : Moves code' ρ ρ₂) :
    Moves (.doif test :: (code ++ .otherwise :: (code' ++ [.endi]))) ρ (if b then ρ₁ else ρ₂) where
  run arms running := by
    have inner : isRunning ⟨ρ, .running :: arms⟩ := running
    rw [run_doif found running, run_append]
    cases b with
    | true =>
      rw [if_pos rfl, yes.run _ inner, Option.bind_some, if_pos rfl]
      change Machine.run ⟨ρ₁, .finished :: arms⟩ (code' ++ [.endi]) = _
      rw [run_append, no.passed finished_ne]
      rfl
    | false =>
      rw [if_neg Bool.false_ne_true, yes.passed waiting_ne, Option.bind_some, if_neg Bool.false_ne_true]
      change Machine.run ⟨ρ, .running :: arms⟩ (code' ++ [.endi]) = _
      rw [run_append, no.run _ inner]
      rfl
  skip m skipped := by
    rw [skip_doif skipped, run_append, yes.passed finished_ne, Option.bind_some]
    change Machine.run ⟨m.registers, .finished :: m.arms⟩ (code' ++ [.endi]) = _
    rw [run_append, no.passed finished_ne]
    rfl

theorem branchOnly (found : test.holds? ρ = some b) (yes : Moves code ρ ρ₁) :
    Moves (.doif test :: (code ++ [.endi])) ρ (if b then ρ₁ else ρ) where
  run arms running := by
    have inner : isRunning ⟨ρ, .running :: arms⟩ := running
    rw [run_doif found running, run_append]
    cases b with
    | true =>
      rw [if_pos rfl, yes.run _ inner]
      rfl
    | false =>
      rw [if_neg Bool.false_ne_true, yes.passed waiting_ne]
      rfl
  skip m skipped := by
    rw [skip_doif skipped, run_append, yes.passed finished_ne]
    rfl

end Machine.Moves

theorem Machine.step_kept {m m' : Machine} {i : Instr} (stepped : m.step i = some m')
    (other : i.place? ≠ some (.register r)) : m'.registers r = m.registers r := by
  have writes {slot : Nat} {v : Option Int32} (different : r ≠ slot) (wrote : m.write slot v = some m') :
      m'.registers r = m.registers r := by
    unfold write at wrote
    split at wrote
    · split at wrote
      · obtain ⟨w, _, isNext⟩ := Option.bind_eq_some_iff.mp wrote
        cases isNext
        exact Function.update_of_ne different _ _
      · cases wrote
        rfl
    · cases wrote
  unfold step at stepped
  split at stepped
  · next slot _ => exact writes (fun same => other (same ▸ rfl)) stepped
  · next slot _ =>
    split at stepped
    · cases stepped
    · exact writes (fun same => other (same ▸ rfl)) stepped
  · split at stepped
    · obtain ⟨b, _, isNext⟩ := Option.bind_eq_some_iff.mp stepped
      cases isNext
      rfl
    · cases stepped
      rfl
  · split at stepped <;> cases stepped <;> rfl
  · split at stepped <;> cases stepped
    rfl
  · cases stepped

theorem Machine.run_kept {m m' : Machine} (ran : m.run code = some m')
    (other : ∀ i ∈ code, i.place? ≠ some (.register r)) : m'.registers r = m.registers r := by
  induction code generalizing m with
  | nil =>
    cases ran
    rfl
  | cons i rest ih =>
    obtain ⟨first, others⟩ := List.forall_mem_cons.mp other
    obtain ⟨next, stepped, ran⟩ := Option.bind_eq_some_iff.mp ran
    exact (ih ran others).trans (step_kept stepped first)

end AgentScript
