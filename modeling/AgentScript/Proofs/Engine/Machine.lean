import AgentScript.Proofs.Chains
import AgentScript.Proofs.Running.Conditions

/-! An engine that runs lines of code on registers, on `targ` and on the fields of agents. What it makes
of numbers and texts is left open, and so is how it compares values, but for two laws that tests rest
on. Lines in an arm that is not taken are skipped. -/
namespace AgentScript

/-- A value that a script works on. No agent at all is null. -/
abbrev Datum (N S A : Type) := Cell N S (Option A)

structure Engine (N S A : Type) extends Interpretation N S where
  float : Float32 → N
  bytes : List UInt8 → S
  /-- The agent that the script belongs to. -/
  owner : A
  sender : Datum N S A
  held : Datum N S A
  first : Datum N S A
  second : Datum N S A
  family : A → N
  genus : A → N
  species : A → N
  compare : CompareOp → Datum N S A → Datum N S A → Bool
  compare_invert : ∀ op a b, compare op.invert a b = !compare op a b
  compare_int : ∀ m n, compare .eq (.number (int m)) (.number (int n)) = (m == n)

/-- What lasts longer than a script: where `targ` points, and the fields of all agents. -/
structure Agents (N S A : Type) where
  target : Option A
  fields : A → Nat → Datum N S A

structure Scene (N S A : Type) extends Agents N S A where
  cells : Nat → Datum N S A

def Agents.set [DecidableEq A] (w : Agents N S A) (a : A) (slot : Nat) (v : Datum N S A) : Agents N S A :=
  { w with fields := Function.update w.fields a (Function.update (w.fields a) slot v) }

namespace Engine
variable {N S A : Type} (E : Engine N S A)

def value : Value → Datum N S A
  | .int n => .number (E.int n)
  | .float x => .number (E.float x)
  | .str s => .text (E.str s)
  | .bytes bs => .text (E.bytes bs)

/-- Variables that a script cannot change. -/
def fixed? : String → Option (Datum N S A)
  | "ownr" => some (.agent (some E.owner))
  | "null" => some (.agent none)
  | "from" => some E.sender
  | "_it_" => some E.held
  | "_p1_" => some E.first
  | "_p2_" => some E.second
  | _ => none

/-- Numbers that say of which class `targ` is. -/
def trait? : String → Option (A → N)
  | "fmly" => some E.family
  | "gnus" => some E.genus
  | "spcs" => some E.species
  | _ => none

def named? (w : Agents N S A) (name : String) : Option (Datum N S A) :=
  if name = "targ" then some (.agent w.target)
  else match E.fixed? name with
    | some v => some v
    | none => do return .number ((← E.trait? name) (← w.target))

/-- The value of an argument that is no register. Given text is not for this engine. -/
def ambient? (w : Agents N S A) : Arg → Option (Datum N S A)
  | .ownField slot => some (w.fields E.owner slot)
  | .targetField slot => w.target.map (w.fields · slot)
  | .name name => E.named? w name
  | .literal v => some (E.value v)
  | .register _ | .raw _ => none

def arg? (σ : Scene N S A) : Arg → Option (Datum N S A)
  | .register slot => if slot < registerCount then some (σ.cells slot) else none
  | a => E.ambient? σ.toAgents a

theorem arg?_register (σ : Scene N S A) {slot : Nat} (small : slot < registerCount) :
    E.arg? σ (.register slot) = some (σ.cells slot) := if_pos small

theorem arg?_of_ambient {σ : Scene N S A} {a : Arg} {v : Datum N S A}
    (found : E.ambient? σ.toAgents a = some v) : E.arg? σ a = some v := by
  cases a with
  | register slot => cases found
  | _ => exact found

end Engine

namespace Engine
variable {N S A : Type} (E : Engine N S A) [DecidableEq A]

/-- What becomes of the agents when a place that is no register is written. -/
def change? (w : Agents N S A) (v : Datum N S A) : Arg → Option (Agents N S A)
  | .ownField slot => some (w.set E.owner slot v)
  | .targetField slot => w.target.map (w.set · slot v)
  | .name name => match v with
    | .agent a => if name = "targ" then some { w with target := a } else none
    | _ => none
  | .register _ | .literal _ | .raw _ => none

def put? (σ : Scene N S A) (v : Datum N S A) : Arg → Option (Scene N S A)
  | .register slot =>
    if slot < registerCount then some { σ with cells := Function.update σ.cells slot v } else none
  | place => (E.change? σ.toAgents v place).map fun w => { σ with toAgents := w }

theorem put?_register (σ : Scene N S A) (v : Datum N S A) {slot : Nat} (small : slot < registerCount) :
    E.put? σ v (.register slot) = some { σ with cells := Function.update σ.cells slot v } := if_pos small

omit [DecidableEq A] in
/-- What a line leaves in its place. -/
def result? (σ : Scene N S A) : Instr → Option (Datum N S A)
  | .store op _ input => (E.arg? σ input).filter op.takes
  | .arith op place operand => do
    match ← E.arg? σ place, ← E.arg? σ operand with
    | .number m, .number n => some (.number (E.arith op m n))
    | _, _ => none
  | .toText place => do
    match ← E.arg? σ place with
    | .number n => some (.text (E.spell n))
    | _ => none
  | .append place operand => do
    match ← E.arg? σ place, ← E.arg? σ operand with
    | .text s, .text t => some (.text (E.join s t))
    | _, _ => none
  | .appendNumber place operand => do
    match ← E.arg? σ place, ← E.arg? σ operand with
    | .text s, .number n => some (.text (E.join s (E.spell n)))
    | _, _ => none
  | _ => none

def perform? (σ : Scene N S A) (i : Instr) : Option (Scene N S A) := do
  E.put? σ (← E.result? σ i) (← i.place?)

theorem perform?_store {σ σ' : Scene N S A} {op : StoreOp} {place a : Arg} {v : Datum N S A}
    (found : E.arg? σ a = some v) (takes : op.takes v = true) (put : E.put? σ v place = some σ') :
    E.perform? σ (.store op place a) = some σ' := by
  simp [perform?, result?, Instr.place?, Option.filter, found, takes, put]

variable {E}

/-- A register that is not the place of a line keeps its value. -/
theorem perform?_cells {σ σ' : Scene N S A} {i : Instr} (performed : E.perform? σ i = some σ')
    (other : i.place? ≠ some (.register r)) : σ'.cells r = σ.cells r := by
  simp only [perform?, Option.bind_eq_bind, Option.bind_eq_some_iff] at performed
  obtain ⟨v, _, place, isPlace, put⟩ := performed
  cases place with
  | register slot =>
    have different : r ≠ slot := by
      rintro rfl
      exact other isPlace
    simp only [put?, Option.ite_none_right_eq_some, Option.some.injEq] at put
    obtain ⟨_, rfl⟩ := put
    exact Function.update_of_ne different ..
  | _ =>
    simp only [put?, Option.map_eq_some_iff] at put
    obtain ⟨w, _, rfl⟩ := put
    rfl

/-- A line that writes a register leaves the agents alone. -/
theorem perform?_agents {σ σ' : Scene N S A} {i : Instr} (performed : E.perform? σ i = some σ')
    (register : ∀ place, i.place? = some place → ∃ r, place = .register r) : σ'.toAgents = σ.toAgents := by
  simp only [perform?, Option.bind_eq_bind, Option.bind_eq_some_iff] at performed
  obtain ⟨v, _, place, isPlace, put⟩ := performed
  obtain ⟨r, rfl⟩ := register place isPlace
  simp only [put?, Option.ite_none_right_eq_some, Option.some.injEq] at put
  obtain ⟨_, rfl⟩ := put
  rfl

end Engine

/-- A scene, and the arms that are open around the next line. -/
structure Stage (N S A : Type) where
  scene : Scene N S A
  arms : List Arm

namespace Engine
variable {N S A : Type} (E : Engine N S A)

def atom? (σ : Scene N S A) (a : Atom) : Option Bool := do
  return E.compare a.op (← E.arg? σ a.left) (← E.arg? σ a.right)

def test? (σ : Scene N S A) (t : Test) : Option Bool := t.eval? (E.atom? σ)

theorem test?_atom {σ : Scene N S A} {left right : Arg} {op : CompareOp} {v w : Datum N S A}
    (l : E.arg? σ left = some v) (r : E.arg? σ right = some w) :
    E.test? σ (.atom left op right) = some (E.compare op v w) := by
  rw [test?, Test.eval?_atom]
  simp [atom?, l, r]

variable [DecidableEq A]

def step (st : Stage N S A) : Instr → Option (Stage N S A)
  | .doif test =>
    if st.arms.all (· = .running) then do
      let arm := if ← E.test? st.scene test then Arm.running else .waiting
      return { st with arms := arm :: st.arms }
    else some { st with arms := .finished :: st.arms }
  | .otherwise => match st.arms with
    | [] => none
    | .waiting :: outer => some { st with arms := .running :: outer }
    | _ :: outer => some { st with arms := .finished :: outer }
  | .endi => match st.arms with
    | [] => none
    | _ :: outer => some { st with arms := outer }
  | i => if st.arms.all (· = .running) then do return { st with scene := ← E.perform? st.scene i } else some st

def run (st : Stage N S A) : List Instr → Option (Stage N S A)
  | [] => some st
  | i :: rest => do run (← E.step st i) rest

theorem run_append (st : Stage N S A) (first second : List Instr) :
    E.run st (first ++ second) = (E.run st first).bind (E.run · second) := by
  induction first generalizing st with
  | nil => rfl
  | cons i rest ih =>
    simp only [List.cons_append, run, Option.bind_eq_bind]
    cases E.step st i with
    | none => rfl
    | some next => exact ih next

/-- Code that leads from one scene to another wherever it is run. -/
def Moves (code : List Instr) (σ σ' : Scene N S A) : Prop :=
  ∀ arms : List Arm, arms.all (· = .running) = true → E.run ⟨σ, arms⟩ code = some ⟨σ', arms⟩

variable {E} {σ σ₁ σ₂ : Scene N S A}

namespace Moves

theorem nil (σ : Scene N S A) : E.Moves [] σ σ := fun _ _ => rfl

theorem append (first : E.Moves code σ σ₁) (second : E.Moves code' σ₁ σ₂) : E.Moves (code ++ code') σ σ₂ := by
  intro arms running
  rw [run_append, first arms running, Option.bind_some, second arms running]

theorem line {i : Instr} (performed : E.perform? σ i = some σ₁) : E.Moves [i] σ σ₁ := by
  intro arms running
  cases i with
  | doif | otherwise | endi => cases performed
  | _ => simp [run, step, running, performed]

theorem performed {i : Instr} (moves : E.Moves [i] σ σ₁) : E.perform? σ i = some σ₁ ∧ ∀ st, E.step st i =
    if st.arms.all (· = .running) then do return { st with scene := ← E.perform? st.scene i } else some st := by
  have ran := moves [] rfl
  cases i with
  | doif test => simp [run, step, Option.bind_eq_some_iff] at ran
  | otherwise | endi => cases ran
  | _ => exact ⟨by simpa [run, step, Option.bind_eq_some_iff] using ran, fun _ => rfl⟩

theorem choice {test : Test} {b : Bool} {i i' : Instr} (holds : E.test? σ test = some b) (yes : E.Moves [i] σ σ₁)
    (no : E.Moves [i'] σ σ₂) : E.Moves [.doif test, i, .otherwise, i', .endi] σ (if b then σ₁ else σ₂) := by
  intro arms running
  obtain ⟨performed, steps⟩ := yes.performed
  obtain ⟨performed', steps'⟩ := no.performed
  have each : (∀ arm ∈ arms, arm = .running) = True := eq_true (by simpa using running)
  have opened : E.step ⟨σ, arms⟩ (.doif test) = some ⟨σ, (if b then .running else .waiting) :: arms⟩ := by
    simp [step, each, holds]
  simp only [run, opened, Option.bind_eq_bind, Option.bind_some]
  cases b with
  | true =>
    have taken : E.step ⟨σ, .running :: arms⟩ i = some ⟨σ₁, .running :: arms⟩ := by
      rw [steps]
      simp [each, performed]
    have skipped : E.step ⟨σ₁, .finished :: arms⟩ i' = some ⟨σ₁, .finished :: arms⟩ := by
      rw [steps']
      simp
    rw [if_pos rfl, taken]
    change (E.step ⟨σ₁, .finished :: arms⟩ i').bind _ = _
    rw [skipped]
    rfl
  | false =>
    have skipped : E.step ⟨σ, .waiting :: arms⟩ i = some ⟨σ, .waiting :: arms⟩ := by
      rw [steps]
      simp
    have taken : E.step ⟨σ, .running :: arms⟩ i' = some ⟨σ₂, .running :: arms⟩ := by
      rw [steps']
      simp [each, performed']
    rw [if_neg Bool.false_ne_true, skipped]
    change (E.step ⟨σ, .running :: arms⟩ i').bind _ = _
    rw [taken]
    rfl

end Moves

/-- What every line keeps that is performed, a run keeps. -/
theorem run_keeps {P : Scene N S A → Prop} {st st' : Stage N S A} (ran : E.run st code = some st')
    (each : ∀ i ∈ code, ∀ σ σ', E.perform? σ i = some σ' → P σ → P σ') (here : P st.scene) : P st'.scene := by
  induction code generalizing st with
  | nil =>
    cases ran
    exact here
  | cons i rest ih =>
    obtain ⟨first, others⟩ := List.forall_mem_cons.mp each
    obtain ⟨next, stepped, ran⟩ := Option.bind_eq_some_iff.mp ran
    refine ih ran others ?_
    -- an arm is opened or closed, or the line is skipped, or it is performed
    unfold step at stepped
    split at stepped
    · split at stepped
      · obtain ⟨b, _, isNext⟩ := Option.bind_eq_some_iff.mp stepped
        cases isNext
        exact here
      · cases stepped
        exact here
    · split at stepped <;> cases stepped <;> exact here
    · split at stepped
      · cases stepped
      · cases stepped
        exact here
    · split at stepped
      · obtain ⟨σ, performed, isNext⟩ := Option.bind_eq_some_iff.mp stepped
        cases isNext
        exact first _ σ performed here
      · cases stepped
        exact here

theorem run_cells {st st' : Stage N S A} (ran : E.run st code = some st')
    (other : ∀ i ∈ code, i.place? ≠ some (.register r)) : st'.scene.cells r = st.scene.cells r :=
  run_keeps (P := fun σ => σ.cells r = st.scene.cells r) ran
    (fun i member _ _ performed same => (perform?_cells performed (other i member)).trans same) rfl

variable (E) in
abbrev runner : Runner (Scene N S A) (Datum N S A) where
  cells := Scene.cells
  arg? := E.arg?
  Moves := E.Moves
  arg?_register σ _ small := E.arg?_register σ small
  arg?_literal _ _ _ := rfl
  nil := .nil
  append := .append
  kept moves other := run_cells (moves [] rfl) other

theorem run_agents {st st' : Stage N S A} (ran : E.run st code = some st')
    (registers : ∀ i ∈ code, ∀ place, i.place? = some place → ∃ r, place = .register r) :
    st'.scene.toAgents = st.scene.toAgents :=
  run_keeps (P := fun σ => σ.toAgents = st.scene.toAgents) ran
    (fun i member _ _ performed same => (perform?_agents performed (registers i member)).trans same) rfl

end Engine

/-- An engine for whole numbers, on agents that are numbered and of no class. -/
def Engine.simple : Engine Int32 String Nat where
  int := id
  str := id
  arith := ChainOp.applyInt
  spell n := Text.int n.toInt
  join := (· ++ ·)
  float _ := 0
  bytes := Value.bytesText
  owner := 0
  sender := .agent none
  held := .agent none
  first := .number 0
  second := .number 0
  family _ := 0
  genus _ := 0
  species _ := 0
  compare op a b := op.holds <| match a, b with
    | .number m, .number n => Ord.compare m.toInt n.toInt
    | a, b => if a = b then .eq else .lt
  compare_invert op a b := by
    cases op <;> simp [CompareOp.invert, CompareOp.holds, bne]
  compare_int m n := by
    by_cases same : m = n
    · subst same
      simp [CompareOp.holds]
    · have different : m.toInt ≠ n.toInt := fun h => same (Int32.toInt_inj.mp h)
      have notEq : Ord.compare m.toInt n.toInt ≠ .eq := fun h => different (Int.compare_eq_eq.mp h)
      simp [CompareOp.holds, same, notEq]

end AgentScript
