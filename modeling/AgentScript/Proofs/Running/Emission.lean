import AgentScript.Proofs.Preservation.Emission

/-! What the lines that a routine writes do when they are run. What runs them is left open: it has
registers, and it knows what arguments are worth. A routine writes the places that it says, and apart
from them only registers that were free, so that all other registers keep their values whatever it
computes in between. -/
namespace AgentScript

structure Runner (Q V : Type) where
  cells : Q → Nat → V
  arg? : Q → Arg → Option V
  Moves : List Instr → Q → Q → Prop
  arg?_register : ∀ σ {r}, r < registerCount → arg? σ (.register r) = some (cells σ r)
  arg?_literal : ∀ σ σ' v, arg? σ' (.literal v) = arg? σ (.literal v)
  nil : ∀ σ, Moves [] σ σ
  append : ∀ {code more σ σ₁ σ₂}, Moves code σ σ₁ → Moves more σ₁ σ₂ → Moves (code ++ more) σ σ₂
  kept : ∀ {code σ σ' r}, Moves code σ σ' → (∀ i ∈ code, i.place? ≠ some (.register r)) →
    cells σ' r = cells σ r

section
variable {Q V : Type} {R : Runner Q V} {limit : Nat} {causes : Cause → Prop} {out : Arg → Prop} {s t : Ctx}
  {σ σ' σ₁ : Q}

/-- Lines that write places of `out`, and registers that were free. -/
def Ctx.Spares (s : Ctx) (out : Arg → Prop) (code : List Instr) : Prop :=
  ∀ i ∈ code, ∀ place, i.place? = some place → out place ∨ ∃ r, place = .register r ∧ ¬ s.pool.Live r

theorem Ctx.Spares.trans (first : s.Spares out code) (inside : s.Inside limit t) (second : t.Spares out more) :
    s.Spares out (code ++ more) := by
  intro i member place isPlace
  rcases List.mem_append.mp member with here | there
  · exact first i here place isPlace
  · refine (second i there place isPlace).imp id fun ⟨r, isRegister, free⟩ => ⟨r, isRegister, fun live => ?_⟩
    exact free (inside.live r live)

/-- Registers in use that are not in `out` have the same values. -/
def Ctx.Keeps (s : Ctx) (out : Arg → Prop) (ρ ρ' : Nat → V) : Prop :=
  ∀ r, s.pool.Live r → ¬ out (.register r) → ρ' r = ρ r

namespace Ctx.Keeps
variable {ρ ρ' ρ₁ : Nat → V}

theorem refl : s.Keeps out ρ ρ := fun _ _ _ => rfl

theorem trans (first : s.Keeps out ρ ρ') (inside : s.Inside limit t) (second : t.Keeps out ρ' ρ₁) :
    s.Keeps out ρ ρ₁ :=
  fun r live other => (second r (inside.live r live) other).trans (first r live other)

theorem widen {out' : Arg → Prop} (kept : s.Keeps out ρ ρ') (wider : ∀ a, out a → out' a) :
    s.Keeps out' ρ ρ' :=
  fun r live other => kept r live fun here => other (wider _ here)

end Ctx.Keeps

theorem Ctx.Spares.keeps (spares : s.Spares out code) (moves : R.Moves code σ σ') :
    s.Keeps out (R.cells σ) (R.cells σ') := by
  refine fun r live other => R.kept moves fun i member isPlace => ?_
  rcases spares i member _ isPlace with here | ⟨_, isRegister, free⟩
  · exact other here
  · cases isRegister
    exact free live

/-- What is known of a routine whose lines are run at once: its answer, where it ends, and the state
then. `causes` are those for which it may fail. -/
structure Emit.Runs (R : Runner Q V) (limit : Nat) (causes : Cause → Prop) (out : Arg → Prop) (s : Ctx)
    (σ : Q) (x : Emit α) (post : α → Ctx → Q → Prop) : Prop where
  found : ∀ a t, x.run s = (.ok a, t) → ∃ code σ', t.lines = s.lines ++ code ∧ s.Inside limit t ∧
    s.Spares out code ∧ R.Moves code σ σ' ∧ post a t σ'
  refused : ∀ f t, x.run s = (.error f, t) → causes f.cause

namespace Emit.Runs
variable {x : Emit α} {P : α → Ctx → Q → Prop}

theorem mono {P' : α → Ctx → Q → Prop} (runs : Runs R limit causes out s σ x P)
    (weaker : ∀ a t σ', s.Inside limit t → s.Keeps out (R.cells σ) (R.cells σ') → P a t σ' → P' a t σ') :
    Runs R limit causes out s σ x P' where
  found a t ran := by
    obtain ⟨code, σ', lines, inside, spares, moves, here⟩ := runs.found a t ran
    exact ⟨code, σ', lines, inside, spares, moves, weaker a t σ' inside (spares.keeps moves) here⟩
  refused := runs.refused

theorem widen {out' : Arg → Prop} (runs : Runs R limit causes out s σ x P)
    (wider : ∀ a, out a → out' a) : Runs R limit causes out' s σ x P where
  found a t ran := by
    obtain ⟨code, σ', lines, inside, spares, there⟩ := runs.found a t ran
    exact ⟨code, σ', lines, inside, fun i member place isPlace =>
      (spares i member place isPlace).imp (wider place) id, there⟩
  refused := runs.refused

/-- What is kept is still known where more places may be written. -/
theorem keeping (runs : Runs R limit causes out s σ x P) : Runs R limit causes out s σ x fun a t σ' =>
    P a t σ' ∧ s.Keeps out (R.cells σ) (R.cells σ') :=
  runs.mono fun _ _ _ _ kept here => ⟨here, kept⟩

theorem of_run {y : Emit α} (same : x.run s = y.run s) (runs : Runs R limit causes out s σ y P) :
    Runs R limit causes out s σ x P :=
  ⟨fun a t ran => runs.found a t (same ▸ ran), fun f t ran => runs.refused f t (same ▸ ran)⟩

theorem bind {f : α → Emit β} {P' : β → Ctx → Q → Prop} (first : Runs R limit causes out s σ x P)
    (next : ∀ a t σ', s.Inside limit t → s.Keeps out (R.cells σ) (R.cells σ') → P a t σ' →
      Runs R limit causes out t σ' (f a) P') : Runs R limit causes out s σ (x >>= f) P' := by
  refine ⟨fun b u ran => ?_, fun e u ran => ?_⟩ <;> rw [run_bind] at ran <;> split at ran
  · next a t ranFirst =>
    obtain ⟨code, σ', lines, inside, spares, moves, here⟩ := first.found a t ranFirst
    obtain ⟨more, σ'', lines', inside', spares', moves', there⟩ :=
      (next a t σ' inside (spares.keeps moves) here).found b u ran
    exact ⟨code ++ more, σ'', by rw [lines', lines, List.append_assoc], inside.trans inside',
      spares.trans inside spares', R.append moves moves', there⟩
  · cases ran
  · next a t ranFirst =>
    obtain ⟨_, σ', _, inside, spares, moves, here⟩ := first.found a t ranFirst
    exact (next a t σ' inside (spares.keeps moves) here).refused e u ran
  · next ranFirst =>
    cases ran
    exact first.refused e u ranFirst

/-- A routine that writes some lines and changes nothing else. -/
theorem written {code : List Instr} (tidy : s.Tidy limit) (ran : x.run s = (.ok a, t)) (same : s.Alike t)
    (lines : t.lines = s.lines ++ code) (moves : R.Moves code σ σ₁)
    (writes : ∀ i ∈ code, ∀ place, i.place? = some place → out place) (here : P a t σ₁) :
    Runs R limit causes out s σ x P where
  found b u ran' := by
    cases ran.symm.trans ran'
    exact ⟨code, σ₁, lines, .of_alike tidy same, fun i member place isPlace =>
      .inl (writes i member place isPlace), moves, here⟩
  refused f u ran' := by cases ran.symm.trans ran'

theorem pure (tidy : s.Tidy limit) (here : P a s σ) : Runs R limit causes out s σ (Pure.pure a) P :=
  written tidy rfl rfl (List.append_nil _).symm (R.nil σ) (List.forall_mem_nil _) here

theorem refuse {c : Cause} (may : causes c) : Runs R limit causes out s σ (Emit.refuse c) P where
  found a t ran := by cases ran
  refused f t ran := by
    cases ran
    exact may

theorem inspect_bind {question : Ctx → Except Cause α} {f : α → Emit β} {P' : β → Ctx → Q → Prop}
    (answer : question s = .ok a) (next : Runs R limit causes out s σ (f a) P') :
    Runs R limit causes out s σ (Emit.inspect question >>= f) P' := by
  refine next.of_run ?_
  rw [run_bind, run_inspect, answer]
  rfl

theorem ask_bind {question : Ctx → Except Cause α} {f : α → Emit β} {P' : β → Ctx → Q → Prop}
    (refused : ∀ {c}, question s = .error c → causes c)
    (next : ∀ a, question s = .ok a → Runs R limit causes out s σ (f a) P') :
    Runs R limit causes out s σ (Emit.inspect question >>= f) P' := by
  cases answer : question s with
  | ok a => exact inspect_bind answer (next a answer)
  | error c =>
    refine (refuse (refused answer)).of_run ?_
    rw [run_bind, run_inspect, answer]
    rfl

theorem line (tidy : s.Tidy limit) {i : Instr} (moves : R.Moves [i] σ σ₁)
    (writes : ∀ place, i.place? = some place → out place) :
    Runs R limit causes out s σ (Emit.line i) fun _ _ σ' => σ' = σ₁ :=
  written tidy rfl rfl (Listing.lines_code ..) moves (List.forall_mem_singleton.mpr writes) rfl

theorem lines (tidy : s.Tidy limit) {code : List Instr} (moves : R.Moves code σ σ₁)
    (writes : ∀ i ∈ code, ∀ place, i.place? = some place → out place) :
    Runs R limit causes out s σ (Emit.lines code) fun _ _ σ' => σ' = σ₁ := by
  have ends (code : List Instr) (s : Ctx) : ∃ t, (Emit.lines code).run s = (.ok (), t) ∧ s.Alike t ∧
      t.lines = s.lines ++ code := by
    induction code generalizing s with
    | nil => exact ⟨s, rfl, rfl, (List.append_nil _).symm⟩
    | cons i rest ih =>
      obtain ⟨t, ran, alike, lines⟩ := ih ((Op.code 0 i 0).perform s)
      refine ⟨t, ran, alike.trans rfl, lines.trans ?_⟩
      rw [show ((Op.code 0 i 0).perform s).lines = s.lines ++ [i] from Listing.lines_code ..,
        List.append_assoc]
      rfl
  obtain ⟨t, ran, alike, lines⟩ := ends code s
  exact written tidy ran alike lines moves writes rfl

/-- A register for an intermediate value is one that was free. -/
theorem temp_bind {f : Nat → Emit α} (tidy : s.Tidy limit) (refused : causes (.outOfSlots registerCount))
    (next : ∀ r t, s.Inside limit t → t.pool.Live r → ¬ s.pool.Live r →
      Runs R limit causes (fun a => a = .register r ∨ out a) t σ (f r) P) :
    Runs R limit causes out s σ (Emit.temp >>= f) P := by
  refine ⟨fun b u ran => ?_, fun e u ran => ?_⟩ <;> rw [run_bind] at ran <;> split at ran
  · next r t taken =>
    obtain ⟨code, lines, rfl, inside, live, fresh⟩ := (Emits.temp tidy).found r t taken
    obtain ⟨more, σ', lines', inside', spares, there⟩ := (next r t inside live fresh).found b u ran
    refine ⟨more, σ', by rw [lines', lines, List.append_nil], inside.trans inside', ?_, there⟩
    intro i member place isPlace
    rcases spares i member place isPlace with (isTemp | here) | ⟨r', isRegister, free⟩
    · exact .inr ⟨r, isTemp, fresh⟩
    · exact .inl here
    · exact .inr ⟨r', isRegister, fun live => free (inside.live r' live)⟩
  · cases ran
  · next r t taken =>
    obtain ⟨_, _, _, inside, live, fresh⟩ := (Emits.temp tidy).found r t taken
    exact (next r t inside live fresh).refused e u ran
  · next taken =>
    cases ran
    have ran : (Emit.bind s.nextHandle).run { s with nextHandle := max s.nextHandle (s.nextHandle + 1) } =
      (.error e, u) := taken
    rw [Emit.bind, run_bind, run_current] at ran
    dsimp only at ran
    split at ran
    · cases ran
      exact refused
    · cases ran

/-- A scope gives back the registers that were taken in it. -/
theorem inScope (tidy : s.Tidy limit) {x : Emit Unit} {P : Q → Prop}
    (runs : Runs R limit causes out (s.enter id) σ x fun _ _ σ' => P σ') :
    Runs R limit causes out s σ x.inScope fun _ _ σ' => P σ' := by
  have restored := within_restored id x s
  refine ⟨fun a t ran => ?_, fun f t ran => ?_⟩ <;> rw [Emit.inScope, run_within] at ran <;>
    rw [run_within] at restored <;> obtain ⟨result, rfl⟩ := Prod.mk.inj ran
  · obtain ⟨code, σ', lines, inside, spares, moves, here⟩ := runs.found a _ (Prod.ext result rfl)
    have outer : s.Spares out ([] ++ code) :=
      Ctx.Spares.trans (List.forall_mem_nil _) (.enter tidy id) spares
    exact ⟨code, σ', lines, .restored tidy restored inside.tidy.handles, outer, moves, here⟩
  · exact runs.refused f _ (Prod.ext result rfl)

end Emit.Runs

end

theorem Point.Reachable.tidy {p : Point} (reachable : p.Reachable) : p.ctx.Tidy p.ctx.nextHandle := by
  obtain ⟨l, sound⟩ := Point.reachable_sound reachable
  exact ⟨⟨l, sound.balanced, sound.registered⟩, Nat.le_refl _⟩

theorem Point.reachable_two : let s := (Op.bind 1).perform ((Op.bind 0).perform (Ctx.start 0 2))
    Point.Reachable ⟨s, []⟩ ∧ (∀ h r, s.registerOf? h = some r → h < s.nextHandle) ∧
      s.pool.Live 0 ∧ s.pool.Live 1 := by
  intro s
  have reachable : Point.Reachable ⟨s, []⟩ := ⟨0, 2, .tail (.tail .refl (.act (.bind 0))) (.act (.bind 1))⟩
  have small : ∀ b ∈ s.bound, b.1 < s.nextHandle := by decide
  have disciplined := Point.Reachable.disciplined reachable
  exact ⟨reachable, fun h r isBound => small _ (Point.mem_bound isBound), disciplined.live (h := 0) rfl,
    disciplined.live (h := 1) rfl⟩

theorem Emit.run_of_toBool {x : Emit α} (succeeds : (x.run s).1.toBool = true) :
    ∃ a, x.run s = (.ok a, (x.run s).2) := by
  cases outcome : (x.run s).1 with
  | ok a => exact ⟨a, by rw [← outcome]⟩
  | error f =>
    rw [outcome] at succeeds
    cases succeeds

end AgentScript
