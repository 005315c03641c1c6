import AgentScript.Proofs.Jumps.Labels

/-! What a routine leaves behind, with the variables that it gives registers to between its lines. The
copies of a macro call are made in variables of their own, so that the marks of these variables tell
where the arguments of the call are evaluated. -/
namespace AgentScript

/-- A line of code, or a variable that was given a register. -/
inductive Mark where
  | line (i : Instr)
  | bound (handle : Nat)

namespace Mark

def line? : Mark → Option Instr
  | line i => some i
  | bound _ => none

def lines (ms : List Mark) : List Instr := ms.filterMap line?

@[simp] theorem lines_append (a b : List Mark) : lines (a ++ b) = lines a ++ lines b :=
  List.filterMap_append ..

end Mark

def Op.marks : Op → List Mark
  | code _ i _ => [.line i]
  | bind handle => [.bound handle]
  | _ => []

def Routine.marks : Routine → Ctx → List Mark
  | done, _ => []
  | fail _, _ => []
  | look next, s => (next s).marks s
  | act op next, s => op.marks ++ next.marks (op.perform s)
  | scope loop body next, s =>
    body.marks (s.enter loop) ++ match body.run (s.enter loop) with
      | (.ok (), t) => next.marks (t.leave s.outside)
      | (.error _, _) => []

namespace Emit

def marks : Emit α → Ctx → List Mark
  | pure _, _ => []
  | fail _, _ => []
  | look next, s => (next s).marks s
  | act op next, s => op.marks ++ next.marks (op.perform s)
  | scope loop body next, s =>
    body.marks (s.enter loop) ++ match body.run (s.enter loop) with
      | (.ok (), t) => next.marks (t.leave s.outside)
      | (.error _, _) => []

theorem marks_bind {x : Emit α} {f : α → Emit β} {s t : Ctx} {a : α} (ran : x.run s = (.ok a, t)) :
    (x >>= f).marks s = x.marks s ++ (f a).marks t := by
  change (x.andThen f).marks s = _
  induction x generalizing s with
  | pure b =>
    cases ran
    rfl
  | fail e => cases ran
  | look next ih => exact ih s ran
  | act op next ih =>
    simp only [andThen, marks, List.append_assoc]
    rw [ih ran]
  | scope loop body next ih =>
    simp only [andThen, marks, run] at ran ⊢
    generalize body.run (s.enter loop) = result at ran ⊢
    obtain ⟨_ | _, t⟩ := result
    · cases ran
    · dsimp only at ran ⊢
      rw [ih ran, List.append_assoc]

theorem marks_routine (x : Emit α) (s : Ctx) : x.routine.marks s = x.marks s := by
  induction x generalizing s with
  | pure a => rfl
  | fail f => rfl
  | look next ih => exact ih s s
  | act op next ih => exact congrArg (op.marks ++ ·) (ih _)
  | scope loop body next ih => simp only [routine, Routine.marks, marks, ih]

theorem marks_within (loop : Option LoopTarget → Option LoopTarget) (x : Emit Unit) (s : Ctx) :
    (within loop x).marks s = x.marks (s.enter loop) := by
  simp only [within, marks, marks_routine]
  split <;> exact List.append_nil _

end Emit

theorem Routine.marks_located (pos : Position) (r : Routine) (s : Ctx) :
    (r.located pos).marks s = r.marks s := by
  induction r generalizing s with
  | done => rfl
  | fail f => rfl
  | look next ih => exact ih s s
  | act op next ih => exact congrArg (op.marks ++ ·) (ih _)
  | scope loop body next inner ih =>
    simp only [located, marks, inner, run_located]
    rcases body.run (s.enter loop) with ⟨_ | _, t⟩
    · rfl
    · exact congrArg (body.marks (s.enter loop) ++ ·) (ih _)

namespace Emit

theorem marks_located (pos : Position) (x : Emit α) (s : Ctx) :
    (x.located pos).marks s = x.marks s := by
  induction x generalizing s with
  | pure a => rfl
  | fail f => rfl
  | look next ih => exact ih s s
  | act op next ih => exact congrArg (op.marks ++ ·) (ih _)
  | scope loop body next ih =>
    simp only [located, marks, Routine.marks_located, Routine.run_located]
    rcases body.run (s.enter loop) with ⟨_ | _, t⟩
    · rfl
    · exact congrArg (body.marks (s.enter loop) ++ ·) (ih _)

end Emit

structure Ctx.Later (s t : Ctx) (ms : List Mark) : Prop where
  lines : t.lines = s.lines ++ Mark.lines ms
  loop : t.loop = s.loop
  handles : s.nextHandle ≤ t.nextHandle

theorem Op.later (op : Op) (s : Ctx) : s.Later (op.perform s) op.marks := by
  cases op with
  | code before i after => exact ⟨Listing.lines_code .., rfl, Nat.le_refl _⟩
  | comment text => exact ⟨(Listing.lines_comment ..).trans (List.append_nil _).symm, rfl, Nat.le_refl _⟩
  | queue | label => exact ⟨(List.append_nil _).symm, rfl, Nat.le_refl _⟩
  | handles next => exact ⟨(List.append_nil _).symm, rfl, Nat.le_max_left ..⟩
  | bind handle =>
    simp only [perform]
    split <;> exact ⟨(List.append_nil _).symm, rfl, Nat.le_refl _⟩

theorem Ctx.Later.trans (first : Later s t ms) (second : Later t u more) : s.Later u (ms ++ more) where
  lines := by rw [second.lines, first.lines, Mark.lines_append, List.append_assoc]
  loop := second.loop.trans first.loop
  handles := Nat.le_trans first.handles second.handles

/-- A scope gives back what it changed, but for the lines and the numbers that it used. -/
theorem Ctx.Later.leave {s : Ctx} {loop : Option LoopTarget → Option LoopTarget}
    (inside : Later (s.enter loop) t ms) : s.Later (t.leave s.outside) ms :=
  ⟨inside.lines, rfl, inside.handles⟩

theorem Routine.later (r : Routine) (s : Ctx) : s.Later (r.run s).2 (r.marks s) := by
  induction r generalizing s with
  | done | fail => exact ⟨(List.append_nil _).symm, rfl, Nat.le_refl _⟩
  | look next ih => exact ih s s
  | act op next ih => exact (op.later s).trans (ih _)
  | scope loop body next inner ih =>
    have inside := (inner (s.enter loop)).leave
    simp only [run, marks]
    generalize body.run (s.enter loop) = result at inside ⊢
    obtain ⟨_ | _, t⟩ := result
    · simpa using inside
    · exact inside.trans (ih _)

theorem Emit.later (x : Emit α) (s : Ctx) : s.Later (x.run s).2 (x.marks s) := by
  rw [← run_routine_snd, ← marks_routine]
  exact x.routine.later s

end AgentScript
