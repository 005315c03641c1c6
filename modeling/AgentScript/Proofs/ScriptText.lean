import AgentScript.Proofs.Preservation.Declarations

/-! What each script of a unit comes to: its lines and comments, or the failure for which it is left
out. The text of the unit is what its scripts add, one after the other. -/
namespace AgentScript

/-- Runs steps in order. Answers what each of them comes to. -/
def attemptEach : List (WorldM α) → World → List (Except Failure α) × World
  | [], w => ([], w)
  | x :: rest, w =>
    let (result, w) := x.run w
    let (others, w) := attemptEach rest w
    (result :: others, w)

def succeeded (results : List (Except Failure α)) : List α := results.filterMap Except.toOption

@[simp] theorem succeeded_error (f : Failure) (rest : List (Except Failure α)) :
    succeeded (.error f :: rest) = succeeded rest := rfl

@[simp] theorem succeeded_ok (a : α) (rest : List (Except Failure α)) :
    succeeded (.ok a :: rest) = a :: succeeded rest := rfl

theorem attemptAll_each (steps : List (String × WorldM α)) (w : World) :
    (attemptAll steps w).1 = succeeded (attemptEach (steps.map (·.2)) w).1 ∧
      (attemptAll steps w).2.2 = (attemptEach (steps.map (·.2)) w).2 := by
  induction steps generalizing w with
  | nil => exact ⟨rfl, rfl⟩
  | cons step rest ih =>
    obtain ⟨subject, x⟩ := step
    rw [List.map_cons, attemptAll, attemptEach, attempt]
    rcases ran : x.run w with ⟨_ | a, v⟩
    · exact ih v
    · simpa using ih v

/-- The lines and comments of a script, and the next label. -/
def Script.items (env : Env) (table : Placeholder) (script : Script) (firstLabel firstHandle : Nat) :
    Except Failure (List (Item Instr)) × Nat :=
  let (result, s) := (script.emit env table).run (Ctx.start firstLabel firstHandle)
  (result.map fun _ => s.listing.items.toList, s.nextLabel)

/-- The lines and comments of scripts that are written one after the other. -/
def itemsEach (env : Env) (table : Placeholder) (firstHandle : Nat) : (firstLabel : Nat) →
    List (Except Failure Script) → List (Except Failure (List (Item Instr)))
  | _, [] => []
  | firstLabel, .error f :: rest => .error f :: itemsEach env table firstHandle firstLabel rest
  | firstLabel, .ok script :: rest =>
    let (items, next) := script.items env table firstLabel firstHandle
    items :: itemsEach env table firstHandle next rest

def Item.lines (items : List (Item Instr)) : List Instr := items.filterMap Item.line?

def Item.renderAll (labelHead : String) (items : List (Item Instr)) : String :=
  String.join (items.map (render (Instr.text labelHead)))

theorem writeScripts_items (env : Env) (table : Placeholder) (firstHandle firstLabel : Nat)
    (scripts : List (Except Failure Script)) :
    (writeScripts env table firstHandle firstLabel (succeeded scripts)).code =
      String.join ((succeeded (itemsEach env table firstHandle firstLabel scripts)).map
        (Item.renderAll env.config.labelPrefix)) := by
  induction scripts generalizing firstLabel with
  | nil => rfl
  | cons script rest ih =>
    cases script with
    | error f => exact ih firstLabel
    | ok script =>
      rw [succeeded_ok, writeScripts, itemsEach, Script.items, Script.write]
      rcases (script.emit env table).run (Ctx.start firstLabel firstHandle) with ⟨_ | _, s⟩
      · exact ih s.nextLabel
      · simp [Except.map, ih s.nextLabel, Item.renderAll, Listing.render, Listing.renderFrom]

namespace Document

/-- What each script of a unit is resolved to, and the world that they leave: the installation script,
the scripts of events in order, and the removal script. -/
def scripts (d : Document) : List (Except Failure Script) × World :=
  attemptEach (d.scriptSteps.map (·.2)) d.declared

def items (config : Config) (d : Document) : List (Except Failure (List (Item Instr))) :=
  let (scripts, w) := d.scripts
  let env : Env := ⟨w.types, config⟩
  itemsEach env (placeholderTable env w.deferred) w.nextHandle 0 scripts

theorem compile_code (config : Config) (d : Document) :
    (d.compile config).code =
      String.join ((succeeded (d.items config)).map (Item.renderAll config.labelPrefix)) := by
  obtain ⟨isScripts, isWorld⟩ := attemptAll_each d.scriptSteps d.declared
  let env (w : World) : Env := ⟨w.types, config⟩
  let code (w : World) (scripts : List Script) :=
    (writeScripts (env w) (placeholderTable (env w) w.deferred) w.nextHandle 0 scripts).code
  change code (attemptAll d.scriptSteps d.declared).2.2 (attemptAll d.scriptSteps d.declared).1 = _
  rw [isScripts, isWorld]
  exact writeScripts_items ..

end Document

end AgentScript
