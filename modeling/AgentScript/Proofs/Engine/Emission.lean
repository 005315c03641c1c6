import AgentScript.Proofs.Engine.Machine

/-! What the lines that a routine writes do when an engine runs them. -/
namespace AgentScript

section
variable {N S A : Type} [DecidableEq A] {E : Engine N S A} {limit : Nat} {causes : Cause → Prop}
  {out : Arg → Prop} {s t : Ctx} {σ σ' σ₁ : Scene N S A}

/-- What is known of a routine whose lines an engine runs at once. -/
abbrev Emit.Enacts (E : Engine N S A) (limit : Nat) (causes : Cause → Prop) (out : Arg → Prop) (s : Ctx)
    (σ : Scene N S A) (x : Emit α) (post : α → Ctx → Scene N S A → Prop) : Prop :=
  Emit.Runs E.runner limit causes out s σ x post

namespace Emit.Enacts

/-- Where only registers may be written, the agents stay as they are. -/
theorem agents {x : Emit α} {P : α → Ctx → Scene N S A → Prop} (enacts : Enacts E limit causes out s σ x P)
    (registers : ∀ a, out a → ∃ r, a = .register r) :
    Enacts E limit causes out s σ x fun a t σ' => P a t σ' ∧ σ'.toAgents = σ.toAgents where
  found a t ran := by
    obtain ⟨code, σ', lines, inside, spares, moves, here⟩ := enacts.found a t ran
    refine ⟨code, σ', lines, inside, spares, moves, here, Engine.run_agents (moves [] rfl) fun i member place isPlace => ?_⟩
    rcases spares i member place isPlace with isOut | ⟨r, isRegister, _⟩
    · exact registers place isOut
    · exact ⟨r, isRegister⟩
  refused := enacts.refused

theorem line (tidy : s.Tidy limit) {i : Instr} (performed : E.perform? σ i = some σ₁)
    (writes : ∀ place, i.place? = some place → out place) :
    Enacts E limit causes out s σ (Emit.line i) fun _ _ σ' => σ' = σ₁ :=
  Emit.Runs.line tidy (Engine.Moves.line performed) writes

end Emit.Enacts

def Engine.values (E : Engine N S A) (types : Registry) (causes : Cause → Prop) :
    E.runner.Values types causes where
  Has ty v := types.fits ty v = true
  stored fits small found made := by
    obtain ⟨op, takes, isInstr⟩ := Registry.fits_store fits
    cases (isInstr ..).symm.trans made
    exact ⟨_, .line (E.perform?_store found takes (E.put?_register _ _ small)), Function.update_self ..⟩
  unstored fits made := by
    obtain ⟨op, _, isInstr⟩ := Registry.fits_store fits
    cases (isInstr ..).symm.trans made

variable {env : Env} {ty : TypeId} {place a : Arg} {v : Datum N S A}

theorem Emit.Enacts.store (tidy : s.Tidy limit) (found : E.arg? σ a = some v)
    (fits : env.types.fits ty v = true) (put : E.put? σ v place = some σ₁) (isOut : out place) :
    Enacts E limit causes out s σ (Emit.store env ty place a) fun _ _ σ' => σ' = σ₁ := by
  obtain ⟨op, takes, isInstr⟩ := Registry.fits_store fits
  have written : (Emit.store env ty place a).run s = (Emit.line (.store op place a)).run s := by
    rw [Emit.store, isInstr]
    rfl
  refine (line tidy (E.perform?_store found takes put) fun place' isPlace => ?_).of_run written
  cases isPlace
  exact isOut

namespace Slot.Stores
variable {slot : Slot}

theorem put (stores : slot.Stores env limit s place) (tidy : s.Tidy limit) (found : E.arg? σ a = some v)
    (fits : env.types.fits ty v = true) (put : E.put? σ v place = some σ₁) (isOut : out place) :
    Emit.Enacts E limit causes out s σ (Slot.put [slot] a ty) fun _ _ σ' => σ' = σ₁ := by
  refine (Emit.Enacts.store tidy found fits put isOut).of_run ?_
  have kept : roleAt [slot] 0 ≠ .discard := stores.kept
  rw [Slot.put, if_neg kept]
  exact stores.write (.refl tidy) a ty

theorem targ (env : Env) (limit : Nat) (s : Ctx) :
    (builtinSlot env "targ" true .target).Stores env limit s .targ :=
  ⟨nofun, fun _ _ _ => rfl⟩

end Slot.Stores

end

end AgentScript
