import AgentScript.Proofs.Scopes
import AgentScript.Resolve.Tree

/-! Branches whose condition is known. The arm that is taken is resolved in a frame of its own, so that its
names end with it, but it is written where the branch stands, so that its registers do not. -/
namespace AgentScript

def Statement.arm (known : Bool) (yes : Statement) (no : Option Statement) : Option Statement :=
  if known then some yes else no

theorem Statement.branch_known {cond : Meaning} {yes : Resolve Action} {no : Option (Resolve Action)}
    {s t : Resolving} {c : Cond} {known : Bool} (found : cond.cond.run s = (.ok c, t))
    (folds : c.constant? = some known) : (branch cond yes no).run s =
      match if known then some yes else no with
      | some arm => (do return (← Resolve.inFrame Scope.innerFrame arm).kind : Resolve ActionKind).run t
      | none => (.ok .nop, t) := by
  rw [branch, Resolve.run_bind, found]
  dsimp only
  rw [folds]
  cases known with
  | true => rfl
  | false => cases no <;> rfl

/-- A branch whose condition is known is resolved to what its arm is resolved to in a frame of its own,
and to nothing if there is no arm. If the arm is no declaration and no open block, it is written as in a
scope of its own, and no register is in use that was not before. A declaration is written like that, too;
after it and after an open block, one more register is in use for each variable that it declares. -/
theorem StatementKind.branch_unscoped (nested : Nested) (cond : Term) (yes : Statement) (no : Option Statement)
    {s t : Resolving} {c : Cond} {known : Bool} (found : (cond.meaning nested).cond.run s = (.ok c, t))
    (folds : c.constant? = some known) :
    let branch := (StatementKind.branch cond yes no).resolve nested
    (branch.run s = match Statement.arm known yes no with
      | some arm =>
        (do return (← Resolve.inFrame Scope.innerFrame (arm.resolve nested)).kind : Resolve ActionKind).run t
      | none => (.ok .nop, t)) ∧
    ∀ kind, (branch.run s).1 = .ok kind →
      ∀ (env : Env) (deferred : List (Option Expr)) (p : Point), p.Reachable →
        let x := kind.run env (placeholderTable env deferred)
        let after := (x.run p.ctx).2
        (kind.declares = false →
          (Emit.inScope x).run p.ctx = x.run p.ctx ∧ ∀ id, after.pool.Live id ↔ p.ctx.pool.Live id) ∧
        (∀ vars init, kind = .declare vars init → x.SameText p.ctx) ∧
        ((x.run p.ctx).1 = .ok () → (∀ id, p.ctx.pool.Live id → after.pool.Live id) ∧
          after.pool.liveCount = p.ctx.pool.liveCount + kind.declared.length) := by
  refine ⟨?_, fun kind _ env deferred p reachable => ?_⟩
  · refine (Statement.branch_known found folds).trans ?_
    cases known with
    | true => rfl
    | false => cases no <;> rfl
  · intro x after
    obtain ⟨l, sound⟩ := Point.reachable_sound reachable
    obtain ⟨ids, rest, rfl⟩ := sound.balanced.ledger_cases
    have tables : Placeholder.Alike _ _ _ (placeholderTable env deferred) _ :=
      (Emit.samePads_law env).tables (fun _ _ _ _ => trivial) deferred.length
    have inside : 0 < p.ctx.pool.depth := sound.balanced.depth ▸ Nat.succ_pos _
    refine ⟨fun declaresNone => ⟨?_, fun id => ?_⟩, ?_, fun ok => ?_⟩
    · exact ActionKind.run_settled tables declaresNone p.ctx inside
    · have restored : p.ctx.Restored after := (ActionKind.run_restores env _ declaresNone).restored p.ctx
      rw [(restored.balance sound.balanced).live_iff, sound.balanced.live_iff]
    · rintro vars init rfl
      exact ActionKind.declare_text tables vars init p.ctx
    · obtain ⟨more, count, balanced⟩ := (ActionKind.run_declares env _ kind).held ok sound.balanced
      refine ⟨fun id live => ?_, ?_⟩
      · rw [sound.balanced.live_iff] at live
        rw [balanced.live_iff]
        rcases List.mem_append.mp live with here | outside
        · exact List.mem_append_left _ (List.mem_append_right _ here)
        · exact List.mem_append_right _ outside
      · rw [balanced.liveCount, sound.balanced.liveCount, ← count]
        simp only [Pool.Ledger.live, List.flatten_cons, List.length_append]
        omega

/-- A variable of an arm that is always taken keeps its register. -/
theorem StatementKind.branch_unscoped_declare :
    let s : Resolving := ⟨.initial, .root (.ofOwner Registry.null)⟩
    let arm : Statement := .mk .unknown (.declare ["x"] [] (some (.int 1)))
    let branch := (StatementKind.branch (.int 1) arm none).resolve (nestedCalls 0)
    let env : Env := ⟨.initial, .standard⟩
    ∃ kind, (branch.run s).1 = .ok kind ∧
      let x := kind.run env (placeholderTable env [])
      (x.run (.start 0 1)).1 = .ok () ∧ x.SameText (.start 0 1) ∧ (x.run (.start 0 1)).2.pool.liveCount = 1 := by
  intro s arm branch env
  obtain ⟨_, written⟩ := StatementKind.branch_unscoped (nestedCalls 0) (.int 1) arm none (s := s) (t := s)
    (c := .const true) rfl rfl
  let kind : ActionKind := .declare [⟨0, Registry.integer, "x"⟩] (some (Expr.const (.ofValue (.int 1))))
  have found : (branch.run s).1 = .ok kind := rfl
  have ok : ((kind.run env (placeholderTable env [])).run (.start 0 1)).1 = .ok () := rfl
  obtain ⟨_, text, held⟩ := written kind found env [] (.start 0 1) ⟨0, 1, .refl⟩
  exact ⟨kind, found, ok, text _ _ rfl, (held ok).2⟩

/-- The register of a variable is not given back, and in an open block the second of two enumerations is
written with another register than in a scope of its own. -/
theorem StatementKind.branch_leaks :
    let s : Resolving := ⟨.initial, .root (.ofOwner Registry.null)⟩
    let statement := Statement.mk .unknown
    let env : Env := ⟨.initial, .standard⟩
    let each := statement (.enumerate .enum (.named "Agent") [] (statement (.block [] true)))
    let code (arm : Statement) : Option (Emit Unit) :=
      (((StatementKind.branch (.int 1) arm none).resolve (nestedCalls 0)).run s).1.toOption.map
        (·.run env (placeholderTable env []))
    let written (x : Emit Unit) : String := (x.run (.start 0 1)).2.listing.render (Instr.text "")
    let declare := code (statement (.declare ["x"] [] (some (.int 1))))
    let twice := code (statement (.block [each, each] false))
    declare.map (fun x => (x.run (.start 0 1)).2.pool.liveCount) = some 1 ∧
      declare.map (fun x => (x.inScope.run (.start 0 1)).2.pool.liveCount) = some 0 ∧
      twice.map written ≠ twice.map (written ·.inScope) := by
  decide +kernel

end AgentScript
