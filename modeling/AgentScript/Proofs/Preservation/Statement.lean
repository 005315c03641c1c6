import AgentScript.Proofs.Preservation.Term

/-! What the code of statements does to the registers of variables. Variables that are declared in an
arm or in a closed block are given up with it, and those around it keep their registers. -/
namespace AgentScript

namespace Bindings

theorem valuation_congr {γ : Bindings} {σ σ' : Store} (same : ∀ h ∈ γ.handles, σ h = σ' h) :
    γ.valuation σ = γ.valuation σ' := by
  refine List.map_congr_left fun b member => ?_
  rw [same b.2 (List.mem_map_of_mem member)]

theorem valuation_cons (name : String) (h : Nat) (γ : Bindings) (σ : Store) :
    valuation ((name, h) :: γ) σ = (name, σ h) :: γ.valuation σ := rfl

theorem valuation_update {γ : Bindings} (distinct : γ.handles.Nodup) (found : γ.lookup name = some h)
    (σ : Store) (v : Int32) :
    γ.valuation (Function.update σ h v) = (γ.valuation σ).assign name v := by
  induction γ with
  | nil => cases found
  | cons b rest ih =>
    obtain ⟨other, k⟩ := b
    obtain ⟨fresh, distinct⟩ := List.nodup_cons.mp distinct
    rw [List.lookup_cons] at found
    rw [valuation_cons, valuation_cons, Valuation.assign]
    by_cases same : other = name
    · rw [same, beq_self_eq_true] at found
      cases found
      have others : valuation rest (Function.update σ h v) = valuation rest σ := by
        refine valuation_congr fun k member => Function.update_of_ne ?_ _ _
        rintro rfl
        exact fresh member
      rw [if_pos same, Function.update_self, others]
    · rw [beq_false_of_ne (Ne.symm same)] at found
      have different : k ≠ h := by
        rintro rfl
        exact fresh (mem_handles found)
      rw [if_neg same, Function.update_of_ne different, ih distinct found]

theorem leave_valuation (δ γ : Bindings) (σ σ' : Store) :
    Valuation.leave (γ.valuation σ') ((δ ++ γ).valuation σ) = γ.valuation σ := by
  simp [Valuation.leave, valuation]

end Bindings

section
variable {limit : Nat} {γ δ : Bindings} {c t : Ctx} {value : Valuation → Int32} {y x : Emit Unit}
  {env : Env} {cond : CondCode} {b : Valuation → Bool}

/-- A register that is written changes the variable that it belongs to. -/
theorem Ctx.Inside.store_update (inside : c.Inside limit t) (tidy : c.Tidy limit)
    (bound : c.registerOf? h = some r) (small : h < limit) (kept : c.Keeps (· = .register r) ρ ρ') :
    t.store limit ρ' = Function.update (c.store limit ρ) h (ρ' r) := by
  funext k
  by_cases same : k = h
  · subst same
    rw [Function.update_self, Ctx.store, if_pos small, inside.registers k small, bound]
    rfl
  · rw [Function.update_of_ne same]
    unfold Ctx.store
    split
    · next isSmall =>
      rw [inside.registers k isSmall]
      cases other : c.registerOf? k with
      | none => rfl
      | some r' =>
        refine kept r' (tidy.disciplined.live other) ?_
        rintro ⟨⟩
        exact same (tidy.disciplined.injective other bound)
    · rfl

def Bindings.Held (γ : Bindings) (c : Ctx) : Prop := ∀ h ∈ γ.handles, ∃ r, c.registerOf? h = some r

/-- The variables are where they were. -/
def Bindings.Fixed (γ : Bindings) (c t : Ctx) : Prop :=
  ∀ h ∈ γ.handles, t.registerOf? h = c.registerOf? h

namespace Bindings.Fixed

theorem of_bound (same : t.bound = c.bound) : γ.Fixed c t := fun h _ => congrArg (List.lookup h) same

theorem of_alike (alike : c.Alike t) : γ.Fixed c t := of_bound (by rw [alike])

theorem trans (first : γ.Fixed c t) (second : γ.Fixed t u) : γ.Fixed c u :=
  fun h member => (second h member).trans (first h member)

theorem held (fixed : γ.Fixed c t) (held : γ.Held c) : γ.Held t := by
  intro h member
  rw [fixed h member]
  exact held h member

theorem valuation (fixed : γ.Fixed c t) (ρ : Registers) :
    γ.valuation (t.store limit ρ) = γ.valuation (c.store limit ρ) := by
  refine valuation_congr fun h member => ?_
  unfold Ctx.store
  rw [fixed h member]

end Bindings.Fixed

/-- Where statements end that began at `c` with the variables `γ` and declared `δ`. -/
structure After (limit : Nat) (γ δ : Bindings) (exec : Valuation → Valuation) (c : Ctx) (ρ : Registers)
    (t : Ctx) (ρ' : Registers) : Prop where
  tidy : t.Tidy limit
  held : Bindings.Held (δ ++ γ) t
  fixed : γ.Fixed c t
  valuation : Bindings.valuation (δ ++ γ) (t.store limit ρ') = exec (γ.valuation (c.store limit ρ))

/-- Code of statements with the variables `γ` that declare `δ`. -/
structure Does (limit : Nat) (γ δ : Bindings) (x : Emit Unit) (exec : Valuation → Valuation) :
    Prop where
  codes : ∀ {c ρ}, c.Tidy limit → γ.Held c →
    Emit.Codes c ρ x fun _ t ρ' => After limit γ δ exec c ρ t ρ'

namespace Does

theorem nothing : Does limit γ [] (pure ()) id :=
  ⟨fun tidy held => .pure ⟨tidy, held, fun _ _ => rfl, rfl⟩⟩

theorem andThen {δ' : Bindings} (first : Does limit γ δ x exec) (second : Does limit (δ ++ γ) δ' y exec') :
    Does limit γ (δ' ++ δ) (do x; y) (exec' ∘ exec) := by
  refine ⟨fun tidy held => (first.codes tidy held).bind fun _ t ρ' after => ?_⟩
  refine (second.codes after.tidy after.held).mono fun _ u ρ'' later => ?_
  have outer : γ.Fixed t u := fun h member =>
    later.fixed h (by simp_all [Bindings.handles])
  refine ⟨later.tidy, ?_, after.fixed.trans outer, ?_⟩
  · rw [List.append_assoc]
    exact later.held
  · rw [List.append_assoc, later.valuation, after.valuation]
    rfl

theorem located (pos : Position) (does : Does limit γ δ x exec) : Does limit γ δ (x.located pos) exec :=
  ⟨fun tidy held => (does.codes tidy held).located pos⟩

theorem forget (does : Does limit γ δ x exec) : Does limit γ [] x fun ε => ε.leave (exec ε) := by
  refine ⟨fun tidy held => (does.codes tidy held).mono fun _ t ρ' after => ?_⟩
  refine ⟨after.tidy, after.fixed.held held, after.fixed, ?_⟩
  rw [← after.valuation, Bindings.leave_valuation]
  rfl

theorem closed (does : Does limit γ [] x exec) : Does limit γ [] x.inScope exec := by
  refine ⟨fun {c ρ} tidy held => ?_⟩
  have entered : γ.Fixed c (c.enter id) := .of_bound rfl
  have codes := does.codes (ρ := ρ) (tidy.enter id) (entered.held held)
  refine (Emit.Codes.inside tidy (codes.mono fun _ u ρ' after => ⟨after.tidy, after⟩)).mono
    fun _ t ρ' ⟨inside, bound, u, after⟩ => ?_
  have fixed : γ.Fixed c t := .of_bound bound
  have back : γ.Fixed u t := fun h member =>
    (fixed h member).trans ((entered.trans after.fixed) h member).symm
  refine ⟨inside.tidy, fixed.held held, fixed, ?_⟩
  rw [List.nil_append, back.valuation, ← entered.valuation]
  exact after.valuation

theorem inScope (does : Does limit γ δ x exec) : Does limit γ [] x.inScope fun ε => ε.leave (exec ε) :=
  does.forget.closed

theorem positioned (env : Env) (pos : Position) (does : Does limit γ δ x exec) :
    Does limit γ δ (Action.located env pos x) exec := by
  have queued (text : String) : Does limit γ [] (Emit.queue text) id := by
    refine ⟨fun tidy held => (Emit.Codes.queue text).mono fun _ t ρ' ⟨same, alike⟩ => ?_⟩
    subst same
    have fixed : γ.Fixed _ t := .of_alike alike
    exact ⟨(Ctx.Inside.of_alike tidy alike).tidy, fixed.held held, fixed, fixed.valuation _⟩
  unfold Action.located
  split
  · have both := (queued ("@ " ++ pos.display)).andThen (does.located pos)
    rwa [List.append_nil] at both
  · exact does.located pos

end Does

theorem After.alike (after : After limit γ [] exec c ρ t ρ') (alike : t.Alike u) :
    After limit γ [] exec c ρ u ρ' := by
  have fixed : γ.Fixed t u := .of_alike alike
  refine ⟨(Ctx.Inside.of_alike after.tidy alike).tidy, fixed.held after.held, after.fixed.trans fixed, ?_⟩
  rw [List.nil_append, fixed.valuation]
  exact after.valuation

theorem varCode_slots (env : Env) (table : Placeholder) (h : Nat) (ty : TypeId) :
    (codeOf env table (Expr.leaf (.var h ty true))).slots = [varSlot env h true] := rfl

theorem Does.writing (distinct : γ.handles.Nodup) (small : ∀ h ∈ γ.handles, h < limit)
    (found : γ.lookup name = some h) (runs : ∀ {c r ρ}, c.Tidy limit → c.registerOf? h = some r →
      Emit.Runs Machine.runner limit (fun _ => True) (· = .register r) c ρ x fun _ _ ρ' =>
        ρ' r = value (γ.valuation (c.store limit ρ))) :
    Does limit γ [] x fun ε => ε.assign name (value ε) := by
  refine ⟨fun {c ρ} tidy held => ?_⟩
  obtain ⟨r, bound⟩ := held h (γ.mem_handles found)
  refine (runs tidy bound).codes.mono fun _ t ρ' ⟨inside, kept, holds⟩ => ?_
  have fixed : γ.Fixed c t := fun h member => inside.registers h (small h member)
  refine ⟨inside.tidy, fixed.held held, fixed, ?_⟩
  rw [List.nil_append, inside.store_update tidy bound (small h (γ.mem_handles found)) kept, holds]
  exact Bindings.valuation_update distinct found _ _

theorem assign_does {target source : Code} (distinct : γ.handles.Nodup)
    (small : ∀ h ∈ γ.handles, h < limit) (found : γ.lookup name = some h)
    (isVariable : target.slots = [varSlot env h true])
    (denotes : source.Denotes env limit fun σ => value (γ.valuation σ)) :
    Does limit γ [] (Action.assign target source) fun ε => ε.assign name (value ε) := by
  refine .writing distinct small found fun {c r ρ} tidy bound => ?_
  have entered := Ctx.Inside.enter tidy id
  have targets : (varSlot env h true).Targets env limit (c.enter id) r :=
    (varSlot_targets (small h (γ.mem_handles found)) bound).inside entered
  unfold Action.assign
  rw [isVariable]
  exact .inScope tidy ((denotes.yields tidy).read entered .refl targets
    (entered.live r (tidy.disciplined.live bound)))

theorem update_does {target source : Code} (distinct : γ.handles.Nodup)
    (small : ∀ h ∈ γ.handles, h < limit) (found : γ.lookup name = some h)
    (isVariable : target.slots = [varSlot env h true])
    (denotes : source.Denotes env limit fun σ => value (γ.valuation σ)) {op : ChainOp} (known : op ≠ .div)
    {before operand : TypeId} (l : env.types.Stores before) (r : env.types.Stores operand)
    (after : TypeId) :
    Does limit γ [] (Action.update env op target source before operand after) fun ε =>
      ε.assign name (op.number (ε.number name) (value ε)) := by
  refine .writing distinct small found fun {c slot ρ} tidy bound => ?_
  have isSmall := small h (γ.mem_handles found)
  have previous : (γ.valuation (c.store limit ρ)).number name = ρ slot := by
    simp [Valuation.number, γ.valuation_lookup, found, Ctx.store, isSmall, bound]
  have entered := Ctx.Inside.enter tidy id
  have targets : (varSlot env h true).Targets env limit (c.enter id) slot :=
    (varSlot_targets isSmall bound).inside entered
  have place : Slot.inlineAt target.slots 0 true (c.enter id) = .ok (some (.register slot)) := by
    rw [isVariable]
    exact targets.inline _ (.refl entered.tidy) true
  have live := tidy.disciplined.live bound
  refine .inScope tidy (.inspect_bind place ?_)
  refine (((denotes.yields tidy).supplies trivial entered .refl).keeping.widen fun _ => False.elim).bind
    fun a t ρ' inside _ found => ?_
  obtain ⟨computed, kept⟩ := found
  have moves := Machine.Moves.arith known live.1 (computed ρ' .refl)
  rw [ChainOp.lines_number l r]
  refine (Emit.Runs.lines inside.tidy moves fun i member place isPlace => ?_).mono fun _ u ρ'' _ _ same => ?_
  · cases List.mem_singleton.mp member
    cases isPlace
    rfl
  · have still : ρ' slot = ρ slot := kept slot (entered.live slot live) id
    rw [same, Function.update_self, still, previous]

theorem bindVar_codes (env : Env) (v : LocalVar) (tidy : c.Tidy limit) :
    Emit.Codes c ρ (bindVars env [v]) fun _ t ρ' => ρ' = ρ ∧ t.Tidy limit ∧ ∃ slot,
      (∀ h, t.registerOf? h = if h = v.handle then some slot else c.registerOf? h) ∧
      t.pool.Live slot := by
  have first : Emit.Codes c ρ (Emit.bind v.handle) fun slot t ρ' => ρ' = ρ ∧ t.Tidy limit ∧
      (∀ h, t.registerOf? h = if h = v.handle then some slot else c.registerOf? h) ∧
      t.pool.Live slot :=
    (Emit.Emits.register tidy v.handle).mono fun slot t code ⟨noLine, after, registers, _, live, _⟩ =>
      ⟨ρ, noLine ▸ .nil ρ, rfl, after, registers, live⟩
  refine first.bind fun slot t ρ' ⟨same, after, registers, live⟩ => ?_
  subst same
  have noted : Emit.Codes t ρ' (registerNote env slot v.ty v.label) fun _ u ρ'' => ρ'' = ρ' ∧ t.Alike u := by
    unfold registerNote
    split
    · exact .comment _
    · exact .pure ⟨rfl, rfl⟩
  refine noted.bind fun _ u ρ'' ⟨same, alike⟩ => .pure ?_
  subst same
  rw [Ctx.Alike] at alike
  rw [alike]
  exact ⟨rfl, after.alike rfl rfl (Nat.le_refl _), slot, registers, live⟩

/-- A new variable gets a register, and then its first value. -/
theorem declare_does {v : LocalVar} {init : Code} (fresh : v.handle ∉ γ.handles)
    (isSmall : v.handle < limit) (denotes : init.Denotes env limit fun σ => value (γ.valuation σ)) :
    Does limit γ [(v.label, v.handle)] (Action.declare env [v] (some init)) fun ε =>
      (v.label, value ε) :: ε := by
  refine ⟨fun {c ρ} tidy held => (bindVar_codes env v tidy).bind
    fun _ t ρ' ⟨same, after, slot, registers, live⟩ => ?_⟩
  subst same
  have bound : t.registerOf? v.handle = some slot := by rw [registers, if_pos rfl]
  have kept : γ.Fixed c t := by
    intro h member
    rw [registers, if_neg]
    rintro rfl
    exact fresh member
  have entered := Ctx.Inside.enter after id
  have targets : (varSlot env v.handle true).Targets env limit (t.enter id) slot :=
    (varSlot_targets isSmall bound).inside entered
  have runs := (denotes.yields (ρ := ρ') after).read entered .refl targets (entered.live slot live)
  refine (Emit.Codes.inside after (runs.codes.mono fun _ u ρ₁ ⟨inside, here⟩ => ⟨inside.tidy, here⟩)).mono
    fun _ u ρ₁ ⟨inside, same, _, others, holds⟩ => ?_
  have others : t.Keeps (· = .register slot) ρ' ρ₁ := fun r inUse => others r (entered.live r inUse)
  have holds : ρ₁ slot = value (γ.valuation (t.store limit ρ')) := holds
  have here : Bindings.Fixed [(v.label, v.handle)] t u := .of_bound same
  have fixed : γ.Fixed c u := kept.trans (.of_bound same)
  refine ⟨inside.tidy, ?_, fixed, ?_⟩
  · intro h member
    rcases List.mem_cons.mp member with rfl | old
    · exact ⟨slot, (here _ (List.mem_singleton_self _)).trans bound⟩
    · exact fixed.held held h old
  · have older (x : Int32) : γ.valuation (Function.update (t.store limit ρ') v.handle x) =
        γ.valuation (t.store limit ρ') := by
      refine Bindings.valuation_congr fun h member => Function.update_of_ne ?_ _ _
      rintro rfl
      exact fresh member
    rw [inside.store_update after bound isSmall others, List.singleton_append, Bindings.valuation_cons,
      Function.update_self, older, holds, kept.valuation]

theorem arms_codes {test : Test} {b : Bool} (found : test.holds? ρ = some b)
    (yes : Does limit γ [] x exec) (no : Does limit γ [] y exec') (tidy : c.Tidy limit) (held : γ.Held c) :
    Emit.Codes c ρ (do
      Emit.code 0 (.doif test) 1
      x
      Emit.code (-1) .otherwise 1
      y
      Emit.code (-1) .endi 0) fun _ t ρ' => After limit γ [] (if b then exec else exec') c ρ t ρ' := by
  have start {t : Ctx} (alike : c.Alike t) : γ.Fixed c t := .of_alike alike
  refine (Emit.Codes.branch (P := fun t ρ' => After limit γ [] exec c ρ t ρ')
    (Q := fun t ρ' => After limit γ [] (if b then exec else exec') c ρ t ρ') found (fun t alike => ?_)
    fun u ρ₁ first t alike => ?_).mono fun _ w ρ' ⟨u, after, alike⟩ => after.alike alike
  · refine (yes.codes (Ctx.Inside.of_alike tidy alike).tidy ((start alike).held held)).mono
      fun _ u ρ₁ after => ⟨after.tidy, after.held, (start alike).trans after.fixed, ?_⟩
    rw [after.valuation, (start alike).valuation]
  · have between : γ.Fixed c t := first.fixed.trans (.of_alike alike)
    refine (no.codes (Ctx.Inside.of_alike first.tidy alike).tidy (between.held held)).mono
      fun _ w ρ₂ second => ⟨second.tidy, second.held, between.trans second.fixed, ?_⟩
    cases b with
    | true =>
      have moved : γ.Fixed u w := fun h member =>
        ((between.trans second.fixed) h member).trans (first.fixed h member).symm
      exact (moved.valuation ρ₁).trans first.valuation
    | false =>
      refine second.valuation.trans ?_
      rw [between.valuation]
      rfl

theorem arm_codes {test : Test} {b : Bool} (found : test.holds? ρ = some b)
    (yes : Does limit γ [] x exec) (tidy : c.Tidy limit) (held : γ.Held c) :
    Emit.Codes c ρ (do
      Emit.code 0 (.doif test) 1
      x
      Emit.code (-1) .endi 0) fun _ t ρ' => After limit γ [] (if b then exec else id) c ρ t ρ' := by
  have start {t : Ctx} (alike : c.Alike t) : γ.Fixed c t := .of_alike alike
  refine (Emit.Codes.branchOnly (P := fun t ρ' => After limit γ [] (if b then exec else id) c ρ t ρ') found
    fun t alike => ?_).mono fun _ w ρ' ⟨u, after, alike⟩ => after.alike alike
  refine (yes.codes (Ctx.Inside.of_alike tidy alike).tidy ((start alike).held held)).mono
    fun _ u ρ₁ after => ⟨after.tidy, after.held, (start alike).trans after.fixed, ?_⟩
  cases b with
  | true =>
    refine after.valuation.trans ?_
    rw [(start alike).valuation]
    rfl
  | false => exact ((start alike).trans after.fixed).valuation ρ

def Action.arms (test : Test) (yes : Emit Unit) (no : Option (Emit Unit)) : Emit Unit := do
  Emit.code 0 (.doif test) 1
  Emit.inScope yes
  match no with
  | some x =>
    Emit.code (-1) .otherwise 1
    Emit.inScope x
  | none => pure ()
  Emit.code (-1) .endi 0

theorem branch_does (small : ∀ h ∈ γ.handles, h < limit)
    (denotes : cond.Denotes limit fun σ => b (γ.valuation σ)) {yes : Emit Unit} {no : Option (Emit Unit)}
    {exec' : Valuation → Valuation} (arms : ∀ {test : Test} {k : Bool} {c : Ctx} {ρ : Registers},
      test.holds? ρ = some k → c.Tidy limit → γ.Held c →
      Emit.Codes c ρ (Action.arms test yes no) fun _ t ρ' =>
        After limit γ [] (if k then exec else exec') c ρ t ρ') :
    Does limit γ [] (Action.branch cond yes no) fun ε => if b ε then exec ε else exec' ε := by
  refine Does.closed ⟨fun {c ρ} tidy held =>
    ((denotes.decides tidy).test false (.refl tidy) .refl).codes.bind
      fun test t ρ' ⟨inside, kept, _, tells⟩ => ?_⟩
  have fixed : γ.Fixed c t := fun h member => inside.registers h (small h member)
  have same : t.store limit ρ' = c.store limit ρ :=
    inside.store fun h r bound _ => kept r (tidy.disciplined.live bound) id
  have holds : test.holds? ρ' = some (b (γ.valuation (c.store limit ρ))) := by
    rw [← Test.holds_eq, ← Bool.bne_false (b _)]
    exact tells .refl
  refine (arms holds inside.tidy (fixed.held held)).mono fun _ u ρ₁ after =>
    ⟨after.tidy, after.held, fixed.trans after.fixed, ?_⟩
  rw [after.valuation, same]
  cases b (γ.valuation (c.store limit ρ)) <;> rfl

theorem ifElse_does (small : ∀ h ∈ γ.handles, h < limit)
    (denotes : cond.Denotes limit fun σ => b (γ.valuation σ)) {δ' : Bindings}
    (yes : Does limit γ δ x exec) (no : Does limit γ δ' y exec') :
    Does limit γ [] (Action.branch cond x (some y)) fun ε =>
      if b ε then ε.leave (exec ε) else ε.leave (exec' ε) := by
  refine branch_does small denotes fun found tidy held => ?_
  have codes := arms_codes found yes.inScope no.inScope tidy held
  simpa only [Action.arms, Emit.bind_assoc] using codes

theorem if_does (small : ∀ h ∈ γ.handles, h < limit)
    (denotes : cond.Denotes limit fun σ => b (γ.valuation σ)) (yes : Does limit γ δ x exec) :
    Does limit γ [] (Action.branch cond x none) fun ε => if b ε then ε.leave (exec ε) else ε :=
  branch_does small denotes fun found tidy held => arm_codes found yes.inScope tidy held

end

end AgentScript
