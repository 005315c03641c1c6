import AgentScript.Proofs.Engine.Conditions
import AgentScript.Proofs.Engine.Paths
import AgentScript.Proofs.Safety.Resolution

/-! Class tests. The numbers of an agent are read while `targ` points at it, behind a test for null where
its type admits null, and they are compared with those of a classifier up to the first zero. The most
general class is told by a test for null alone. -/
namespace AgentScript

/-- Whether the numbers of an agent agree with those of a classifier in front of its first zero. -/
def Classifier.covers (c : Classifier) (family genus species : Int32) : Bool :=
  c.family = 0 || family == Int32.ofNat c.family.toNat &&
    (c.genus = 0 || genus == Int32.ofNat c.genus.toNat &&
      (c.species = 0 || species == Int32.ofNat c.species.toNat))

/-- Zeros stand for any number if no other number comes after a zero. -/
theorem Classifier.covers_iff {c : Classifier} (last : c.family = 0 → c.genus = 0)
    (inner : c.genus = 0 → c.species = 0) (family genus species : Int32) :
    c.covers family genus species = true ↔
      (c.family ≠ 0 → family = Int32.ofNat c.family.toNat) ∧
      (c.genus ≠ 0 → genus = Int32.ofNat c.genus.toNat) ∧
      (c.species ≠ 0 → species = Int32.ofNat c.species.toNat) := by
  by_cases noFamily : c.family = 0
  · simp [covers, noFamily, last noFamily, inner (last noFamily)]
  · by_cases noGenus : c.genus = 0
    · simp [covers, noFamily, noGenus, inner noGenus]
    · by_cases noSpecies : c.species = 0 <;> simp [covers, noFamily, noGenus, noSpecies]

/-! ### Lines that are skipped -/

namespace Engine
variable {N S A : Type} [DecidableEq A] {E : Engine N S A} {σ σ₁ : Scene N S A}

/-- Code that does nothing in an arm that is not taken. -/
def Skips (E : Engine N S A) (code : List Instr) : Prop :=
  ∀ st : Stage N S A, st.arms.all (· = .running) = false → E.run st code = some st

theorem Skips.store (op : StoreOp) (place a : Arg) : E.Skips [.store op place a] := by
  intro st untaken
  simp [run, step, untaken]

theorem Skips.guarded (skips : E.Skips code) (test : Test) : E.Skips (.doif test :: (code ++ [.endi])) := by
  intro st untaken
  simp only [run, step, untaken, Bool.false_eq_true, if_false, Option.bind_eq_bind, Option.bind_some, run_append]
  rw [skips _ (by simp)]
  rfl

theorem Moves.guarded {test : Test} {b : Bool} (holds : E.test? σ test = some b) (skips : E.Skips code)
    (taken : b = true → E.Moves code σ σ₁) (untaken : b = false → σ₁ = σ) :
    E.Moves (.doif test :: (code ++ [.endi])) σ σ₁ := by
  intro arms running
  simp only [run, step, running, if_true, holds, Option.bind_eq_bind, Option.bind_some, run_append]
  cases b with
  | true =>
    have inner : (Arm.running :: arms).all (· = .running) = true := by simpa using running
    simp only [if_true, Option.pure_def, Option.bind_some, taken rfl _ inner]
  | false =>
    simp only [Bool.false_eq_true, if_false, Option.pure_def, Option.bind_some]
    rw [skips _ (by simp), untaken rfl]
    rfl

/-! ### Tests of classes -/

/-- The numbers by which an agent is classified. -/
structure Classifies (E : Engine N S A) (a : A) (family genus species : Int32) : Prop where
  family : E.family a = E.int family
  genus : E.genus a = E.int genus
  species : E.species a = E.int species

/-- A comparison with null tells whether there is an agent. -/
def TellsNull (E : Engine N S A) : Prop :=
  ∀ a : Option A, E.compare .ne (.agent a) (.agent none) = a.isSome

end Engine

section
variable {N S A : Type} [DecidableEq A] {E : Engine N S A} {limit : Nat} {env : Env} {causes : Cause → Prop}
  {table : Placeholder} {s t u : Ctx} {σ σ' σ₁ : Scene N S A} {cls : Classifier} {family genus species : Int32}
  {r : Nat}

omit [DecidableEq A] in
theorem classTest_tells {a : A} (target : σ.target = some a) (numbers : E.Classifies a family genus species)
    (named : cls.family ≠ 0) : E.test? σ (classTest cls) = some (cls.covers family genus species) := by
  have part (name : String) {trait : A → N} {m : Int32} (known : E.trait? name = some trait)
      (isNumber : trait a = E.int m) (free : name ≠ "targ") (unfixed : E.fixed? name = none) (n : Int32) :
      E.test? σ (.atom (.name name) .eq (.int n)) = some (m == n) := by
    have value : E.arg? σ (.name name) = some (.number (E.int m)) := by
      simp [Engine.arg?, Engine.ambient?, Engine.named?, free, unfixed, known, target, isNumber]
    rw [E.test?_atom value (show E.arg? σ (.int n) = some (.number (E.int n)) from rfl), E.compare_int]
  have first := part "fmly" rfl numbers.family (by decide) rfl (Int32.ofNat cls.family.toNat)
  have second := part "gnus" rfl numbers.genus (by decide) rfl (Int32.ofNat cls.genus.toNat)
  have third := part "spcs" rfl numbers.species (by decide) rfl (Int32.ofNat cls.species.toNat)
  have alone {left : Arg} {op : CompareOp} {right : Arg} : (Test.atom left op right).Uniform (some .and) :=
    List.forall_mem_nil _
  unfold classTest
  dsimp only
  split
  · next noGenus => simpa [Classifier.covers, named, noGenus] using first
  · next hasGenus =>
    have both := Test.eval?_join alone first second
    split
    · next noSpecies =>
      rw [Engine.test?, both]
      simp [Classifier.covers, named, hasGenus, noSpecies, LogicOp.apply]
    · next hasSpecies =>
      rw [Engine.test?, Test.eval?_join alone both third]
      simp [Classifier.covers, named, hasGenus, hasSpecies, LogicOp.apply, Bool.and_assoc]

/-- A register that holds 0 is set to 1 if `targ` is of a class. -/
theorem classCheck_enacts {a : Option A} {nullable : Bool} (tellsNull : E.TellsNull)
    (numbers : ∀ b, a = some b → E.Classifies b family genus species) (named : cls.family ≠ 0)
    (admitted : a = none → nullable = true) (tidy : s.Tidy limit) (live : s.pool.Live r)
    (target : σ.target = a) (zero : σ.cells r = E.truth false) :
    Emit.Enacts E limit causes (· = .register r) s σ (classCheck cls nullable r) fun _ _ σ' =>
      σ'.toAgents = σ.toAgents ∧ σ'.cells r = E.truth (a.isSome && cls.covers family genus species) := by
  let b := a.isSome && cls.covers family genus species
  let σ₁ : Scene N S A := { σ with cells := Function.update σ.cells r (E.truth b) }
  have untaken (isFalse : b = false) : σ₁ = σ := by
    have same : Function.update σ.cells r (E.truth b) = σ.cells := by
      rw [isFalse, ← zero, Function.update_eq_self]
    simp only [σ₁, same]
  have store (isTrue : b = true) : E.Moves [.store .value (.register r) (.int 1)] σ σ₁ := by
    refine .line (E.perform?_store (show E.arg? σ (.int 1) = some (E.truth b) from ?_) rfl (E.put?_register σ _ live.1))
    rw [isTrue]
    rfl
  have checked (b' : A) (isAgent : a = some b') : E.Moves
      (.doif (classTest cls) :: ([.store .value (.register r) (.int 1)] ++ [.endi])) σ σ₁ := by
    have isCovered : b = cls.covers family genus species := by simp [b, isAgent]
    refine .guarded (classTest_tells (target.trans isAgent) (numbers b' isAgent) named) (.store _ _ _) ?_ ?_
    · exact fun isTrue => store (isCovered.trans isTrue)
    · exact fun isFalse => untaken (isCovered.trans isFalse)
  have coded (s : Ctx) (before : Int) (i : Instr) (after : Int) :
      ((Op.code before i after).perform s).lines = s.lines ++ [i] := Listing.lines_code ..
  have done : σ₁.toAgents = σ.toAgents ∧ σ₁.cells r = E.truth b := ⟨rfl, Function.update_self ..⟩
  cases nullable with
  | true =>
    have notNull : E.test? σ (.atom .targ .ne (.name "null")) = some a.isSome := by
      rw [E.test?_atom (show E.arg? σ .targ = some (.agent a) from target ▸ rfl)
        (show E.arg? σ (.name "null") = some (.agent none) from rfl), tellsNull]
    have moves : E.Moves (.doif _ :: (_ ++ [.endi])) σ σ₁ := .guarded notNull (.guarded (.store _ _ _) (classTest cls))
      (fun isSome => checked (a.get isSome) (Option.some_get isSome).symm) fun isNone => untaken (by simp [b, isNone])
    refine .written (t := ((classCheck cls true r).run s).2) tidy rfl rfl ?_ moves ?_ done
    · change ((Op.code (-1) .endi 0).perform ((Op.code (-1) .endi 0).perform ((Op.code 0 _ 0).perform
        ((Op.code 0 _ 1).perform ((Op.code 0 _ 1).perform s))))).lines = _
      simp [coded]
    · simp [Instr.place?]
  | false =>
    obtain ⟨b', isAgent⟩ := Option.ne_none_iff_exists'.mp fun isNone => Bool.false_ne_true (admitted isNone)
    refine .written (t := ((classCheck cls false r).run s).2) tidy rfl rfl ?_ (checked b' isAgent) ?_ done
    · change ((Op.code (-1) .endi 0).perform ((Op.code 0 _ 0).perform ((Op.code 0 _ 1).perform s))).lines = _
      simp [coded]
    · simp [Instr.place?]

theorem Code.Aims.isInstance_enacts {base : Code} {a : Option A} {nullable : Bool} {ty : TypeId} {out : Slot}
    (aims : base.Aims E env limit causes s σ a) (refused : causes (.outOfSlots registerCount))
    (tellsNull : E.TellsNull) (numbers : ∀ b, a = some b → E.Classifies b family genus species)
    (named : cls.family ≠ 0) (admitted : a = none → nullable = true) (tidy : s.Tidy limit)
    (fits : ∀ b, env.types.fits ty (E.truth b) = true) (stores : out.Stores env limit s (.register r))
    (live : s.pool.Live r) (what : String) :
    Emit.Enacts E limit causes (Arg.register r).Toward s σ
      (Code.read [.whole (isInstanceCode env what base cls nullable ty)] [out]) fun _ _ σ' =>
        σ'.toAgents = σ.toAgents ∧ σ'.cells r = E.truth (a.isSome && cls.covers family genus species) := by
  let b := a.isSome && cls.covers family genus species
  let x (r : Nat) : Emit Unit := do
    Emit.line (.store .value (.register r) (.int 0))
    onTarget env base (classCheck cls nullable r)
  have tested := viaRegister_enacts (x := x) refused tidy stores
    (E.put?_register σ (E.truth b) live.1) (fits b) fun {r' u} inside live' free => by
    have zero : E.arg? σ (.int 0) = some (E.truth false) := rfl
    refine (Emit.Enacts.line inside.tidy (E.perform?_store zero rfl (E.put?_register σ _ live'.1))
      fun place isPlace => ?_).bind fun _ u' σ₂ first _ isScene => ?_
    · cases isPlace
      exact .inl rfl
    subst isScene
    have alike : σ.Alike s { σ with cells := Function.update σ.cells r' (E.truth false) } := by
      refine ⟨rfl, fun r'' live'' _ => Function.update_of_ne ?_ ..⟩
      rintro rfl
      exact free live''
    have held := first.live r' live'
    refine onTarget_enacts (Q := fun cells => cells r' = E.truth b) refused aims (inside.trans first) alike
      (fun _ isSlot => by cases isSlot; exact held) fun {u'' σ₃} further kept aimed => ?_
    refine (classCheck_enacts tellsNull numbers named admitted further.tidy (further.live r' held)
      (congrArg Agents.target aimed) ?_).widen fun _ => .inl
    rw [kept r' held id]
    exact Function.update_self ..
  exact .of_run (Code.run_read_slot ..) (tested.mono fun _ _ _ _ _ ⟨same, holds⟩ => ⟨same, holds r rfl⟩)

/-! ### Agents that may be null -/

/-- Code that means an agent or null, also where it is used as an argument. -/
structure Code.Means (E : Engine N S A) (env : Env) (limit : Nat) (causes : Cause → Prop) (s : Ctx)
    (σ : Scene N S A) (e : Code) (a : Option A) : Prop where
  aims : e.Aims E env limit causes s σ a
  form : ∀ {t}, s.Inside limit t → ∃ form, Slot.inlineAt e.slots 0 false t = .ok form ∧
    (∀ arg, form = some arg → E.arg? σ arg = some (.agent a)) ∧
    (form = none → e.Finds E env limit causes s σ (.agent a))

omit [DecidableEq A] in
theorem Agents.follow?_concat {w : Agents N S A} {v u : Datum N S A} {init : List Field} {last : Field}
    (reached : w.follow? v (init ++ [last]) = some u) :
    ∃ b, w.follow? v init = some (.agent (some b)) ∧ w.fields b last.slot.toNat = u := by
  induction init generalizing v with
  | nil =>
    match v with
    | .agent (some b) => exact ⟨b, rfl, Option.some.inj reached⟩
  | cons f rest ih =>
    match v with
    | .agent (some b) => exact ih reached

theorem Expr.StartsAt.means {start : Expr} {a₀ a : Option A} {fields : List Field} {ty : TypeId}
    (starts : start.StartsAt E env.types s σ a₀) (refused : causes (.outOfSlots registerCount))
    (tidy : s.Tidy limit) (older : ∀ h r, s.registerOf? h = some r → h < limit)
    (typed : (start.path fields).singleReadType = .ok ty) (isAgent : env.types.major ty = .agent)
    (agents : ∀ f ∈ fields, env.types.major f.ty = .agent)
    (reached : σ.follow? (.agent a₀) fields = some (.agent a)) :
    (codeOf env table (start.path fields)).Means E env limit causes s σ a := by
  rcases fields.eq_nil_or_concat with rfl | ⟨init, last, rfl⟩
  · cases reached
    cases starts with
    | owner =>
      cases typed
      have found {σ' : Scene N S A} : E.arg? σ' (.name "ownr") = some (.agent (some E.owner)) := rfl
      refine ⟨.found (fun isTarget => by cases isTarget)
        ⟨fun inside alike stores put => .of_run (Code.run_read_slot ..) ?_⟩,
        fun _ => ⟨_, rfl, fun arg isArg => ?_, by simp⟩⟩
      · exact stores.brings inside.tidy found (Registry.fits_agent isAgent _) put
      · cases isArg
        exact found
    | target =>
      refine ⟨.target rfl rfl, fun _ => ⟨_, rfl, fun arg isArg => ?_, by simp⟩⟩
      cases isArg
      rfl
    | @var h r ty _ writable isBound holds isAgent =>
      have finds : (codeOf env table (Expr.leaf (.var h ty writable))).Finds E env limit causes s σ (.agent a₀) :=
        var_finds isBound holds (Registry.fits_agent isAgent _) tidy older writable
      refine ⟨.found (fun isTarget => by cases isTarget) finds,
        fun {t} inside => ⟨some (.register r), ?_, fun arg isArg => ?_, by simp⟩⟩
      · have bound : t.registerOf? h = some r := (inside.registers h (older h r isBound)).trans isBound
        change (handleArg h t).map some = _
        rw [handleArg, bound]
        rfl
      · cases isArg
        rw [E.arg?_register σ (tidy.disciplined.live isBound).1, holds]
  · rw [List.concat_eq_append] at agents reached ⊢
    obtain ⟨b, found, holds⟩ := Agents.follow?_concat reached
    obtain ⟨a', isStart⟩ := Agents.follow?_agent found
    have points : (codeOf env table (start.path init)).Points E env limit causes s σ b :=
      path_points refused (starts.points (Cell.agent.inj isStart) tidy older) (fun f member => agents f (List.mem_append_left _ member)) (isStart ▸ found)
    have finds := points.field_finds refused last
      (holds ▸ Registry.fits_agent (agents last (List.mem_append_right _ (List.mem_singleton_self _))) _)
    rw [holds] at finds
    have isPath : codeOf env table (start.path (init ++ [last])) =
        [.whole (fieldCode env (codeOf env table (start.path init)) last)] := by
      simp only [Expr.path, List.foldl_append]
      rfl
    rw [isPath]
    refine ⟨.found (fun isTarget => by cases isTarget) finds, fun _ => ⟨_, rfl, fun arg isArg => ?_, fun _ => finds⟩⟩
    change fieldReadName? _ last = some arg at isArg
    -- only a field of the owner has a name
    cases points with
    | owner isOwner isAgent =>
      rw [fieldReadName?, if_pos isOwner] at isArg
      cases isArg
      rw [← holds, isAgent]
      rfl
    | target isTarget =>
      rw [fieldReadName?, if_neg (by simp [isTarget])] at isArg
      cases isArg
    | found notOwner =>
      rw [fieldReadName?, if_neg notOwner] at isArg
      cases isArg

namespace Code.Means
variable {e : Code} {a : Option A}

theorem toArg_enacts (means : e.Means E env limit causes s σ a) (refused : causes (.outOfSlots registerCount))
    (inside : s.Inside limit t) :
    Emit.Enacts E limit causes (fun a => ∀ r, a ≠ .register r) t σ (e.toArg env) fun arg _ σ₁ =>
      σ₁.toAgents = σ.toAgents ∧ E.arg? σ₁ arg = some (.agent a) := by
  obtain ⟨form, answer, value, finds⟩ := means.form inside
  refine .inspect_bind answer ?_
  cases form with
  | some arg => exact .pure inside.tidy ⟨rfl, value arg rfl⟩
  | none =>
    refine .temp_bind inside.tidy refused fun r u taken live _ => ?_
    refine ((finds rfl).read (inside.trans taken) ⟨rfl, .refl⟩ (Slot.register_targets r).stores
      (E.put?_register σ _ live.1)).bind fun _ u' σ₁ further _ ⟨same, holds⟩ => .pure further.tidy ⟨same, ?_⟩
    rw [E.arg?_register σ₁ live.1, holds r rfl]

theorem notNull_enacts {out : Slot} (means : e.Means E env limit causes s σ a)
    (refused : causes (.outOfSlots registerCount)) (tellsNull : E.TellsNull) (tidy : s.Tidy limit)
    (fits : ∀ b, env.types.fits Registry.boolean (E.truth b) = true) (stores : out.Stores env limit s (.register r))
    (live : s.pool.Live r) (what : String) (ty : TypeId) :
    Emit.Enacts E limit causes (Arg.register r).Toward s σ (Code.read [.whole (testCode env what
      (.compare env .ne e (codeOf env table (Expr.leaf (.builtin "null" ty false .plain)))))] [out])
      fun _ _ σ' => σ'.toAgents = σ.toAgents ∧ σ'.cells r = E.truth a.isSome := by
  have entered := Ctx.Inside.enter tidy id
  refine .of_run (Code.run_read_slot ..) (.inScope tidy ?_)
  have tested : Emit.Enacts E limit causes (Arg.register r).Toward (s.enter id) σ
      ((CondCode.compare env .ne e (codeOf env table (Expr.leaf (.builtin "null" ty false .plain)))).test false)
      fun test _ σ₁ => σ₁.toAgents = σ.toAgents ∧ E.test? σ₁ test = some a.isSome := by
    refine ((means.toArg_enacts refused entered).widen fun _ => .inr).bind fun arg u σ₁ further _ ⟨same, value⟩ => ?_
    have named : Emit.Enacts E limit causes (Arg.register r).Toward u σ₁
        ((codeOf env table (Expr.leaf (.builtin "null" ty false .plain))).toArg env)
        fun arg _ σ₂ => σ₂ = σ₁ ∧ arg = .name "null" :=
      .inspect_bind (a := some (Arg.name "null")) rfl (.pure further.tidy ⟨rfl, rfl⟩)
    refine named.bind fun _ u' σ₂ further' _ ⟨isScene, isName⟩ => .pure further'.tidy ?_
    subst isScene isName
    refine ⟨same, ?_⟩
    exact (E.test?_atom value rfl).trans (congrArg some (tellsNull a))
  refine tested.bind fun test u σ₁ further _ ⟨same, tells⟩ => ?_
  have within := entered.trans further
  have chosen := choice_runs (J := E.judge) (W := E.values env.types causes) further.tidy (stores.inside within)
    (within.live r live) fits tells
  exact ((Emit.Enacts.agents chosen fun place isPlace => ⟨r, isPlace⟩).mono fun _ _ _ _ _ ⟨holds, kept⟩ =>
    ⟨kept.trans same, holds⟩).widen fun _ => .inl

end Code.Means

/-! ### The test of a term -/

omit [DecidableEq A] in
theorem Meaning.isInstance_value {base : Meaning} {b e : Expr} {ty : TypeId} {w w₁ w' : Resolving}
    (based : base.value.run w = (.ok b, w₁)) (typed : b.singleReadType = .ok ty)
    (resolved : (Meaning.isInstance base cls).value.run w = (.ok e, w')) :
    (cls.family ≠ 0 ∧ e = Expr.leaf (.isInstance b cls (w₁.world.types.canCast Registry.null ty) Registry.boolean)) ∨
    (cls.family = 0 ∧ w₁.world.types.canCast Registry.null ty = false ∧ e = Expr.const ⟨.int 1, Registry.boolean⟩) ∨
    (cls.family = 0 ∧ ∃ null, w₁.scope.lookup? "null" = some null ∧
      e = Expr.leaf (.test (.compare .ne b null) Registry.boolean)) := by
  obtain ⟨_, _, ran, rest⟩ := Resolve.run_bind_ok resolved
  cases based.symm.trans ran
  obtain ⟨_, _, ⟨⟩, rest⟩ := Resolve.run_bind_ok rest
  obtain ⟨_, _, read, rest⟩ := Resolve.run_bind_ok rest
  rw [typed] at read
  cases read
  obtain ⟨_, w₂, checked, rest⟩ := Resolve.run_bind_ok rest
  have scope : w₂.scope = w₁.scope := by rw [Resolve.checkCast_ok checked]
  dsimp only at rest
  split at rest
  · next named =>
    cases rest
    exact .inl ⟨named, rfl⟩
  · next unnamed =>
    have isRoot := not_not.mp unnamed
    split at rest
    · next notNull =>
      cases rest
      exact .inr (.inl ⟨isRoot, (Bool.not_eq_true' _).mp notNull, rfl⟩)
    · obtain ⟨_, _, ⟨⟩, rest⟩ := Resolve.run_bind_ok rest
      split at rest
      · cases rest
      · next null isNull =>
        obtain ⟨cond, _, compared, rest⟩ := Resolve.run_bind_ok rest
        obtain ⟨_, _, _, _, rfl⟩ := Cond.comparison_cases (Resolve.ofExcept_ok compared).1
        cases rest
        exact .inr (.inr ⟨isRoot, null, scope ▸ isNull, rfl⟩)

/-- The test of a term that is resolved to a path puts 1 into a variable if the path ends at an agent
whose numbers agree with those of the classifier in front of its first zero, and 0 if it does not or if
it ends at null. `targ` is put back, and so is every other register in use. -/
theorem Meaning.isInstance_tells_class (E : Engine N S A) (tellsNull : E.TellsNull) {base : Meaning}
    {cls : Classifier} {w w₁ w' : Resolving} {start e : Expr} {fields : List Field} {ty nullTy : TypeId}
    (based : base.value.run w = (.ok (start.path fields), w₁)) (typed : (start.path fields).singleReadType = .ok ty)
    (unshadowed : w₁.scope.lookup? "null" = some (Expr.leaf (.builtin "null" nullTy false .plain)))
    (resolved : (Meaning.isInstance base cls).value.run w = (.ok e, w'))
    {env : Env} (types : env.types.Reachable) (table : Placeholder) {p : Point} (reachable : p.Reachable)
    (older : ∀ h r, p.ctx.registerOf? h = some r → h < p.ctx.nextHandle) (σ : Scene N S A) {a₀ a : Option A}
    (starts : start.StartsAt E env.types p.ctx σ a₀) (isAgent : env.types.major ty = .agent)
    (agents : ∀ f ∈ fields, env.types.major f.ty = .agent)
    (reached : σ.follow? (.agent a₀) fields = some (.agent a))
    (admitted : a = none → w₁.world.types.canCast Registry.null ty = true) {family genus species : Int32}
    (numbers : ∀ b, a = some b → E.Classifies b family genus species) {out r : Nat}
    (isOut : p.ctx.registerOf? out = some r) :
    Emit.Enacts E p.ctx.nextHandle (· = .outOfSlots registerCount) (Arg.register r).Toward p.ctx σ
      ((codeOf env table e).read [varSlot env out true]) (fun _ _ σ' =>
        σ'.cells r = E.truth (a.isSome && cls.covers family genus species) ∧ σ'.toAgents = σ.toAgents ∧
          ∀ r', p.ctx.pool.Live r' → r' ≠ r → σ'.cells r' = σ.cells r') ∧
    ((cls.family = 0 → cls.genus = 0) → (cls.genus = 0 → cls.species = 0) →
      (cls.covers family genus species = true ↔
        (cls.family ≠ 0 → family = Int32.ofNat cls.family.toNat) ∧
        (cls.genus ≠ 0 → genus = Int32.ofNat cls.genus.toNat) ∧
        (cls.species ≠ 0 → species = Int32.ofNat cls.species.toNat))) := by
  refine ⟨?_, fun last inner => Classifier.covers_iff last inner ..⟩
  have tidy := reachable.tidy
  have live := tidy.disciplined.live isOut
  have fits := types.sound.fits_truth E
  have stores : (varSlot env out true).Stores env p.ctx.nextHandle p.ctx (.register r) :=
    (varSlot_targets (older out r isOut) isOut).stores
  have means : (codeOf env table (start.path fields)).Means E env p.ctx.nextHandle
      (· = .outOfSlots registerCount) p.ctx σ a :=
    starts.means (by rfl) tidy older typed isAgent agents reached
  have any (isRoot : cls.family = 0) : cls.covers family genus species = true := by simp [Classifier.covers, isRoot]
  have found : Emit.Enacts E p.ctx.nextHandle (· = .outOfSlots registerCount) (Arg.register r).Toward p.ctx σ
      ((codeOf env table e).read [varSlot env out true]) fun _ _ σ' =>
        σ'.toAgents = σ.toAgents ∧ σ'.cells r = E.truth (a.isSome && cls.covers family genus species) := by
    rcases isInstance_value based typed resolved with ⟨named, rfl⟩ | ⟨isRoot, notNull, rfl⟩ | ⟨isRoot, null, isNull, rfl⟩
    · exact means.aims.isInstance_enacts (by rfl) tellsNull numbers named admitted tidy fits stores live _
    · have present : a.isSome = true := by
        cases a with
        | some b => rfl
        | none => cases notNull.symm.trans (admitted rfl)
      rw [any isRoot, present]
      exact .of_run (Code.run_read_slot ..) ((stores.brings tidy (show E.arg? σ (.int 1) = some (E.truth true) from rfl)
        (fits true) (E.put?_register σ _ live.1)).mono fun _ _ _ _ _ ⟨same, holds⟩ => ⟨same, holds r rfl⟩)
    · cases unshadowed.symm.trans isNull
      rw [any isRoot, Bool.and_true]
      exact means.notNull_enacts (by rfl) tellsNull tidy fits stores live _ _
  refine found.mono fun _ _ σ' _ kept ⟨same, holds⟩ => ⟨holds, same, fun r' live' other => kept r' live' ?_⟩
  rintro (isSame | named)
  · exact other (Arg.register.inj isSame)
  · exact named r' rfl

end

/-- A field of the agent in a variable, whose type admits null, is tested for family 2 and genus 1. -/
theorem Meaning.isInstance_tells_class_field :
    let env : Env := ⟨.initial, .standard⟩
    let w : Resolving := ⟨.initial, .root (.ofOwner Registry.agent)⟩
    let E : Engine Int32 String Nat :=
      { Engine.simple with family := fun _ => 2, genus := fun _ => 1, species := fun _ => 5 }
    let s := (Op.bind 1).perform ((Op.bind 0).perform (Ctx.start 0 2))
    let σ : Scene Int32 String Nat := ⟨⟨some 5, fun a _ => .agent (some (a + 1))⟩, fun _ => .agent (some 7)⟩
    let next : Field := ⟨"next", Registry.agentOrNull, 1⟩
    let path := (Expr.leaf (.var 0 Registry.agent true)).path [next]
    let test := Expr.leaf (.isInstance path ⟨2, 1, 0⟩ true Registry.boolean)
    let reads := (codeOf env (fun _ => none) test).read [varSlot env 1 true]
    (Meaning.isInstance (.ofValue (return path)) ⟨2, 1, 0⟩).value.run w = (.ok test, w) ∧
      (reads.run s).1 = .ok () ∧ ∃ code σ', (reads.run s).2.lines = s.lines ++ code ∧
        E.run ⟨σ, []⟩ code = some ⟨σ', []⟩ ∧ σ'.cells 1 = .number 1 ∧ σ'.cells 0 = .agent (some 7) ∧
          σ'.target = some 5 := by
  intro env w E s σ next path test reads
  obtain ⟨reachable, older, live, _⟩ := Point.reachable_two
  obtain ⟨_, read⟩ : ∃ a, reads.run s = (.ok a, (reads.run s).2) := Emit.run_of_toBool (by decide +kernel)
  have tellsNull : E.TellsNull := by
    rintro (_ | a) <;> rfl
  have types : env.types.Reachable := .initial
  have based : (Meaning.ofValue (return path)).value.run w = (.ok path, w) := rfl
  have resolved : (Meaning.isInstance (.ofValue (return path)) ⟨2, 1, 0⟩).value.run w = (.ok test, w) := by rfl
  have isOut : s.registerOf? 1 = some 1 := rfl
  have starts : (Expr.leaf (.var 0 Registry.agent true)).StartsAt E env.types s σ (some 7) :=
    .var (r := 0) true rfl rfl rfl
  have agents : ∀ f ∈ [next], env.types.major f.ty = .agent := by
    rw [List.forall_mem_singleton]
    rfl
  obtain ⟨enacts, _⟩ := Meaning.isInstance_tells_class E tellsNull based rfl rfl resolved types (fun _ => none)
    reachable older σ starts rfl agents (a := some 8) rfl nofun (fun _ _ => ⟨rfl, rfl, rfl⟩) isOut
  obtain ⟨code, σ', lines, _, _, moves, holds, same, kept⟩ := enacts.found () _ read
  exact ⟨resolved, congrArg Prod.fst read, code, σ', lines, moves [] rfl, holds, kept 0 live (by decide),
    congrArg Agents.target same⟩

/-- The species is not asked for behind a genus that is zero. -/
theorem Meaning.isInstance_skips_species :
    let env : Env := ⟨.initial, .standard⟩
    let w : Resolving := ⟨.initial, .root (.ofOwner Registry.agent)⟩
    let E : Engine Int32 String Nat :=
      { Engine.simple with family := fun _ => 2, genus := fun _ => 1, species := fun _ => 5 }
    let s := (Op.bind 0).perform (Ctx.start 0 1)
    let σ : Scene Int32 String Nat := ⟨⟨none, fun _ _ => .number 0⟩, fun _ => .number 0⟩
    let test := Expr.leaf (.isInstance (Scope.ownerVar Registry.agent) ⟨2, 0, 7⟩ false Registry.boolean)
    let reads := (codeOf env (fun _ => none) test).read [varSlot env 0 true]
    (Meaning.isInstance (.ofValue (return Scope.ownerVar Registry.agent)) ⟨2, 0, 7⟩).value.run w = (.ok test, w) ∧
      (reads.run s).1.toBool = true ∧ E.species E.owner ≠ 7 ∧
      (E.run ⟨σ, []⟩ (reads.run s).2.lines).map (·.scene.cells 0) = some (.number 1) := by
  intro env w E s σ test reads
  exact ⟨rfl, by decide +kernel, by decide, by decide +kernel⟩

end AgentScript
