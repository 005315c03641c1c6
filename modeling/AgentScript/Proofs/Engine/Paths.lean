import AgentScript.Code.Generate
import AgentScript.Proofs.Engine.Emission
import AgentScript.Scope

/-! Fields that are reached through other fields. A field of an agent is read and written while `targ`
points at the agent, and `targ` is put back after that; the agent is found in the same way, one step of
the path before. Access through a path of any length works on the one field that the path denotes. -/
namespace AgentScript

/-- Places that may be written on the way to `dest`: no other register. -/
def Arg.Toward (dest a : Arg) : Prop := a = dest ∨ ∀ r, a ≠ .register r

section
variable {N S A : Type} [DecidableEq A] {E : Engine N S A} {limit : Nat} {env : Env} {causes : Cause → Prop}
  {table : Placeholder} {s t u : Ctx} {σ σ' σ₁ : Scene N S A}

theorem targetField_dependent (slot : Nat) : independentOfTarget (Arg.targetField slot).text = false := by
  have chars : (Arg.targetField slot).text.toList = 'o' :: 'v' :: (Text.twoDigits slot).toList := by
    simp [Arg.text]
  generalize (Arg.targetField slot).text = text at chars
  have notWord : ["ownr", "from", "null", "_it_", "_p1_", "_p2_"].contains text = false := by
    refine Bool.eq_false_iff.mpr fun isWord => ?_
    have start : ∀ w ∈ ["ownr", "from", "null", "_it_", "_p1_", "_p2_"], w.toList.take 2 ≠ ['o', 'v'] := by
      decide
    exact start text (List.contains_iff_mem.mp isWord) (by rw [chars]; rfl)
  have notNumber : isNumber text = false := by
    have start : ∀ w ∈ ["inf", "infinity", "nan"], w.toList.head? ≠ some 'o' := by decide
    have lower : ["inf", "infinity", "nan"].contains
        (String.ofList (('o' :: 'v' :: (Text.twoDigits slot).toList).map Char.toLower)) = false := by
      refine Bool.eq_false_iff.mpr fun isWord => start _ (List.contains_iff_mem.mp isWord) ?_
      rw [String.toList_ofList]
      rfl
    have decimal : isDecimal ('o' :: 'v' :: (Text.twoDigits slot).toList) = false := rfl
    have unsigned : dropSign ('o' :: 'v' :: (Text.twoDigits slot).toList) =
      'o' :: 'v' :: (Text.twoDigits slot).toList := rfl
    simp only [isNumber, chars, unsigned, decimal, lower, Bool.or_self]
  simp only [independentOfTarget, notWord, notNumber, isNumbered, isEnclosed, chars]
  rfl

omit [DecidableEq A] in
/-- An argument whose text shows that it does not depend on `targ`. -/
theorem ambient?_of_independent {a : Arg} (independent : independentOfTarget a.text = true)
    (w : Agents N S A) (b : Option A) : E.ambient? { w with target := b } a = E.ambient? w a := by
  cases a with
  | targetField slot =>
    rw [targetField_dependent] at independent
    cases independent
  | name name =>
    have notTarg : name ≠ "targ" := by
      rintro rfl
      exact absurd independent (by decide)
    have noTrait : E.fixed? name = none → E.trait? name = none := by
      intro _
      unfold Engine.trait?
      split
      · exact absurd independent (by decide)
      · exact absurd independent (by decide)
      · exact absurd independent (by decide)
      · rfl
    simp only [Engine.ambient?, Engine.named?, if_neg notTarg]
    cases found : E.fixed? name with
    | some v => rfl
    | none => simp [noTrait found]
  | register | ownField | literal | raw => rfl

/-- An argument with the same value wherever `targ` is moved to. -/
theorem keepArg_enacts {input : Arg} {ty : TypeId} (refused : causes (.outOfSlots registerCount))
    (tidy : s.Tidy limit) (found : E.arg? σ input = some v) (live : ∀ r, input = .register r → s.pool.Live r)
    (fits : env.types.fits ty v = true) :
    Emit.Enacts E limit causes (fun _ => False) s σ (keepArg env input ty) fun kept t σ₁ =>
      σ₁.toAgents = σ.toAgents ∧ ∀ {σ₂ : Scene N S A} {b}, σ₂.toAgents = { σ.toAgents with target := b } →
        t.Keeps (fun _ => False) σ₁.cells σ₂.cells → E.arg? σ₂ kept = some v := by
  unfold keepArg
  split
  · next independent =>
    refine .pure tidy ⟨rfl, fun {σ₂ b} moved kept => ?_⟩
    cases input with
    | register r => rwa [E.arg?_register σ₂ (live r rfl).1, kept r (live r rfl) id, ← E.arg?_register σ (live r rfl).1]
    | _ =>
      refine E.arg?_of_ambient ?_
      rw [moved, ambient?_of_independent independent]
      exact found
  · refine .temp_bind tidy refused fun r t inside taken _ => ?_
    refine (Emit.Enacts.store inside.tidy found fits (E.put?_register σ v taken.1) (.inl rfl)).bind
      fun _ u σ₁ further _ isScene => .pure further.tidy ⟨isScene ▸ rfl, fun {σ₂ b} _ kept => ?_⟩
    rw [E.arg?_register σ₂ taken.1, kept r (further.live r taken) id, isScene]
    exact congrArg some (Function.update_self ..)

omit [DecidableEq A] in
/-- A scene with the same agents and the same values in registers in use. -/
structure Scene.Alike (s : Ctx) (σ σ' : Scene N S A) : Prop where
  agents : σ'.toAgents = σ.toAgents
  cells : s.Keeps (fun _ => False) σ.cells σ'.cells

/-- Code that brings a value to where it is wanted, here and further inside. -/
structure Code.Finds (E : Engine N S A) (env : Env) (limit : Nat) (causes : Cause → Prop) (s : Ctx)
    (σ : Scene N S A) (e : Code) (v : Datum N S A) : Prop where
  read : ∀ {t σ' σ₁ out place}, s.Inside limit t → σ.Alike s σ' → Slot.Stores env limit t out place →
    E.put? σ' v place = some σ₁ →
    Emit.Enacts E limit causes place.Toward t σ' (e.read [out]) fun _ _ σ₂ =>
      σ₂.toAgents = σ₁.toAgents ∧ ∀ r, place = .register r → σ₂.cells r = v

/-- What is put into a place depends on the agents only. -/
theorem Engine.put?_alike {σ₂ : Scene N S A} {place : Arg} (put : E.put? σ v place = some σ₁)
    (same : σ₂.toAgents = σ.toAgents) : ∃ σ₃, E.put? σ₂ v place = some σ₃ ∧ σ₃.toAgents = σ₁.toAgents ∧
      ∀ r, place = .register r → σ₃.cells r = v := by
  cases place with
  | register slot =>
    simp only [put?, Option.ite_none_right_eq_some, Option.some.injEq] at put ⊢
    obtain ⟨small, rfl⟩ := put
    refine ⟨_, ⟨small, rfl⟩, same, fun r isSlot => ?_⟩
    cases isSlot
    exact Function.update_self ..
  | _ =>
    simp only [put?, Option.map_eq_some_iff] at put ⊢
    obtain ⟨w, changed, rfl⟩ := put
    exact ⟨{ σ₂ with toAgents := w }, ⟨w, same ▸ changed, rfl⟩, rfl, by simp⟩

theorem Slot.Stores.brings {out : Slot} {place a : Arg} {ty : TypeId} (stores : out.Stores env limit t place)
    (tidy : t.Tidy limit) (found : E.arg? σ a = some v) (fits : env.types.fits ty v = true)
    (put : E.put? σ v place = some σ₁) :
    Emit.Enacts E limit causes place.Toward t σ (Slot.put [out] a ty) fun _ _ σ₂ =>
      σ₂.toAgents = σ₁.toAgents ∧ ∀ r, place = .register r → σ₂.cells r = v := by
  refine (stores.put tidy found fits put (.inl rfl)).mono fun _ _ σ₂ _ _ isScene => ?_
  subst isScene
  obtain ⟨σ₃, put', _, holds⟩ := E.put?_alike put rfl
  cases put.symm.trans put'
  exact ⟨rfl, holds⟩

/-- Runs a routine while `targ` points at an agent, which is then put back. -/
theorem withTarget_enacts {base : Code} {a : Option A} (refused : causes (.outOfSlots registerCount))
    (finds : base.Finds E env limit causes s σ (.agent a)) {x : Emit Unit} {dest : Arg}
    {P : Scene N S A → Prop} (inside : s.Inside limit t) (alike : σ.Alike s σ')
    (held : ∀ r, dest = .register r → t.pool.Live r)
    (next : ∀ {u σ₁}, t.Inside limit u → t.Keeps (fun _ => False) σ'.cells σ₁.cells →
      σ₁.toAgents = { σ.toAgents with target := a } →
      Emit.Enacts E limit causes dest.Toward u σ₁ x fun _ _ σ₂ => P σ₂) :
    Emit.Enacts E limit causes dest.Toward t σ' (withTarget env base x) fun _ _ σ₁ =>
      ∃ σ₂, P σ₂ ∧ σ₁ = { σ₂ with target := σ.target } := by
  have entered := Ctx.Inside.enter inside.tidy id
  refine .inScope inside.tidy (.temp_bind entered.tidy refused fun r t₁ taken live free => ?_)
  have within := entered.trans taken
  have fresh : ¬ t.pool.Live r := fun held => free (entered.live r held)
  have apart : ¬ dest.Toward (.register r) := by
    rintro (isDest | other)
    · exact fresh (held r isDest.symm)
    · exact other r rfl
  have targ : E.arg? σ' .targ = some (.agent σ.target) := by
    rw [← alike.agents]
    rfl
  refine (Emit.Enacts.line taken.tidy (E.perform?_store targ rfl (E.put?_register σ' _ live.1)) fun place isPlace => ?_).bind
    fun _ t₂ σ₁ first _ isScene => ?_
  · cases isPlace
    exact .inl rfl
  have cells : t.Keeps (fun _ => False) σ'.cells σ₁.cells := by
    rw [isScene]
    refine fun r' live' _ => Function.update_of_ne ?_ ..
    rintro rfl
    exact fresh live'
  have same : σ₁.toAgents = σ.toAgents := isScene ▸ alike.agents
  have seen : σ.Alike s σ₁ :=
    ⟨same, fun r' live' other => (cells r' (inside.live r' live') other).trans (alike.cells r' live' other)⟩
  have put : E.put? σ₁ (.agent a) .targ = some { σ₁ with target := a } := rfl
  have begun := within.trans first
  refine ((finds.read (inside.trans begun) seen (.targ env limit t₂) put).keeping.widen fun _ => ?_).bind
    fun _ t₃ σ₂ further _ ⟨⟨aimed, _⟩, kept⟩ => ?_
  · rintro (rfl | other)
    · exact .inr (.inr nofun)
    · exact .inr (.inr other)
  have live₂ := first.live r live
  have saved : σ₂.cells r = .agent σ.target := by
    refine (kept r live₂ (by rintro (⟨⟨⟩⟩ | other); exact other r rfl)).trans ?_
    rw [isScene]
    exact Function.update_self ..
  have beyond : t.Keeps (fun _ => False) σ'.cells σ₂.cells := fun r' live' other =>
    (kept r' (begun.live r' live') (by rintro (⟨⟨⟩⟩ | other); exact other r' rfl)).trans (cells r' live' other)
  rw [same] at aimed
  refine ((next (begun.trans further) beyond aimed).keeping.widen fun _ => .inr).bind
    fun _ t₄ σ₃ last _ ⟨here, kept'⟩ => ?_
  have back : E.arg? σ₃ (.register r) = some (.agent σ.target) := by
    rw [E.arg?_register σ₃ live.1, ← saved]
    exact congrArg some (kept' r (further.live r live₂) apart)
  refine (Emit.Enacts.line last.tidy (E.perform?_store back rfl rfl) fun place isPlace => ?_).mono
    fun _ _ _ _ _ isLast => ⟨σ₃, here, isLast⟩
  cases isPlace
  exact .inr (.inr nofun)

/-- Code that means an agent or null. Where it is `targ` it does not have to be read. -/
inductive Code.Aims (E : Engine N S A) (env : Env) (limit : Nat) (causes : Cause → Prop) (s : Ctx)
    (σ : Scene N S A) (e : Code) (a : Option A) : Prop
  | target : e.role = .target → σ.target = a → Aims E env limit causes s σ e a
  | found : e.role ≠ .target → e.Finds E env limit causes s σ (.agent a) → Aims E env limit causes s σ e a

/-- Runs a routine on `targ` for an agent, and leaves `targ` where it was. -/
theorem onTarget_enacts {base : Code} {a : Option A} (refused : causes (.outOfSlots registerCount))
    (aims : base.Aims E env limit causes s σ a) {x : Emit Unit} {dest : Arg} {Q : (Nat → Datum N S A) → Prop}
    (inside : s.Inside limit t) (alike : σ.Alike s σ') (held : ∀ r, dest = .register r → t.pool.Live r)
    (next : ∀ {u σ₁}, t.Inside limit u → t.Keeps (fun _ => False) σ'.cells σ₁.cells →
      σ₁.toAgents = { σ.toAgents with target := a } →
      Emit.Enacts E limit causes dest.Toward u σ₁ x fun _ _ σ₂ => σ₂.toAgents = σ₁.toAgents ∧ Q σ₂.cells) :
    Emit.Enacts E limit causes dest.Toward t σ' (onTarget env base x) fun _ _ σ₁ =>
      σ₁.toAgents = σ'.toAgents ∧ Q σ₁.cells := by
  cases aims with
  | target isTarget isAgent =>
    rw [onTarget, if_pos isTarget]
    exact next (.refl inside.tidy) .refl (by rw [alike.agents, ← isAgent])
  | found notTarget finds =>
    rw [onTarget, if_neg notTarget]
    refine (withTarget_enacts (P := fun σ₂ => σ₂.toAgents = { σ.toAgents with target := a } ∧ Q σ₂.cells) refused
      finds inside alike held fun further kept aimed => (next further kept aimed).mono
        fun _ _ _ _ _ ⟨same, holds⟩ => ⟨same.trans aimed, holds⟩).mono fun _ _ _ _ _ ⟨σ₂, ⟨same, holds⟩, isScene⟩ => ?_
    subst isScene
    refine ⟨?_, holds⟩
    change { σ₂.toAgents with target := σ.target } = _
    rw [same, alike.agents]

/-- What is computed in a register of its own is brought to where it is wanted. -/
theorem viaRegister_enacts {x : Nat → Emit Unit} {out : Slot} {place : Arg} {ty : TypeId}
    (refused : causes (.outOfSlots registerCount)) (tidy : t.Tidy limit) (stores : out.Stores env limit t place)
    (put : E.put? σ v place = some σ₁) (fits : env.types.fits ty v = true)
    (computes : ∀ {r u}, t.Inside limit u → u.pool.Live r → ¬ t.pool.Live r →
      Emit.Enacts E limit causes (Arg.register r).Toward u σ (x r) fun _ _ σ₂ =>
        σ₂.toAgents = σ.toAgents ∧ σ₂.cells r = v) :
    Emit.Enacts E limit causes place.Toward t σ (Emit.inScope do
      let r ← Emit.temp
      x r
      Slot.put [out] (.register r) ty) fun _ _ σ₂ =>
        σ₂.toAgents = σ₁.toAgents ∧ ∀ r, place = .register r → σ₂.cells r = v := by
  have entered := Ctx.Inside.enter tidy id
  refine .inScope tidy (.temp_bind entered.tidy refused fun r t₁ taken live free => ?_)
  have within := entered.trans taken
  refine ((computes within live fun held => free (entered.live r held)).widen fun _ => ?_).bind
    fun _ t₂ σ₂ further _ ⟨same, holds⟩ => ?_
  · rintro (rfl | other)
    · exact .inl rfl
    · exact .inr (.inr other)
  obtain ⟨σ₃, put', isAgents, _⟩ := E.put?_alike put same
  have value : E.arg? σ₂ (.register r) = some v := by rw [E.arg?_register σ₂ live.1, holds]
  exact (((stores.inside (within.trans further)).brings further.tidy value fits put').mono
    fun _ _ σ₄ _ _ ⟨there, result⟩ => ⟨there.trans isAgents, result⟩).widen fun _ => .inr

/-- Code that means an agent. Neither the owner nor `targ` has to be read for their fields. -/
inductive Code.Points (E : Engine N S A) (env : Env) (limit : Nat) (causes : Cause → Prop) (s : Ctx)
    (σ : Scene N S A) (e : Code) (a : A) : Prop
  | owner : e.role = .owner → a = E.owner → Points E env limit causes s σ e a
  | target : e.role = .target → σ.target = some a → Points E env limit causes s σ e a
  | found : e.role ≠ .owner → e.role ≠ .target → e.Finds E env limit causes s σ (.agent (some a)) →
    Points E env limit causes s σ e a

namespace Code.Points
variable {base : Code} {a : A}

theorem field_finds (points : base.Points E env limit causes s σ a)
    (refused : causes (.outOfSlots registerCount)) (f : Field)
    (fits : env.types.fits f.ty (σ.fields a f.slot.toNat) = true) :
    Code.Finds E env limit causes s σ [.whole (fieldCode env base f)] (σ.fields a f.slot.toNat) := by
  refine ⟨fun {t σ' σ₁ out place} inside alike stores put => .of_run (Code.run_read_slot ..) ?_⟩
  -- the field of any agent but the owner goes through a register
  have viaTarget (notOwner : base.role ≠ .owner) (aims : base.Aims E env limit causes s σ (some a)) :
      Emit.Enacts E limit causes place.Toward t σ' (fieldRead env base f [out]) fun _ _ σ₂ =>
        σ₂.toAgents = σ₁.toAgents ∧ ∀ r, place = .register r → σ₂.cells r = σ.fields a f.slot.toNat := by
    rw [fieldRead, fieldReadName?, if_neg notOwner]
    refine viaRegister_enacts refused inside.tidy stores put fits fun {r u} within live _ => ?_
    refine onTarget_enacts (Q := fun cells => cells r = σ.fields a f.slot.toNat) refused aims
      (inside.trans within) alike (fun _ isSlot => by cases isSlot; exact live) fun {u σ₂} further _ aimed => ?_
    have found : E.ambient? σ₂.toAgents (.targetField f.slot.toNat) = some (σ.fields a f.slot.toNat) := by
      rw [aimed]
      rfl
    refine (Emit.Enacts.store further.tidy (E.arg?_of_ambient found) fits (E.put?_register σ₂ _ live.1)
      (.inl rfl)).mono fun _ _ σ₃ _ _ isScene => ?_
    subst isScene
    exact ⟨rfl, Function.update_self ..⟩
  cases points with
  | owner isOwner isAgent =>
    change Emit.Enacts E limit causes place.Toward t σ' (fieldRead env base f [out]) _
    rw [fieldRead, fieldReadName?, if_pos isOwner]
    have found : E.arg? σ' (.ownField f.slot.toNat) = some (σ.fields a f.slot.toNat) := by
      rw [isAgent, ← alike.agents]
      rfl
    refine .of_run ?_ (stores.brings inside.tidy found fits put)
    exact congrArg (Emit.run · t) (if_neg stores.kept).symm
  | target isTarget isAgent => exact viaTarget (by simp [isTarget]) (.target isTarget isAgent)
  | found notOwner notTarget finds => exact viaTarget notOwner (.found notTarget finds)

theorem field_write (points : base.Points E env limit causes s σ a)
    (refused : causes (.outOfSlots registerCount)) (tidy : s.Tidy limit) (f : Field) {input : Arg}
    {exact : TypeId} (found : E.arg? σ input = some v) (live : ∀ r, input = .register r → s.pool.Live r)
    (fits : env.types.fits exact v = true) :
    Emit.Enacts E limit causes Arg.targ.Toward s σ (fieldWrite env base f input exact) fun _ _ σ₁ =>
      σ₁.toAgents = σ.toAgents.set a f.slot.toNat v := by
  have direct {place : Arg} (isName : fieldWriteName? base f = some place)
      (put : E.put? σ v place = some { σ with toAgents := σ.toAgents.set a f.slot.toNat v })
      (named : Arg.targ.Toward place) :
      Emit.Enacts E limit causes Arg.targ.Toward s σ (fieldWrite env base f input exact) fun _ _ σ₁ =>
        σ₁.toAgents = σ.toAgents.set a f.slot.toNat v := by
    rw [fieldWrite, isName]
    exact (Emit.Enacts.store tidy found fits put named).mono fun _ _ _ _ _ isScene => isScene ▸ rfl
  cases points with
  | owner isOwner isAgent =>
    exact direct (by rw [fieldWriteName?, isOwner]) (by rw [isAgent]; rfl) (.inr (by simp))
  | target isTarget isAgent =>
    exact direct (by rw [fieldWriteName?, isTarget]) (by simp [Engine.put?, Engine.change?, isAgent])
      (.inr (by simp))
  | found notOwner notTarget finds =>
    have noName : fieldWriteName? base f = none := by
      unfold fieldWriteName?
      split
      · next isOwner => exact absurd isOwner notOwner
      · next isTarget => exact absurd isTarget notTarget
      · rfl
    rw [fieldWrite, noName]
    have entered := Ctx.Inside.enter tidy id
    refine .inScope tidy (((keepArg_enacts refused entered.tidy found (fun r isInput => entered.live r (live r isInput))
      fits).mono fun _ _ _ _ kept here => And.intro here kept).widen (fun _ => False.elim) |>.bind
      fun kept t σ₁ further _ held => ?_)
    obtain ⟨⟨same, keeps⟩, cells⟩ := held
    have alike : σ.Alike s σ₁ := ⟨same, fun r live => cells r (entered.live r live)⟩
    refine (withTarget_enacts (P := fun σ₂ => σ₂.toAgents =
      Agents.set { σ.toAgents with target := some a } a f.slot.toNat v) refused finds (entered.trans further) alike
      (fun _ same => by cases same) fun {u σ₂} last kept' aimed => ?_).mono fun _ _ _ _ _ found => ?_
    · have put : E.put? σ₂ v (.targetField f.slot.toNat) =
          some { σ₂ with toAgents := σ₂.toAgents.set a f.slot.toNat v } := by
        simp [Engine.put?, Engine.change?, aimed]
      refine (Emit.Enacts.store last.tidy (keeps aimed kept') fits put (.inr (by simp))).mono
        fun _ _ _ _ _ isScene => ?_
      rw [isScene, aimed]
    · obtain ⟨σ₂, stored, isScene⟩ := found
      rw [isScene, stored]
      rfl

end Code.Points

omit [DecidableEq A] in
/-- The fields of a path, each of the agent that the one before holds. -/
def Expr.path (start : Expr) (fields : List Field) : Expr :=
  fields.foldl (fun base f => Expr.leaf (.field base f)) start

omit [DecidableEq A] in
/-- What is reached along a path. Only an agent can be followed. -/
def Agents.follow? (w : Agents N S A) : Datum N S A → List Field → Option (Datum N S A)
  | v, [] => some v
  | .agent (some a), f :: rest => w.follow? (w.fields a f.slot.toNat) rest
  | _, _ :: _ => none

omit [DecidableEq A] in
/-- What a path can start at, and the agent that is there. -/
inductive Expr.StartsAt (E : Engine N S A) (types : Registry) (s : Ctx) (σ : Scene N S A) : Expr → Option A → Prop
  | owner (ty : TypeId) : StartsAt E types s σ (Scope.ownerVar ty) (some E.owner)
  | target (ty : TypeId) : StartsAt E types s σ (Scope.targetVar ty) σ.target
  | var {h r : Nat} {ty : TypeId} {a : Option A} (writable : Bool) : s.registerOf? h = some r →
    σ.cells r = .agent a → types.major ty = .agent →
    StartsAt E types s σ (Expr.leaf (.var h ty writable)) a

omit [DecidableEq A] in
theorem Agents.follow?_agent {w : Agents N S A} {v : Datum N S A} {fields : List Field} {a : A}
    (reached : w.follow? v fields = some (.agent (some a))) : ∃ b, v = .agent (some b) := by
  unfold follow? at reached
  split at reached
  · exact ⟨a, Option.some.inj reached⟩
  · next b _ _ => exact ⟨b, rfl⟩
  · cases reached

omit [DecidableEq A] in
theorem Registry.fits_agent {types : Registry} {ty : TypeId} (isAgent : types.major ty = .agent) (a : A) :
    types.fits ty (.agent a : Cell N S A) = true := by
  rw [fits, isAgent]
  rfl

theorem var_finds {h r : Nat} {ty : TypeId} (isBound : s.registerOf? h = some r) (holds : σ.cells r = v)
    (fits : env.types.fits ty v = true) (tidy : s.Tidy limit) (older : ∀ h r, s.registerOf? h = some r → h < limit)
    (writable : Bool) :
    (codeOf env table (Expr.leaf (.var h ty writable))).Finds E env limit causes s σ v := by
  refine ⟨fun {t σ' σ₁ out place} inside alike stores put => .of_run (Code.run_read_slot ..) ?_⟩
  have live := tidy.disciplined.live isBound
  have answer : handleArg h t = .ok (.register r) := by
    rw [handleArg, inside.registers h (older h r isBound), isBound]
  have found : E.arg? σ' (.register r) = some v := by
    rw [E.arg?_register σ' live.1, alike.cells r live id, holds]
  exact .inspect_bind answer (stores.brings inside.tidy found fits put)

theorem Expr.StartsAt.points {start : Expr} {a₀ : Option A} {a : A} (starts : start.StartsAt E env.types s σ a₀)
    (there : a₀ = some a) (tidy : s.Tidy limit) (older : ∀ h r, s.registerOf? h = some r → h < limit) :
    (codeOf env table start).Points E env limit causes s σ a := by
  cases starts with
  | owner ty =>
    cases there
    exact .owner rfl rfl
  | target ty => exact .target rfl there
  | var writable isBound holds isAgent =>
    subst there
    exact .found nofun nofun (var_finds isBound holds (Registry.fits_agent isAgent _) tidy older writable)

/-- Each step of a path finds the agent that the next one starts from. -/
theorem path_points {start : Expr} {init : List Field} (refused : causes (.outOfSlots registerCount))
    (points : (codeOf env table start).Points E env limit causes s σ a)
    (agents : ∀ f ∈ init, env.types.major f.ty = .agent)
    (reached : σ.follow? (.agent (some a)) init = some (.agent (some b))) :
    (codeOf env table (start.path init)).Points E env limit causes s σ b := by
  induction init generalizing start a with
  | nil =>
    cases reached
    exact points
  | cons f rest ih =>
    obtain ⟨isAgent, others⟩ := List.forall_mem_cons.mp agents
    obtain ⟨c, holds⟩ := Agents.follow?_agent (show σ.follow? (σ.fields a f.slot.toNat) rest = _ from reached)
    rw [Agents.follow?, holds] at reached
    have finds := points.field_finds refused f (holds ▸ Registry.fits_agent isAgent _)
    rw [holds] at finds
    exact ih (.found nofun nofun finds) others reached

/-- Reading through a path brings the value that the path denotes to a variable or to `targ`, and storing
through it changes the one field that it denotes to what the input was before. Nothing else changes:
`targ` is put back, and so is every register in use. -/
theorem Expr.path_access_restores_target (E : Engine N S A) (env : Env) (table : Placeholder) {p : Point}
    (reachable : p.Reachable) (older : ∀ h r, p.ctx.registerOf? h = some r → h < p.ctx.nextHandle)
    (σ : Scene N S A) {start : Expr} {a₀ : Option A} (starts : start.StartsAt E env.types p.ctx σ a₀)
    {init : List Field} (agents : ∀ f ∈ init, env.types.major f.ty = .agent) {a : A}
    (reached : σ.follow? (.agent a₀) init = some (.agent (some a))) (last : Field) :
    let path := codeOf env table (start.path (init ++ [last]))
    let v := σ.fields a last.slot.toNat
    let enacts (x : Emit Unit) (dest : Arg) (post : Scene N S A → Prop) :=
      Emit.Enacts E p.ctx.nextHandle (· = .outOfSlots registerCount) dest.Toward p.ctx σ x fun _ _ => post
    (∀ out r, p.ctx.registerOf? out = some r → env.types.fits last.ty v = true →
      enacts (path.read [varSlot env out true]) (.register r) fun σ' => σ'.cells r = v ∧
        σ'.toAgents = σ.toAgents ∧ ∀ r', p.ctx.pool.Live r' → r' ≠ r → σ'.cells r' = σ.cells r') ∧
    (∀ b, v = .agent b → env.types.fits last.ty v = true →
      enacts (path.read [builtinSlot env "targ" true .target]) .targ fun σ' =>
        σ'.toAgents = { σ.toAgents with target := b } ∧ ∀ r, p.ctx.pool.Live r → σ'.cells r = σ.cells r) ∧
    ∀ input exact w, E.arg? σ input = some w → (∀ r, input = .register r → p.ctx.pool.Live r) →
      env.types.fits exact w = true →
      enacts (path.write input exact) .targ fun σ' => σ'.toAgents = σ.toAgents.set a last.slot.toNat w ∧
        ∀ r, p.ctx.pool.Live r → σ'.cells r = σ.cells r := by
  intro path v enacts
  obtain ⟨a', isStart⟩ := Agents.follow?_agent reached
  have tidy := reachable.tidy
  have points : (codeOf env table (start.path init)).Points E env p.ctx.nextHandle
      (· = .outOfSlots registerCount) p.ctx σ a :=
    path_points (by rfl) (starts.points (Cell.agent.inj isStart) tidy older) agents (isStart ▸ reached)
  have isPath : path = [.whole (fieldCode env (codeOf env table (start.path init)) last)] := by
    simp only [path, Expr.path, List.foldl_append]
    rfl
  have finds (fits : env.types.fits last.ty v = true) := points.field_finds (by rfl) last fits
  have same : σ.Alike p.ctx σ := ⟨rfl, fun _ _ _ => rfl⟩
  -- what is kept is known for all places that are no register
  have apart {dest : Arg} {r : Nat} (other : dest ≠ .register r) : ¬ dest.Toward (.register r) := by
    rintro (isDest | named)
    · exact other isDest.symm
    · exact named r rfl
  rw [isPath]
  refine ⟨fun out r isOut fits => ?_, fun b isAgent fits => ?_, fun input exact w found live fits => ?_⟩
  · have live := tidy.disciplined.live isOut
    have targets : (varSlot env out true).Targets env p.ctx.nextHandle p.ctx r :=
      varSlot_targets (older out r isOut) isOut
    refine ((finds fits).read (.refl tidy) same targets.stores (E.put?_register σ v live.1)).mono
      fun _ _ σ' _ kept ⟨agents, holds⟩ => ⟨holds r rfl, agents, fun r' live' other => kept r' live' (apart ?_)⟩
    exact fun isSame => other (Arg.register.inj isSame).symm
  · have put : E.put? σ v .targ = some { σ with target := b } := by
      rw [isAgent]
      rfl
    exact ((finds fits).read (.refl tidy) same (.targ env _ _) put).mono fun _ _ σ' _ kept ⟨agents, _⟩ =>
      ⟨agents, fun r live => kept r live (apart nofun)⟩
  · exact (points.field_write (by rfl) tidy last found live fits).mono fun _ _ σ' _ kept stored =>
      ⟨stored, fun r live => kept r live (apart nofun)⟩

end

/-- The agent after the next of the one in a variable: a number is read from it, and `targ`, which is
moved on the way, is stored to it. -/
theorem Expr.path_access_two_steps :
    let env : Env := ⟨.initial, .standard⟩
    let s := (Op.bind 1).perform ((Op.bind 0).perform (Ctx.start 0 2))
    let σ : Scene Int32 String Nat :=
      { target := some 5
        fields := fun a k => if k = 1 then .agent (some (a + 1)) else .number 40
        cells := fun r => if r = 0 then .agent (some 7) else .number 3 }
    let next : Field := ⟨"next", Registry.agent, 1⟩
    let last : Field := ⟨"size", Registry.integer, 2⟩
    let path := codeOf env (fun _ => none)
      ((Expr.leaf (.var 0 Registry.agent true)).path ([next, next] ++ [last]))
    let reads := path.read [varSlot env 1 true]
    let stores := path.write .targ Registry.agent
    (reads.run s).1 = .ok () ∧ (stores.run s).1 = .ok () ∧
      (∃ code σ', (reads.run s).2.lines = s.lines ++ code ∧
        Engine.simple.run ⟨σ, []⟩ code = some ⟨σ', []⟩ ∧ σ'.cells 1 = .number 40 ∧
          σ'.cells 0 = .agent (some 7) ∧ σ'.target = some 5) ∧
      ∃ code σ', (stores.run s).2.lines = s.lines ++ code ∧
        Engine.simple.run ⟨σ, []⟩ code = some ⟨σ', []⟩ ∧ σ'.fields 9 2 = .agent (some 5) ∧
          σ'.fields 8 2 = .number 40 ∧ σ'.cells 0 = .agent (some 7) ∧ σ'.target = some 5 := by
  intro env s σ next last path reads stores
  obtain ⟨reachable, older, live, _⟩ := Point.reachable_two
  obtain ⟨_, read⟩ : ∃ a, reads.run s = (.ok a, (reads.run s).2) := Emit.run_of_toBool (by decide +kernel)
  obtain ⟨_, stored⟩ : ∃ a, stores.run s = (.ok a, (stores.run s).2) := Emit.run_of_toBool (by decide +kernel)
  have starts : (Expr.leaf (.var 0 Registry.agent true)).StartsAt Engine.simple env.types s σ (some 7) :=
    .var (r := 0) true rfl rfl rfl
  have agents : ∀ f ∈ [next, next], env.types.major f.ty = .agent := by
    simp only [List.mem_cons, List.not_mem_nil, or_false, or_self, forall_eq]
    rfl
  obtain ⟨toVar, _, intoField⟩ := Expr.path_access_restores_target Engine.simple env (fun _ => none) reachable
    older σ starts agents (a := 9) rfl last
  obtain ⟨code, σ', lines, _, _, moves, holds, same, kept⟩ := (toVar 1 1 rfl rfl).found () _ read
  obtain ⟨code', σ'', lines', _, _, moves', changed, kept'⟩ :=
    (intoField .targ Registry.agent (.agent (some 5)) rfl nofun rfl).found () _ stored
  refine ⟨congrArg Prod.fst read, congrArg Prod.fst stored,
    ⟨code, σ', lines, moves [] rfl, holds, kept 0 live (by decide), congrArg Agents.target same⟩,
    code', σ'', lines', moves' [] rfl, ?_, ?_, kept' 0 live, congrArg Agents.target changed⟩
  · rw [changed]
    rfl
  · rw [changed]
    rfl

end AgentScript
