import AgentScript.Code.Access
import AgentScript.Code.Compute
import AgentScript.Proofs.Running.Emission

/-! Code that computes values. Reading it puts the value into a register that is wanted and leaves all
others in use alone; a chain may be computed in a register that is in use only because no later operand
mentions it. -/
namespace AgentScript

theorem Text.occursIn_self (s : String) : Text.occursIn s s = true := by
  unfold Text.occursIn
  cases s.toList with
  | nil => rfl
  | cons c cs => simp [Text.suffixes]

theorem storeInstr_place {i : Instr} (made : storeInstr types ty place a = .ok i) : i.place? = some place := by
  unfold storeInstr at made
  split at made <;> cases made <;> rfl

theorem ChainOp.lines_place {types : Registry} {lt rt : TypeId} {target operand : Arg} (op : ChainOp) :
    ∀ i ∈ op.lines types lt rt target operand, i.place? = some target := by
  cases op with
  | add =>
    unfold lines
    dsimp only
    split <;> simp [Instr.place?]
  | _ => exact List.forall_mem_singleton.mpr rfl

namespace Arg

theorem registerName_head (slot : Nat) : (registerName slot).toList.head? = some 'v' := by
  simp [registerName]

theorem registerName_number : ∀ slot < registerCount,
    ((registerName slot).toList.drop 2).foldl (fun n c => 10 * n + (c.toNat - 48)) 0 = slot := by
  decide +kernel

theorem registerName_inj {a b : Nat} (small : a < registerCount) (small' : b < registerCount)
    (same : registerName a = registerName b) : a = b := by
  rw [← registerName_number a small, same, registerName_number b small']

theorem int_head (n : Int) : (Text.int n).toList.head? ≠ some 'v' := by
  cases n with
  | ofNat n =>
    intro isHead
    have digit := Nat.isDigit_of_mem_toDigits (by decide) (by decide)
      (Nat.toList_repr ▸ List.mem_of_head? isHead)
    exact absurd digit (by decide)
  | negSucc n => simp [Text.int]

/-- An argument that needs no code: a register in use, a number or a text. -/
def Short (s : Ctx) : Arg → Prop
  | register slot => s.pool.Live slot
  | literal (.int _) | literal (.str _) => True
  | _ => False

section
variable {Q V : Type} {R : Runner Q V} {s : Ctx} {a : Arg} {σ σ' : Q}

theorem Short.kept {out : Arg → Prop} (short : a.Short s) (other : ¬ out a)
    (kept : s.Keeps out (R.cells σ) (R.cells σ')) : R.arg? σ' a = R.arg? σ a := by
  unfold Short at short
  split at short
  · next slot => rw [R.arg?_register σ' short.1, R.arg?_register σ short.1, kept slot short other]
  · exact R.arg?_literal ..
  · exact R.arg?_literal ..
  · cases short

theorem Short.eq_register (short : a.Short s) (small : slot < registerCount)
    (same : a.text = (register slot).text) : a = .register slot := by
  have head := registerName_head slot
  rw [show registerName slot = a.text from same.symm] at head
  unfold Short at short
  split at short
  · next other => rw [registerName_inj short.1 small same]
  · next n => exact absurd head (int_head n.toInt)
  · next text => simp [Arg.text, Value.literal, Quoted.text] at head
  · cases short

end

end Arg

/-- Values that can be stored as those of a type. -/
structure Runner.Values (R : Runner Q V) (types : Registry) (causes : Cause → Prop) where
  Has : TypeId → V → Prop
  stored : ∀ {ty v r σ a i}, Has ty v → r < registerCount → R.arg? σ a = some v →
    storeInstr types ty (.register r) a = .ok i → ∃ σ', R.Moves [i] σ σ' ∧ R.cells σ' r = v
  unstored : ∀ {ty v r a c}, Has ty v → storeInstr types ty (.register r) a = .error c → causes c

section
variable {Q V : Type} {R : Runner Q V} {limit : Nat} {causes : Cause → Prop} {env : Env} {s t : Ctx}
  {σ σ' : Q} {ty before : TypeId} {a : Arg} {v w result : V} {r target : Nat} {op : ChainOp}
  {tail : List OperandCode}

/-- A slot whose values come to a place, here and further inside. -/
structure Slot.Stores (env : Env) (limit : Nat) (s : Ctx) (out : Slot) (place : Arg) : Prop where
  kept : out.role.get ≠ .discard
  write : ∀ {t}, s.Inside limit t → ∀ input exact,
    (out.write input exact).run t = (Emit.store env exact place input).run t

/-- A slot that stands for a register here and further inside. -/
structure Slot.Targets (env : Env) (limit : Nat) (out : Slot) (s : Ctx) (target : Nat) : Prop where
  role : out.role.get = .register
  inline : ∀ t, s.Inside limit t → ∀ forWrite, out.inline forWrite t = .ok (some (.register target))
  write : ∀ t, s.Inside limit t → ∀ input exact,
    (out.write input exact).run t = (Emit.store env exact (.register target) input).run t

section
variable {out : Slot}

theorem Slot.Targets.inside (targets : out.Targets env limit s target) (inside : s.Inside limit t) :
    out.Targets env limit t target :=
  ⟨targets.role, fun u further => targets.inline u (inside.trans further),
    fun u further => targets.write u (inside.trans further)⟩

theorem Slot.Targets.stores (targets : out.Targets env limit s target) :
    out.Stores env limit s (.register target) :=
  ⟨by simp [targets.role], fun {t} inside => targets.write t inside⟩

theorem Slot.register_targets (slot : Nat) : (Slot.register env slot).Targets env limit s slot :=
  ⟨rfl, fun _ _ _ => rfl, fun _ _ _ _ => rfl⟩

theorem varSlot_targets {handle : Nat} (small : handle < limit)
    (bound : s.registerOf? handle = some slot) :
    (varSlot env handle true).Targets env limit s slot := by
  have found (t : Ctx) (inside : s.Inside limit t) : handleArg handle t = .ok (.register slot) := by
    rw [handleArg, inside.registers handle small, bound]
  refine ⟨rfl, fun t inside forWrite => ?_, fun t inside input exact => ?_⟩
  · simp [varSlot, found t inside, Except.map]
  · simp [varSlot, Emit.run_bind, Emit.run_inspect, found t inside, Except.mapError]

theorem Slot.Stores.inside {place : Arg} (stores : out.Stores env limit s place) (inside : s.Inside limit t) :
    out.Stores env limit t place :=
  ⟨stores.kept, fun further => stores.write (inside.trans further)⟩

theorem Slot.Stores.writeAt (stores : out.Stores env limit s (.register r)) (W : R.Values env.types causes)
    (tidy : s.Tidy limit) (live : s.pool.Live r) (has : W.Has ty v) (found : R.arg? σ a = some v) :
    Emit.Runs R limit causes (· = .register r) s σ (Slot.writeAt [out] 0 a ty) fun _ _ σ' =>
      R.cells σ' r = v := by
  have same : (Slot.writeAt [out] 0 a ty).run s = (Emit.store env ty (.register r) a).run s :=
    stores.write (.refl tidy) a ty
  refine .of_run same ?_
  unfold Emit.store
  cases made : storeInstr env.types ty (.register r) a with
  | error c => exact .refuse (W.unstored has made)
  | ok i =>
    obtain ⟨σ', moves, holds⟩ := W.stored has live.1 found made
    refine (Emit.Runs.line tidy moves fun place isPlace => ?_).mono fun _ _ _ _ _ isState => isState ▸ holds
    cases (storeInstr_place made).symm.trans isPlace
    rfl

theorem Slot.Targets.put (targets : out.Targets env limit s r) (W : R.Values env.types causes)
    (tidy : s.Tidy limit) (live : s.pool.Live r) (has : W.Has ty v) (found : R.arg? σ a = some v) :
    Emit.Runs R limit causes (· = .register r) s σ (Slot.put [out] a ty) fun _ _ σ' =>
      R.cells σ' r = v := by
  have role : Slot.roleAt [out] 0 = .register := targets.role
  simp only [Slot.put, role, reduceCtorEq, ↓reduceIte]
  exact targets.stores.writeAt W tidy live has found

end

/-- Code that is worth `v`, here and further inside. -/
structure Code.Yields (R : Runner Q V) (env : Env) (limit : Nat) (causes : Cause → Prop) (s : Ctx) (σ : Q)
    (e : Code) (v : V) : Prop where
  stable : ∀ {t}, s.Inside limit t → Slot.inlineAt e.slots 0 false t = Slot.inlineAt e.slots 0 false s
  refused : ∀ {c}, Slot.inlineAt e.slots 0 false s = .error c → causes c
  inline : ∀ {a}, Slot.inlineAt e.slots 0 false s = .ok (some a) → a.Short s ∧ R.arg? σ a = some v
  read : ∀ {t σ' out r}, s.Inside limit t → s.Keeps (fun _ => False) (R.cells σ) (R.cells σ') →
    Slot.Targets env limit out t r → t.pool.Live r →
    Emit.Runs R limit causes (· = .register r) t σ' (e.read [out]) fun _ _ σ₁ => R.cells σ₁ r = v

theorem Code.run_read_slot (env : Env) (slot : Slot) (read : List Slot → Emit Unit) (out : Slot) (s : Ctx) :
    (Code.read [.whole (.ofSlot env slot read)] [out]).run s = (read [out]).run s := by
  have one : [out].length = Slices.len [Piece.whole (LeafCode.ofSlot env slot read)] := rfl
  rw [Code.read, if_pos one]
  change (read [out] >>= fun _ => Code.readPieces [] []).run s = _
  rw [Emit.run_bind]
  rcases (read [out]).run s with ⟨f | a, t⟩ <;> rfl

theorem const_yields (W : R.Values env.types causes) (what : String) {value : Value} (has : W.Has ty v)
    (isValue : ∀ σ, R.arg? σ (.literal value) = some v) (short : (Arg.literal value).Short s) :
    Code.Yields R env limit causes s σ [.whole (constCode env what ⟨value, ty⟩)] v where
  stable _ := rfl
  refused := nofun
  inline found := by
    cases found
    exact ⟨short, isValue σ⟩
  read inside _ targets live :=
    .of_run (Code.run_read_slot ..) (targets.put W inside.tidy live has (isValue _))

theorem var_yields (W : R.Values env.types causes) (tidy : s.Tidy limit) {handle : Nat}
    (small : handle < limit) (has : W.Has ty v) (writable : Bool)
    (holds : ∀ {r}, s.registerOf? handle = some r → R.cells σ r = v)
    (refused : ∀ {c}, handleArg handle s = .error c → causes c) :
    Code.Yields R env limit causes s σ [.whole (varCode env handle ty writable)] v := by
  have found {a : Arg} (isArg : handleArg handle s = .ok a) : a.Short s ∧ R.arg? σ a = some v := by
    unfold handleArg at isArg
    split at isArg
    · next r bound =>
      cases isArg
      have live := tidy.disciplined.live bound
      exact ⟨live, by rw [R.arg?_register σ live.1, holds bound]⟩
    · cases isArg
  have stable {t : Ctx} (inside : s.Inside limit t) : handleArg handle t = handleArg handle s := by
    simp [handleArg, inside.registers handle small]
  have form (t : Ctx) : Slot.inlineAt (Code.slots [.whole (varCode env handle ty writable)]) 0 false t =
      (handleArg handle t).map some := by
    change (if (false && !writable) = true then .ok none else (handleArg handle t).map some) = _
    simp
  refine ⟨fun {t} inside => ?_, fun {c} failed => ?_, fun {a} named => ?_, fun {t σ' out r} inside kept targets live =>
    .of_run (Code.run_read_slot ..) (.ask_bind (fun {c} failed => ?_) fun a isArg => ?_)⟩
  · rw [form t, form s, stable inside]
  · rw [form s] at failed
    cases answer : handleArg handle s with
    | error c' =>
      rw [answer] at failed
      cases failed
      exact refused answer
    | ok a =>
      rw [answer] at failed
      cases failed
  · rw [form s] at named
    cases answer : handleArg handle s with
    | error c =>
      rw [answer] at named
      cases named
    | ok a' =>
      rw [answer] at named
      cases named
      exact found answer
  · exact refused ((stable inside).symm.trans failed)
  · obtain ⟨short, value⟩ := found ((stable inside).symm.trans isArg)
    exact targets.put W inside.tidy live has ((short.kept id kept).trans value)

/-- Code that can be evaluated to an argument that is worth `v` for as long as the registers in use keep
their values. -/
def Code.Supplies (R : Runner Q V) (env : Env) (limit : Nat) (causes : Cause → Prop) (s : Ctx) (σ : Q)
    (e : Code) (v : V) : Prop :=
  ∀ {t σ'}, s.Inside limit t → s.Keeps (fun _ => False) (R.cells σ) (R.cells σ') →
    Emit.Runs R limit causes (fun _ => False) t σ' (e.toArg env) fun a u σ₁ =>
      ∀ σ₂, u.Keeps (fun _ => False) (R.cells σ₁) (R.cells σ₂) → R.arg? σ₂ a = some v

theorem Code.Yields.supplies {e : Code} (yields : e.Yields R env limit causes s σ v)
    (refused : causes (.outOfSlots registerCount)) : e.Supplies R env limit causes s σ v := by
  intro t σ' inside kept
  refine .ask_bind (fun failed => yields.refused ((yields.stable inside).symm.trans failed)) fun form found => ?_
  cases form with
  | some a =>
    obtain ⟨short, value⟩ := yields.inline ((yields.stable inside).symm.trans found)
    exact .pure inside.tidy fun _ later => (short.kept id (kept.trans inside later)).trans value
  | none =>
    refine .temp_bind inside.tidy refused fun r u taken live _ => ?_
    refine ((yields.read (inside.trans taken) kept (Slot.register_targets r) live).widen fun _ => Or.inl).bind
      fun _ w σ₁ further _ holds => .pure further.tidy fun σ₂ later => ?_
    rw [R.arg?_register σ₂ live.1, later r (further.live r live) id, holds]

/-- What a chain makes of values, and lines that do the same. -/
structure Runner.Arithmetic (R : Runner Q V) (types : Registry) (causes : Cause → Prop) extends
    Runner.Values R types causes where
  combine : ChainOp → V → V → Option V
  lines : ∀ {op lt rt v w u r σ a}, Has lt v → Has rt w → combine op v w = some u → r < registerCount →
    R.cells σ r = v → R.arg? σ a = some w → a ≠ .register r →
    ∃ σ', R.Moves (op.lines types lt rt (.register r) a) σ σ' ∧ R.cells σ' r = u
  outOfSlots : causes (.outOfSlots registerCount)

variable {W : R.Arithmetic env.types causes}

/-- Later operands, what they are worth, and what the chain is worth up to them. -/
inductive Folds (W : R.Arithmetic env.types causes) (limit : Nat) (s : Ctx) (σ : Q) (op : ChainOp) :
    TypeId → V → List OperandCode → V → Prop
  | nil {before : TypeId} {v : V} : Folds W limit s σ op before v [] v
  | cons {before : TypeId} {o : OperandCode} {rest : List OperandCode} {v w next result : V} :
    W.Has before v → o.expr.Yields R env limit causes s σ w → W.Has o.ty w → W.combine op v w = some next →
    Folds W limit s σ op o.after next rest result → Folds W limit s σ op before v (o :: rest) result

theorem Folds.yields (folds : Folds W limit s σ op before v tail result) :
    ∀ o ∈ tail, ∃ w, o.expr.Yields R env limit causes s σ w := by
  induction folds with
  | nil => exact List.forall_mem_nil _
  | cons _ yields _ _ _ ih => exact List.forall_mem_cons.mpr ⟨⟨_, yields⟩, ih⟩

/-- No operand is named by a register, and if the register is in use, all operands have names. -/
structure Apart (s : Ctx) (target : Nat) (tail : List OperandCode) : Prop where
  named : ∀ o ∈ tail, Slot.inlineAt o.expr.slots 0 false s ≠ .ok (some (.register target))
  free : ¬ s.pool.Live target ∨ ∀ o ∈ tail, Slot.inlineAt o.expr.slots 0 false s ≠ .ok none

theorem operator_runs (tidy : s.Tidy limit) (live : s.pool.Live target) (l : W.Has before v) (r : W.Has ty w)
    (combined : W.combine op v w = some result) (holds : R.cells σ target = v)
    (operand : R.arg? σ a = some w) (other : a ≠ .register target) :
    Emit.Runs R limit causes (· = .register target) s σ
      (Emit.lines (op.lines env.types before ty (.register target) a)) fun _ _ σ' =>
        R.cells σ' target = result := by
  obtain ⟨σ', moves, value⟩ := W.lines l r combined live.1 holds operand other
  refine (Emit.Runs.lines tidy moves fun i member place isPlace => ?_).mono
    fun _ _ _ _ _ isState => isState ▸ value
  cases (op.lines_place i member).symm.trans isPlace
  rfl

/-- Operands are worth what they were worth at first, though a register changes with each of them. -/
theorem applyOperands_runs (folds : Folds W limit s σ op before v tail result) (apart : Apart s target tail)
    (inside : s.Inside limit t) (kept : s.Keeps (· = .register target) (R.cells σ) (R.cells σ'))
    (holds : R.cells σ' target = v) (live : t.pool.Live target) {scratch : Option Nat}
    (held : ∀ q ∈ scratch, t.pool.Live q ∧ ¬ s.pool.Live q ∧ q ≠ target) :
    Emit.Runs R limit causes (fun a => a = .register target ∨ ∃ q ∈ scratch, a = .register q) t σ'
      (applyOperands env op (.register target) before scratch tail) fun _ _ σ₁ =>
        R.cells σ₁ target = result := by
  induction folds generalizing t σ' scratch with
  | nil => exact .pure inside.tidy holds
  | @cons before o tail v w next result l yields r combined _ ih =>
    have others : Apart s target tail := by
      refine ⟨fun p member => apart.named p (List.mem_cons_of_mem _ member), ?_⟩
      exact apart.free.imp id fun all p member => all p (List.mem_cons_of_mem _ member)
    unfold applyOperands
    refine .ask_bind (fun failed => yields.refused ((yields.stable inside).symm.trans failed)) fun form found => ?_
    have found := (yields.stable inside).symm.trans found
    cases form with
    | some a =>
      obtain ⟨short, value⟩ := yields.inline found
      have other : a ≠ .register target := fun same => apart.named o List.mem_cons_self (same ▸ found)
      refine ((operator_runs inside.tidy live l r combined holds ((short.kept other kept).trans value)
        other).keeping.widen fun _ => Or.inl).bind fun _ u σ₁ further _ ⟨holds, same⟩ => ?_
      exact ih others (inside.trans further) (kept.trans inside same) holds (further.live _ live)
        fun q member => ⟨further.live q (held q member).1, (held q member).2⟩
    | none =>
      have free : ¬ s.pool.Live target :=
        apart.free.resolve_right fun all => all o List.mem_cons_self found
      have unchanged : s.Keeps (fun _ => False) (R.cells σ) (R.cells σ') := by
        refine fun q inUse _ => kept q inUse ?_
        rintro ⟨⟩
        exact free inUse
      have rest {u : Ctx} {slot : Nat} (further : s.Inside limit u) (live : u.pool.Live target)
          (isLive : u.pool.Live slot) (fresh : ¬ s.pool.Live slot) (other : slot ≠ target) :
          Emit.Runs R limit causes (fun a => a = .register target ∨ ∃ q ∈ some slot, a = .register q) u σ' (do
            o.expr.read [Slot.register env slot]
            Emit.lines (op.lines env.types before o.ty (.register target) (.register slot))
            applyOperands env op (.register target) o.after (some slot) tail) fun _ _ σ₁ =>
              R.cells σ₁ target = result := by
        have apart : Arg.register slot ≠ .register target := fun same => other (Arg.register.inj same)
        refine ((yields.read further unchanged (Slot.register_targets slot) isLive).keeping.widen
          fun _ same => .inr ⟨slot, rfl, same⟩).bind fun _ w σ₁ within _ ⟨value, same⟩ => ?_
        have still : R.cells σ₁ target = v := (same target live apart.symm).trans holds
        have operand := (R.arg?_register σ₁ isLive.1).trans (congrArg some value)
        refine ((operator_runs within.tidy (within.live _ live) l r combined still operand apart).keeping.widen
          fun _ => Or.inl).bind fun _ w' σ₂ last _ ⟨holds, same'⟩ => ?_
        have reached := (further.trans within).trans last
        have kept' : s.Keeps (· = .register target) (R.cells σ) (R.cells σ₂) := by
          refine fun q inUse different => ?_
          rw [same' q (within.live q (further.live q inUse)) different, same q (further.live q inUse),
            kept q inUse different]
          rintro ⟨⟩
          exact fresh inUse
        refine ih others reached kept' holds (last.live _ (within.live _ live)) ?_
        rintro q ⟨⟩
        exact ⟨last.live _ (within.live _ isLive), fresh, other⟩
      cases scratch with
      | some slot =>
        obtain ⟨isLive, fresh, other⟩ := held slot rfl
        exact rest inside live isLive fresh other
      | none =>
        refine .temp_bind inside.tidy W.outOfSlots fun slot u further isLive fresh => ?_
        have other : slot ≠ target := by
          rintro rfl
          exact fresh live
        refine (rest (inside.trans further) (further.live _ live) isLive (fun inUse => fresh (inside.live _ inUse))
          other).widen ?_
        rintro a (isTarget | ⟨q, ⟨⟩, isSlot⟩)
        · exact .inr (.inl isTarget)
        · exact .inl isSlot

section
variable {head : Code} {headType : TypeId}

theorem computeChain_runs (first : head.Yields R env limit causes s σ v)
    (folds : Folds W limit s σ op headType v tail result) (inside : s.Inside limit t)
    (kept : s.Keeps (fun _ => False) (R.cells σ) (R.cells σ')) {out : Slot}
    (targets : out.Targets env limit t target) (live : t.pool.Live target) (apart : Apart s target tail) :
    Emit.Runs R limit causes (· = .register target) t σ'
      (computeChain env op head headType tail [out] (.register target)) fun _ _ σ₁ =>
        R.cells σ₁ target = result := by
  have rest {u : Ctx} {σ₁ : Q} (further : t.Inside limit u)
      (same : t.Keeps (· = .register target) (R.cells σ') (R.cells σ₁)) (holds : R.cells σ₁ target = v) :
      Emit.Runs R limit causes (· = .register target) u σ₁
        (applyOperands env op (.register target) headType none tail) fun _ _ σ₁ =>
          R.cells σ₁ target = result := by
    have held : ∀ q ∈ (none : Option Nat), u.pool.Live q ∧ ¬ s.pool.Live q ∧ q ≠ target := nofun
    refine (applyOperands_runs folds apart (inside.trans further) ((kept.widen fun _ => False.elim).trans inside same)
      holds (further.live _ live) held).widen ?_
    rintro a (isTarget | ⟨_, ⟨⟩, _⟩)
    exact isTarget
  refine .ask_bind (fun failed => first.refused ((first.stable inside).symm.trans failed)) fun form found => ?_
  dsimp only
  split
  · exact (first.read inside kept targets live).bind fun _ u σ₁ further same holds => rest further same holds
  · next same =>
    -- The value stands in the register already.
    obtain ⟨a, rfl, text⟩ := Option.map_eq_some_iff.mp (Decidable.of_not_not same)
    obtain ⟨short, value⟩ := first.inline ((first.stable inside).symm.trans found)
    have isTarget := short.eq_register live.1 text
    subst isTarget
    have holds : R.cells σ' target = v := by
      rw [← short.kept id kept, R.arg?_register σ' live.1] at value
      exact Option.some.inj value
    exact rest (.refl inside.tidy) .refl holds

theorem leaveAlone_spec {target : Arg} (alone : leaveAlone target s tail = .ok true) :
    ∀ o ∈ tail, ∃ arg, Slot.inlineAt o.expr.slots 0 false s = .ok (some arg) ∧ arg ≠ target := by
  induction tail with
  | nil => exact List.forall_mem_nil _
  | cons o rest ih =>
    simp only [leaveAlone, bind, Except.bind] at alone
    split at alone
    · cases alone
    · next form found =>
      cases form with
      | none => cases alone
      | some arg =>
        dsimp only at alone
        split at alone
        · cases alone
        · next apart =>
          refine List.forall_mem_cons.mpr ⟨⟨arg, found, ?_⟩, ih alone⟩
          rintro rfl
          exact apart (Text.occursIn_self _)

/-- It can be said whether the operands leave a place alone, if each of them may be asked for its form. -/
theorem leaveAlone_refused {place : Arg} {c : Cause}
    (each : ∀ o ∈ tail, ∀ {c}, Slot.inlineAt o.expr.slots 0 false s = .error c → causes c)
    (failed : leaveAlone place s tail = .error c) : causes c := by
  induction tail with
  | nil => cases failed
  | cons o rest ih =>
    obtain ⟨here, others⟩ := List.forall_mem_cons.mp each
    simp only [leaveAlone, bind, Except.bind] at failed
    split at failed
    · next answer =>
      cases failed
      exact here answer
    · next form _ =>
      cases form with
      | none => cases failed
      | some arg =>
        dsimp only at failed
        split at failed
        · cases failed
        · exact ih others failed

theorem chain_yields (first : head.Yields R env limit causes s σ v)
    (folds : Folds W limit s σ op headType v tail result) (has : W.Has ty result) (what : String) :
    Code.Yields R env limit causes s σ [.whole (chainCode env what op head headType tail ty)] result := by
  refine ⟨fun _ => rfl, nofun, nofun, fun {t σ' out target} inside kept targets live =>
    .of_run (Code.run_read_slot ..) ?_⟩
  have stable (o : OperandCode) (member : o ∈ tail) :
      Slot.inlineAt o.expr.slots 0 false t = Slot.inlineAt o.expr.slots 0 false s := by
    obtain ⟨w, yields⟩ := folds.yields o member
    exact yields.stable inside
  have place : Emit.Runs R limit causes (· = .register target) t σ' (chainTarget? tail [out]) fun place u σ₁ =>
      u = t ∧ σ₁ = σ' ∧ ∀ a, place = some a →
        a = .register target ∧ leaveAlone (.register target) t tail = .ok true := by
    have role : Slot.roleAt [out] 0 = .register := targets.role
    unfold chainTarget?
    rw [if_neg (not_not_intro role)]
    refine .inspect_bind (targets.inline t (.refl inside.tidy) true) (.ask_bind (fun failed => ?_) fun alone answer => ?_)
    · refine leaveAlone_refused (fun o member {c} failed => ?_) failed
      obtain ⟨w, yields⟩ := folds.yields o member
      exact yields.refused ((stable o member).symm.trans failed)
    · cases alone with
      | false => exact .pure inside.tidy ⟨rfl, rfl, nofun⟩
      | true =>
        refine .pure inside.tidy ⟨rfl, rfl, fun a same => ?_⟩
        cases same
        exact ⟨rfl, answer⟩
  refine place.bind fun answer u σ₁ _ _ ⟨here, same, isPlace⟩ => ?_
  subst here same
  have entered := Ctx.Inside.enter inside.tidy id
  cases answer with
  | some a =>
    obtain ⟨rfl, alone⟩ := isPlace a rfl
    have named := leaveAlone_spec alone
    have apart : Apart s target tail := by
      refine ⟨fun o member found => ?_, .inr fun o member found => ?_⟩ <;>
        obtain ⟨arg, isArg, other⟩ := named o member <;>
        rw [← stable o member, isArg] at found <;> cases found
      exact other rfl
    exact .inScope inside.tidy (computeChain_runs first folds (inside.trans entered) kept
      (targets.inside entered) (entered.live _ live) apart)
  | none =>
    refine .inScope inside.tidy (.temp_bind entered.tidy W.outOfSlots fun slot w within isLive fresh => ?_)
    have reached := entered.trans within
    have free : ¬ s.pool.Live slot := fun inUse => fresh (entered.live _ (inside.live _ inUse))
    have apart : Apart s slot tail := by
      refine ⟨fun o member found => ?_, .inl free⟩
      obtain ⟨_, yields⟩ := folds.yields o member
      exact free (yields.inline found).1
    refine ((computeChain_runs first folds (inside.trans reached) kept (Slot.register_targets slot) isLive
      apart).widen fun _ => Or.inl).bind fun _ w' σ₁ further _ value => ?_
    have there := reached.trans further
    have found := (R.arg?_register σ₁ isLive.1).trans (congrArg some value)
    exact ((targets.inside there).put W.toValues there.tidy (there.live _ live) has found).widen fun _ => Or.inr

end

end

end AgentScript
