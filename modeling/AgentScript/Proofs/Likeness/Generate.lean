import AgentScript.Code.Generate
import AgentScript.Proofs.Likeness.Law
import AgentScript.Proofs.Preservation.Emission

/-! The codes of scripts that are alike are related by every law: variables and fields, chains and
conditions, texts and calls, statements, and by recursion on their structure whole scripts. -/
namespace AgentScript

section
variable {Q : Correspondence} {env env' : Env} {P : String → Prop} {S R : Emit.Comparison}
  {handle handle' : Nat} {ty ty' : TypeId} {vars vars' : List LocalVar} {name : String} {x y : Emit Unit}
  {out out' : List Slot} {a b : List PartCode}

variable (law : Emit.Law Q env env' P S R)
include law

theorem constCode_alike (what : String) {c : Constant}
    (types : Q.types c.ty c.ty) :
    LeafCode.Alike Q P S R (constCode env what c) (constCode env' what c) := by
  refine LeafCode.ofSlot_alike law ⟨rfl, fun forWrite => .ok ?_, fun _ _ _ _ => law.same rfl⟩ fun outs =>
    Slot.put_alike law outs _ types
  split
  · exact .none
  · exact .some (law.oneLine c.value.literal_oneLine)

/-- Variables that correspond are held in the same register. -/
theorem Ctx.Matches.registerOf? {s t : Ctx} (matched : s.Matches Q t) (handles : Q.handles handle handle') :
    t.registerOf? handle' = s.registerOf? handle := by
  have bound := matched.bound
  unfold Ctx.registerOf?
  generalize s.bound = l at bound ⊢
  generalize t.bound = l' at bound ⊢
  induction bound with
  | nil => rfl
  | @cons a b l l' first _ ih =>
    obtain ⟨h, slot⟩ := a
    obtain ⟨h', slot'⟩ := b
    obtain ⟨here, rfl⟩ : Q.handles h h' ∧ slot' = slot := first
    have apart := law.apart handles here
    by_cases found : handle = h
    · rw [List.lookup_cons, List.lookup_cons, beq_iff_eq.mpr found, beq_iff_eq.mpr (apart.mp found)]
    · have missed : handle' ≠ h' := fun same => found (apart.mpr same)
      rw [List.lookup_cons, List.lookup_cons, beq_eq_false_iff_ne.mpr found,
        beq_eq_false_iff_ne.mpr missed]
      exact ih

theorem handleArg_asks (handles : Q.handles handle handle') :
    Asks Q (fun arg => P arg.text) (handleArg handle) (handleArg handle') := by
  refine ⟨fun {s t} matched => ?_⟩
  unfold handleArg
  rw [matched.registerOf? law handles]
  cases s.registerOf? handle with
  | none => exact .error ⟨law.escaped handles, rfl⟩
  | some slot => exact .ok ⟨rfl, law.oneLine (Arg.register_oneLine slot)⟩

theorem varSlot_alike (handles : Q.handles handle handle') (writable : Bool) :
    Slot.Alike Q P R (varSlot env handle writable) (varSlot env' handle' writable) where
  role := rfl
  inline forWrite := by
    refine Asks.ite (.ok .none) ?_
    exact (handleArg_asks law handles).bind fun arg holds => .ok (.some holds)
  write input _ _ types := law.bind (law.inspect (handleArg_asks law handles)) fun _ => law.store types ..

theorem varCode_alike (handles : Q.handles handle handle') (types : Q.types ty ty') (writable : Bool) :
    LeafCode.Alike Q P S R (varCode env handle ty writable) (varCode env' handle' ty' writable) :=
  LeafCode.ofSlot_alike law (varSlot_alike law handles writable) fun outs =>
    law.bind (law.inspect (handleArg_asks law handles)) fun _ => Slot.put_alike law outs _ types

theorem varSlots_alike (same : List.Forall₂ (LocalVar.Like Q.toLikeness) vars vars') :
    SlotsAlike Q P R (varSlots env vars) (varSlots env' vars') :=
  List.rel_map (fun _ _ like => varSlot_alike law like.handle true) same

theorem builtinSlot_alike (worded : P name) (writable : Bool) (role : Role) :
    Slot.Alike Q P R (builtinSlot env name writable role) (builtinSlot env' name writable role) := by
  refine ⟨rfl, fun forWrite => .ok ?_, fun _ _ _ types => law.ite (law.store types ..) (law.same rfl)⟩
  split
  · exact .none
  · exact .some worded

theorem builtinCode_alike (worded : P name) (types : Q.types ty ty') (writable : Bool) (role : Role) :
    LeafCode.Alike Q P S R (builtinCode env name ty writable role)
      (builtinCode env' name ty' writable role) :=
  LeafCode.ofSlot_alike law (builtinSlot_alike law worded writable role) fun outs =>
    Slot.put_alike law outs _ types

theorem sinkCode_alike (what : String) (len : Nat) :
    LeafCode.Alike Q P S R (sinkCode env what len) (sinkCode env' what len) :=
  LeafCode.ofSlots_alike law (Slot.discards_alike law len) fun _ => law.same rfl

section
variable {a b : Code}

theorem withTarget_alike (same : Code.Alike Q P S R a b) (inner : R x y) :
    R (withTarget env a x) (withTarget env' b y) := by
  refine law.inScope (law.bind law.temp fun saved => law.bind (law.line rfl) fun _ => ?_)
  have targ : P "targ" := law.oneLine (by decide)
  refine law.bind (same.read law (.cons (builtinSlot_alike law.away targ true .target) .nil)) fun _ => ?_
  exact law.bind inner fun _ => law.line rfl

theorem onTarget_alike (same : Code.Alike Q P S R a b) (inner : R x y) :
    R (onTarget env a x) (onTarget env' b y) := by
  unfold onTarget
  rw [same.role]
  exact law.ite inner (withTarget_alike law same inner)

theorem keepArg_alike (input : Arg) (types : Q.types ty ty') :
    R (keepArg env input ty) (keepArg env' input ty') :=
  law.ite (law.pure _) (law.bind law.temp fun _ => law.bind (law.store types ..) fun _ => law.pure _)

omit law in
theorem fieldReadName_alike (same : Code.Alike Q P S R a b) (f : Field) :
    fieldReadName? b f = fieldReadName? a f := by
  unfold fieldReadName?
  rw [same.role]

omit law in
theorem fieldWriteName_alike (same : Code.Alike Q P S R a b) (f : Field) :
    fieldWriteName? b f = fieldWriteName? a f := by
  unfold fieldWriteName?
  rw [same.role]

theorem fieldNames_worded (base : Code) (f : Field) (forWrite : Bool) :
    Worded P (if forWrite then fieldWriteName? base f else fieldReadName? base f) := by
  have own : P (Arg.ownField f.slot.toNat).text :=
    law.append (law.oneLine (by decide)) (law.oneLine (.twoDigits _))
  have other : P (Arg.targetField f.slot.toNat).text :=
    law.append (law.oneLine (by decide)) (law.oneLine (.twoDigits _))
  unfold fieldWriteName? fieldReadName?
  split
  · split
    · exact .some own
    · exact .some other
    · exact .none
  · split
    · exact .some own
    · exact .none

theorem fieldWrite_alike (same : Code.Alike Q P S R a b) (f : Field) (input : Arg) (types : Q.types ty ty') :
    R (fieldWrite env a f input ty) (fieldWrite env' b f input ty') := by
  unfold fieldWrite
  rw [fieldWriteName_alike same]
  split
  · exact law.store types ..
  · refine law.inScope (law.bind (keepArg_alike law input types) fun _ => ?_)
    exact withTarget_alike law same (law.store types ..)

theorem fieldRead_alike (same : Code.Alike Q P S R a b) {f : Field} (types : Q.types f.ty f.ty)
    (outs : SlotsAlike Q P S out out') : R (fieldRead env a f out) (fieldRead env' b f out') := by
  unfold fieldRead
  rw [fieldReadName_alike same]
  split
  · exact law.lift (Slot.writeAt_alike law.away outs _ _ types)
  · refine law.inScope (law.bind law.temp fun _ => ?_)
    exact law.bind (onTarget_alike law same (law.store types ..)) fun _ => Slot.put_alike law outs _ types

theorem fieldCode_alike (same : Code.Alike Q P S R a b) {f : Field}
    (types : Q.types f.ty f.ty) : LeafCode.Alike Q P S R (fieldCode env a f) (fieldCode env' b f) := by
  refine LeafCode.ofSlot_alike law ?_ fun outs => fieldRead_alike law same types outs
  refine ⟨rfl, fun forWrite => ?_, fun input _ _ types => fieldWrite_alike law same f input types⟩
  simp only [fieldReadName_alike same, fieldWriteName_alike same]
  exact .ok (fieldNames_worded law a f forWrite)

theorem classCheck_alike (cls : Classifier) (nullable : Bool)
    (slot : Nat) : R (classCheck cls nullable slot) (classCheck cls nullable slot) := by
  have set : R (Emit.line (.store .value (.register slot) (.int 1))) _ := law.line rfl
  have check := law.guarded (classTest cls) set .none
  cases nullable with
  | false => exact check
  | true => exact law.guarded (.atom .targ .ne (.name "null")) check .none

theorem isInstanceCode_alike (what : String) (same : Code.Alike Q P S R a b) (cls : Classifier)
    (nullable : Bool) (types : Q.types ty ty') :
    LeafCode.Alike Q P S R (isInstanceCode env what a cls nullable ty)
      (isInstanceCode env' what b cls nullable ty') := by
  refine LeafCode.ofSlot_alike law (Slot.computed_alike law what) fun outs => ?_
  refine law.inScope (law.bind law.temp fun slot => law.bind (law.line rfl) fun _ => ?_)
  refine law.bind (onTarget_alike law same (classCheck_alike law ..)) fun _ => ?_
  exact Slot.put_alike law outs _ types

theorem retypeSlot_alike {x y : List Slot} (same : SlotsAlike Q P R x y) (types : Q.types ty ty') :
    Slot.Alike Q P R (retypeSlot x ty) (retypeSlot y ty') where
  role := Slot.roleAt_alike same 0
  inline forWrite := Slot.inlineAt_alike law same 0 forWrite
  write input _ _ _ := Slot.writeAt_alike law same 0 input types

theorem castCode_alike (same : Code.Alike Q P S R a b) (types : Q.types ty ty') :
    LeafCode.Alike Q P S R (castCode env a ty) (castCode env' b ty') := by
  refine LeafCode.ofSlot_alike law ?_ fun outs => ?_
  · exact ⟨same.role, fun forWrite => Slot.inlineAt_alike law same.slots 0 forWrite,
      fun input _ _ types => same.write law input types⟩
  · exact same.read law (.cons (retypeSlot_alike law.away outs types) .nil)

theorem retypeCode_alike (what : String) (same : Code.Alike Q P S R a b) (types : Q.types ty ty') :
    LeafCode.Alike Q P S R (retypeCode env what a ty) (retypeCode env' what b ty') :=
  LeafCode.ofSlot_alike law (retypeSlot_alike law same.slots types) fun _ => law.same rfl

end

structure OperandCode.Alike (Q : Correspondence) (P : String → Prop) (S R : Emit.Comparison)
    (a b : OperandCode) : Prop where
  expr : Code.Alike Q P S R a.expr b.expr
  ty : Q.types a.ty b.ty
  after : Q.types a.after b.after

section
variable {a b : List OperandCode}

theorem leaveAlone_alike
    (same : List.Forall₂ (OperandCode.Alike Q P S R) a b) (target : Arg) :
    Asks Q (fun _ => True) (fun s => leaveAlone target s a) fun s => leaveAlone target s b := by
  induction same with
  | nil => exact .ok trivial
  | cons first _ ih =>
    refine (Slot.inlineAt_alike law first.expr.slots 0 false).bind fun form _ => ?_
    cases form with
    | none => exact .ok trivial
    | some arg => exact .ite (.ok trivial) ih

theorem applyOperands_alike (op : ChainOp) (target : Arg)
    {before before' : TypeId} (types : Q.types before before') (scratch : Option Nat)
    (same : List.Forall₂ (OperandCode.Alike Q P S R) a b) :
    R (applyOperands env op target before scratch a)
      (applyOperands env' op target before' scratch b) := by
  induction same generalizing before before' scratch with
  | nil => exact law.pure ()
  | @cons o o' rest rest' first others ih =>
    have computed (slot : Nat) := law.bind (first.expr.read law (Slot.register_alike law.away slot)) fun _ =>
      law.bind (law.chainLines op types first.ty target (.register slot)) fun _ => ih first.after (some slot)
    unfold applyOperands
    refine law.bind (first.expr.inline law false) fun form => ?_
    cases form with
    | some arg => exact law.bind (law.chainLines op types first.ty ..) fun _ => ih first.after _
    | none =>
      cases scratch with
      | some slot => exact law.bind (law.pure slot) computed
      | none => exact law.bind law.temp computed

theorem chainTarget_alike (same : List.Forall₂ (OperandCode.Alike Q P S R) a b)
    (outs : SlotsAlike Q P S out out') : R (chainTarget? a out) (chainTarget? b out') := by
  unfold chainTarget?
  rw [Slot.roleAt_alike outs]
  refine law.ite (law.pure _)
    (law.bind (law.inspect (Slot.inlineAt_alike law.away outs 0 true)) fun form => ?_)
  cases form with
  | none => exact law.pure _
  | some target =>
    exact law.bind (law.inspect (leaveAlone_alike law same target)) fun _ =>
      law.ite (law.pure _) (law.pure _)

theorem computeChain_alike (op : ChainOp) {head head' : Code} (first : Code.Alike Q P S R head head')
    (types : Q.types ty ty') (same : List.Forall₂ (OperandCode.Alike Q P S R) a b)
    (outs : SlotsAlike Q P S out out') (target : Arg) :
    R (computeChain env op head ty a out target) (computeChain env' op head' ty' b out' target) := by
  have apply := applyOperands_alike law op target types none same
  refine law.bind (first.inline law false) fun form => ?_
  exact law.ite (law.bind (first.read law outs) fun _ => apply) apply

theorem chainCode_alike (what : String) (op : ChainOp) {head head' : Code}
    (first : Code.Alike Q P S R head head') {headType headType' : TypeId}
    (headTypes : Q.types headType headType') (same : List.Forall₂ (OperandCode.Alike Q P S R) a b)
    (types : Q.types ty ty') :
    LeafCode.Alike Q P S R (chainCode env what op head headType a ty)
      (chainCode env' what op head' headType' b ty') := by
  refine LeafCode.ofSlot_alike law (Slot.computed_alike law what) fun outs => ?_
  refine law.bind (chainTarget_alike law same outs) fun target => ?_
  cases target with
  | some target => exact law.inScope (computeChain_alike law op first headTypes same outs target)
  | none =>
    refine law.inScope (law.bind law.temp fun slot => ?_)
    refine law.bind (computeChain_alike law op first headTypes same (Slot.register_alike law.away slot) _)
      fun _ => ?_
    exact Slot.put_alike law outs _ types

end

structure CondCode.Alike (R : Emit.Comparison) (a b : CondCode) : Prop where
  constant : b.constant = a.constant
  connective : b.connective = a.connective
  test : ∀ invert, R (a.test invert) (b.test invert)

namespace CondCode

theorem compare_alike (op : CompareOp)
    {left left' right right' : Code} (l : Code.Alike Q P S R left left')
    (r : Code.Alike Q P S R right right') :
    Alike R (compare env op left right) (compare env' op left' right') :=
  ⟨rfl, rfl, fun _ => law.bind (l.toArg law) fun _ => law.bind (r.toArg law) fun _ => law.pure _⟩

variable {a b : CondCode}

omit law in
theorem not_alike (same : Alike R a b) : Alike R a.not b.not := by
  refine ⟨rfl, funext fun invert => ?_, fun invert => same.test !invert⟩
  exact congrFun same.connective _

theorem writeValue_alike (same : Alike R a b) (outs : SlotsAlike Q P S out out') (invert : Bool) :
    R (a.writeValue out invert) (b.writeValue out' invert) := by
  have written (v : Arg) := law.lift (Slot.writeAt_alike law.away outs 0 v law.boolean)
  unfold writeValue
  rw [same.constant]
  split
  · exact written _
  · refine law.inScope (law.bind (same.test invert) fun test => ?_)
    exact law.guarded test (written _) (.some (written _))

theorem clause_alike (parent : LogicOp) (same : Alike R a b)
    (invert : Bool) : R (a.clause env parent invert) (b.clause env' parent invert) := by
  unfold clause
  rw [same.connective]
  refine law.ite (same.test invert) (law.bind law.temp fun slot => ?_)
  exact law.bind (writeValue_alike law same (Slot.register_alike law.away slot) invert) fun _ =>
    law.pure _

theorem logic_alike (op : LogicOp)
    {left left' right right' : CondCode} (l : Alike R left left') (r : Alike R right right') :
    Alike R (logic env op left right) (logic env' op left' right') :=
  ⟨rfl, rfl, fun invert => law.bind (clause_alike law _ l invert) fun _ =>
    law.bind (clause_alike law _ r invert) fun _ => law.pure _⟩

end CondCode

theorem testCode_alike (what : String) {a b : CondCode}
    (same : CondCode.Alike R a b) :
    LeafCode.Alike Q P S R (testCode env what a) (testCode env' what b) := by
  refine LeafCode.ofSlot_alike law ?_ fun outs => CondCode.writeValue_alike law same outs false
  refine ⟨rfl, fun forWrite => ?_, fun _ _ _ _ => law.same rfl⟩
  simp only [same.constant]
  refine .ok ?_
  split
  · exact .none
  · cases a.constant with
    | none => exact .none
    | some b => exact .some (law.oneLine (Value.literal_oneLine _))

theorem registerNote_alike (slot : Nat) {v w : LocalVar}
    (like : v.Like Q.toLikeness w) (worded : P v.label) :
    R (registerNote env slot v.ty v.label) (registerNote env' slot w.ty w.label) := by
  have between : P ": " := law.oneLine (by decide)
  have blank : P " " := law.oneLine (by decide)
  have name := law.oneLine (Arg.register_oneLine slot)
  have note {ty : String} (named : P ty) : P (Arg.registerName slot ++ ": " ++ ty ++ " " ++ v.label) :=
    law.append (law.append (law.append (law.append name between) named) blank) worded
  obtain ⟨here, there⟩ := law.named like.ty
  unfold registerNote
  rw [like.label]
  exact law.varNote (.comment (note here) (note there) (law.noted like.ty))

theorem bindVars_alike (same : List.Forall₂ (LocalVar.Like Q.toLikeness) vars vars')
    (worded : ∀ v ∈ vars, P v.label) : R (bindVars env vars) (bindVars env' vars') := by
  induction same with
  | nil => exact law.pure ()
  | cons like _ ih =>
    obtain ⟨here, others⟩ := List.forall_mem_cons.mp worded
    exact law.bind (law.register like.handle) fun _ =>
      law.bind (registerNote_alike law _ like here) fun _ => ih others

/-- Copies of related expressions to variables that correspond. -/
abbrev CopiesAlike (Q : Correspondence) (P : String → Prop) (S R : Emit.Comparison) :
    List (Code × List LocalVar) → List (Code × List LocalVar) → Prop :=
  Cache.CopiesPair Q.toLikeness (LeafCode.Alike Q P S R)

theorem writeCopies_alike {a b : List (Code × List LocalVar)}
    (same : CopiesAlike Q P S R a b) (worded : ∀ c ∈ a, ∀ v ∈ c.2, P v.label) :
    R (writeCopies env a) (writeCopies env' b) := by
  induction same with
  | nil => exact law.pure ()
  | cons first _ ih =>
    obtain ⟨sources, vars⟩ := first
    obtain ⟨here, others⟩ := List.forall_mem_cons.mp worded
    refine law.bind (bindVars_alike law vars here) fun _ => ?_
    exact law.bind (Code.Alike.read law sources (varSlots_alike law.away vars)) fun _ => ih others

namespace Cache

omit law in
theorem freshVars_labels {readType : Nat → Except Cause TypeId} {label : Nat → String}
    (each : ∀ i, P (label i)) {places : List Nat}
    (made : freshVars readType label places next = (.ok vars, next')) : ∀ v ∈ vars, P v.label := by
  intro v isVar
  have isLabel : v.label ∈ vars.map (·.label) := List.mem_map_of_mem isVar
  rw [(freshVars_spec made).2.1] at isLabel
  obtain ⟨i, _, same⟩ := List.mem_map.mp isLabel
  exact same ▸ each i

omit law in
theorem Split.labels {α : Type} [Slotted α] {s : Source α} (each : ∀ i, P (s.label i))
    {copies : List (Slices α × List LocalVar)} {parts : List (Slices α)}
    (split : Split s rs next copies parts) : ∀ c ∈ copies, ∀ v ∈ c.2, P v.label := by
  induction split with
  | nil => exact List.forall_mem_nil _
  | copied _ fresh _ ih => exact List.forall_mem_cons.mpr ⟨freshVars_labels each fresh, ih⟩
  | kept _ _ ih => exact ih

omit law in
theorem make_labels {α : Type} [Slotted α] {s : Source α} (each : ∀ i, P (s.label i)) {next next' : Nat}
    {copied : Nat → Bool} {result : Result α} (made : make s copied next = (.ok result, next')) :
    ∀ c ∈ result.copies, ∀ v ∈ c.2, P v.label := by
  obtain ⟨_, split, _⟩ := make_split made
  exact split.labels each

end Cache

theorem argsText_worded {args : List Arg}
    (each : ∀ arg ∈ args, P arg.text) : P (argsText args) := by
  induction args with
  | nil => exact law.oneLine (by decide)
  | cons first rest ih =>
    obtain ⟨here, others⟩ := List.forall_mem_cons.mp each
    cases rest with
    | nil => simpa [argsText, Text.words] using here
    | cons second more =>
      have joined : argsText (first :: second :: more) =
          first.text ++ " " ++ argsText (second :: more) := by
        simp [argsText, Text.words, String.intercalate_cons_cons]
      rw [joined]
      exact law.append (law.append here (law.oneLine (by decide))) (ih others)

namespace PartCode

/-- The same text, or related expressions that are read with types that correspond. -/
inductive Alike (Q : Correspondence) (P : String → Prop) (S R : Emit.Comparison) :
    PartCode → PartCode → Prop
  | text {s : String} : P s → Alike Q P S R (.text s) (.text s)
  | expr {readType readType' : Nat → Except Cause TypeId} {a b : Code} :
      (∀ i, Paired Q.causes Q.types (readType i) (readType' i)) → Code.Alike Q P S R a b →
      Alike Q P S R (.expr readType a) (.expr readType' b)

theorem tryText_alike (same : List.Forall₂ (Alike Q P S R) a b) :
    Asks Q (fun text => ∀ t ∈ text, P t) (fun s => tryText s a) fun s => tryText s b := by
  have extend {first : String} {rest : Option String} (here : P first) (others : ∀ t ∈ rest, P t) :
      ∀ t ∈ rest.map (first ++ ·), P t := by
    cases rest with
    | none => simp
    | some text => simpa using law.append here (others text rfl)
  induction same with
  | nil => exact .ok (by simpa using law.oneLine (by decide))
  | cons first _ ih =>
    cases first with
    | text here => exact ih.bind fun _ others => .ok (extend here others)
    | expr _ codes =>
      refine (Slot.inlineAll_alike codes.slots).bind fun form worded => ?_
      cases form with
      | none => exact .ok (by simp)
      | some args =>
        have here := argsText_worded law (worded args rfl)
        exact ih.bind fun _ others => .ok (extend here others)

theorem exprText_alike {readType readType' : Nat → Except Cause TypeId}
    (reads : ∀ i, Paired Q.causes Q.types (readType i) (readType' i)) {a b : Code}
    (same : Code.Alike Q P S R a b) : R (exprText env readType a) (exprText env' readType' b) := by
  unfold exprText cached
  simp only [Emit.bind_assoc]
  refine law.bind (law.inspect (Slot.needCode_alike same.slots)) fun copied => ?_
  refine law.current_bind fun s t matched => ?_
  have label (i : Nat) : P ("inline #" ++ Text.nat i) :=
    law.append (law.oneLine (by decide)) (law.oneLine (.nat i))
  have sources : Cache.Source.Match Q.toLikeness Q.causes (LeafCode.Alike Q P S R)
      ⟨a, readType, fun i => "inline #" ++ Text.nat i, fun v => varCode env v.handle v.ty true⟩
      ⟨b, readType', fun i => "inline #" ++ Text.nat i, fun v => varCode env' v.handle v.ty true⟩ :=
    ⟨same, reads, rfl, fun like => varCode_alike law like.handle like.ty true⟩
  rcases made : Cache.make (α := LeafCode) ⟨a, _, _, _⟩ (fun i => copied.getD i false) s.nextHandle with
    ⟨result, stop⟩
  have handles : Cache.Handles Q.toLikeness s.nextHandle stop t.nextHandle := fun n _ => matched.handles n
  obtain ⟨n, rfl, next, both⟩ := Cache.make_like LeafCode.Alike.respects sources made handles
  generalize Cache.make (α := LeafCode) ⟨b, _, _, _⟩ _ _ = y at next both ⊢
  obtain ⟨result', stop'⟩ := y
  obtain rfl : stop' = t.nextHandle + n := next
  have later (k : Nat) : Q.handles (s.nextHandle + n + k) (t.nextHandle + n + k) := by
    rw [Nat.add_assoc, Nat.add_assoc]
    exact matched.handles (n + k)
  refine law.bind (law.handles later) fun _ => ?_
  cases both with
  | error cause => exact law.refuse cause
  | ok related =>
    change R (writeCopies env _ >>= _) (writeCopies env' _ >>= _)
    refine law.bind (writeCopies_alike law related.1 (Cache.make_labels label made)) fun _ => ?_
    refine law.bind (law.inspect (Slot.inlineAll_alike (Code.Alike.slots related.2))) fun form => ?_
    cases form with
    | some args => exact law.pure _
    | none => exact law.same rfl

theorem render_alike (same : List.Forall₂ (Alike Q P S R) a b) : R (render env a) (render env' b) := by
  induction same with
  | nil => exact law.pure _
  | cons first _ ih =>
    cases first with
    | text => exact law.bind ih fun _ => law.pure _
    | expr reads codes =>
      exact law.bind (exprText_alike law reads codes) fun _ => law.bind ih fun _ => law.pure _

end PartCode

theorem inlineCode_alike (what : String) (same : List.Forall₂ (PartCode.Alike Q P S R) a b)
    (types : Q.types ty ty') :
    LeafCode.Alike Q P S R (inlineCode env what a ty) (inlineCode env' what b ty') := by
  refine LeafCode.ofSlot_alike law ?_ fun outs => ?_
  · refine ⟨rfl, fun forWrite => ?_, fun _ _ _ _ => law.same rfl⟩
    refine Asks.ite (.ok .none) ((PartCode.tryText_alike law same).bind fun text worded => .ok ?_)
    cases text with
    | none => exact .none
    | some t => exact .some (worded t rfl)
  · exact law.inScope (law.bind (PartCode.render_alike law same) fun _ =>
      law.lift (Slot.writeAt_alike law.away outs _ _ types))

/-- Placeholders that correspond stand for related expressions. -/
def Placeholder.Alike (Q : Correspondence) (P : String → Prop) (R : Emit.Comparison) (a b : Placeholder) :
    Prop :=
  ∀ ⦃n n'⦄, Q.deferred n n' → Option.Rel (Code.Alike Q P R R) (a n) (b n')

theorem Placeholder.Alike.get {a b : Placeholder}
    (tables : Placeholder.Alike Q P S a b) {n n' : Nat} (ids : Q.deferred n n') :
    Paired (fun c d => Q.causes c d ∧ c.isInternal = true) (Code.Alike Q P S S) (a.get n) (b.get n') := by
  have found := tables ids
  unfold Placeholder.get
  generalize a n = x at found ⊢
  generalize b n' = y at found ⊢
  cases found with
  | some same => exact .ok same
  | none => exact .error ⟨law.unbound ids, rfl⟩

theorem deferredSlot_alike (what : String) {a b : Placeholder}
    (tables : Placeholder.Alike Q P S a b) {n n' : Nat} (ids : Q.deferred n n') (i : Nat) (perm : Perm) :
    Slot.Alike Q P R (deferredSlot what a n i perm) (deferredSlot what b n' i perm) := by
  have found := tables.get law ids
  refine ⟨?_, fun forWrite => ?_, fun input ty ty' types => ?_⟩
  · have here := tables ids
    simp only [deferredSlot, Thunk.get]
    generalize a n = x at here ⊢
    generalize b n' = y at here ⊢
    cases here with
    | some same => exact Slot.roleAt_alike same.slots i
    | none => rfl
  · refine Asks.ite ⟨fun matched => found.bind fun same => ?_⟩ (.ok .none)
    exact (Slot.inlineAt_alike law.away same.slots i forWrite).answers matched
  · refine law.ite (law.ofExcept_bind (found.imp And.left id) fun same => ?_) (law.same rfl)
    exact law.lift (Slot.writeAt_alike law.away same.slots i input types)

theorem deferredCode_alike (what : String) {a b : Placeholder}
    (tables : Placeholder.Alike Q P S a b) {n n' : Nat} (ids : Q.deferred n n') (perms : List Perm) :
    LeafCode.Alike Q P S R (deferredCode what a n perms) (deferredCode what b n' perms) := by
  have found := (tables.get law ids).imp And.left id
  refine ⟨?_, fun {out out'} outs => ?_, fun {base len out out'} outs => ?_⟩
  · refine List.forall₂_of_length_eq_of_get (by simp [deferredCode]) fun i inside inside' => ?_
    simp only [deferredCode, List.get_eq_getElem, List.getElem_mapIdx]
    exact deferredSlot_alike law what tables ids i _
  · exact law.ofExcept_bind found fun same => law.lift (same.read law.away outs)
  · refine law.ofExcept_bind found fun same => law.ofExcept_bind (same.cut law.away base len) fun same => ?_
    exact law.lift (Code.Alike.read law.away same outs)

theorem callCode_alike {a b : List (Code × List LocalVar)}
    (copies : CopiesAlike Q P S S a b) (worded : ∀ c ∈ a, ∀ v ∈ c.2, P v.label) {x y : Code}
    (body : Code.Alike Q P S S x y) : LeafCode.Alike Q P S R (callCode env a x) (callCode env' b y) := by
  have copied := writeCopies_alike law.away copies worded
  refine LeafCode.ofSlots_alike law ?_ fun outs => ?_
  · refine List.rel_map (fun slot slot' same => ?_) body.slots
    refine ⟨rfl, fun _ => .ok .none, fun input _ _ types => ?_⟩
    exact law.outsideLoops (law.outer.bind copied fun _ => same.write input types)
  · exact law.outsideLoops (law.outer.bind copied fun _ => body.read law.away outs)

theorem seqCode_alike (what : String) (first : R x y) {a b : Code} (result : Code.Alike Q P S R a b) :
    LeafCode.Alike Q P S R (seqCode env what x a) (seqCode env' what y b) := by
  refine LeafCode.ofSlots_alike law ?_ fun outs => ?_
  · exact List.rel_map (fun _ _ _ => Slot.computed_alike law what) result.slots
  · exact law.inScope (law.bind first fun _ => result.read law outs)

namespace Action
variable {a b : Code}

theorem located_alike {pos : Position} (worded : P pos.file) {kind : ActionKind} {table : Placeholder}
    (same : R (kind.run env table) y) : R (located env pos (kind.run env table)) (located env' pos y) := by
  have place : P ("@ " ++ pos.display) := by
    have mark : P "@ " := law.oneLine (by decide)
    have colon : P ":" := law.oneLine (by decide)
    have number (n : Nat) : P (Text.nat n) := law.oneLine (.nat n)
    exact law.append mark (law.append (law.append (law.append (law.append worded colon) (number _)) colon)
      (number _))
  have whole := law.bind (law.placeNote pos.isKnown place) fun _ => law.located pos kind table same
  unfold located
  revert whole
  cases env.config.sourceComments && pos.isKnown <;>
    cases env'.config.sourceComments && pos.isKnown <;> exact id

theorem declare_alike (like : List.Forall₂ (LocalVar.Like Q.toLikeness) vars vars')
    (worded : ∀ v ∈ vars, P v.label) {a b : Option Code} (same : Option.Rel (Code.Alike Q P S R) a b) :
    R (declare env vars a) (declare env' vars' b) := by
  refine law.bind (bindVars_alike law like worded) fun _ => ?_
  cases same with
  | some init => exact law.inScope (init.read law (varSlots_alike law.away like))
  | none => exact law.pure ()

theorem assign_alike {x y : Code} (targets : Code.Alike Q P S S a b) (source : Code.Alike Q P S R x y) :
    R (assign a x) (assign b y) :=
  law.inScope (source.read law targets.slots)

theorem update_alike (op : ChainOp) {x y : Code} (target : Code.Alike Q P S R a b)
    (source : Code.Alike Q P S R x y) {before before' operand operand' after after' : TypeId}
    (befores : Q.types before before') (operands : Q.types operand operand')
    (afters : Q.types after after') :
    R (update env op a x before operand after) (update env' op b y before' operand' after') := by
  refine law.inScope (law.bind (target.inline law true) fun form => ?_)
  cases form with
  | some place => exact law.bind (source.toArg law) fun r => law.chainLines op befores operands ..
  | none =>
    refine law.bind (target.toRegister law) fun copy => law.bind (source.toArg law) fun r => ?_
    exact law.bind (law.chainLines op befores operands ..) fun _ => target.write law _ afters

theorem synonym_alike (worded : P name) (target : Code.Alike Q P S R a b) :
    R (synonym env name a) (synonym env' name b) := by
  refine law.varNote (.asked (Slot.inlineAll_alike target.slots) fun form each => ?_)
  cases form with
  | some args =>
    have text := argsText_worded law (each args rfl)
    have note := law.append (law.append text (law.oneLine (by decide : Text.OneLine ": alias "))) worded
    exact .comment note note (law.sameText _)
  | none =>
    have note := law.append (law.oneLine (by decide : Text.OneLine "alias ")) worded
    exact .comment note note (law.sameText _)

theorem branch_alike {a b : CondCode} (cond : CondCode.Alike R a b) (yes : R x y)
    {x' y' : Option (Emit Unit)} (no : Option.Rel R x' y') : R (branch a x x') (branch b y y') := by
  refine law.inScope (law.bind (cond.test false) fun test => ?_)
  cases no with
  | some otherwise =>
    exact law.guarded test (law.inScope yes) (.some (law.inScope otherwise))
  | none => exact law.guarded test (law.inScope yes) .none

theorem inline_alike {a b : List PartCode}
    (same : List.Forall₂ (PartCode.Alike Q P S R) a b) : R (inline env a) (inline env' b) :=
  law.inScope (law.bind (PartCode.render_alike law same) fun _ => law.line rfl)

end Action

end

section
variable {Q : Correspondence} {env env' : Env} {P : String → Prop} {R : Emit.Comparison} {x y : Emit Unit}
  (law : Emit.LoopLaw Q env env' P R)
include law

namespace Action

theorem loop_alike (body : R x y) : R (loop x) (loop y) := by
  refine law.freshLabel_bind fun {top top'} tops => law.freshLabel_bind fun {exit exit'} exits => ?_
  refine law.bind (law.goto tops) fun _ => ?_
  have targets : LoopTarget.Like Q ⟨exit, none, top⟩ ⟨exit', none, top'⟩ := ⟨exits, rfl, tops⟩
  have inside := law.inLoop targets body
  have whole := law.bind (law.repeated tops inside) fun _ => law.subr exits
  simpa only [Emit.repeated, Emit.bind_assoc] using whole

theorem breakLoop_alike : R breakLoop breakLoop := by
  refine law.current_bind fun s t matched => ?_
  have loops := matched.loop
  generalize s.loop = a at loops ⊢
  generalize t.loop = b at loops ⊢
  cases loops with
  | none => exact law.refuse (law.anyCause _)
  | @some target target' like =>
    dsimp only
    rw [like.flag]
    cases target.flag with
    | none => exact law.goto like.label
    | some flag => exact law.bind (law.line rfl) fun _ => law.goto like.label

theorem continueLoop_alike : R continueLoop continueLoop := by
  refine law.current_bind fun s t matched => ?_
  have loops := matched.loop
  generalize s.loop = a at loops ⊢
  generalize t.loop = b at loops ⊢
  cases loops with
  | none => exact law.refuse (law.anyCause _)
  | some like => exact law.goto like.continueLabel

theorem enumerate_alike {a b : List PartCode}
    (starter : List.Forall₂ (PartCode.Alike Q P R R) a b) {x y : Emit Unit} (body : R x y) :
    R (enumerate env a x) (enumerate env' b y) := by
  refine law.inScope (law.freshLabel_bind fun {exit exit'} exits => law.bind law.temp fun slot => ?_)
  have note : P ((Arg.register slot).text ++ ": integer break flag") :=
    law.append (law.oneLine (Arg.register_oneLine slot)) (law.oneLine (by decide))
  have first := law.varNote (.comment note note (law.sameText _))
  have targets : LoopTarget.Like Q ⟨exit, some (.register slot), exit⟩
      ⟨exit', some (.register slot), exit'⟩ := ⟨exits, rfl, exits⟩
  have inner := law.inLoop targets body
  have each (text : String) := law.enumerated text
    (law.bind (law.guarded (.atom (.register slot) .eq (.int 0)) inner .none) fun _ =>
      law.bind (law.goto exits) fun _ => law.subr exits)
  have whole := law.bind first fun _ =>
    law.bind (law.line (i := .store .value (.register slot) (.int 0)) rfl) fun _ =>
      law.bind (PartCode.render_alike law.anywhere starter) each
  simp only [Emit.enumerated, Emit.guarded, Emit.bind_assoc] at whole
  revert whole
  cases env.config.varComments <;> cases env'.config.varComments <;> exact id

end Action

end

mutual
/-- The names and texts in a resolved script that comments can repeat. -/
def Leaf.strings : Leaf → List String
  | .const _ | .var .. | .sink .. | .deferred .. => []
  | .builtin name .. => [name]
  | .field base _ => exprStrings base
  | .isInstance base .. => exprStrings base
  | .cast base _ => exprStrings base
  | .retype target _ => exprStrings target
  | .chain _ head _ tail => exprStrings head ++ operandStrings tail
  | .test cond _ => cond.strings
  | .inline parts _ => partStrings parts
  | .call _ copies body => copyStrings copies ++ exprStrings body
  | .seq _ body result => actionStrings body ++ exprStrings result
def pieceStrings : Piece Leaf → List String
  | .whole leaf | .view leaf _ _ => leaf.strings
def exprStrings : List (Piece Leaf) → List String
  | [] => []
  | p :: rest => pieceStrings p ++ exprStrings rest
def operandStrings : List Operand → List String
  | [] => []
  | .mk expr _ _ :: rest => exprStrings expr ++ operandStrings rest
def Cond.strings : Cond → List String
  | .const _ => []
  | .compare _ left right => exprStrings left ++ exprStrings right
  | .logic _ left right => left.strings ++ right.strings
  | .not c => c.strings
def partStrings : List Part → List String
  | [] => []
  | .text s :: rest => s :: partStrings rest
  | .expr e :: rest => exprStrings e ++ partStrings rest
def copyStrings : List Copy → List String
  | [] => []
  | .mk source vars :: rest => vars.map (·.label) ++ exprStrings source ++ copyStrings rest
def Action.strings : Action → List String
  | .mk pos kind => pos.file :: kind.strings
def actionStrings : List Action → List String
  | [] => []
  | a :: rest => a.strings ++ actionStrings rest
def initStrings : Option (List (Piece Leaf)) → List String
  | none => []
  | some e => exprStrings e
def otherwiseStrings : Option Action → List String
  | none => []
  | some a => a.strings
def ActionKind.strings : ActionKind → List String
  | .nop | .breakLoop | .continueLoop => []
  | .block body _ => actionStrings body
  | .declare vars init => vars.map (·.label) ++ initStrings init
  | .assign targets source => exprStrings targets ++ exprStrings source
  | .update _ target source .. => exprStrings target ++ exprStrings source
  | .synonym name target => name :: exprStrings target
  | .branch cond yes no => cond.strings ++ yes.strings ++ otherwiseStrings no
  | .loop body => body.strings
  | .enumerate starter body => partStrings starter ++ body.strings
  | .inline parts => partStrings parts
end

section
variable {Q : Correspondence} {env env' : Env} {P : String → Prop} {R : Emit.Comparison}
  {a b : Placeholder}

theorem labels_worded {vars : List LocalVar} (worded : ∀ s ∈ vars.map (·.label), P s) :
    ∀ v ∈ vars, P v.label :=
  fun v member => worded v.label (List.mem_map_of_mem member)

variable (law : Emit.LoopLaw Q env env' P R) (keyed : Q.Keyed) (tables : Placeholder.Alike Q P R a b)
include law keyed tables

set_option linter.unusedSectionVars false in
mutual
theorem Leaf.code_alike : (leaf leaf' : Leaf) → leaf.Like Q.toLikeness leaf' →
      (∀ s ∈ leaf.strings, P s) → LeafCode.Alike Q P R R (leaf.code env a) (leaf'.code env' b)
  | .const _, _, .const ty, _ => constCode_alike law.anywhere _ ty
  | .var .., _, .var handle ty, _ => varCode_alike law.anywhere handle ty _
  | .builtin name .., _, .builtin ty, worded =>
    builtinCode_alike law.anywhere (worded name List.mem_cons_self) ty ..
  | .sink .., _, .sink _ _, _ => sinkCode_alike law.anywhere ..
  | .field base f, _, .field same ty, worded =>
    fieldCode_alike law.anywhere (codeOf_alike base _ same worded) ty
  | .isInstance base .., _, .isInstance same ty, worded =>
    isInstanceCode_alike law.anywhere _ (codeOf_alike base _ same worded) _ _ ty
  | .cast base _, _, .cast same ty, worded =>
    castCode_alike law.anywhere (codeOf_alike base _ same worded) ty
  | .retype target _, _, .retype same ty, worded =>
    retypeCode_alike law.anywhere _ (codeOf_alike target _ same worded) ty
  | .chain op head _ tail, _, .chain first ty others, worded => by
    obtain ⟨here, later⟩ := List.forall_mem_append.mp worded
    exact chainCode_alike law.anywhere _ op (codeOf_alike head _ first here) ty
      (operandCodes_alike tail _ others later) (Leaf.resultType_like others ty)
  | .test c _, _, .test same _, worded =>
    testCode_alike law.anywhere _ (Cond.code_alike c _ same worded)
  | .inline parts _, _, .inline same ty, worded =>
    inlineCode_alike law.anywhere _ (partCodes_alike parts _ same worded) ty
  | .deferred .., _, .deferred _ ids _, _ => deferredCode_alike law.anywhere _ tables ids _
  | .call _ copies body, _, .call _ same inner, worded => by
    obtain ⟨here, later⟩ := List.forall_mem_append.mp worded
    obtain ⟨codes, labels⟩ := copyCodes_alike copies _ same here
    exact callCode_alike law.anywhere codes labels (codeOf_alike body _ inner later)
  | .seq _ body result, _, .seq _ first last, worded => by
    obtain ⟨here, later⟩ := List.forall_mem_append.mp worded
    exact seqCode_alike law.anywhere _ (runAll_alike body _ first here)
      (codeOf_alike result _ last later)
termination_by structural leaf => leaf
theorem codeOf_alike : (e e' : List (Piece Leaf)) →
      List.Forall₂ (Piece.Match (Leaf.Like Q.toLikeness)) e e' → (∀ s ∈ exprStrings e, P s) →
        Code.Alike Q P R R (codeOf env a e) (codeOf env' b e')
  | [], _, .nil, _ => .nil
  | .whole leaf :: rest, _, .cons (.whole like) others, worded => by
    obtain ⟨here, later⟩ := List.forall_mem_append.mp worded
    exact .cons (.whole (Leaf.code_alike leaf _ like here)) (codeOf_alike rest _ others later)
  | .view leaf _ _ :: rest, _, .cons (.view like) others, worded => by
    obtain ⟨here, later⟩ := List.forall_mem_append.mp worded
    exact .cons (.view (Leaf.code_alike leaf _ like here)) (codeOf_alike rest _ others later)
termination_by structural e => e
theorem operandCodes_alike : (tail tail' : List Operand) →
      List.Forall₂ (Operand.Like Q.toLikeness) tail tail' → (∀ s ∈ operandStrings tail, P s) →
        List.Forall₂ (OperandCode.Alike Q P R R) (operandCodes env a tail) (operandCodes env' b tail')
  | [], _, .nil, _ => .nil
  | .mk expr _ _ :: rest, _, .cons (.mk same ty after) others, worded => by
    obtain ⟨here, later⟩ := List.forall_mem_append.mp worded
    exact .cons ⟨codeOf_alike expr _ same here, ty, after⟩ (operandCodes_alike rest _ others later)
termination_by structural tail => tail
theorem Cond.code_alike : (c c' : Cond) → c.Like Q.toLikeness c' →
      (∀ s ∈ c.strings, P s) → CondCode.Alike R (c.code env a) (c'.code env' b)
  | .const known, _, .const, _ => ⟨rfl, rfl, fun _ => law.pure _⟩
  | .compare op left right, _, .compare l r, worded => by
    obtain ⟨here, later⟩ := List.forall_mem_append.mp worded
    exact CondCode.compare_alike law.anywhere op (codeOf_alike left _ l here)
      (codeOf_alike right _ r later)
  | .logic op left right, _, .logic l r, worded => by
    obtain ⟨here, later⟩ := List.forall_mem_append.mp worded
    exact CondCode.logic_alike law.anywhere op (Cond.code_alike left _ l here)
      (Cond.code_alike right _ r later)
  | .not c, _, .not same, worded => CondCode.not_alike (Cond.code_alike c _ same worded)
termination_by structural c => c
theorem partCodes_alike : (parts parts' : List Part) →
      List.Forall₂ (Part.Like Q.toLikeness) parts parts' → (∀ s ∈ partStrings parts, P s) →
        List.Forall₂ (PartCode.Alike Q P R R) (partCodes env a parts) (partCodes env' b parts')
  | [], _, .nil, _ => .nil
  | .text s :: rest, _, .cons .text others, worded => by
    obtain ⟨here, later⟩ := List.forall_mem_cons.mp worded
    exact .cons (.text here) (partCodes_alike rest _ others later)
  | .expr e :: rest, _, .cons (.expr same) others, worded => by
    obtain ⟨here, later⟩ := List.forall_mem_append.mp worded
    have reads := Expr.Like.readType keyed same
    exact .cons (.expr (fun i => (reads i).imp (fun same => same ▸ law.anyCause _) id)
      (codeOf_alike e _ same here)) (partCodes_alike rest _ others later)
termination_by structural parts => parts
theorem copyCodes_alike : (copies copies' : List Copy) →
      List.Forall₂ (Copy.Like Q.toLikeness) copies copies' → (∀ s ∈ copyStrings copies, P s) →
        CopiesAlike Q P R R (copyCodes env a copies) (copyCodes env' b copies') ∧
          ∀ c ∈ copyCodes env a copies, ∀ v ∈ c.2, P v.label
  | [], _, .nil, _ => ⟨.nil, List.forall_mem_nil _⟩
  | .mk source vars :: rest, _, .cons (.mk same named) others, worded => by
    obtain ⟨first, later⟩ := List.forall_mem_append.mp worded
    obtain ⟨names, here⟩ := List.forall_mem_append.mp first
    obtain ⟨codes, labels⟩ := copyCodes_alike rest _ others later
    exact ⟨.cons ⟨codeOf_alike source _ same here, named⟩ codes,
      List.forall_mem_cons.mpr ⟨labels_worded names, labels⟩⟩
termination_by structural copies => copies
theorem Action.run_alike : (action action' : Action) →
      action.Like Q.toLikeness action' → (∀ s ∈ action.strings, P s) →
        R (action.run env a) (action'.run env' b)
  | .mk pos kind, _, .mk same, worded => by
    obtain ⟨here, later⟩ := List.forall_mem_cons.mp worded
    exact Action.located_alike law.anywhere here (ActionKind.run_alike kind _ same later)
termination_by structural action => action
theorem runAll_alike : (body body' : List Action) →
      List.Forall₂ (Action.Like Q.toLikeness) body body' → (∀ s ∈ actionStrings body, P s) →
        R (runAll env a body) (runAll env' b body')
  | [], _, .nil, _ => law.pure ()
  | action :: rest, _, .cons first others, worded => by
    obtain ⟨here, later⟩ := List.forall_mem_append.mp worded
    exact law.bind (Action.run_alike action _ first here) fun _ => runAll_alike rest _ others later
termination_by structural body => body
theorem ActionKind.run_alike : (kind kind' : ActionKind) →
      kind.Like Q.toLikeness kind' → (∀ s ∈ kind.strings, P s) → R (kind.run env a) (kind'.run env' b)
  | .nop, _, .nop, _ => law.pure ()
  | .block body _, _, .block same, worded => by
    have inner := runAll_alike body _ same worded
    exact law.ite (law.inScope inner) inner
  | .declare vars none, _, .declare same .none, worded => by
    obtain ⟨names, _⟩ := List.forall_mem_append.mp worded
    exact Action.declare_alike law.anywhere same (labels_worded names) .none
  | .declare vars (some e), _, .declare same (.some value), worded => by
    obtain ⟨names, later⟩ := List.forall_mem_append.mp worded
    exact Action.declare_alike law.anywhere same (labels_worded names)
      (.some (codeOf_alike e _ value later))
  | .assign targets source, _, .assign left right, worded => by
    obtain ⟨here, later⟩ := List.forall_mem_append.mp worded
    exact Action.assign_alike law.anywhere (codeOf_alike targets _ left here)
      (codeOf_alike source _ right later)
  | .update op target source .., _, .update left right before operand after, worded => by
    obtain ⟨here, later⟩ := List.forall_mem_append.mp worded
    exact Action.update_alike law.anywhere op (codeOf_alike target _ left here)
      (codeOf_alike source _ right later) before operand after
  | .synonym name target, _, .synonym same, worded => by
    obtain ⟨here, later⟩ := List.forall_mem_cons.mp worded
    exact Action.synonym_alike law.anywhere here (codeOf_alike target _ same later)
  | .branch c yes none, _, .branch test first .none, worded => by
    obtain ⟨arms, _⟩ := List.forall_mem_append.mp worded
    obtain ⟨here, later⟩ := List.forall_mem_append.mp arms
    exact Action.branch_alike law.anywhere (Cond.code_alike c _ test here)
      (Action.run_alike yes _ first later) .none
  | .branch c yes (some no), _, .branch test first (.some second), worded => by
    obtain ⟨arms, last⟩ := List.forall_mem_append.mp worded
    obtain ⟨here, later⟩ := List.forall_mem_append.mp arms
    exact Action.branch_alike law.anywhere (Cond.code_alike c _ test here)
      (Action.run_alike yes _ first later) (.some (Action.run_alike no _ second last))
  | .loop body, _, .loop same, worded => Action.loop_alike law (Action.run_alike body _ same worded)
  | .breakLoop, _, .breakLoop, _ => Action.breakLoop_alike law
  | .continueLoop, _, .continueLoop, _ => Action.continueLoop_alike law
  | .enumerate starter body, _, .enumerate first same, worded => by
    obtain ⟨here, later⟩ := List.forall_mem_append.mp worded
    exact Action.enumerate_alike law (partCodes_alike starter _ first here)
      (Action.run_alike body _ same later)
  | .inline parts, _, .inline same, worded =>
    Action.inline_alike law.anywhere (partCodes_alike parts _ same worded)
termination_by structural kind => kind
end

end

end AgentScript
