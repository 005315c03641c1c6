import AgentScript.Proofs.Context
import AgentScript.Proofs.Layout.OneLine
import AgentScript.Proofs.Likeness.Slots
import AgentScript.Proofs.Safety.Value

/-! Relations between the runs of two scripts that are alike, under settings that may ask for different
comments. They are shown once, for every relation that respects how code is put together out of lines
and blocks; comparing a script with itself, they also say what its code looks like. -/
namespace AgentScript

namespace Cause

def isJump : Cause → Bool
  | cannotBreak | cannotContinue => true
  | _ => false

def isDepth : Cause → Bool
  | macroDepth _ => true
  | _ => false

/-- The cause lies in where something stands, not in what it is. -/
def isPlace (c : Cause) : Bool := c.isJump || c.isDepth

theorem notJump {c : Cause} (other : c.isPlace = false) : c.isJump = false :=
  (Bool.or_eq_false_iff.mp other).1

theorem notDepth {c : Cause} (other : c.isPlace = false) : c.isDepth = false :=
  (Bool.or_eq_false_iff.mp other).2

end Cause

/-- Does not fail because of the place. -/
def Calm (e : Except Cause α) : Prop := ∀ c, e = .error c → c.isPlace = false

namespace Calm

theorem ok (a : α) : Calm (.ok a) := nofun

theorem error (other : c.isPlace = false) : Calm (.error c : Except Cause α) := by
  rintro _ ⟨⟩
  exact other

theorem bind {x : Except Cause α} {f : α → Except Cause β} (first : Calm x) (next : ∀ a, Calm (f a)) :
    Calm (x >>= f) := by
  cases x with
  | error c => exact error (first c rfl)
  | ok a => exact next a

end Calm

theorem access_calm (e : Expr) (i : Nat) : Calm (e.access i) := by
  unfold Expr.access
  split
  · split
    · exact .ok _
    · exact .error rfl
  · exact .error rfl

theorem readType_calm (e : Expr) (i : Nat) : Calm (e.readType i) := by
  refine (access_calm e i).bind fun a => ?_
  split
  · exact .ok _
  · exact .error rfl

/-- Which labels, causes of failure and comments correspond, besides the numbers in resolved scripts. -/
structure Correspondence extends Likeness where
  labels : Label → Label → Prop
  causes : Cause → Cause → Prop
  texts : String → String → Prop

namespace Correspondence

def same : Correspondence := ⟨.same, (· = ·), (· = ·), (· = ·)⟩

/-- What the numbers of two scripts mean fits together: types, variables and causes of failure. -/
structure Suits (Q : Correspondence) (env env' : Env) (P : String → Prop) : Prop where
  major : Q.types a b → env'.types.major b = env.types.major a
  isString : Q.types a b →
    env'.types.canCast b Registry.string = env.types.canCast a Registry.string
  boolean : Q.types Registry.boolean Registry.boolean
  named : Q.types a b → P (env.types.name a) ∧ P (env'.types.name b)
  /-- Variables are told apart alike. -/
  apart : Q.handles a a' → Q.handles b b' → (a = b ↔ a' = b')
  sameCause : ∀ {c : Cause}, c.isJump = false → Q.causes c c
  sameText : ∀ text, Q.texts text text
  noted : Q.types a b → Q.texts (before ++ env.types.name a ++ between ++ after)
    (before ++ env'.types.name b ++ between ++ after)
  escaped : Q.handles a b → Q.causes (.escapedHandle a) (.escapedHandle b)
  unbound : Q.deferred a b → Q.causes (.unboundDeferred a) (.unboundDeferred b)
  unstored : Q.types a b →
    Q.causes (.unknownMajor (env.types.name a) text) (.unknownMajor (env'.types.name b) text)
  /-- Texts of one line are of the kind, and it is closed under joining. -/
  oneLine : ∀ {text}, Text.OneLine text → P text
  append : ∀ {a b : String}, P a → P b → P (a ++ b)

/-- A script means the same as itself, for all causes that correspond to themselves. -/
theorem Suits.ofSame {K : Cause → Cause → Prop} {env env' : Env} {P : String → Prop}
    (types : env'.types = env.types) (named : ∀ ty, P (env.types.name ty))
    (oneLine : ∀ {text}, Text.OneLine text → P text) (append : ∀ {a b : String}, P a → P b → P (a ++ b))
    (causes : ∀ {c : Cause}, c.isJump = false → K c c) :
    Suits { same with causes := K } env env' P where
  major := by
    rintro _ _ rfl
    rw [types]
  isString := by
    rintro _ _ rfl
    rw [types]
  boolean := rfl
  named := by
    rintro _ _ rfl
    rw [types]
    exact ⟨named _, named _⟩
  apart := by
    rintro _ _ _ _ rfl rfl
    exact Iff.rfl
  sameCause := causes
  sameText _ := rfl
  noted := by
    rintro _ _ _ _ _ rfl
    rw [types]
    rfl
  escaped := by
    rintro _ _ rfl
    exact causes rfl
  unbound := by
    rintro _ _ rfl
    exact causes rfl
  unstored := by
    rintro _ _ _ rfl
    rw [types]
    exact causes rfl
  oneLine := oneLine
  append := append

end Correspondence

section
variable (Q : Correspondence)

structure LoopTarget.Like (a b : LoopTarget) : Prop where
  label : Q.labels a.label b.label
  flag : b.flag = a.flag
  continueLabel : Q.labels a.continueLabel b.continueLabel

/-- Contexts in which variables that correspond have the same registers, whatever has been written and
whichever registers are free. -/
structure Ctx.Matches (s t : Ctx) : Prop where
  bound : List.Forall₂ (fun a b => Q.handles a.1 b.1 ∧ b.2 = a.2) s.bound t.bound
  loop : Option.Rel (LoopTarget.Like Q) s.loop t.loop
  labels : ∀ n, Q.labels (.numbered (s.nextLabel + n)) (.numbered (t.nextLabel + n))
  handles : ∀ n, Q.handles (s.nextHandle + n) (t.nextHandle + n)

/-- Questions that have the same answer in contexts that match, and fail only for internal causes. -/
structure Asks (A : α → Prop) (q q' : Ctx → Except Cause α) : Prop where
  answers : ∀ {s t}, Ctx.Matches Q s t →
    Paired (fun c d => Q.causes c d ∧ c.isInternal = true) (fun a b => b = a ∧ A a) (q s) (q' t)

end

variable {Q : Correspondence}

namespace Asks

theorem ok {A : α → Prop} (holds : A a) : Asks Q A (fun _ => .ok a) fun _ => .ok a :=
  ⟨fun _ => .ok ⟨rfl, holds⟩⟩

theorem bind {A : α → Prop} {B : β → Prop} {q q' : Ctx → Except Cause α}
    {f f' : α → Ctx → Except Cause β} (first : Asks Q A q q') (next : ∀ a, A a → Asks Q B (f a) (f' a)) :
    Asks Q B (fun s => q s >>= fun a => f a s) fun s => q' s >>= fun a => f' a s := by
  refine ⟨fun matched => (first.answers matched).bind fun {a b} ⟨same, holds⟩ => ?_⟩
  cases same
  exact (next a holds).answers matched

theorem ite {A : α → Prop} {c : Prop} [Decidable c] {q q' r r' : Ctx → Except Cause α}
    (first : Asks Q A q q') (second : Asks Q A r r') :
    Asks Q A (fun s => if c then q s else r s) fun s => if c then q' s else r' s := by
  by_cases chosen : c
  · simpa [chosen] using first
  · simpa [chosen] using second

end Asks

abbrev Worded (P : String → Prop) (form : Option Arg) : Prop := ∀ arg ∈ form, P arg.text

theorem Worded.none : Worded P none := nofun

theorem Worded.some (holds : P arg.text) : Worded P (some arg) := by
  rintro _ ⟨⟩
  exact holds

/-- Lines that neither open nor close a block and are no part of the frame of a script. -/
def Instr.isSimple : Instr → Bool
  | doif _ | otherwise | endi | enumerate _ | next | script _ | remove | endScript => false
  | _ => true

/-- Lines that neither labels nor blocks have a part in. -/
def Instr.isStraight : Instr → Bool
  | store .. | arith .. | toText _ | append .. | appendNumber .. | raw _ => true
  | _ => false

theorem Instr.isSimple_of_straight {i : Instr} (straight : i.isStraight = true) : i.isSimple = true := by
  cases i <;> simp_all [isStraight, isSimple]

theorem ChainOp.lines_straight (op : ChainOp) (types : Registry) (lt rt : TypeId) (target operand : Arg) :
    ∀ i ∈ op.lines types lt rt target operand, i.isStraight = true := by
  unfold ChainOp.lines
  split
  · split <;> simp [Instr.isStraight]
  · simp [Instr.isStraight]

namespace Emit

theorem run_register (handle : Nat) (s : Ctx) :
    (Emit.bind handle).run s = match s.pool.allocate? with
      | some (slot, pool) => (.ok slot, s.bindTo handle slot pool)
      | none => (.error (.of (.outOfSlots registerCount)), s) := by
  rw [Emit.bind, run_bind, run_current]
  dsimp only
  cases found : s.pool.allocate? with
  | none => rfl
  | some taken => simp [run_bind, Op.perform, found]

/-- Lines under a test, and possibly lines for when it fails. -/
def guarded (test : Test) (yes : Emit Unit) : Option (Emit Unit) → Emit Unit
  | none => do
    code 0 (.doif test) 1
    yes
    code (-1) .endi 0
  | some no => do
    code 0 (.doif test) 1
    yes
    code (-1) .otherwise 1
    no
    code (-1) .endi 0

/-- Lines for each agent that `text` enumerates. -/
def enumerated (text : String) (body : Emit Unit) : Emit Unit := do
  code 0 (.enumerate text) 1
  body
  code (-1) .next 0

/-- Lines that end with a jump back to the first of them. -/
def repeated (top : Label) (body : Emit Unit) : Emit Unit := do
  code 0 (.subr top) 1
  body
  code (-1) (.goto top) 0

/-- Comments that correspond, with texts of a kind, which may depend on the same answer to a question. -/
inductive Remarks (Q : Correspondence) (P : String → Prop) : Emit Unit → Emit Unit → Prop where
  | comment : P text → P text' → Q.texts text text' →
      Remarks Q P (Emit.comment text) (Emit.comment text')
  | asked {A : α → Prop} {q q' : Ctx → Except Cause α} {f g : α → Emit Unit} : Asks Q A q q' →
      (∀ a, A a → Remarks Q P (f a) (g a)) → Remarks Q P (Emit.inspect q >>= f) (Emit.inspect q' >>= g)

/-- What is done only if it is asked for. -/
def shown (asked : Bool) (x : Emit Unit) : Emit Unit := if asked then x else pure ()

abbrev Comparison := {α : Type} → Emit α → Emit α → Prop

/-- What a relation respects that holds between codes that are alike, where the comments have texts of a
kind, as far as loops have no part in it. -/
structure Straight (Q : Correspondence) (env env' : Env) (P : String → Prop) (R : Comparison) : Prop
    extends Q.Suits env env' P where
  pure : ∀ {α} (a : α), R (Pure.pure a) (Pure.pure a)
  refuse : ∀ {α} {c d : Cause}, Q.causes c d → R (Emit.refuse c : Emit α) (Emit.refuse d)
  bind : ∀ {α β} {x y : Emit α} {f g : α → Emit β}, R x y → (∀ a, R (f a) (g a)) →
    R (x >>= f) (y >>= g)
  look : ∀ {α} {f g : Ctx → Emit α}, (∀ s t, s.Matches Q t → R (f s) (g t)) → R (.look f) (.look g)
  handles : (∀ n, Q.handles (a + n) (b + n)) → R (perform (.handles a)) (perform (.handles b))
  register : Q.handles a b → R (Emit.bind a) (Emit.bind b)
  line : ∀ {i : Instr}, i.isStraight = true → R (Emit.line i) (Emit.line i)
  varNote : ∀ {x y}, Remarks Q P x y →
    R (shown env.config.varComments x) (shown env'.config.varComments y)
  placeNote : ∀ known {text}, P text → R (shown (env.config.sourceComments && known) (queue text))
    (shown (env'.config.sourceComments && known) (queue text))
  /-- Only statements have positions. -/
  located : ∀ (pos) (kind : ActionKind) (table : Placeholder) {y}, R (kind.run env table) y →
    R ((kind.run env table).located pos) (y.located pos)
  inScope : ∀ {x y}, R x y → R (Emit.inScope x) (Emit.inScope y)
  guarded : ∀ (test) {yes yes' no no'}, R yes yes' → Option.Rel R no no' →
    R (Emit.guarded test yes no) (Emit.guarded test yes' no')

/-- The same of a relation at some place, around code that is related by `S` and may stand anywhere. -/
structure Law (Q : Correspondence) (env env' : Env) (P : String → Prop) (S R : Comparison) : Prop
    extends Straight Q env env' P R where
  outer : Straight Q env env' P S
  lift : ∀ {α} {x y : Emit α}, S x y → R x y
  outsideLoops : ∀ {x y}, S x y → R (Emit.outsideLoops x) (Emit.outsideLoops y)
  outerLoops : ∀ {x y}, S x y → S (Emit.outsideLoops x) (Emit.outsideLoops y)

/-- The same of a relation that does not depend on the place, and what it respects about loops. -/
structure LoopLaw (Q : Correspondence) (env env' : Env) (P : String → Prop) (R : Comparison) : Prop
    extends Straight Q env env' P R where
  anyCause : ∀ c, Q.causes c c
  label : R (perform .label) (perform .label)
  goto : Q.labels l l' → R (Emit.line (.goto l)) (Emit.line (.goto l'))
  subr : Q.labels l l' → R (Emit.line (.subr l)) (Emit.line (.subr l'))
  within : ∀ {loop loop' x y}, (∀ {a b}, Option.Rel (LoopTarget.Like Q) a b →
      Option.Rel (LoopTarget.Like Q) (loop a) (loop' b)) →
    R x y → R (Emit.within loop x) (Emit.within loop' y)
  enumerated : ∀ (text) {x y}, R x y → R (Emit.enumerated text x) (Emit.enumerated text y)
  repeated : ∀ {top top' x y}, Q.labels top top' → R x y →
    R (Emit.repeated top x) (Emit.repeated top' y)

end Emit

section
variable {env env' : Env} {P : String → Prop} {S R : Emit.Comparison}

namespace Emit.Straight
variable (law : Straight Q env env' P R)
include law

omit law in
theorem ite (_law : Straight Q env env' P R) {c : Prop} [Decidable c] {x y x' y' : Emit α}
    (first : R x x') (second : R y y') : R (if c then x else y) (if c then x' else y') := by
  split
  · exact first
  · exact second

theorem same {c : Cause} (other : c.isJump = false) : R (Emit.refuse c : Emit α) (Emit.refuse c) :=
  law.refuse (law.sameCause other)

theorem ofExcept {x y : Except Cause α} (both : Paired Q.causes (· = ·) x y) :
    R (Emit.ofExcept x) (Emit.ofExcept y) := by
  cases both with
  | error cause => exact law.refuse cause
  | ok same =>
    cases same
    exact law.pure _

theorem ofExcept_bind {A : α → α → Prop} {x y : Except Cause α} {f g : α → Emit β}
    (both : Paired Q.causes A x y) (next : ∀ {a b}, A a b → R (f a) (g b)) :
    R (Emit.ofExcept x >>= f) (Emit.ofExcept y >>= g) := by
  cases both with
  | error cause => exact law.refuse cause
  | ok same => exact next same

theorem inspect {A : α → Prop} {q q' : Ctx → Except Cause α}
    (asks : Asks Q A q q') : R (Emit.inspect q) (Emit.inspect q') :=
  law.look fun _ _ matched => law.ofExcept ((asks.answers matched).imp And.left fun same => same.1.symm)

theorem current_bind {f g : Ctx → Emit α}
    (next : ∀ s t, s.Matches Q t → R (f s) (g t)) : R (Emit.current >>= f) (Emit.current >>= g) :=
  law.look next

theorem lines {is : List Instr} (straight : ∀ i ∈ is, i.isStraight = true) :
    R (Emit.lines is) (Emit.lines is) := by
  induction is with
  | nil => exact law.pure ()
  | cons i rest ih =>
    obtain ⟨first, others⟩ := List.forall_mem_cons.mp straight
    exact law.bind (law.line first) fun _ => ih others

theorem chainLines (op : ChainOp) {lt lt' rt rt' : TypeId}
    (left : Q.types lt lt') (right : Q.types rt rt') (target operand : Arg) :
    R (Emit.lines (op.lines env.types lt rt target operand))
      (Emit.lines (op.lines env'.types lt' rt' target operand)) := by
  have same : op.lines env'.types lt' rt' target operand = op.lines env.types lt rt target operand := by
    simp only [ChainOp.lines, law.isString left, law.isString right]
  rw [same]
  exact law.lines (op.lines_straight _ _ _ _ _)

theorem temp : R Emit.temp Emit.temp := by
  refine law.current_bind fun s t matched => ?_
  have next (n : Nat) : Q.handles (s.nextHandle + 1 + n) (t.nextHandle + 1 + n) := by
    rw [Nat.add_assoc, Nat.add_assoc]
    exact matched.handles (1 + n)
  exact law.bind (law.handles next) fun _ => law.register (matched.handles 0)

theorem store {ty ty' : TypeId} (types : Q.types ty ty') (target input : Arg) :
    R (Emit.store env ty target input) (Emit.store env' ty' target input) := by
  unfold Emit.store storeInstr
  rw [law.major types]
  split
  · exact law.line rfl
  · exact law.line rfl
  · exact law.line rfl
  · exact law.same rfl
  · exact law.refuse (law.unstored types)

end Emit.Straight

theorem Emit.Law.away (law : Law Q env env' P S R) : Law Q env env' P S S where
  __ := law
  toStraight := law.outer
  lift := id
  outsideLoops := law.outerLoops

namespace Emit.LoopLaw
variable (law : LoopLaw Q env env' P R)
include law

theorem inLoop {a b : LoopTarget} (targets : a.Like Q b) {x y : Emit Unit}
    (inner : R x y) : R (Emit.inLoop a x) (Emit.inLoop b y) :=
  law.within (fun _ => .some targets) inner

theorem freshLabel_bind {f g : Label → Emit α}
    (next : ∀ {l l'}, Q.labels l l' → R (f l) (g l')) :
    R (Emit.freshLabel >>= f) (Emit.freshLabel >>= g) :=
  law.current_bind fun _ _ matched => law.bind law.label fun _ => next (matched.labels 0)

theorem anywhere : Law Q env env' P R R where
  toStraight := law.toStraight
  outer := law.toStraight
  lift := id
  outsideLoops := law.within fun _ => .none
  outerLoops := law.within fun _ => .none

end Emit.LoopLaw

/-- Slots that are named alike and written in related ways. -/
structure Slot.Alike (Q : Correspondence) (P : String → Prop) (R : Emit.Comparison) (a b : Slot) : Prop where
  role : b.role.get = a.role.get
  inline : ∀ forWrite, Asks Q (Worded P) (a.inline forWrite) (b.inline forWrite)
  write : ∀ input {ty ty'}, Q.types ty ty' → R (a.write input ty) (b.write input ty')

abbrev SlotsAlike (Q : Correspondence) (P : String → Prop) (R : Emit.Comparison) :
    List Slot → List Slot → Prop :=
  List.Forall₂ (Slot.Alike Q P R)

namespace Slot
variable {a b : List Slot} {ty ty' : TypeId}

theorem roleAt_alike (same : SlotsAlike Q P R a b) (i : Nat) :
    roleAt b i = roleAt a i := by
  have here := forall₂_getElem? same i
  unfold roleAt
  generalize a[i]? = x at here ⊢
  generalize b[i]? = y at here ⊢
  cases here with
  | none => rfl
  | some alike => exact alike.role

theorem inlineAll_alike (same : SlotsAlike Q P R a b) :
    Asks Q (fun args => ∀ list ∈ args, ∀ arg ∈ list, P arg.text) (fun s => inlineAll s a)
      fun s => inlineAll s b := by
  induction same with
  | nil => exact .ok (by simp)
  | cons first _ ih =>
    refine (first.inline false).bind fun form worded => ?_
    cases form with
    | none => exact .ok (by simp)
    | some arg =>
      refine ih.bind fun args others => .ok ?_
      cases args with
      | none => simp
      | some list => simpa using ⟨worded arg rfl, others list rfl⟩

theorem needCode_alike (same : SlotsAlike Q P R a b) :
    Asks Q (fun _ => True) (fun s => needCode s a) fun s => needCode s b := by
  induction same with
  | nil => exact .ok trivial
  | cons first _ ih => exact (first.inline false).bind fun _ _ => ih.bind fun _ _ => .ok trivial

variable (law : Emit.Law Q env env' P S R)
include law

theorem get_alike (same : SlotsAlike Q P R a b) (i : Nat) :
    Paired (fun c d => Q.causes c d ∧ c.isInternal = true) (Alike Q P R) (get a i) (get b i) := by
  have here := forall₂_getElem? same i
  have count := same.length_eq
  unfold get
  generalize a[i]? = x at here ⊢
  generalize b[i]? = y at here ⊢
  cases here with
  | none => exact .error ⟨by rw [count]; exact law.sameCause rfl, rfl⟩
  | some alike => exact .ok alike

theorem inlineAt_alike (same : SlotsAlike Q P R a b) (i : Nat) (forWrite : Bool) :
    Asks Q (Worded P) (inlineAt a i forWrite) (inlineAt b i forWrite) :=
  ⟨fun matched => (get_alike law same i).bind fun alike => (alike.inline forWrite).answers matched⟩

theorem writeAt_alike (same : SlotsAlike Q P R a b) (i : Nat) (input : Arg) (types : Q.types ty ty') :
    R (writeAt a i input ty) (writeAt b i input ty') :=
  law.ofExcept_bind ((get_alike law same i).imp And.left id) fun alike => alike.write input types

theorem put_alike (outs : SlotsAlike Q P S a b) (input : Arg) (types : Q.types ty ty') :
    R (put a input ty) (put b input ty') := by
  unfold put
  rw [roleAt_alike outs]
  exact law.ite (law.pure ()) (law.lift (writeAt_alike law.away outs 0 input types))

theorem computed_alike (what : String) :
    Alike Q P R (computed what) (computed what) :=
  ⟨rfl, fun _ => .ok .none, fun _ _ _ _ => law.same rfl⟩

theorem discard_alike : Alike Q P R (discard env) (discard env') :=
  ⟨rfl, fun _ => .ok .none, fun _ _ _ types => law.bind law.temp fun _ => law.store types ..⟩

theorem register_alike (slot : Nat) :
    SlotsAlike Q P R [register env slot] [register env' slot] := by
  have named := Worded.some (law.oneLine (Arg.register_oneLine slot))
  exact .cons ⟨rfl, fun _ => .ok named, fun _ _ _ types => law.store types ..⟩ .nil

theorem discards_alike (n : Nat) :
    SlotsAlike Q P R (List.replicate n (discard env)) (List.replicate n (discard env')) := by
  induction n with
  | zero => exact .nil
  | succ n ih => exact .cons (discard_alike law) ih

end Slot

/-- Leaves with related slots, whose values are read in related ways to slots that may be written
anywhere. -/
structure LeafCode.Alike (Q : Correspondence) (P : String → Prop) (S R : Emit.Comparison)
    (a b : LeafCode) : Prop where
  slots : SlotsAlike Q P R a.slots b.slots
  read : ∀ {out out'}, SlotsAlike Q P S out out' → R (a.read out) (b.read out')
  readView : ∀ {base len out out'}, SlotsAlike Q P S out out' →
    R (a.readView base len out) (b.readView base len out')

namespace LeafCode

theorem Alike.respects : Slotted.Respects (Alike Q P S R) :=
  ⟨fun same => same.slots.length_eq, fun _ _ => rfl⟩

variable (law : Emit.Law Q env env' P S R)
include law

theorem ofSlots_alike {a b : List Slot} (slots : SlotsAlike Q P R a b)
    {read read' : List Slot → Emit Unit}
    (reads : ∀ {out out'}, SlotsAlike Q P S out out' → R (read out) (read' out')) :
    Alike Q P S R (ofSlots env a read) (ofSlots env' b read') where
  slots := slots
  read := reads
  readView {base len out out'} outs := by
    change R (readPadded env a.length read base len out) (readPadded env' b.length read' base len out')
    rw [← slots.length_eq]
    have discards := Slot.discards_alike law.away
    exact reads (List.rel_append (List.rel_append (discards base) outs) (discards _))

theorem ofSlot_alike {a b : Slot} (slot : Slot.Alike Q P R a b)
    {read read' : List Slot → Emit Unit}
    (reads : ∀ {out out'}, SlotsAlike Q P S out out' → R (read out) (read' out')) :
    Alike Q P S R (ofSlot env a read) (ofSlot env' b read') :=
  ofSlots_alike law (.cons slot .nil) reads

end LeafCode

abbrev Code.Alike (Q : Correspondence) (P : String → Prop) (S R : Emit.Comparison) :
    Code → Code → Prop :=
  List.Forall₂ (Piece.Match (LeafCode.Alike Q P S R))

namespace Code
variable {a b : Code}

theorem Alike.imp {R' : Emit.Comparison} (wider : ∀ {α} {x y : Emit α}, R x y → R' x y)
    (same : Alike Q P S R a b) : Alike Q P S R' a b := by
  have leaf {a b : LeafCode} (same : LeafCode.Alike Q P S R a b) : LeafCode.Alike Q P S R' a b := by
    refine ⟨same.slots.imp fun _ _ slot => ⟨slot.role, slot.inline, fun input _ _ types => ?_⟩,
      fun outs => wider (same.read outs), fun outs => wider (same.readView outs)⟩
    exact wider (slot.write input types)
  refine List.Forall₂.imp (fun p q piece => ?_) same
  cases piece with
  | whole same => exact .whole (leaf same)
  | view same => exact .view (leaf same)

theorem Alike.len (same : Alike Q P S R a b) : Slices.len b = Slices.len a :=
  Slices.len_match LeafCode.Alike.respects same

theorem Alike.slots (same : Alike Q P S R a b) : SlotsAlike Q P R a.slots b.slots := by
  induction same with
  | nil => exact .nil
  | cons first _ ih =>
    refine List.rel_append ?_ ih
    cases first with
    | whole leaf => exact leaf.slots
    | view leaf => exact List.forall₂_take _ (List.forall₂_drop _ leaf.slots)

theorem Alike.cut (law : Emit.Law Q env env' P S R) (same : Alike Q P S R a b) (base n : Nat) :
    Paired Q.causes (Alike Q P S R) (a.cut base n) (b.cut base n) := by
  unfold Code.cut Slices.cut
  rw [same.len]
  by_cases outside : Slices.len a < base + n
  · rw [if_pos outside, if_pos outside]
    exact .error (law.sameCause rfl)
  · rw [if_neg outside, if_neg outside]
    exact .ok (Slices.cutWithin_match LeafCode.Alike.respects same base n)

theorem Alike.readPieces (law : Emit.Law Q env env' P S R) (same : Alike Q P S R a b) {out out' : List Slot}
    (outs : SlotsAlike Q P S out out') : R (readPieces a out) (readPieces b out') := by
  induction same generalizing out out' with
  | nil => exact law.pure ()
  | @cons p _ _ _ first _ ih =>
    unfold Code.readPieces
    rw [first.len LeafCode.Alike.respects]
    refine law.bind ?_ fun _ => ih (List.forall₂_drop _ outs)
    have part := List.forall₂_take p.len outs
    cases first with
    | whole leaf => exact leaf.read part
    | view leaf => exact leaf.readView part

theorem Alike.read (law : Emit.Law Q env env' P S R) (same : Alike Q P S R a b) {out out' : List Slot}
    (outs : SlotsAlike Q P S out out') : R (a.read out) (b.read out') := by
  unfold Code.read
  rw [same.len, ← outs.length_eq]
  exact law.ite (same.readPieces law outs) (law.same rfl)

theorem Alike.role (same : Alike Q P S R a b) : b.role = a.role := Slot.roleAt_alike same.slots 0

variable (law : Emit.Law Q env env' P S R)
include law
theorem Alike.inline (same : Alike Q P S R a b) (forWrite : Bool) :
    R (a.inline forWrite) (b.inline forWrite) :=
  law.inspect (Slot.inlineAt_alike law same.slots 0 forWrite)

theorem Alike.write (same : Alike Q P S R a b) (input : Arg)
    {ty ty' : TypeId} (types : Q.types ty ty') : R (a.write input ty) (b.write input ty') :=
  Slot.writeAt_alike law same.slots 0 input types

theorem Alike.toRegister (same : Alike Q P S R a b) :
    R (a.toRegister env) (b.toRegister env') :=
  law.bind law.temp fun slot => law.bind (same.read law (Slot.register_alike law.away slot)) fun _ =>
    law.pure _

theorem Alike.toArg (same : Alike Q P S R a b) :
    R (a.toArg env) (b.toArg env') := by
  refine law.bind (same.inline law false) fun form => ?_
  cases form with
  | some arg => exact law.pure _
  | none => exact same.toRegister law

end Code

end

end AgentScript
