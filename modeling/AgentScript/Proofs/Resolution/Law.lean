import AgentScript.Proofs.Resolution.Course
import AgentScript.Proofs.Resolution.Calm
import Mathlib.Data.List.Forall2

/-! What two runs of resolution find, construct by construct. A reading says what may be known of a source
tree at a site, and what then is known, at a stage of a course, of the two trees that it is resolved to. A
reading that follows the rules holds of each construct if it holds of the parts. -/
namespace AgentScript

inductive Node where
  | term (t : Term)
  | terms (ts : List Term)
  | term? (t : Option Term)
  | fragments (fs : List Fragment)
  | selector (s : Selector)
  | statement (s : Statement)
  | body (ss : List Statement)
  | statement? (s : Option Statement)
  | kind (k : StatementKind)

/-- How sites follow from each other. -/
structure Sites (ι : Type) where
  /-- The site of what may be written elsewhere than where it is read. -/
  apart : ι → ι
  located : ι → Position → ι
  alone : ι → ι
  params : ι → ι
  body : ι → ι
  inside : ι → ι

/-- No site is told from another. -/
def Sites.one : Sites Unit := ⟨id, fun _ _ => (), id, id, id, id⟩

/-- A node has another as a part, which is at a site of its own. -/
inductive Node.Inner (S : Sites ι) (i : ι) : Node → ι → Node → Prop
  | items : Inner S i (.term (.group ts)) i (.terms ts)
  | operands : Inner S i (.term (.chain op ts)) i (.terms ts)
  | args : Inner S i (.term (.call name ts)) (S.apart i) (.terms ts)
  | field : Inner S i (.term (.field t name)) i (.term t)
  | cast : Inner S i (.term (.cast t ty)) i (.term t)
  | denull : Inner S i (.term (.denull t)) i (.term t)
  | isInstance : Inner S i (.term (.isInstance t cls)) i (.term t)
  | not : Inner S i (.term (.not t)) i (.term t)
  | compareLeft : Inner S i (.term (.compare op l r)) i (.term l)
  | compareRight : Inner S i (.term (.compare op l r)) i (.term r)
  | logicLeft : Inner S i (.term (.logic lop l r)) i (.term l)
  | logicRight : Inner S i (.term (.logic lop l r)) i (.term r)
  | inline : Inner S i (.term (.inline fs ty)) i (.fragments fs)
  | seqBody : Inner S i (.term (.seq ss t)) (S.inside i) (.body ss)
  | seqResult : Inner S i (.term (.seq ss t)) (S.inside i) (.term t)
  | first : Inner S i (.terms (t :: ts)) i (.term t)
  | others : Inner S i (.terms (t :: ts)) i (.terms ts)
  | given : Inner S i (.term? (some t)) i (.term t)
  | fragment : Inner S i (.fragments (.term t :: fs)) i (.term t)
  | fragments : Inner S i (.fragments (f :: fs)) i (.fragments fs)
  | number : Inner S i (.selector (.number t)) i (.term t)
  | kind : Inner S i (.statement (.mk pos k)) (S.located i pos) (.kind k)
  | statement : Inner S i (.body (s :: ss)) (S.alone i) (.statement s)
  | rest : Inner S i (.body (s :: ss)) i (.body ss)
  | otherwise : Inner S i (.statement? (some s)) i (.statement s)
  | block : Inner S i (.kind (.block ss true)) (S.inside i) (.body ss)
  | openBlock : Inner S i (.kind (.block ss false)) i (.body ss)
  | init : Inner S i (.kind (.declare names types given)) i (.term? given)
  | targets : Inner S i (.kind (.assign given t)) (S.apart i) (.term? given)
  | source : Inner S i (.kind (.assign given t)) i (.term t)
  | target : Inner S i (.kind (.update op l r)) i (.term l)
  | operand : Inner S i (.kind (.update op l r)) i (.term r)
  | synonym : Inner S i (.kind (.synonym name t)) (S.apart i) (.term t)
  | condition : Inner S i (.kind (.branch t s other)) i (.term t)
  | yes : Inner S i (.kind (.branch t s other)) (S.inside i) (.statement s)
  | no : Inner S i (.kind (.branch t s other)) (S.inside i) (.statement? other)
  | loop : Inner S i (.kind (.loop s)) (S.body i) (.statement s)
  | params : Inner S i (.kind (.enumerate which ty ts s)) (S.params i) (.terms ts)
  | enumerated : Inner S i (.kind (.enumerate which ty ts s)) (S.body i) (.statement s)
  | written : Inner S i (.kind (.inline fs)) i (.fragments fs)
  | agent : Inner S i (.kind (.send t message ts given)) i (.term t)
  | message : Inner S i (.kind (.send t message ts given)) i (.selector message)
  | sent : Inner S i (.kind (.send t message ts given)) i (.terms ts)
  | delay : Inner S i (.kind (.send t message ts given)) i (.term? given)
  | script : Inner S i (.kind (.call script ts)) i (.selector script)
  | passed : Inner S i (.kind (.call script ts)) i (.terms ts)

/-- What is known of source trees, and of pairs of types, numbers and resolved trees. Of statements it is
known from one stage to another. -/
structure Reading (ι κ : Type) extends Course ι κ, Sites ι where
  node : ι → Node → Prop
  type : κ → TypeId → TypeId → Prop
  /-- Keys of leaves with as many slots. -/
  key : κ → Nat → Nat → Nat → Prop
  var : κ → LocalVar → LocalVar → Prop
  expr : ι → κ → Expr → Expr → Prop
  cond : ι → κ → Cond → Cond → Prop
  parts : ι → κ → List Part → List Part → Prop
  /-- Statements with a frame of their own. -/
  arm : ι → κ → Action → Action → Prop
  action : ι → κ → κ → Action → Action → Prop
  actions : ι → κ → κ → List Action → List Action → Prop
  kind : ι → κ → κ → ActionKind → ActionKind → Prop

/-- The same constant, whose type is known. -/
def Reading.const (V : Reading ι κ) (k : κ) (c c' : Option Constant) : Prop :=
  c' = c ∧ ∀ d ∈ c, V.type k d.ty d.ty

/-- Bodies of macros with copies of arguments, which make up an expression. -/
structure Reading.Call (V : Reading ι κ) (i : ι) (k : κ) (r r' : Expr × List (Expr × List LocalVar)) : Prop where
  empty : r'.2.isEmpty = r.2.isEmpty
  body : r.2.isEmpty = true → V.expr (V.apart i) k r.1 r'.1
  call : V.grows false k k' → V.key k' (accessesAll r.1).length n n' →
    V.expr (V.apart i) k' (Expr.leaf (.call n (r.2.map fun c => .mk c.1 c.2) r.1))
      (Expr.leaf (.call n' (r'.2.map fun c => .mk c.1 c.2) r'.1))

structure Meaning.Reads (V : Reading ι κ) (i : ι) (m m' : Meaning) : Prop where
  const : V.Step false i k V.const m.const m'.const
  value : V.Step false i k (V.expr i) m.value m'.value
  cond : V.Step false i k (V.cond i) m.cond m'.cond

inductive Statement.Number.Reads (V : Reading ι κ) (i : ι) : Number → Number → Prop
  | name (text : String) : Reads V i (.name text) (.name text)
  | value {m m' : Meaning} : m.Reads V i m' → Reads V i (.value m) (.value m')

/-- A reading that is kept by each step and each construct but calls of macros. -/
structure Reading.Steps (V : Reading ι κ) (nested nested' : Nested) : Prop extends V.Rules where
  inner : V.node i n → Node.Inner V.toSites i n j m → V.node j m
  meetsApart : ∀ i, V.meets (V.apart i) = V.meets i
  meetsAlone : ∀ i, V.meets (V.alone i) = V.meets i
  meetsParams : ∀ i, V.meets (V.params i) = V.meets (V.body i)
  -- What is known stays known.
  typeLater : V.grows false k k' → V.type k t t' → V.type k' t t'
  varLater : V.grows false k k' → V.var k v v' → V.var k' v v'
  exprLater : V.grows false k k' → V.expr i k e e' → V.expr i k' e e'
  condLater : V.grows false k k' → V.cond i k c c' → V.cond i k' c c'
  partsLater : V.grows false k k' → V.parts i k ps ps' → V.parts i k' ps ps'
  armLater : V.grows false k k' → V.arm i k a a' → V.arm i k' a a'
  since : V.grows false k k₁ → V.kind i k₁ k₂ a a' → V.kind i k k₂ a a'
  -- Questions about types and names.
  builtin : ∀ k, t ≤ Registry.agentOrNull → V.type k t t
  len : V.expr i k e e' → Slices.len e' = Slices.len e
  readType : V.expr i k e e' → ∀ j, Paired V.cause (V.type k) (e.readType j) (e'.readType j)
  writeType : V.expr i k e e' → ∀ j, Paired V.cause (V.type k) (e.writeType j) (e'.writeType j)
  checkCast : V.meets i k s s' → V.type k a a' → V.type k c c' →
    Paired (fun e e' => V.cause (.type e) (.type e')) (fun _ _ => True) (s.world.types.checkCast a c)
      (s'.world.types.checkCast a' c')
  nullable : V.meets i k s s' → V.type k a a' →
    s'.world.types.canCast Registry.null a' = s.world.types.canCast Registry.null a
  stepType : ∀ op : ChainOp, V.meets i k s s' → V.type k a a' → V.type k c c' →
    Paired (fun e e' => V.cause (.type e) (.type e')) (V.type k) (op.stepType s.world.types a c)
      (op.stepType s'.world.types a' c')
  classifier : V.meets i k s s' → V.type k a a' → s'.world.types.classifierOf a' = s.world.types.classifierOf a
  constant : ∀ name, V.meets i k s s' → V.const k (s.world.types.constant? name) (s'.world.types.constant? name)
  number : ∀ name script, V.meets i k s s' → V.type k a a' → Paired V.cause (fun n n' => n' = n)
    (Meaning.numberOf s.world.types a name script) (Meaning.numberOf s'.world.types a' name script)
  named : ∀ cause : String → Cause, (∀ name, (cause name).isPlace = false) → V.meets i k s s' → V.type k a a' →
    V.cause (cause (s.world.types.name a)) (cause (s'.world.types.name a'))
  lookup : ∀ name, V.meets i k s s' →
    Option.Rel (V.expr (V.apart i) k) (s.scope.lookup? name) (s'.scope.lookup? name)
  owner : V.meets i k s s' → V.type k s.scope.script.owner s'.scope.script.owner
  -- Steps.
  typeRef : ∀ i k t, V.Step false i k V.type (Resolve.typeRef t) (Resolve.typeRef t)
  nonNullable : ∀ i, V.type k t t' → V.Step false i k V.type (.inWorld (.inTypes (Meaning.nonNullable t)))
    (.inWorld (.inTypes (Meaning.nonNullable t')))
  freshKey : ∀ i k size, V.Step false i k (fun k' => V.key k' size) Resolve.freshKey Resolve.freshKey
  freshVar : ∀ i name, V.type k t t' →
    V.Step false i k (fun k' h h' => V.var k' ⟨h, t, name⟩ ⟨h', t', name⟩) Resolve.freshHandle Resolve.freshHandle
  declare : ∀ {vars vars' : List LocalVar} {init init' : Option Expr}, V.node i (.kind (.declare names types t)) →
    vars.map (·.label) = names → List.Forall₂ (V.var k) vars vars' → Option.Rel (V.expr i k) init init' →
    (∀ e ∈ init, Slices.len e = names.length) →
    V.Step true i k (fun k' _ _ => V.kind i k k' (.declare vars init) (.declare vars' init'))
      (vars.forM fun v => Resolve.bind v.label (Expr.leaf v.leaf))
      (vars'.forM fun v => Resolve.bind v.label (Expr.leaf v.leaf))
  synonym : V.node i (.kind (.synonym name t)) → V.expr (V.apart i) k e e' →
    V.Step true i k (fun k' _ _ => V.kind i k k' (.synonym name e) (.synonym name e')) (Resolve.bind name e)
      (Resolve.bind name e')
  bindTarget : V.node j (.kind (.enumerate which ref ts s)) → i = j ∨ i = V.body j → V.type k a a' →
    V.Asks i k (fun _ _ => True) (Resolve.bind "targ" (Scope.targetVar a)) (Resolve.bind "targ" (Scope.targetVar a'))
  innerFrame : ∀ i, V.Framed i (V.inside i) Scope.innerFrame
  loopFrame : ∀ i, V.Framed i (V.body i) Scope.loopFrame
  breakLoop : V.node i (.kind .breakLoop) → V.Step true i k (V.kind i k) Statement.breakLoop Statement.breakLoop
  continueLoop : V.node i (.kind .continueLoop) →
    V.Step true i k (V.kind i k) Statement.continueLoop Statement.continueLoop
  statement : V.node i (.statement (.mk pos what)) →
    V.Step true (V.located i pos) k (V.kind (V.located i pos) k) (what.resolve nested) (what.resolve nested') →
    V.Step true i k (V.action i k) ((Statement.mk pos what).resolve nested)
      ((Statement.mk pos what).resolve nested')
  -- Expressions.
  apart : V.expr (V.apart i) k e e' → V.expr i k e e'
  group : List.Forall₂ (V.expr i k) es es' → V.expr i k (Slices.group es) (Slices.group es')
  literal : ∀ {c : Constant} i, V.type k c.ty c.ty → V.expr i k (Expr.const c) (Expr.const c)
  sink : ∀ i, V.key k size n n' → V.expr i k (Expr.leaf (.sink n size Registry.any))
    (Expr.leaf (.sink n' size Registry.any))
  field : ∀ name, V.meets i k s s' → V.expr i k e e' → Slices.len e = 1 → V.type k a a' →
    Option.Rel (fun f f' => V.expr i k (Expr.leaf (.field e f)) (Expr.leaf (.field e' f')))
      (s.world.types.field? a name) (s'.world.types.field? a' name)
  cast : V.expr i k e e' → V.type k a a' →
    Paired V.cause (fun l l' => V.expr i k (Expr.leaf l) (Expr.leaf l')) (Leaf.mkCast e a) (Leaf.mkCast e' a')
  chain : ∀ op, V.meets i k s s' → List.Forall₂ (V.expr i k) es es' →
    Paired V.cause (fun l l' => V.expr i k (Expr.leaf l) (Expr.leaf l')) (Leaf.mkChain s.world.types op es)
      (Leaf.mkChain s'.world.types op es')
  isInstance : ∀ cls nullable, V.expr i k e e' → Slices.len e = 1 →
    V.expr i k (Expr.leaf (.isInstance e cls nullable Registry.boolean))
      (Expr.leaf (.isInstance e' cls nullable Registry.boolean))
  test : V.cond i k c c' → V.expr i k (Expr.leaf (.test c Registry.boolean)) (Expr.leaf (.test c' Registry.boolean))
  inline : V.parts i k ps ps' → V.type k a a' → V.expr i k (Expr.leaf (.inline ps a)) (Expr.leaf (.inline ps' a'))
  seq : V.actions (V.inside i) k k₁ as as' → V.grows false k₁ k₂ → V.expr (V.inside i) k₂ e e' →
    V.key k₂ (accessesAll e).length n n' →
    V.expr i (V.leave k k₂) (Expr.leaf (.seq n as e)) (Expr.leaf (.seq n' as' e'))
  -- Conditions and text.
  known : ∀ i k b, V.cond i k (.const b) (.const b)
  truth : V.meets i k s s' → V.expr i k e e' →
    Paired V.cause (V.cond i k) (Cond.truth s.world.types e) (Cond.truth s'.world.types e')
  comparison : ∀ op, V.meets i k s s' → V.expr i k l l' → V.expr i k r r' →
    Paired V.cause (V.cond i k) (Cond.comparison s.world.types op l r) (Cond.comparison s'.world.types op l' r')
  constant? : V.cond i k c c' → c'.constant? = c.constant?
  join : ∀ op, V.cond i k c c' → V.cond i k d d' → V.cond i k (Cond.join op c d) (Cond.join op c' d')
  negate : V.cond i k c c' → V.cond i k c.negate c'.negate
  noParts : ∀ i k, V.parts i k [] []
  fragment : V.node i (.fragments (.text s :: fs)) → V.parts i k ps ps' →
    V.parts i k (.text s :: ps) (.text s :: ps')
  line : Text.OneLine s → V.parts i k ps ps' → V.parts i k (.text s :: ps) (.text s :: ps')
  exprPart : V.expr i k e e' → V.parts i k ps ps' → V.parts i k (.expr e :: ps) (.expr e' :: ps')
  -- Statements.
  noActions : ∀ i k, V.actions i k k [] []
  consActions : V.action (V.alone i) k k₁ a a' → V.grows true k₁ k₂ → V.actions i k₁ k₂ as as' →
    V.actions i k k₂ (a :: as) (a' :: as')
  nop : ∀ i k, V.kind i k k .nop .nop
  block : V.grows true k k' → V.actions (V.inside i) k k' as as' →
    V.kind i k (V.leave k k') (.block as true) (.block as' true)
  openBlock : V.actions i k k' as as' → V.kind i k k' (.block as false) (.block as' false)
  assign : V.expr (V.apart i) k l l' → V.expr i k r r' → Slices.len r = Slices.len l →
    V.kind i k k (.assign l r) (.assign l' r')
  update : ∀ op, V.expr i k l l' → V.expr i k r r' → Slices.len l = 1 → Slices.len r = 1 → V.type k a a' →
    V.type k c c' → V.type k d d' → V.kind i k k (.update op l r a c d) (.update op l' r' a' c' d')
  leaving : V.grows true k k' → V.action (V.inside i) k k' a a' → V.arm i (V.leave k k') a a'
  taken : V.arm i k a a' → V.kind i k k a.kind a'.kind
  branch : ∀ {no no' : Option Action}, V.cond i k c c' → V.arm i k yes yes' → Option.Rel (V.arm i k) no no' →
    V.kind i k k (.branch c yes no) (.branch c' yes' no')
  loop : V.grows true k k' → V.action (V.body i) k k' a a' → V.kind i k (V.leave k k') (.loop a) (.loop a')
  enumerate : V.grows false k k₁ → V.parts (V.params i) k₁ ps ps' → V.grows true k₁ k₂ →
    V.action (V.body i) k₁ k₂ a a' → V.kind i k (V.leave k k₂) (.enumerate ps a) (.enumerate ps' a')
  write : V.parts i k ps ps' → V.kind i k k (.inline ps) (.inline ps')

/-- A reading that calls of macros are closed under as well. -/
structure Reading.Lawful (V : Reading ι κ) (nested nested' : Nested) : Prop extends V.Steps nested nested' where
  calls : V.node i (.term (.call name args)) →
    List.Forall₂ (Meaning.Reads V (V.apart i)) (meanings nested args) (meanings nested' args) →
    V.Step false i k (V.expr i) (Meaning.call nested name (meanings nested args)).value
      (Meaning.call nested' name (meanings nested' args)).value

section
variable {V : Reading ι κ} {nested nested' : Nested} (law : V.Steps nested nested') {i : ι} {k : κ}
include law

namespace Reading.Steps
variable {e e' : Expr} {f : α → Resolve γ} {g : β → Resolve δ} {Q : κ → γ → δ → Prop}

theorem single {f : TypeId → Resolve γ} {g : TypeId → Resolve δ} (known : V.expr i k e e')
    (next : ∀ {t t'}, Slices.len e = 1 → V.type k t t' → V.Step b i k Q (f t) (g t')) :
    V.Step b i k Q (Resolve.ofExcept e.singleReadType >>= f) (Resolve.ofExcept e'.singleReadType >>= g) := by
  unfold Expr.singleReadType
  rw [law.len known]
  split
  · next one => exact law.except (law.readType known 0) (next one)
  · exact law.failBind (law.same rfl)

theorem check (first : V.type k a a') (second : V.type k c c') :
    V.Asks i k (fun _ _ => True) (Resolve.checkCast a c) (Resolve.checkCast a' c') := by
  refine .types fun {s s'} met => ?_
  have both := law.checkCast met first second
  generalize s.world.types.checkCast a c = x at both ⊢
  generalize s'.world.types.checkCast a' c' = y at both ⊢
  cases both with
  | ok _ => exact law.pure ⟨rfl, trivial⟩
  | error causes => exact law.fail causes

theorem checkSingle (known : V.expr i k e e') (target : c ≤ Registry.agentOrNull) :
    V.Asks i k (fun _ _ => True) (Resolve.checkSingle e c) (Resolve.checkSingle e' c) :=
  law.single known fun _ type => law.check type (law.builtin k target)

theorem given {init init' : Option Expr} (grown : V.grows false k k')
    (inits : Option.Rel (V.expr i k) init init') : Option.Rel (V.expr i k') init init' := by
  cases inits with
  | none => exact .none
  | some known => exact .some (law.exprLater grown known)

theorem int (i : ι) (k : κ) (n : Int32) : V.expr i k (Expr.int n) (Expr.int n) :=
  law.literal i (law.builtin k (by decide : Registry.integer ≤ _))

end Reading.Steps

namespace Meaning
variable {m m' base base' left left' right right' : Meaning} {items items' : List Meaning}
  {value value' : Resolve Expr} {const const' : Resolve (Option Constant)}

theorem truth_reads (consts : V.Step false i k V.const const const')
    (values : ∀ {k}, V.Step false i k (V.expr i) value value') :
    V.Step false i k (V.cond i) (truth const value) (truth const' value') := by
  refine law.bind consts fun _ same => ?_
  obtain ⟨rfl, _⟩ := same
  split
  · exact law.pure (law.known i _ _)
  · exact law.bind values fun _ known => .types fun met => law.ofExcept (law.truth met known)

theorem ofConstOr_reads (consts : ∀ {k}, V.Step false i k V.const const const')
    (values : ∀ {k}, V.Step false i k (V.expr i) value value') :
    (ofConstOr const value).Reads V i (ofConstOr const' value') := by
  have whole {k : κ} : V.Step false i k (V.expr i) (ofConstOr const value).value
      (ofConstOr const' value').value := by
    refine law.bind consts fun {_ c c'} _ same => ?_
    obtain ⟨rfl, typed⟩ := same
    cases c' with
    | some c => exact law.pure (law.literal i (typed c rfl))
    | none => exact values
  exact ⟨consts, whole, truth_reads law consts whole⟩

theorem noConst : V.Step false i k V.const (pure none) (pure none) := law.pure ⟨rfl, nofun⟩

theorem ofValue_const (k : κ) (v : Value) : V.const k (some (.ofValue v)) (some (.ofValue v)) := by
  have typed : v.literalType ≤ Registry.agentOrNull := by
    cases v with
    | int => exact (by decide : Registry.integer ≤ Registry.agentOrNull)
    | float => exact (by decide : Registry.float ≤ Registry.agentOrNull)
    | str => exact (by decide : Registry.string ≤ Registry.agentOrNull)
    | bytes => exact (by decide : Registry.bytes ≤ Registry.agentOrNull)
  refine ⟨rfl, fun d same => ?_⟩
  cases same
  exact law.builtin k typed

theorem ofConst_reads {c c' : Resolve Constant}
    (found : ∀ {k}, V.Step false i k (fun k c c' => V.const k (some c) (some c')) c c') :
    (ofConst c).Reads V i (ofConst c') := by
  have const {k : κ} : V.Step false i k V.const (ofConst c).const (ofConst c').const :=
    law.bind found fun _ known => law.pure known
  have value {k : κ} : V.Step false i k (V.expr i) (ofConst c).value (ofConst c').value := by
    refine law.bind found fun {_ c c'} _ known => ?_
    obtain ⟨same, typed⟩ := known
    cases same
    exact law.pure (law.literal i (typed c rfl))
  exact ⟨const, value, truth_reads law const value⟩

theorem ofValue_reads (found : ∀ {k}, V.Step false i k (V.expr i) value value') :
    (ofValue value).Reads V i (ofValue value') :=
  ⟨noConst law, found, truth_reads law (noConst law) found⟩

theorem ofCond_reads {cond cond' : Resolve Cond} (found : ∀ {k}, V.Step false i k (V.cond i) cond cond') :
    (ofCond cond).Reads V i (ofCond cond') :=
  ⟨noConst law, law.bind found fun _ known => law.pure (law.test known), found⟩

theorem literal_reads (v : Value) : (literal v).Reads V i (literal v) :=
  ofConst_reads law (law.pure (ofValue_const law _ v))

theorem values_reads (each : List.Forall₂ (Reads V i) items items') :
    V.Step false i k (fun k => List.Forall₂ (V.expr i k)) (values items) (values items') := by
  induction each generalizing k with
  | nil => exact law.pure .nil
  | cons first _ ih =>
    exact law.bind first.value fun _ here => law.bind ih fun grown others =>
      law.pure (.cons (law.exprLater grown here) others)

theorem grouped_reads (each : List.Forall₂ (Reads V i) items items') :
    V.Step false i k (V.expr i) (grouped items) (grouped items') :=
  law.bind (values_reads law each) fun _ known => law.pure (law.group known)

theorem constants_reads (each : List.Forall₂ (Reads V i) items items') :
    V.Step false i k (fun _ vs vs' => vs' = vs) (constants items) (constants items') := by
  induction each generalizing k with
  | nil => exact law.pure rfl
  | cons first _ ih =>
    refine law.bind first.const fun {_ c c'} _ same => ?_
    obtain ⟨rfl, _⟩ := same
    cases c' with
    | none => exact law.pure rfl
    | some c => exact law.bind ih fun _ same => law.pure (by rw [same])

theorem name_reads (name : String) : (Meaning.name name).Reads V i (Meaning.name name) := by
  refine ofConstOr_reads law (.scope fun {s s'} met => ?_) (.scope fun {s s'} met => ?_)
  · have found := law.lookup name met
    have bound : s'.scope.isBound name = s.scope.isBound name := by
      unfold Scope.isBound
      generalize s.scope.lookup? name = x at found ⊢
      generalize s'.scope.lookup? name = y at found ⊢
      cases found <;> rfl
    rw [bound]
    exact .ite (noConst law) (.types fun met => law.pure (law.constant name met))
  · have found := law.lookup name met
    generalize s.scope.lookup? name = x at found ⊢
    generalize s'.scope.lookup? name = y at found ⊢
    cases found with
    | none => exact law.fail (law.same rfl)
    | some known => exact law.pure (law.apart known)

theorem group_reads (each : List.Forall₂ (Reads V i) items items') :
    (group items).Reads V i (group items') := by
  refine ofConstOr_reads law (fun {_} => ?_) (grouped_reads law each)
  match each with
  | .nil | .cons _ (.cons _ _) => exact noConst law
  | .cons first .nil => exact first.const

theorem foldChain_reads (k : κ) (op : ChainOp) (vs : List Value) :
    Paired V.cause (V.const k) (foldChain op vs) (foldChain op vs) := by
  cases vs with
  | nil => exact .ok ⟨rfl, nofun⟩
  | cons v rest =>
    simp only [foldChain]
    rcases made : foldValues op v rest with c | _ | folded
    · exact .error (law.same (foldValues_calm op v rest c made))
    · exact .ok ⟨rfl, nofun⟩
    · exact .ok (ofValue_const law k folded)

theorem chain_reads (op : ChainOp) (each : List.Forall₂ (Reads V i) items items') :
    (chain op items).Reads V i (chain op items') := by
  refine ofConstOr_reads law (law.bind (constants_reads law each) fun {k' vs vs'} _ same => ?_)
    (law.bind (values_reads law each) fun {k' es es'} _ known => ?_)
  · subst same
    cases vs' with
    | none => exact noConst law
    | some vs => exact law.ofExcept (foldChain_reads law k' op vs)
  · have joined : V.Step false i k' (V.expr i)
        (do return Expr.leaf (← Resolve.ofExcept (Leaf.mkChain (← Resolve.types) op es)))
        (do return Expr.leaf (← Resolve.ofExcept (Leaf.mkChain (← Resolve.types) op es'))) :=
      .types fun met => law.except (law.chain op met known) fun leaf => law.pure leaf
    match known with
    | .nil | .cons _ (.cons _ _) => exact joined
    | .cons first .nil => exact law.pure first

theorem field_reads (b : base.Reads V i base') (name : String) :
    (field base name).Reads V i (field base' name) := by
  refine ofValue_reads law (law.bind b.value fun {_ e e'} _ known => law.single known fun {t t'} one type => ?_)
  refine law.after (law.check type (law.builtin _ (Nat.le_refl _))) fun _ => .types fun {s s'} met => ?_
  have found := law.field name met known one type
  have cause := law.named (.unknownField · name) (fun _ => rfl) met type
  generalize s.world.types.field? t name = x at found ⊢
  generalize s'.world.types.field? t' name = y at found ⊢
  cases found with
  | none => exact law.fail cause
  | some known => exact law.pure known

theorem mkCast_reads {e e' : Expr} (known : V.expr i k e e') (type : V.type k t t') :
    V.Step false i k (V.expr i) (do return Expr.leaf (← Resolve.ofExcept (Leaf.mkCast e t)))
      (do return Expr.leaf (← Resolve.ofExcept (Leaf.mkCast e' t'))) :=
  law.except (law.cast known type) fun leaf => law.pure leaf

theorem cast_reads (b : base.Reads V i base') (ty : TypeRef) :
    (cast base ty).Reads V i (cast base' ty) :=
  ofValue_reads law (law.bind b.value fun _ known => law.bind (law.typeRef i _ ty) fun grown type =>
    mkCast_reads law (law.exprLater grown known) type)

theorem denull_reads (b : base.Reads V i base') : (denull base).Reads V i (denull base') :=
  ofValue_reads law (law.bind b.value fun _ known => law.single known fun _ type =>
    law.bind (law.nonNullable i type) fun grown type => mkCast_reads law (law.exprLater grown known) type)

theorem messageId_reads (ty : TypeRef) (name : String) (script : Bool) :
    (messageId ty name script).Reads V i (messageId ty name script) := by
  refine ofConst_reads law (law.bind (law.typeRef i _ ty) fun _ type => .types fun met => ?_)
  refine law.except (law.number name script met type) fun same => ?_
  cases same
  exact law.pure (ofValue_const law _ _)

theorem isInstance_reads (b : base.Reads V i base') (cls : Classifier) :
    (isInstance base cls).Reads V i (isInstance base' cls) := by
  refine ofValue_reads law (law.bind b.value fun {k' e e'} _ known => .types fun {s s'} met =>
    law.single known fun {t t'} one type => law.after (law.check type (law.builtin _ (Nat.le_refl _))) fun _ => ?_)
  dsimp only
  rw [law.nullable met type]
  refine .ite (law.pure (law.isInstance cls _ known one)) (.ite (law.pure ?_) (.scope fun {u u'} here => ?_))
  · exact law.literal i (law.builtin _ (by decide : Registry.boolean ≤ _))
  · have found := law.lookup "null" here
    generalize u.scope.lookup? "null" = x at found ⊢
    generalize u'.scope.lookup? "null" = y at found ⊢
    cases found with
    | none => exact law.fail (law.same rfl)
    | some null =>
      exact law.except (law.comparison .ne met known (law.apart null)) fun cond => law.pure (law.test cond)

theorem compare_reads (op : CompareOp) (l : left.Reads V i left') (r : right.Reads V i right') :
    (compare op left right).Reads V i (compare op left' right') := by
  refine ofCond_reads law (law.bind l.const fun _ same => law.bind r.const fun _ same' => ?_)
  obtain ⟨rfl, _⟩ := same
  obtain ⟨rfl, _⟩ := same'
  dsimp only
  split
  · exact law.pure (law.known i _ _)
  · refine law.bind l.value fun _ first => law.bind r.value fun grown second => .types fun met => ?_
    exact law.ofExcept (law.comparison op met (law.exprLater grown first) second)

theorem logic_reads (op : LogicOp) (l : left.Reads V i left') (r : right.Reads V i right') :
    (logic op left right).Reads V i (logic op left' right') :=
  ofCond_reads law (law.bind l.cond fun _ first => law.bind r.cond fun grown second =>
    law.pure (law.join op (law.condLater grown first) second))

theorem not_reads (b : base.Reads V i base') : (not base).Reads V i (not base') :=
  ofCond_reads law (law.bind b.cond fun _ known => law.pure (law.negate known))

theorem inline_reads {parts parts' : Resolve (List Part)}
    (found : ∀ {k}, V.Step false i k (V.parts i) parts parts') (ty : TypeRef) :
    (inline parts ty).Reads V i (inline parts' ty) :=
  ofValue_reads law (law.bind found fun _ known => law.bind (law.typeRef i _ ty) fun grown type =>
    law.pure (law.inline (law.partsLater grown known) type))

theorem seq_reads {body body' : Resolve (List Action)}
    (found : ∀ {k}, V.Step true (V.inside i) k (V.actions (V.inside i) k) body body')
    (b : base.Reads V (V.inside i) base') : (seq body base).Reads V i (seq body' base') := by
  refine ofValue_reads law fun {k} => ?_
  have inner : V.Step true (V.inside i) k (fun k' => V.expr i (V.leave k k'))
      (do
        let body ← body
        let result ← base.value
        return Expr.leaf (.seq (← Resolve.freshKey) body result))
      (do
        let body ← body'
        let result ← base'.value
        return Expr.leaf (.seq (← Resolve.freshKey) body result)) := by
    refine law.andThen found fun _ actions => law.bind b.value fun {_ e _} grown result => ?_
    refine law.bind (law.freshKey _ _ (accessesAll e).length) fun more key => law.pure ?_
    exact law.seq actions (law.trans grown more) (law.exprLater more result) key
  exact law.inFrame (law.innerFrame i) inner fun _ known => known

end Meaning

namespace Statement
variable {m m' target target' source source' : Meaning} {init init' : Option Meaning}
  {params params' : List Meaning} {body body' : Resolve Action}

theorem varType_reads (name : String) (j : Nat) {declared declared' : Option TypeId}
    (types : Option.Rel (V.type k) declared declared') {init init' : Option Expr}
    (inits : Option.Rel (V.expr i k) init init') :
    V.Step false i k V.type (varType name j declared init) (varType name j declared' init') := by
  cases types with
  | none =>
    cases inits with
    | none => exact law.fail (law.same rfl)
    | some known => exact law.ofExcept (law.readType known j)
  | some type =>
    cases inits with
    | none => exact law.pure type
    | some known =>
      exact law.except (law.readType known j) fun read => law.after (law.check read type) fun _ => law.pure type

theorem declaredType_reads (types : List (Option TypeRef)) (j : Nat) :
    V.Step false i k (fun k => Option.Rel (V.type k)) (declaredType types j) (declaredType types j) := by
  unfold declaredType
  split
  · exact law.bind (law.typeRef i k _) fun _ type => law.pure (.some type)
  · exact law.pure .none

theorem makeVars_reads (types : List (Option TypeRef)) {init init' : Option Expr}
    (inits : Option.Rel (V.expr i k) init init') (j : Nat) (names : List String) :
    V.Step false i k (fun k vars vars' => vars.map (·.label) = names ∧ List.Forall₂ (V.var k) vars vars')
      (makeVars types init j names) (makeVars types init' j names) := by
  induction names generalizing j k with
  | nil => exact law.pure ⟨rfl, .nil⟩
  | cons name rest ih =>
    refine law.bind (declaredType_reads law types j) fun grown declared => ?_
    have inits := law.given grown inits
    refine law.bind (varType_reads law name j declared inits) fun typed type => ?_
    have inits := law.given typed inits
    refine law.bind (law.freshVar i name type) fun drawn var => ?_
    refine law.bind (ih (law.given drawn inits) (j + 1)) fun more vars => law.pure ?_
    exact ⟨by rw [List.map_cons, vars.1], .cons (law.varLater more var) vars.2⟩

theorem declare_reads {names : List String} {types : List (Option TypeRef)} {t : Option Term}
    (node : V.node i (.kind (.declare names types t))) (each : Option.Rel (Meaning.Reads V i) init init') :
    V.Step true i k (V.kind i k) (declare names types init) (declare names types init') := by
  have rest {k' : κ} (grown : V.grows false k k') {init init' : Option Expr}
      (inits : Option.Rel (V.expr i k') init init') (count : ∀ e ∈ init, Slices.len e = names.length) :=
    law.bind (makeVars_reads law types inits 0 names) fun {k'' vars vars'} more made =>
      law.andThen (law.declare node made.1 made.2 (law.given more inits) count) fun {_ _ _} _ known =>
        law.pure (law.since (law.trans grown more) known)
  cases each with
  | none => exact rest (law.refl false k) .none nofun
  | some first =>
    have value : V.Step false i k (fun k a a' => ∃ e e', a = some e ∧ a' = some e' ∧ V.expr i k e e')
        (some <$> _) (some <$> _) :=
      law.bind first.value fun {_ e e'} _ known => law.pure ⟨e, e', rfl, rfl, known⟩
    refine law.bind value fun grown given => ?_
    obtain ⟨e, e', rfl, rfl, known⟩ := given
    dsimp only
    rw [law.len known]
    split
    · exact law.failBind (law.same rfl)
    · next count =>
      refine rest grown (.some known) fun e isGiven => ?_
      cases isGiven
      exact Decidable.of_not_not count

theorem checkAssignable_reads {source source' targets targets' : Expr} (first : V.expr i k source source')
    (second : V.expr (V.apart i) k targets targets') :
    V.Asks i k (fun _ _ => Slices.len source = Slices.len targets) (checkAssignable source targets)
      (checkAssignable source' targets') := by
  unfold checkAssignable
  rw [law.len first, law.len second]
  split
  · exact law.failBind (law.same rfl)
  · next same =>
    refine Course.Step.imp (law.forM fun j => ?_) fun _ kept => ⟨kept.1, Decidable.of_not_not same⟩
    exact law.except (law.readType first j) fun read => law.except (law.writeType second j) fun written =>
      law.check read written

theorem assign_reads (t : Option.Rel (Meaning.Reads V (V.apart i)) init init') (s : source.Reads V i source') :
    V.Step true i k (V.kind i k) (assign init source) (assign init' source') := by
  refine law.bind s.value fun {k₁ source source'} grown known => ?_
  have rest {k₂ : κ} (more : V.grows false k₁ k₂) {targets targets' : Expr}
      (apart : V.expr (V.apart i) k₂ targets targets') :=
    law.after (b := true) (checkAssignable_reads law (law.exprLater more known) apart) fun {_ _} count =>
      law.pure (law.since (law.trans grown more) (law.assign apart (law.exprLater more known) count))
  cases t with
  | none =>
    refine law.bind (law.freshKey i _ (Slices.len source)) fun more key => ?_
    rw [law.len known]
    exact rest more (law.sink _ key)
  | some first => exact law.bind (first.value.site (law.meetsApart i).symm) fun more targets => rest more targets

theorem update_reads (op : ChainOp) (t : target.Reads V i target') (s : source.Reads V i source') :
    V.Step true i k (V.kind i k) (update op target source) (update op target' source') := by
  refine law.bind t.value fun grown first => law.bind s.value fun more second => ?_
  have first := law.exprLater more first
  refine law.single first fun one before => law.except (law.writeType first 0) fun slot => ?_
  refine law.single second fun one' operand => .types fun met => ?_
  refine law.exceptType (law.stepType op met before operand) fun after => ?_
  refine law.after (law.check after slot) fun _ => law.pure ?_
  exact law.since (law.trans grown more) (law.update op first second one one' before operand after)

theorem synonym_reads {name : String} {t : Term} (node : V.node i (.kind (.synonym name t)))
    (found : target.Reads V (V.apart i) target') :
    V.Step true i k (V.kind i k) (synonym name target) (synonym name target') :=
  law.bind (found.value.site (law.meetsApart i).symm) fun grown known =>
    law.andThen (law.synonym node known) fun _ known => law.pure (law.since grown known)

theorem branch_reads (c : m.Reads V i m') {yes yes' : Resolve Action} {no no' : Option (Resolve Action)}
    (y : ∀ {k}, V.Step true (V.inside i) k (V.action (V.inside i) k) yes yes')
    (n : Option.Rel (fun x x' => ∀ {k}, V.Step true (V.inside i) k (V.action (V.inside i) k) x x') no no') :
    V.Step true i k (V.kind i k) (branch m yes no) (branch m' yes' no') := by
  have within {x x' : Resolve Action} {k : κ}
      (found : V.Step true (V.inside i) k (V.action (V.inside i) k) x x') :
      V.Step false i k (V.arm i) (Resolve.inFrame Scope.innerFrame x) (Resolve.inFrame Scope.innerFrame x') :=
    law.inFrame (law.innerFrame i) found law.leaving
  refine law.bind c.cond fun {k₁ cond cond'} grown known => ?_
  have kind {x x' : Resolve Action} (found : V.Step true (V.inside i) k₁ (V.action (V.inside i) k₁) x x') :
      V.Step true i k₁ (V.kind i k) (do return (← Resolve.inFrame Scope.innerFrame x).kind)
        (do return (← Resolve.inFrame Scope.innerFrame x').kind) :=
    law.bind (within found) fun more arm =>
      law.pure (law.since (law.trans grown more) (law.taken arm))
  dsimp only
  rw [law.constant? known]
  cases n with
  | none =>
    cases cond.constant? with
    | none =>
      exact law.bind (within y) fun more taken => law.pure (law.since (law.trans grown more)
        (law.branch (law.condLater more known) taken .none))
    | some b =>
      cases b with
      | false => exact law.pure (law.since grown (law.nop i k₁))
      | true => exact kind y
  | some other =>
    cases cond.constant? with
    | none =>
      refine law.bind (within y) fun more taken => law.bind (within other) fun last skipped => law.pure ?_
      exact law.since (law.trans grown (law.trans more last)) (law.branch
        (law.condLater (law.trans more last) known) (law.armLater last taken) (.some skipped))
    | some b =>
      cases b with
      | false => exact kind other
      | true => exact kind y

theorem loop_reads (found : V.Step true (V.body i) k (V.action (V.body i) k) body body') :
    V.Step true i k (V.kind i k) (loop body) (loop body') :=
  law.bind (law.inFrame (law.loopFrame i) found law.loop) fun _ known => law.pure known

theorem starter_reads (kind : EnumKind) (agents : V.type k agent agent') {params params' : Expr}
    (known : V.expr i k params params') :
    V.Asks i k (V.parts i k) (starter kind agent params) (starter kind agent' params') := by
  have head : Text.OneLine (kind.name ++ " ") := by cases kind <;> decide
  have visited : V.parts i k [.text (kind.name ++ " "), .expr params] [.text (kind.name ++ " "), .expr params'] :=
    law.line head (law.exprPart known (law.noParts i k))
  refine law.after (law.check agents (law.builtin k (by decide))) fun _ => ?_
  dsimp only
  rw [law.len known]
  split
  · refine law.except (law.readType known 0) fun type => ?_
    exact law.after (law.check type (law.builtin k (by decide))) fun _ => law.pure ⟨rfl, visited⟩
  · exact law.fail (law.same rfl)
  · refine .types fun met => ?_
    rw [law.classifier met agents]
    split
    · next c _ =>
      have numbers : Text.OneLine c.arguments := .words (by simp)
      exact law.pure ⟨rfl, law.line (Text.OneLine.append_iff.mpr ⟨head, numbers⟩) (law.noParts i k)⟩
    · exact law.fail (law.named (fun name => .invalid ("cannot " ++ kind.name ++ " over " ++ name ++ _))
        (fun _ => rfl) met agents)
  · refine law.after (law.forM fun j => ?_) fun _ => law.pure ⟨rfl, visited⟩
    exact law.except (law.readType known j) fun type => law.check type (law.builtin k (by decide))
  · exact law.fail (law.same rfl)

theorem enumerate_reads {kind : EnumKind} {agent : TypeRef} {ts : List Term} {s : Statement}
    (node : V.node i (.kind (.enumerate kind agent ts s)))
    (each : List.Forall₂ (Meaning.Reads V (V.params i)) params params')
    (found : ∀ {k}, V.Step true (V.body i) k (V.action (V.body i) k) body body') :
    V.Step true i k (V.kind i k) (enumerate kind agent params body) (enumerate kind agent params' body') := by
  refine law.bind (law.typeRef i k agent) fun {k₁ agent agent'} grown agents => ?_
  have inner : V.Step true (V.body i) k₁ (fun k' => V.kind i k₁ (V.leave k₁ k'))
      (do
        let params ← Meaning.grouped params
        let starter ← starter kind agent params
        Resolve.bind "targ" (Scope.targetVar agent)
        return ActionKind.enumerate starter (← body))
      (do
        let params ← Meaning.grouped params'
        let starter ← starter kind agent' params
        Resolve.bind "targ" (Scope.targetVar agent')
        return ActionKind.enumerate starter (← body')) := by
    have same := (law.meetsParams i).symm
    refine law.bind ((Meaning.grouped_reads law each).site same) fun more given => ?_
    have agents := law.typeLater more agents
    refine law.after ((starter_reads law kind agents given).site same) fun opened => ?_
    refine law.after (law.bindTarget node (.inr rfl) agents) fun _ => ?_
    exact law.andThen found fun last inner => law.pure (law.enumerate more opened last inner)
  refine law.bind (law.inFrame (law.loopFrame i) inner fun _ known => known) fun _ known => ?_
  refine law.after (law.bindTarget node (.inl rfl) (law.builtin _ (Nat.le_refl _))) fun _ => law.pure ?_
  exact law.since grown known

theorem Number.resolve_reads {number number' : Number} (found : number.Reads V i number')
    (receivers : V.type k receiver receiver') (script : Bool) :
    V.Step false i k (V.expr i) (number.resolve receiver script) (number'.resolve receiver' script) := by
  cases found with
  | name text =>
    refine .types fun met => law.except (law.number text script met receivers) fun same => ?_
    cases same
    exact law.pure (law.int i _ _)
  | value m =>
    exact law.bind m.value fun _ known => law.after (law.checkSingle known (by decide)) fun _ => law.pure known

theorem twoParams_reads (each : List.Forall₂ (Meaning.Reads V i) params params') :
    V.Step false i k (V.expr i) (twoParams params) (twoParams params') := by
  refine law.bind (Meaning.grouped_reads law each) fun {k' _ _} _ known => ?_
  rw [law.len known]
  refine .ite (law.failBind (law.same rfl)) (law.pure (law.group (.cons known ?_)))
  refine List.forall₂_same.mpr fun e filler => ?_
  rw [List.eq_of_mem_replicate filler]
  exact law.int i k' 0

theorem message_line {s : String} (text : Text.OneLine s) {es es' : List Expr} (grown : V.grows false k k')
    (each : List.Forall₂ (V.expr i k') es es') :
    V.kind i k k' (.inline [.text s, .expr (Slices.group es)]) (.inline [.text s, .expr (Slices.group es')]) :=
  law.since grown (law.write (law.line text (law.exprPart (law.group each) (law.noParts i k'))))

theorem send_reads (a : m.Reads V i m') {message message' : Number} (n : message.Reads V i message')
    (each : List.Forall₂ (Meaning.Reads V i) params params')
    (d : Option.Rel (Meaning.Reads V i) init init') :
    V.Step true i k (V.kind i k) (send m message params init) (send m' message' params' init') := by
  refine law.bind a.value fun grown agent => law.single agent fun _ receiver => ?_
  refine law.after (law.check receiver (law.builtin _ (by decide))) fun _ => ?_
  refine law.bind (Number.resolve_reads law n receiver false) fun {k₁ _ _} more number => ?_
  have agent := law.exprLater more agent
  have grown := law.trans grown more
  have two : V.Step false i k₁ (V.expr i) (twoParams params) (twoParams params') := twoParams_reads law each
  cases d with
  | none =>
    cases each with
    | nil => exact law.pure (message_line law (by decide) grown (.cons agent (.cons number .nil)))
    | cons _ _ =>
      refine law.bind two fun more given => law.pure (message_line law (by decide) (law.trans grown more) ?_)
      exact .cons (law.exprLater more agent) (.cons (law.exprLater more number) (.cons given
        (.cons (law.int i _ 0) .nil)))
  | some delay =>
    have last {k₂ : κ} (more : V.grows false k₁ k₂) {params params' : Expr} (given : V.expr i k₂ params params') :=
      law.bind (b := true) delay.value fun {_ e _} last later =>
        law.after (law.checkSingle later (by decide : Registry.integer ≤ _)) fun {_ _} _ =>
          law.pure (message_line law (s := "mesg wrt+ ") (by decide) (law.trans grown (law.trans more last))
            (.cons (law.exprLater (law.trans more last) agent) (.cons (law.exprLater (law.trans more last) number)
              (.cons (law.exprLater last given) (.cons later .nil)))))
    cases each with
    | nil | cons => exact law.bind two fun more given => last more given

theorem call_reads {script script' : Number} (n : script.Reads V i script')
    (each : List.Forall₂ (Meaning.Reads V i) params params') :
    V.Step true i k (V.kind i k) (call script params) (call script' params') :=
  .scope fun met => law.bind (Number.resolve_reads law n (law.owner met) true) fun grown number =>
    law.bind (twoParams_reads law each) fun more given => law.pure (message_line law (by decide)
      (law.trans grown more) (.cons (law.exprLater more number) (.cons given .nil)))

end Statement

theorem MacroParam.checkAll_reads {args args' : Expr} (known : V.expr (V.apart i) k args args')
    {params : List MacroParam} (typed : ∀ p ∈ params, V.type k p.ty p.ty) (j : Nat) :
    V.Asks i k (fun _ _ => True) (checkAll args j params) (checkAll args' j params) := by
  induction params generalizing j with
  | nil => exact law.pure ⟨rfl, trivial⟩
  | cons p rest ih =>
    obtain ⟨here, others⟩ := List.forall_mem_cons.mp typed
    have writes : V.Asks i k (fun _ _ => True)
        (do if p.inline.any Perm.writes then Resolve.checkCast p.ty (← Resolve.ofExcept (args.writeType j)))
        (do if p.inline.any Perm.writes then Resolve.checkCast p.ty (← Resolve.ofExcept (args'.writeType j))) :=
      .ite (law.except (law.writeType known j) fun type => law.check here type) (law.pure ⟨rfl, trivial⟩)
    have check : V.Asks i k (fun _ _ => True) (p.check args j) (p.check args' j) :=
      .ite (law.except (law.readType known j) fun type => law.after (law.check type here) fun _ => writes) writes
    exact law.after check fun _ => ih others (j + 1)

/-- A call is what the body of the macro and the copies of the arguments make up. -/
theorem Macro.expand_reads {m : Macro} {args args' : Expr} (known : V.expr (V.apart i) k args args')
    (typed : ∀ p ∈ m.params, V.type k p.ty p.ty)
    (body : Slices.len args = m.params.length →
      V.Step false i k (V.Call i) (m.expandBody nested args) (m.expandBody nested' args')) :
    V.Step false i k (V.expr i) (m.expand nested args) (m.expand nested' args') := by
  unfold expand
  rw [law.len known]
  split
  · exact law.failBind (law.same rfl)
  next same =>
  refine law.after (MacroParam.checkAll_reads law known typed 0) fun _ => ?_
  refine law.bind (body (Decidable.of_not_not same)) fun {_ r r'} _ found => ?_
  obtain ⟨body, copies⟩ := r
  obtain ⟨body', copies'⟩ := r'
  obtain ⟨empty, alone, call⟩ := found
  dsimp only at empty ⊢
  rw [empty]
  split
  · next isEmpty => exact law.pure (law.apart (alone isEmpty))
  · exact law.bind (law.freshKey i _ (accessesAll body).length) fun grown key =>
      law.pure (law.apart (call grown key))

end

end AgentScript
