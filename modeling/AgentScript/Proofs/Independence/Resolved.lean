import AgentScript.Proofs.Independence.Fork
import AgentScript.Proofs.Resolution.Trees

/-! A script is resolved to the same in two worlds with the same declarations: whatever is made of parts
that are alike is alike itself. -/
namespace AgentScript
variable {e e' : Expr} {nested : Nested}

open Registry (Siblings Twin)

variable {F : Fork} {L M : Likeness}

theorem Paired.any {C : ε → ε → Prop} {A : α → β → Prop} {x : Except ε α} {y : Except ε β}
    (both : Paired C A x y) : Paired (fun _ _ => True) A x y :=
  both.imp (fun _ => trivial) id

theorem ChainOp.numberType_builtin (r : Registry) (lt rt : TypeId) :
    numberType r lt rt ≤ Registry.agentOrNull := by
  unfold numberType
  split
  · decide
  · split <;> decide

section
variable {base r r' : Registry} (siblings : Siblings base r r')
include siblings

/-- Twins cast to the same of the types that are always there. -/
theorem Registry.Twin.castsTo (first : Twin base r r' a b)
    (builtin : c ≤ agentOrNull := by decide) :
    r'.canCast b c = r.canCast a c :=
  Twin.canCast siblings.closed siblings.left siblings.right first (siblings.builtin builtin)

theorem ChainOp.numberType_twin (left : Twin base r r' lt lt') (right : Twin base r r' rt rt') :
    numberType r' lt' rt' = numberType r lt rt := by
  unfold numberType
  rw [left.castsTo siblings, left.castsTo siblings,
    right.castsTo siblings, right.castsTo siblings]

theorem ChainOp.stepType_twin (op : ChainOp) (left : Twin base r r' lt lt') (right : Twin base r r' rt rt') :
    Paired (fun _ _ => True) (Twin base r r') (op.stepType r lt rt) (op.stepType r' lt' rt') := by
  have check {t u c : TypeId} (twin : Twin base r r' t u) (builtin : c ≤ Registry.agentOrNull) :=
    twin.checkCast siblings (siblings.builtin builtin)
  have number : Paired (fun _ _ => True) (Twin base r r') (.ok (numberType r lt rt) : Except TypeError TypeId)
      (.ok (numberType r' lt' rt')) := by
    rw [numberType_twin siblings left right]
    exact .ok (siblings.builtin (numberType_builtin r lt rt))
  have text : Paired (fun _ _ => True) (Twin base r r') (.ok Registry.string : Except TypeError TypeId)
      (.ok Registry.string) :=
    .ok siblings.builtin
  have two {c : TypeId} (builtin : c ≤ Registry.agentOrNull) {x x' : Except TypeError TypeId}
      (last : Paired (fun _ _ => True) (Twin base r r') x x') :
      Paired (fun _ _ => True) (Twin base r r') (do r.checkCast lt c; r.checkCast rt c; x)
        (do r'.checkCast lt' c; r'.checkCast rt' c; x') :=
    (check left builtin).bind fun _ => (check right builtin).bind fun _ => last
  cases op with
  | add =>
    unfold stepType
    dsimp only
    rw [left.castsTo siblings, right.castsTo siblings]
    cases r.canCast lt Registry.string <;> cases r.canCast rt Registry.string
    · exact two (by decide) number
    · exact (check left (by decide)).bind fun _ => text
    · exact (check right (by decide)).bind fun _ => text
    · exact text
  | sub | mul | div => exact two (by decide) number
  | or | and => exact two (by decide) (.ok siblings.builtin)

theorem Meaning.numberOf_twin (coherent : base.coherent = true) (twin : Twin base r r' t u) (name : String)
    (script : Bool) : Paired (fun _ _ => True) (fun n k => k = n) (numberOf r t name script)
      (numberOf r' u name script) := by
  unfold numberOf
  rw [twin.scriptNumber? siblings.closed siblings.left siblings.right coherent,
    twin.messageNumber? siblings.closed siblings.left siblings.right coherent]
  split
  · split
    · exact .ok rfl
    · exact .error trivial
  · split
    · exact .ok rfl
    · exact .error trivial

end

namespace Fork.States
variable {s s' : Resolving} {e e' l l' : Expr}

theorem truth (states : F.States s s') (like : Expr.Like (F.likeness s.world s'.world) e e') :
    Paired (fun _ _ => True) (Cond.Like (F.likeness s.world s'.world)) (Cond.truth s.world.types e)
      (Cond.truth s'.world.types e') := by
  have grounded := states.worlds.grounded
  refine (like.singleReadType likeness_keyed).any.bind fun {ty ty'} twin => ?_
  have checked := Twin.checkCast states.worlds.siblings twin
    (states.worlds.siblings.builtin (by decide : Registry.number ≤ _))
  generalize s.world.types.checkCast ty Registry.number = x at checked ⊢
  generalize s'.world.types.checkCast ty' Registry.number = y at checked ⊢
  cases checked with
  | error _ => exact .error trivial
  | ok _ => exact .ok (.compare like (Expr.Like.const grounded.builtin))

theorem comparison (states : F.States s s') (op : CompareOp)
    (left : Expr.Like (F.likeness s.world s'.world) l l')
    (right : Expr.Like (F.likeness s.world s'.world) e e') :
    Paired (fun _ _ => True) (Cond.Like (F.likeness s.world s'.world))
      (Cond.comparison s.world.types op l e) (Cond.comparison s'.world.types op l' e') := by
  have single {e e' : Expr} (like : Expr.Like (F.likeness s.world s'.world) e e') :=
    (like.singleReadType likeness_keyed).any
  have siblings := states.worlds.siblings
  refine (single left).bind fun {lt lt'} first => (single right).bind fun {rt rt'} second => ?_
  dsimp only
  rw [Twin.major siblings.left siblings.right first, Twin.major siblings.left siblings.right second]
  split
  · exact .error trivial
  · exact .ok (.compare left right)

theorem mkChain (states : F.States s s') (op : ChainOp) {es es' : List Expr}
    (each : List.Forall₂ (Expr.Like (F.likeness s.world s'.world)) es es') :
    Paired (fun _ _ => True) (Leaf.Like (F.likeness s.world s'.world)) (Leaf.mkChain s.world.types op es)
      (Leaf.mkChain s'.world.types op es') := by
  have single {e e' : Expr} (like : Expr.Like (F.likeness s.world s'.world) e e') :=
    (like.singleReadType likeness_keyed).any
  have tails {es es' : List Expr} (each : List.Forall₂ (Expr.Like (F.likeness s.world s'.world)) es es')
      {before before' : TypeId} (twin : (F.likeness s.world s'.world).types before before') :
      Paired (fun _ _ => True) (List.Forall₂ (Operand.Like (F.likeness s.world s'.world)))
        (Leaf.chainTail s.world.types op before es) (Leaf.chainTail s'.world.types op before' es') := by
    induction each generalizing before before' with
    | nil => exact .ok .nil
    | cons first _ ih =>
      unfold Leaf.chainTail
      refine (single first).bind fun {ty ty'} second => ?_
      have stepped := op.stepType_twin states.worlds.siblings twin second
      generalize op.stepType s.world.types before ty = x at stepped ⊢
      generalize op.stepType s'.world.types before' ty' = y at stepped ⊢
      cases stepped with
      | error _ => exact .error trivial
      | ok after => exact (ih after).bind fun rest => .ok (.cons (.mk first second after) rest)
  cases each with
  | nil => exact .error trivial
  | cons first others =>
    exact (single first).bind fun ty => (tails others ty).bind fun tail => .ok (.chain first ty tail)

end Fork.States

theorem Leaf.mkCast_like (keyed : M.Keyed) (like : Expr.Like M e e') (types : M.types ty ty') :
    Paired (· = ·) (Leaf.Like M) (Leaf.mkCast e ty) (Leaf.mkCast e' ty') := by
  unfold Leaf.mkCast
  rw [like.len keyed]
  split
  · exact .ok (.cast like types)
  · exact .error rfl

def Fork.reading (F : Fork) : Reading Unit {L : Likeness // F.Grounded L} :=
  { F.course, Sites.one with
    node _ _ := True
    type k := k.1.types
    key k _ := k.1.keys
    var k := LocalVar.Like k.1
    expr _ k := Expr.Like k.1
    cond _ k := Cond.Like k.1
    parts _ k := List.Forall₂ (Part.Like k.1)
    arm _ k := Action.Like k.1
    action _ _ k := Action.Like k.1
    actions _ _ k := List.Forall₂ (Action.Like k.1)
    kind _ _ k := ActionKind.Like k.1 }

def Nested.Steady (F : Fork) (nested : Nested) : Prop :=
  ∀ body k, F.reading.Step false () k (F.reading.expr ()) (nested body) (nested body)

namespace Scope

theorem root_like (grounded : F.Grounded M) {script script' : ScriptTypes} (like : script.Like M script') :
    (root script).Like M (root script') := by
  have fixed {name : String} {ty ty' : TypeId} (types : M.types ty ty') :
      Expr.Like M (Expr.leaf (.builtin name ty false .plain)) (Expr.leaf (.builtin name ty' false .plain)) :=
    .leaf (.builtin types)
  refine ⟨like, .cons ⟨?_, rfl⟩ .nil⟩
  exact .cons ⟨rfl, .leaf (.builtin like.owner)⟩ <| .cons ⟨rfl, fixed like.sender⟩ <|
    .cons ⟨rfl, fixed grounded.builtin⟩ <| .cons ⟨rfl, fixed like.first⟩ <|
    .cons ⟨rfl, fixed like.second⟩ <| .cons ⟨rfl, fixed grounded.builtin⟩ <|
    .cons ⟨rfl, .leaf (.builtin grounded.builtin)⟩ <|
    .cons ⟨rfl, .leaf (.sink grounded.sink grounded.builtin)⟩ .nil

end Scope

/-- Of expressions that are alike the same slots are copied. -/
theorem Cache.ofExpr_like (keyed : L.Keyed) (like : Expr.Like L e e') {copied : Nat → Bool}
    {label : Nat → String} {next next' stop : Nat} {r : Except Cause (Result Leaf)}
    (made : ofExpr e copied label next = (r, stop)) (handles : Handles L next stop next') :
    Drawn (· = ·) (fun a b => CopiesPair L (Leaf.Like L) a.copies b.copies ∧ Expr.Like L a.output b.output)
      next stop next' r (ofExpr e' copied label next') :=
  make_like (s := ⟨e, e.readType, label, LocalVar.leaf⟩) (t := ⟨e', e'.readType, label, LocalVar.leaf⟩)
    (Leaf.Like.respects keyed)
    ⟨like, Expr.Like.readType keyed like, rfl, fun v => .var v.handle v.ty⟩ made handles

namespace Macro
variable {m : Macro} {args args' : Expr} {k : {L : Likeness // F.Grounded L}}

theorem bindParams_like (keyed : M.Keyed) {leaf leaf' : Leaf} (like : leaf.Like M leaf') (i : Nat)
    (params : List MacroParam) {scope scope' : Scope} (scopes : scope.Like M scope') :
    (bindParams leaf i params scope).Like M (bindParams leaf' i params scope') := by
  induction params generalizing i scope scope' with
  | nil => exact scopes
  | cons p rest ih =>
    exact ih (i + 1) (scopes.bind p.name (.cons (.run (Leaf.Like.respects keyed) like i 1) .nil))

theorem placeholder_like (inside : ∀ p ∈ m.params, p.ty < F.base.entries.length) (grounded : F.Grounded M)
    {id id' : Nat} (keys : M.keys key key') (deferred : M.deferred id id') :
    (m.placeholder key id).Like M (m.placeholder key' id') := by
  refine .deferred keys deferred fun p member => ?_
  obtain ⟨q, isParam, rfl⟩ := List.mem_map.mp member
  exact grounded.old (inside q isParam)

/-- The same slots are copied, to variables that correspond. -/
theorem copyArgs_alike {n : Nat} (like : Expr.Like (k.1.below n) args args') :
    F.course.Step false i k (fun l c c' =>
      Cache.CopiesPair (l.1.below n) (Leaf.Like (l.1.below n)) c.copies c'.copies ∧
      Expr.Like (l.1.below n) c.output c'.output) (m.copyArgs args) (m.copyArgs args') := by
  refine ⟨fun {s s'} met _ => ?_⟩
  obtain ⟨states, same⟩ := met
  have later (args : Expr) (next : Nat) : next ≤ (Cache.ofExpr args m.isValue m.paramName next).2 :=
    Cache.make_next ..
  have run (args : Expr) (s : Resolving) : (m.copyArgs args).run s =
      ((Cache.ofExpr args m.isValue m.paramName s.world.nextHandle).1.mapError .of,
        { s with world.nextHandle := (Cache.ofExpr args m.isValue m.paramName s.world.nextHandle).2 }) := by
    have unfolded : (m.copyArgs args).run s =
        (Resolve.ofExcept (Cache.ofExpr args m.isValue m.paramName s.world.nextHandle).1).run
          { s with world.nextHandle := (max s.world.nextHandle
            (Cache.ofExpr args m.isValue m.paramName s.world.nextHandle).2) } := rfl
    rw [unfolded, Nat.max_eq_right (later args s.world.nextHandle)]
    cases (Cache.ofExpr args m.isValue m.paramName s.world.nextHandle).1 <;> rfl
  rw [run, run]
  rcases made : Cache.ofExpr args m.isValue m.paramName s.world.nextHandle with ⟨result, stop⟩
  rcases made' : Cache.ofExpr args' m.isValue m.paramName s'.world.nextHandle with ⟨result', stop'⟩
  have grown : (F.likeness s.world s'.world).Le
      (F.likeness { s.world with nextHandle := stop } { s'.world with nextHandle := stop' }) := by
    have next := later args s.world.nextHandle
    rw [made] at next
    exact Fork.Grown.le ⟨List.prefix_rfl, List.prefix_rfl, next, Nat.le_refl _⟩
  rw [same] at like
  have like := Expr.Like.mono (grown.below n) like
  obtain ⟨k, here, there⟩ := states.worlds.handles
  have handles : Cache.Handles ((F.likeness { s.world with nextHandle := stop }
      { s'.world with nextHandle := stop' }).below n) s.world.nextHandle stop s'.world.nextHandle :=
    fun i below => ⟨k + i, by omega, by omega, below⟩
  obtain ⟨i, below, after, copied⟩ := Cache.ofExpr_like (Fork.likeness_keyed.below n) like made handles
  rw [made'] at after copied
  have taken := states.take below after
  cases copied with
  | error _ => exact .error taken.1.worlds.toKept
  | ok copied => exact taken.1.ends (same ▸ taken.2) copied

theorem expandBody_alike (known : m ∈ F.left.macros) (bodies : Nested.Steady F nested)
    (like : Expr.Like k.1 args args') :
    F.course.Step false () k (fun l r r' => Expr.Like l.1 r.1 r'.1 ∧ Cache.CopiesPair l.1 (Leaf.Like l.1) r.2 r'.2)
      (m.expandBody nested args) (m.expandBody nested args') := by
  refine Fork.deferring (fun le same => ⟨Expr.Like.mono le same.1, same.2.imp fun _ _ copy =>
    ⟨Expr.Like.mono le copy.1, LocalVar.Like.monos le copy.2⟩⟩) fun {l id id'} below isNew => ?_
  have like := Expr.Like.mono below like
  refine F.rules.bind Fork.freshKey fun {l key key'} keyLe keys => .scope fun {s s'} met => ?_
  have leaf : (m.placeholder key id).Like l.1 (m.placeholder key' id') :=
    placeholder_like (F.params m known) l.2 keys (keyLe.deferred isNew)
  have inner : (m.bodyScope s.scope.script (m.placeholder key id)).Like l.1
      (m.bodyScope s'.scope.script (m.placeholder key' id')) :=
    bindParams_like l.2.keyed leaf 0 m.params (Scope.root_like l.2 (met.2 ▸ met.1.scope.script))
  refine F.rules.bind (Fork.inBody inner (bodies m.body _)) fun {_ body body'} bodyLe bodySame => ?_
  have args := Expr.Like.mono ((keyLe.trans bodyLe).below id) like
  refine F.rules.bind (copyArgs_alike args) fun {last copied copied'} copyLe same => F.rules.pure ?_
  have wide := last.1.below_le id
  exact ⟨⟨Expr.Like.mono copyLe bodySame, same.1.imp fun _ _ copy =>
    ⟨Expr.Like.mono wide copy.1, LocalVar.Like.monos wide copy.2⟩⟩, same.2⟩

end Macro

namespace Cond.Like
variable {c c' d d' : Cond}

theorem constant? (like : c.Like M c') : c'.constant? = c.constant? := by
  cases like <;> rfl

theorem join (op : LogicOp) (left : c.Like M c') (right : d.Like M d') :
    (Cond.join op c d).Like M (Cond.join op c' d') := by
  unfold Cond.join
  rw [left.constant?, right.constant?]
  split
  · exact .const
  · exact .logic left right

theorem negate (like : c.Like M c') : c.negate.Like M c'.negate := by
  cases like with
  | const => exact .const
  | not inner => exact inner
  | compare left right => exact .not (.compare left right)
  | logic left right => exact .not (.logic left right)

end Cond.Like

namespace Fork
variable {k : {L : Likeness // F.Grounded L}}

theorem bindVars {vars vars' : List LocalVar} (same : List.Forall₂ (LocalVar.Like k.1) vars vars') :
    F.course.Step b i k (fun l _ _ => l = k) (vars.forM fun v => Resolve.bind v.label (Expr.leaf v.leaf))
      (vars'.forM fun v => Resolve.bind v.label (Expr.leaf v.leaf)) := by
  induction same with
  | nil => exact F.rules.pure rfl
  | @cons v v' _ _ first _ ih =>
    refine F.rules.after (A := fun _ _ => True) ?_ fun _ => ih
    dsimp only
    rw [first.label]
    exact bindName v.label (.leaf (.var first.handle first.ty))

theorem jump {kind : ActionKind} (self : kind.Like k.1 kind) (cause : Cause) :
    F.reading.Step true i k (F.reading.kind i k)
      (do if (← Resolve.scope).breakable then return kind else Resolve.fail cause)
      (do if (← Resolve.scope).breakable then return kind else Resolve.fail cause) := by
  refine .scope fun met => ?_
  rw [met.1.scope.breakable]
  exact .ite (F.rules.pure self) (F.rules.fail trivial)

theorem steps (F : Fork) (nested : Nested) : F.reading.Steps nested nested where
  toRules := F.rules
  inner _ _ := trivial
  meetsApart _ := rfl
  meetsAlone _ := rfl
  meetsParams _ := rfl
  typeLater le types := le.types types
  varLater le var := ⟨le.handles var.handle, le.types var.ty, var.label⟩
  exprLater le like := Expr.Like.mono le like
  condLater le like := Cond.Like.mono le like
  partsLater le same := Part.Like.monos le same
  armLater le like := Action.Like.mono le like
  since _ like := like
  builtin k early := k.2.builtin early
  len {_ k _ _} like := Expr.Like.len k.2.keyed like
  readType {_ k _ _} like j := (Expr.Like.readType k.2.keyed like j).any
  writeType {_ k _ _} like j := (Expr.Like.writeType k.2.keyed like j).any
  checkCast := by
    rintro i ⟨_, grounded⟩ s s' a a' c c' ⟨states, rfl⟩ first second
    exact Twin.checkCast states.worlds.siblings first second
  nullable := by
    rintro i ⟨_, grounded⟩ s s' a a' ⟨states, rfl⟩ twin
    have siblings := states.worlds.siblings
    exact Twin.canCast siblings.closed siblings.left siblings.right siblings.builtin twin
  stepType := by
    rintro i ⟨_, grounded⟩ s s' a a' c c' op ⟨states, rfl⟩ first second
    exact op.stepType_twin states.worlds.siblings first second
  classifier := by
    rintro i ⟨_, grounded⟩ s s' a a' ⟨states, rfl⟩ twin
    exact Twin.classifierOf states.worlds.siblings.left states.worlds.siblings.right twin
  constant := by
    rintro i ⟨_, grounded⟩ s s' name ⟨states, rfl⟩
    have siblings := states.worlds.siblings
    unfold Registry.constant?
    rw [siblings.left.constants, siblings.right.constants]
    refine ⟨rfl, fun c isSome => ?_⟩
    obtain ⟨_, _, isConstant, _⟩ := List.lookup_eq_some_iff.mp isSome
    exact .old (siblings.closed.constants (name, c) (by simp [isConstant]))
  number := by
    rintro i ⟨_, grounded⟩ s s' a a' name script ⟨states, rfl⟩ twin
    exact Meaning.numberOf_twin states.worlds.siblings F.coherent twin name script
  named _ _ _ _ := trivial
  lookup := by
    rintro i ⟨_, grounded⟩ s s' name ⟨states, rfl⟩
    exact states.scope.lookup name
  owner := by
    rintro i ⟨_, grounded⟩ s s' ⟨states, rfl⟩
    exact states.scope.script.owner
  typeRef _ _ t := inTypes fun siblings _ => TypeRef.resolve_ends siblings t
  nonNullable _ twin := inTypes fun siblings same => Meaning.nonNullable_ends siblings (same ▸ twin)
  freshKey _ _ _ := freshKey
  freshVar _ _ types := freshHandle.imp fun le handles => ⟨handles, le.types types, rfl⟩
  declare := by
    intro i names types t k vars vars' init init' _ _ same inits _
    refine (bindVars same).imp fun _ stays => ?_
    subst stays
    exact .declare same inits
  synonym := by
    intro i name t k e e' _ like
    refine (bindName (b := true) name like).imp fun _ stays => ?_
    obtain ⟨rfl, _⟩ := stays
    exact .synonym like
  bindTarget _ _ types := bindName "targ" (.leaf (.builtin types))
  innerFrame _ := framed fun like => ⟨.nil, like.breakable⟩
  loopFrame _ := framed fun _ => ⟨.nil, rfl⟩
  breakLoop _ := jump .breakLoop _
  continueLoop _ := jump .continueLoop _
  statement _ step := F.rules.andThen (.located id step) fun _ like => F.rules.pure (.mk like)
  apart like := like
  group {_ k _ _} same := .group k.2.keyed same
  literal _ types := .const types
  sink {k _ _ _} _ key := .leaf (.sink key k.2.builtin)
  field := by
    rintro i ⟨_, grounded⟩ s s' e e' a a' name ⟨states, rfl⟩ like _ twin
    have siblings := states.worlds.siblings
    rw [Twin.field? siblings.closed siblings.left siblings.right twin F.coherent]
    cases found : s.world.types.field? a name with
    | none => exact .none
    | some f =>
      exact .some (.leaf (.field like (.old (Registry.field_inside siblings.closed siblings.left found))))
  cast {_ k _ _ _ _} like types := (Leaf.mkCast_like k.2.keyed like types).imp (fun _ => trivial) .leaf
  chain := by
    rintro i ⟨_, grounded⟩ s s' es es' op ⟨states, rfl⟩ each
    exact (states.mkChain op each).imp id .leaf
  isInstance {_ k _ _} _ _ like _ := .leaf (.isInstance like k.2.builtin)
  test {_ k _ _} like := .leaf (.test like k.2.builtin)
  inline same types := .leaf (.inline same types)
  seq actions le like key := .leaf (.seq key (Action.Like.monos le actions) like)
  known _ _ _ := .const
  truth := by
    rintro i ⟨_, grounded⟩ s s' e e' ⟨states, rfl⟩ like
    exact states.truth like
  comparison := by
    rintro i ⟨_, grounded⟩ s s' l l' e e' op ⟨states, rfl⟩ left right
    exact states.comparison op left right
  constant? like := like.constant?
  join op left right := .join op left right
  negate like := like.negate
  noParts _ _ := .nil
  fragment _ same := .cons .text same
  line _ same := .cons .text same
  exprPart like same := .cons (.expr like) same
  noActions _ _ := .nil
  consActions like le same := .cons (Action.Like.mono le like) same
  nop _ _ := .nop
  block _ same := .block same
  openBlock same := .block same
  assign left right _ := .assign left right
  update _ left right _ _ before operand after := .update left right before operand after
  leaving _ like := like
  taken like := by
    cases like with
    | mk kind => exact kind
  branch cond yes no := .branch cond yes no
  loop _ like := .loop like
  enumerate _ same le like := .enumerate (Part.Like.monos le same) like
  write same := .inline same

theorem lawful (bodies : Nested.Steady F nested) : F.reading.Lawful nested nested where
  toSteps := F.steps nested
  calls {_ name args k} _ each := by
    refine F.rules.bind (Meaning.grouped_reads (F.steps nested) each) fun {l e e'} _ like => .world fun {s s'} met => ?_
    rw [Expr.Like.len l.2.keyed like]
    refine F.rules.except (A := fun m m' => m' = m ∧ m ∈ F.left.macros) ?_ fun {m m'} same => ?_
    · unfold World.findMacro
      rw [met.1.worlds.macros, met.1.worlds.macros']
      cases search : F.left.macros.find? fun m => m.name == name && m.params.length == Slices.len e with
      | none => exact .error trivial
      | some m => exact .ok ⟨rfl, List.mem_of_find?_eq_some search⟩
    obtain ⟨rfl, known⟩ := same
    refine Macro.expand_reads (F.steps nested) like (fun p isParam => l.2.old (F.params m' known p isParam)) fun _ => ?_
    refine (Macro.expandBody_alike known bodies like).imp fun {_ r r'} _ found => ?_
    obtain ⟨body, copies⟩ := found
    refine ⟨?_, fun _ => body, fun le key => .leaf (.call key ?_ (Expr.Like.mono le body))⟩
    · generalize r.2 = xs at copies ⊢
      generalize r'.2 = ys at copies ⊢
      cases copies <;> rfl
    · exact List.rel_map (fun _ _ copy => .mk (Expr.Like.mono le copy.1) (LocalVar.Like.monos le copy.2)) copies

end Fork

theorem nestedCalls_steady (levels : Nat) : Nested.Steady F (nestedCalls levels) := by
  induction levels with
  | zero => exact fun _ _ => F.rules.fail trivial
  | succ levels ih => exact fun body _ => (Term.meaning_reads (Fork.lawful ih) body trivial).value

/-- A statement is resolved to the same in both worlds. -/
theorem Resolve.statement_steady (s : Statement) (k : {L : Likeness // F.Grounded L}) :
    F.reading.Step true () k (F.reading.action () k) (Resolve.statement s) (Resolve.statement s) :=
  s.resolve_reads (Fork.lawful (nestedCalls_steady macroLevels)) trivial

end AgentScript
