import AgentScript.Proofs.Likeness.Generate
import AgentScript.Proofs.Resolution.Trees
import AgentScript.Proofs.Safety.Expression

/-! What one run of resolution finds. Facts about trees, each at a site, follow from facts about their
parts. Together with what is true of states at a site they make up a reading, in which a run is compared
with another that finds the same. -/
namespace AgentScript

/-- What is known of trees, each at a site. -/
structure Facts (ι : Type) extends Sites ι where
  node : ι → Node → Prop
  text : String → Prop
  macros : Macro → Prop
  expr : ι → Expr → Prop
  leaf : ι → Leaf → Prop
  cond : ι → Cond → Prop
  parts : ι → List Part → Prop
  action : ι → Action → Prop
  actions : ι → List Action → Prop
  kind : ι → ActionKind → Prop

/-- What is known of a tree follows from what is known of its parts. -/
structure Facts.Lawful (F : Facts ι) : Prop where
  inner : F.node i n → Node.Inner F.toSites i n j m → F.node j m
  all : F.expr i e ↔ Slices.All (fun q => F.leaf i q.leaf) e
  apart : F.leaf (F.apart i) one → F.leaf i one
  oneLine : Text.OneLine s → F.text s
  fragment : F.node i (.fragments (.text s :: fs)) → F.text s
  const : ∀ i c, F.leaf i (.const c)
  var : ∀ i (v : LocalVar), F.leaf i v.leaf
  builtin : ∀ i ty writable role, F.text s → F.leaf i (.builtin s ty writable role)
  sink : ∀ i key len ty, F.leaf i (.sink key len ty)
  deferred : ∀ i key id params, F.leaf i (.deferred key id params)
  field : ∀ f, F.expr i e → F.leaf i (.field e f)
  cast : ∀ ty, F.expr i e → F.leaf i (.cast e ty)
  isInstance : ∀ cls nullable ty, F.expr i e → F.leaf i (.isInstance e cls nullable ty)
  chain : ∀ op ty, F.expr i e → (∀ e ty after, .mk e ty after ∈ tail → F.expr i e) →
    F.leaf i (.chain op e ty tail)
  test : ∀ ty, F.cond i c → F.leaf i (.test c ty)
  inline : ∀ ty, F.parts i ps → F.leaf i (.inline ps ty)
  seq : ∀ key, F.actions (F.inside i) as → F.expr (F.inside i) e → F.leaf i (.seq key as e)
  call : ∀ {copies : List (Expr × List LocalVar)} key, F.macros m →
    (∀ c ∈ copies, F.expr (F.apart i) c.1 ∧ ∀ v ∈ c.2, ∃ k, v.label = m.paramName k) →
    F.expr (F.apart i) e → F.leaf (F.apart i) (.call key (copies.map fun c => .mk c.1 c.2) e)
  known : ∀ i b, F.cond i (.const b)
  compare : ∀ op, F.expr i l → F.expr i r → F.cond i (.compare op l r)
  logic : ∀ op, F.cond i c → F.cond i d → F.cond i (.logic op c d)
  not : F.cond i (.not c) ↔ F.cond i c
  noParts : ∀ i, F.parts i []
  textPart : F.text s → F.parts i ps → F.parts i (.text s :: ps)
  exprPart : F.expr i e → F.parts i ps → F.parts i (.expr e :: ps)
  ofAction : F.action (F.inside i) a → F.kind i a.kind
  noActions : ∀ i, F.actions i []
  consActions : F.action (F.alone i) a → F.actions i as → F.actions i (a :: as)
  nop : ∀ i, F.kind i .nop
  block : F.actions (F.inside i) as → F.kind i (.block as true)
  openBlock : F.actions i as → F.kind i (.block as false)
  declare : ∀ {vars : List LocalVar} {init : Option Expr}, F.node i (.kind (.declare names types t)) →
    vars.map (·.label) = names → (∀ e ∈ init, F.expr i e) → F.kind i (.declare vars init)
  assign : F.expr (F.apart i) l → F.expr i r → F.kind i (.assign l r)
  update : ∀ op before operand after, F.expr i l → F.expr i r →
    F.kind i (.update op l r before operand after)
  synonym : F.node i (.kind (.synonym name t)) → F.expr (F.apart i) e → F.kind i (.synonym name e)
  branch : ∀ {no : Option Action}, F.cond i c → F.action (F.inside i) yes →
    (∀ a ∈ no, F.action (F.inside i) a) → F.kind i (.branch c yes no)
  loop : F.action (F.body i) a → F.kind i (.loop a)
  enumerate : F.parts (F.params i) ps → F.action (F.body i) a → F.kind i (.enumerate ps a)
  write : F.parts i ps → F.kind i (.inline ps)

namespace Facts.Lawful
variable {F : Facts ι} (law : F.Lawful) {i : ι} {e l r : Expr} {c d : Cond}
include law

theorem exprLeaf {leaf : Leaf} (known : F.leaf i leaf) : F.expr i (Expr.leaf leaf) :=
  law.all.mpr (List.forall_mem_singleton.mpr known)

theorem exprConst (i : ι) (c : Constant) : F.expr i (Expr.const c) := law.exprLeaf (law.const i c)

theorem group {es : List Expr} (each : ∀ e ∈ es, F.expr i e) : F.expr i (Slices.group es) :=
  law.all.mpr (.group (Piece.leaf_kept (F.leaf i)) fun e member => law.all.mp (each e member))

theorem exprApart (known : F.expr (F.apart i) e) : F.expr i e :=
  law.all.mpr fun q member => law.apart (law.all.mp known q member)

theorem target (i : ι) (ty : TypeId) : F.leaf i (.builtin "targ" ty true .target) :=
  law.builtin i ty true .target (law.oneLine (by decide))

theorem ofTruth {types : Registry} (made : Cond.truth types e = .ok c) (known : F.expr i e) : F.cond i c := by
  unfold Cond.truth at made
  obtain ⟨ty, _, made⟩ := bind_ok made
  split at made <;> cases made
  exact law.compare _ known (law.exprConst i _)

theorem ofComparison {types : Registry} {op : CompareOp} (made : Cond.comparison types op l r = .ok c)
    (left : F.expr i l) (right : F.expr i r) : F.cond i c := by
  unfold Cond.comparison at made
  obtain ⟨_, _, made⟩ := bind_ok made
  obtain ⟨_, _, made⟩ := bind_ok made
  dsimp only at made
  split at made <;> cases made
  exact law.compare _ left right

theorem ofCast {ty : TypeId} {leaf : Leaf} (made : Leaf.mkCast e ty = .ok leaf) (known : F.expr i e) :
    F.leaf i leaf := by
  unfold Leaf.mkCast at made
  split at made <;> cases made
  exact law.cast ty known

omit law in
theorem ofChainTail {types : Registry} {op : ChainOp} {before : TypeId} {es : List Expr} {tail : List Operand}
    (made : Leaf.chainTail types op before es = .ok tail) (each : ∀ e ∈ es, F.expr i e) :
    ∀ e ty after, .mk e ty after ∈ tail → F.expr i e := by
  induction es generalizing before tail with
  | nil =>
    cases made
    exact nofun
  | cons e rest ih =>
    obtain ⟨here, others⟩ := List.forall_mem_cons.mp each
    obtain ⟨ty, _, made⟩ := bind_ok made
    split at made
    · cases made
    · obtain ⟨more, madeRest, made⟩ := bind_ok made
      cases made
      intro e ty after member
      rcases List.mem_cons.mp member with same | later
      · cases same
        exact here
      · exact ih madeRest others e ty after later

theorem ofChain {types : Registry} {op : ChainOp} {es : List Expr} {leaf : Leaf}
    (made : Leaf.mkChain types op es = .ok leaf) (each : ∀ e ∈ es, F.expr i e) : F.leaf i leaf := by
  cases es with
  | nil => cases made
  | cons head rest =>
    obtain ⟨ty, _, made⟩ := bind_ok made
    obtain ⟨tail, madeTail, made⟩ := bind_ok made
    cases made
    obtain ⟨here, others⟩ := List.forall_mem_cons.mp each
    exact law.chain op ty here (ofChainTail madeTail others)

theorem join (op : LogicOp) (left : F.cond i c) (right : F.cond i d) : F.cond i (Cond.join op c d) := by
  unfold Cond.join
  split
  · exact law.known i _
  · exact law.logic op left right

theorem negate (known : F.cond i c) : F.cond i c.negate := by
  unfold Cond.negate
  split
  · exact law.known i _
  · exact law.not.mp known
  · exact law.not.mpr known

end Facts.Lawful

/-- Nothing is known of what a source is resolved to. Sites tell frames apart. -/
def Facts.ofSource (node : ι → Node → Prop) (inside : ι → ι) : Facts ι where
  node := node
  text _ := True
  macros _ := True
  expr _ _ := True
  leaf _ _ := True
  cond _ _ := True
  parts _ _ := True
  action _ _ := True
  actions _ _ := True
  kind _ _ := True
  apart := id
  located i _ := i
  alone := id
  params := inside
  body := inside
  inside := inside

theorem Facts.ofSource_lawful {node : ι → Node → Prop} {inside : ι → ι}
    (inner : ∀ {i n j m}, node i n → n.Inner (Facts.ofSource node inside).toSites i j m → node j m) :
    (Facts.ofSource node inside).Lawful := by
  apply Facts.Lawful.mk <;> intros <;> simp_all [Facts.ofSource, Slices.All]
  exact inner ‹_› ‹_›

/-- Facts together with what is true of states, and of the failures that runs end with. -/
def Facts.reading (F : Facts ι) (meets : ι → Resolving → Prop) (failed : Resolving → Failure → Prop) :
    Reading ι Unit :=
  { F.toSites with
    meets i _ s s' := s' = s ∧ meets i s
    grows _ _ _ := True
    leave _ _ := ()
    cause c c' := c' = c ∧ c.isPlace = false
    failed s s' f f' := s' = s ∧ f' = f ∧ failed s f
    counts _ := True
    node := F.node
    type _ t t' := t' = t
    key _ _ n n' := n' = n
    var _ v v' := v' = v
    expr i _ e e' := e' = e ∧ F.expr i e
    cond i _ c c' := c' = c ∧ F.cond i c
    parts i _ ps ps' := ps' = ps ∧ F.parts i ps
    arm i _ a a' := a' = a ∧ F.action (F.inside i) a
    action i _ _ a a' := a' = a ∧ F.action i a
    actions i _ _ as as' := as' = as ∧ F.actions i as
    kind i _ _ a a' := a' = a ∧ F.kind i a }

/-- States and failures that each step keeps. -/
structure Facts.Kept (F : Facts ι) (meets : ι → Resolving → Prop) (failed : Resolving → Failure → Prop) :
    Prop extends F.Lawful where
  refused : ∀ {c}, meets i s → c.isPlace = false → failed s (.of c)
  leaves : failed s f → failed { s with scope := s.scope.leave } f
  locates : failed s f → failed s (f.locate pos)
  meetsApart : ∀ i, meets (F.apart i) = meets i
  meetsLocated : ∀ i pos, meets (F.located i pos) = meets i
  meetsAlone : ∀ i, meets (F.alone i) = meets i
  meetsParams : ∀ i, meets (F.params i) = meets (F.body i)
  typeRef : ∀ t, meets i s → meets i { s with world.types := ((TypeRef.resolve t).run s.world.types).2 }
  nonNullable : ∀ t, meets i s → meets i { s with world.types := ((Meaning.nonNullable t).run s.world.types).2 }
  numbers : ∀ handle key, meets i s →
    meets i { s with world := { s.world with nextHandle := handle, nextKey := key } }
  lookup : meets i s → s.scope.lookup? name = some e → F.expr (F.apart i) e
  bindVar : ∀ v : LocalVar, F.node i (.kind (.declare names types t)) → v.label ∈ names → meets i s →
    meets i { s with scope := s.scope.bind v.label (Expr.leaf v.leaf) }
  bindTarget : ∀ ty, F.node j (.kind (.enumerate which ref ts stmt)) → i = j ∨ i = F.body j → meets i s →
    meets i { s with scope := s.scope.bind "targ" (Scope.targetVar ty) }
  bindSynonym : F.node i (.kind (.synonym name t)) → F.expr (F.apart i) e → meets i s →
    meets i { s with scope := s.scope.bind name e }
  enter : meets i s → meets (F.inside i) { s with scope := s.scope.push (Scope.innerFrame s.scope) }
  enterLoop : meets i s → meets (F.body i) { s with scope := s.scope.push (Scope.loopFrame s.scope) }
  exit : meets i s → meets (F.inside i) t → meets i ⟨t.world, s.scope⟩
  exitLoop : meets i s → meets (F.body i) t → meets i ⟨t.world, s.scope⟩
  macros : meets i s → ∀ m ∈ s.world.macros, F.macros m
  reserve : meets i s → meets i { s with world := s.world.reserve.2 }
  bindDeferred : ∀ id, meets i s → F.expr (F.apart i) e → meets i { s with world := s.world.bindDeferred id e }
  breakLoop : F.node i (.kind .breakLoop) → meets i s →
    if s.scope.breakable then F.kind i .breakLoop else failed s (.of .cannotBreak)
  continueLoop : F.node i (.kind .continueLoop) → meets i s →
    if s.scope.breakable then F.kind i .continueLoop else failed s (.of .cannotContinue)
  ofKind : F.node i (.statement (.mk pos what)) → F.kind (F.located i pos) a → F.action i (.mk pos a)

section
variable {F : Facts ι} {meets : ι → Resolving → Prop} {failed : Resolving → Failure → Prop}

namespace Facts.Kept

theorem find {x : Resolve α} {P : α → Prop} (ok : ∀ {s a t}, meets i s → x.run s = (.ok a, t) → meets i t ∧ P a)
    (error : ∀ {s f t}, meets i s → x.run s = (.error f, t) → failed t f) :
    (F.reading meets failed).Step b i () (fun _ a a' => a' = a ∧ P a) x x := by
  refine ⟨fun {s s'} met _ => ?_⟩
  obtain ⟨rfl, met⟩ := met
  rcases ran : x.run s' with ⟨f | a, t⟩
  · exact .error ⟨rfl, rfl, error met ran⟩
  · exact .ok (l := ()) trivial ⟨rfl, (ok met ran).1⟩ ⟨rfl, (ok met ran).2⟩

theorem found {x y : Resolve α} {P : α → Prop}
    (step : (F.reading meets failed).Step b i () (fun _ a a' => a' = a ∧ P a) x y) (met : meets i s) :
    y.run s = x.run s ∧ (∀ {a t}, x.run s = (.ok a, t) → meets i t ∧ P a) ∧
      ∀ {f t}, x.run s = (.error f, t) → failed t f := by
  have ends := step.ends ⟨rfl, met⟩ trivial
  generalize x.run s = ran at ends ⊢
  generalize y.run s = ran' at ends ⊢
  cases ends with
  | error failed =>
    obtain ⟨rfl, rfl, failed⟩ := failed
    refine ⟨rfl, nofun, fun same => ?_⟩
    cases same
    exact failed
  | ok _ met known =>
    obtain ⟨rfl, met⟩ := met
    obtain ⟨rfl, known⟩ := known
    refine ⟨rfl, fun same => ?_, nofun⟩
    cases same
    exact ⟨met, known⟩

theorem paired {C : Cause → Cause → Prop} (same : ∀ {c}, c.isPlace = false → C c c) {x : Except Cause α}
    (calm : Calm x) {A : α → α → Prop} (known : ∀ a, x = .ok a → A a a) : Paired C A x x := by
  cases x with
  | ok a => exact .ok (known a rfl)
  | error c => exact .error (same (calm c rfl))

/-- Items that are the same, with what is known of each. -/
theorem diagonal {R : α → Prop} {xs ys : List α} (each : List.Forall₂ (fun x y => y = x ∧ R x) xs ys) :
    ys = xs ∧ ∀ x ∈ xs, R x := by
  induction each with
  | nil => exact ⟨rfl, List.forall_mem_nil _⟩
  | cons first _ ih => exact ⟨by rw [first.1, ih.1], List.forall_mem_cons.mpr ⟨first.2, ih.2⟩⟩

theorem diagonal? {R : α → Prop} {x y : Option α} (both : Option.Rel (fun x y => y = x ∧ R x) x y) :
    y = x ∧ ∀ a ∈ x, R a := by
  cases both with
  | none => exact ⟨rfl, nofun⟩
  | some known => exact ⟨by rw [known.1], fun _ isGiven => Option.some.inj isGiven ▸ known.2⟩

variable (law : F.Kept meets failed)
include law

theorem rules : (F.reading meets failed).Rules where
  refl _ _ := trivial
  trans _ _ := trivial
  further _ _ := trivial
  left _ := trivial
  counted _ _ := trivial
  same other := ⟨rfl, other⟩
  refused met causes := by
    obtain ⟨rfl, met⟩ := met
    obtain ⟨rfl, other⟩ := causes
    exact ⟨rfl, rfl, law.refused met other⟩
  leaves := by
    rintro s _ f _ ⟨rfl, rfl, failed⟩
    exact ⟨rfl, rfl, law.leaves failed⟩

theorem inTypes {x : TypeM α} (kept : ∀ {s}, meets i s → meets i { s with world.types := (x.run s.world.types).2 }) :
    (F.reading meets failed).Step b i () (fun _ a a' => a' = a ∧ True) (.inWorld (.inTypes x))
      (.inWorld (.inTypes x)) := by
  have run (s : Resolving) : (Resolve.inWorld (WorldM.inTypes x)).run s =
      ((x.run s.world.types).1.mapError (.of ∘ .type),
        { s with world := { s.world with types := (x.run s.world.types).2 } }) := by
    simp only [Resolve.inWorld, WorldM.run_inTypes]
  refine find (fun met ran => ?_) fun {s f t} met ran => ?_ <;> rw [run] at ran
  · cases (Prod.mk.inj ran).2
    exact ⟨kept met, trivial⟩
  · obtain ⟨result, rfl⟩ := Prod.mk.inj ran
    cases answer : (x.run s.world.types).1 <;> rw [answer] at result <;> cases result
    exact law.refused (kept met) rfl

theorem bindVars {vars : List LocalVar} {names : List String} {types : List (Option TypeRef)} {t : Option Term}
    (node : F.node i (.kind (.declare names types t))) (labels : ∀ v ∈ vars, v.label ∈ names) :
    (F.reading meets failed).Step true i () (fun _ a a' => a' = a ∧ True)
      (vars.forM fun v => Resolve.bind v.label (Expr.leaf v.leaf))
      (vars.forM fun v => Resolve.bind v.label (Expr.leaf v.leaf)) := by
  induction vars with
  | nil => exact law.rules.pure ⟨rfl, trivial⟩
  | cons v rest ih =>
    obtain ⟨here, others⟩ := List.forall_mem_cons.mp labels
    refine law.rules.andThen (find (P := fun _ => True) (fun met ran => ?_) nofun) fun _ _ => ih others
    cases ran
    exact ⟨law.bindVar v node here met, trivial⟩

omit law in
theorem jump {kind : ActionKind} {cause : Cause}
    (known : ∀ {s}, meets i s → if s.scope.breakable then F.kind i kind else failed s (.of cause)) :
    (F.reading meets failed).Step true i k ((F.reading meets failed).kind i k)
      (do if (← Resolve.scope).breakable then return kind else Resolve.fail cause)
      (do if (← Resolve.scope).breakable then return kind else Resolve.fail cause) := by
  refine find (fun {s a t} met ran => ?_) fun {s f t} met ran => ?_
  all_goals
    have known := known met
    change (if s.scope.breakable then (return kind) else Resolve.fail cause : Resolve ActionKind).run s = _ at ran
    split at ran <;> rename_i accepted <;> cases ran
  · rw [if_pos accepted] at known
    exact ⟨met, known⟩
  · rw [if_neg accepted] at known
    exact known

theorem steps (nested nested' : Nested) : (F.reading meets failed).Steps nested nested' where
  toRules := law.rules
  inner := law.inner
  meetsApart i := by simp only [reading, law.meetsApart]
  meetsAlone i := by simp only [reading, law.meetsAlone]
  meetsParams i := by simp only [reading, law.meetsParams]
  typeLater _ known := known
  varLater _ known := known
  exprLater _ known := known
  condLater _ known := known
  partsLater _ known := known
  armLater _ known := known
  since _ known := known
  builtin _ _ := rfl
  len known := by rw [known.1]
  readType known j := by
    obtain ⟨rfl, _⟩ := known
    exact paired law.rules.same (readType_calm _ j) fun _ _ => rfl
  writeType known j := by
    obtain ⟨rfl, _⟩ := known
    exact paired law.rules.same (writeType_calm _ j) fun _ _ => rfl
  checkCast := by
    rintro i k _ s _ a _ c ⟨rfl, _⟩ rfl rfl
    cases s.world.types.checkCast a c with
    | ok _ => exact .ok trivial
    | error e => exact .error ⟨rfl, rfl⟩
  nullable := by
    rintro i k _ s _ a ⟨rfl, _⟩ rfl
    rfl
  stepType := by
    rintro i k _ s _ a _ c op ⟨rfl, _⟩ rfl rfl
    cases op.stepType s.world.types a c with
    | ok _ => exact .ok rfl
    | error e => exact .error ⟨rfl, rfl⟩
  classifier := by
    rintro i k _ s _ a ⟨rfl, _⟩ rfl
    rfl
  constant name met := ⟨by rw [met.1], fun _ _ => rfl⟩
  number := by
    rintro i k _ s _ a name script ⟨rfl, _⟩ rfl
    exact paired law.rules.same (Meaning.numberOf_calm s.world.types a name script) fun _ _ => rfl
  named := by
    rintro i k _ s _ a cause other ⟨rfl, _⟩ rfl
    exact ⟨rfl, other _⟩
  lookup := by
    rintro i k _ s name ⟨rfl, met⟩
    cases found : s.scope.lookup? name with
    | none => exact .none
    | some e => exact .some ⟨rfl, law.lookup met found⟩
  owner met := by
    rw [met.1]
    rfl
  typeRef _ _ t := (law.inTypes (law.typeRef t)).imp fun _ known => known.1
  nonNullable := by
    rintro k _ t i rfl
    exact (law.inTypes (law.nonNullable t)).imp fun _ known => known.1
  freshKey i _ size := by
    refine (find (P := fun _ => True) (fun met ran => ?_) nofun).imp fun _ known => known.1
    cases ran
    exact ⟨law.numbers _ _ met, trivial⟩
  freshVar := by
    rintro k _ t i name rfl
    refine (find (P := fun _ => True) (fun met ran => ?_) nofun).imp fun _ known => ?_
    · cases ran
      exact ⟨law.numbers _ _ met, trivial⟩
    · rw [known.1]
      rfl
  declare := by
    intro i names types t k vars vars' init init' node labels same inits count
    have same : vars' = vars := (diagonal (R := fun _ => True) (same.imp fun _ _ same => ⟨same, trivial⟩)).1
    obtain ⟨rfl, known⟩ := diagonal? inits
    rw [same]
    exact (law.bindVars node fun v isVar => labels ▸ List.mem_map_of_mem isVar).imp fun _ _ =>
      ⟨rfl, law.declare node labels known⟩
  synonym := by
    rintro i name t k _ e node ⟨rfl, known⟩
    refine (find (P := fun _ => True) (fun met ran => ?_) nofun).imp fun _ _ => ⟨rfl, law.synonym node known⟩
    cases ran
    exact ⟨law.bindSynonym node known met, trivial⟩
  bindTarget := by
    rintro j which ref ts s i k _ a node place rfl
    refine (find (P := fun _ => True) (fun met ran => ?_) nofun).imp fun _ _ => ⟨rfl, trivial⟩
    cases ran
    exact ⟨law.bindTarget a node place met, trivial⟩
  innerFrame i :=
    ⟨fun met => ⟨by rw [met.1], law.enter met.2⟩, fun met _ inside _ => ⟨by rw [met.1, inside.1], law.exit met.2 inside.2⟩⟩
  loopFrame i :=
    ⟨fun met => ⟨by rw [met.1], law.enterLoop met.2⟩,
      fun met _ inside _ => ⟨by rw [met.1, inside.1], law.exitLoop met.2 inside.2⟩⟩
  breakLoop node := jump fun met => law.breakLoop node met
  continueLoop node := jump fun met => law.continueLoop node met
  statement {i pos _ _} node step := by
    have same : (F.reading meets failed).meets i = (F.reading meets failed).meets (F.located i pos) := by
      simp only [reading, law.meetsLocated]
    refine law.rules.andThen (.located (fun failed => ?_) (step.site same)) fun _ known => law.rules.pure ?_
    · exact ⟨failed.1, by rw [failed.2.1], law.locates failed.2.2⟩
    · exact ⟨by rw [known.1], law.ofKind node known.2⟩
  apart known := ⟨known.1, law.exprApart known.2⟩
  group := by
    intro i k es es' same
    exact ⟨by rw [(diagonal same).1], law.group (diagonal same).2⟩
  literal i _ := ⟨rfl, law.exprConst i _⟩
  sink i same := ⟨by rw [same], law.exprLeaf (law.sink ..)⟩
  field := by
    rintro i k _ s _ e _ a name ⟨rfl, _⟩ ⟨rfl, known⟩ _ rfl
    cases s.world.types.field? a name with
    | none => exact .none
    | some f => exact .some ⟨rfl, law.exprLeaf (law.field f known)⟩
  cast := by
    rintro i k _ e _ a ⟨rfl, known⟩ rfl
    exact paired law.rules.same (Leaf.mkCast_calm e a) fun _ made => ⟨rfl, law.exprLeaf (law.ofCast made known)⟩
  chain := by
    rintro i k _ s es es' op ⟨rfl, _⟩ same
    obtain ⟨rfl, known⟩ := diagonal same
    exact paired law.rules.same (Leaf.mkChain_calm s.world.types op _) fun _ made =>
      ⟨rfl, law.exprLeaf (law.ofChain made known)⟩
  isInstance cls nullable known _ := ⟨by rw [known.1], law.exprLeaf (law.isInstance _ _ _ known.2)⟩
  test known := ⟨by rw [known.1], law.exprLeaf (law.test _ known.2)⟩
  inline known same := ⟨by rw [known.1, same], law.exprLeaf (law.inline _ known.2)⟩
  seq actions _ result key := ⟨by rw [actions.1, result.1, key], law.exprLeaf (law.seq _ actions.2 result.2)⟩
  known i _ b := ⟨rfl, law.known i b⟩
  truth := by
    rintro i k _ s _ e ⟨rfl, _⟩ ⟨rfl, known⟩
    exact paired law.rules.same (Cond.truth_calm s.world.types e) fun _ made => ⟨rfl, law.ofTruth made known⟩
  comparison := by
    rintro i k _ s _ l _ r op ⟨rfl, _⟩ ⟨rfl, left⟩ ⟨rfl, right⟩
    exact paired law.rules.same (Cond.comparison_calm s.world.types op l r) fun _ made =>
      ⟨rfl, law.ofComparison made left right⟩
  constant? known := by rw [known.1]
  join op left right := ⟨by rw [left.1, right.1], law.join op left.2 right.2⟩
  negate known := ⟨by rw [known.1], law.negate known.2⟩
  noParts i _ := ⟨rfl, law.noParts i⟩
  fragment node known := ⟨by rw [known.1], law.textPart (law.fragment node) known.2⟩
  line text known := ⟨by rw [known.1], law.textPart (law.oneLine text) known.2⟩
  exprPart first others := ⟨by rw [first.1, others.1], law.exprPart first.2 others.2⟩
  noActions i _ := ⟨rfl, law.noActions i⟩
  consActions first _ others := ⟨by rw [first.1, others.1], law.consActions first.2 others.2⟩
  nop i _ := ⟨rfl, law.nop i⟩
  block _ known := ⟨by rw [known.1], law.block known.2⟩
  openBlock known := ⟨by rw [known.1], law.openBlock known.2⟩
  assign left right _ := ⟨by rw [left.1, right.1], law.assign left.2 right.2⟩
  update op left right _ _ a c d := ⟨by rw [left.1, right.1, a, c, d], law.update op _ _ _ left.2 right.2⟩
  leaving _ known := known
  taken known := ⟨by rw [known.1], law.ofAction known.2⟩
  branch := by
    rintro i k _ c _ yes no no' ⟨rfl, cond⟩ ⟨rfl, taken⟩ other
    cases other with
    | none => exact ⟨rfl, law.branch cond taken nofun⟩
    | some skipped => exact ⟨by rw [skipped.1], law.branch cond taken fun a isGiven => by cases isGiven; exact skipped.2⟩
  loop _ known := ⟨by rw [known.1], law.loop known.2⟩
  enumerate _ parts _ body := ⟨by rw [parts.1, body.1], law.enumerate parts.2 body.2⟩
  write known := ⟨by rw [known.1], law.write known.2⟩

theorem deferring {P : α → Prop} {x y : Nat → Resolve (α × Expr)}
    (each : ∀ id, (F.reading meets failed).Step false i ()
      (fun _ r r' => r' = r ∧ P r.1 ∧ F.expr (F.apart i) r.2) (x id) (y id)) :
    (F.reading meets failed).Step false i () (fun _ a a' => a' = a ∧ P a) (Resolve.deferring x)
      (Resolve.deferring y) := by
  refine ⟨fun {_ s} met _ => ?_⟩
  obtain ⟨rfl, met⟩ := met
  have ends := (each s.world.deferred.length).ends ⟨rfl, law.reserve met⟩ trivial
  simp only [Resolve.deferring]
  generalize (x s.world.deferred.length).run _ = ran at ends ⊢
  generalize (y s.world.deferred.length).run _ = ran' at ends ⊢
  cases ends with
  | error failed => exact .error failed
  | ok _ inside known =>
    obtain ⟨rfl, inside⟩ := inside
    obtain ⟨rfl, here, bound⟩ := known
    exact .ok (l := ()) trivial ⟨rfl, law.bindDeferred _ inside bound⟩ ⟨rfl, here⟩

/-- The copies of arguments are parts of them, for variables with names of parameters. -/
theorem copyArgs (m : Macro) {args : Expr} (known : F.expr (F.apart i) args) :
    (F.reading meets failed).Step false i () (fun _ c c' => c' = c ∧ (∀ a ∈ c.copies, F.expr (F.apart i) a.1 ∧
        ∀ v ∈ a.2, ∃ k, v.label = m.paramName k) ∧ F.expr (F.apart i) c.output)
      (m.copyArgs args) (m.copyArgs args) := by
  refine .world fun {_ s} met => ?_
  obtain ⟨rfl, _⟩ := met
  rcases made : Cache.ofExpr args m.isValue m.paramName s.world.nextHandle with ⟨result, next⟩
  have calm : Calm (Cache.ofExpr args m.isValue m.paramName s.world.nextHandle).1 :=
    Cache.make_calm (readType_calm args) _ _
  rw [made] at calm
  refine law.rules.bind (find (P := fun _ => True) (fun met ran => ?_) nofun) fun _ _ => law.rules.ofExcept
    (paired law.rules.same calm fun copied ok => ⟨rfl, ?_⟩)
  · cases ran
    exact ⟨law.numbers _ _ met, trivial⟩
  · have kept := Piece.leaf_kept (F.leaf (F.apart i))
    subst ok
    obtain ⟨sources, outputs, _⟩ := Cache.make_parts kept (law.all.mp known) made
    have labels := Cache.make_labels (P := fun s => ∃ k, s = m.paramName k) (fun k => ⟨k, rfl⟩) made
    refine ⟨fun c member => ⟨law.all.mpr (sources c member).1, labels c member⟩, law.all.mpr ?_⟩
    exact outputs kept (fun _ here => here) fun _ _ v _ => law.var _ v

variable {nested nested' : Nested}

theorem expandBody {m : Macro} (isKnown : F.macros m) {args : Expr} (known : F.expr (F.apart i) args)
    (body : ∀ script key id, (F.reading meets failed).Step false i () (fun _ e e' => e' = e ∧ F.expr (F.apart i) e)
      (Resolve.inBody (m.bodyScope script (m.placeholder key id)) (nested m.body))
      (Resolve.inBody (m.bodyScope script (m.placeholder key id)) (nested' m.body))) :
    (F.reading meets failed).Step false i () ((F.reading meets failed).Call i) (m.expandBody nested args)
      (m.expandBody nested' args) := by
  refine (law.deferring (P := fun r => F.expr (F.apart i) r.1 ∧ ∀ a ∈ r.2, F.expr (F.apart i) a.1 ∧
    ∀ v ∈ a.2, ∃ k, v.label = m.paramName k) fun id => ?_).imp fun _ known => ?_
  · refine law.rules.bind ((law.steps nested nested').freshKey i _ 0) fun _ same => .scope fun met => ?_
    obtain ⟨rfl, _⟩ := met
    cases same
    refine law.rules.bind (body _ _ id) fun _ inside => law.rules.bind (law.copyArgs m known) fun _ here => ?_
    exact law.rules.pure ⟨by rw [inside.1, here.1], ⟨inside.2, here.2.1⟩, here.2.2⟩
  · obtain ⟨rfl, inside, copies⟩ := known
    refine ⟨rfl, fun _ => ⟨rfl, inside⟩, fun _ same => ?_⟩
    cases same
    exact ⟨rfl, law.exprLeaf (law.call _ isKnown copies inside)⟩

theorem lawful (bodies : ∀ {m}, F.macros m → ∀ i script key id,
      (F.reading meets failed).Step false i () (fun _ e e' => e' = e ∧ F.expr (F.apart i) e)
        (Resolve.inBody (m.bodyScope script (m.placeholder key id)) (nested m.body))
        (Resolve.inBody (m.bodyScope script (m.placeholder key id)) (nested' m.body))) :
    (F.reading meets failed).Lawful nested nested' where
  toSteps := law.steps nested nested'
  calls {i name args k} _ each := by
    have steps := law.steps nested nested'
    refine law.rules.bind ((Meaning.grouped_reads steps each).site (steps.meetsApart i).symm) fun _ known => ?_
    refine .world fun {_ s} met => ?_
    obtain ⟨rfl, met⟩ := met
    obtain ⟨rfl, known⟩ := known
    refine law.rules.except (A := fun m m' => m' = m ∧ F.macros m) (paired law.rules.same
      (s.world.findMacro_calm name _) fun m found => ⟨rfl, law.macros met m ?_⟩) fun {m _} same => ?_
    · unfold World.findMacro at found
      split at found
      · next first =>
        cases found
        exact List.mem_of_find?_eq_some first
      · cases found
    · obtain ⟨rfl, isKnown⟩ := same
      exact Macro.expand_reads steps ⟨rfl, known⟩ (fun _ _ => rfl) fun _ =>
        law.expandBody isKnown known (bodies isKnown i)

end Facts.Kept

end

end AgentScript
