import AgentScript.Proofs.Resolution.Facts
import AgentScript.Proofs.Safety.Resolution
import AgentScript.Proofs.Types.Reachable

/-! Invariants of resolution: what is true of types, of macros, and of all that names and placeholders
are bound to. An invariant that is kept by each step is a reading of its own. -/
namespace AgentScript

theorem Scope.bind_breakable (scope : Scope) (name : String) (e : Expr) :
    (scope.bind name e).breakable = scope.breakable := by
  obtain ⟨script, frames⟩ := scope
  cases frames <;> rfl

theorem Macro.bodyScope_breakable (m : Macro) (script : ScriptTypes) (leaf : Leaf) :
    (m.bodyScope script leaf).breakable = false := by
  have bound (params : List MacroParam) (i : Nat) (scope : Scope) :
      (bindParams leaf i params scope).breakable = scope.breakable := by
    induction params generalizing i scope with
    | nil => rfl
    | cons p rest ih => exact (ih (i + 1) _).trans (Scope.bind_breakable ..)
  exact bound m.params 0 _

/-- Facts that are true of a state, and of the causes that steps fail for. -/
structure Invariant (ι : Type) extends Facts ι where
  bound : Expr → Prop
  refused : Cause → Prop
  /-- Whether jumps are accepted at a site. -/
  breakable : ι → Bool
  /-- The site of a whole script or macro body. -/
  root : ι

structure World.Meets (I : Invariant ι) (w : World) : Prop where
  /-- Types that were given names have texts as names. -/
  types : w.types.ReachableBy (Registry.Operation.Names I.text)
  deferred : ∀ e, some e ∈ w.deferred → I.bound e
  macros : ∀ m ∈ w.macros, I.macros m

structure Resolving.Meets (I : Invariant ι) (b : Bool) (s : Resolving) : Prop where
  world : s.world.Meets I
  bindings : s.scope.Binds fun _ => I.bound
  breakable : s.scope.breakable = b

section
variable {I : Invariant ι}

/-- A step on a world that upholds an invariant, with what is known of its answer. -/
structure WorldM.Upholds (I : Invariant ι) (x : WorldM α) (post : α → Prop) : Prop where
  found : ∀ {w a v}, w.Meets I → x.run w = (.ok a, v) → v.Meets I ∧ post a
  refused : ∀ {w f v}, w.Meets I → x.run w = (.error f, v) → v.Meets I ∧ I.refused f.cause

namespace WorldM.Upholds
variable {x : WorldM α} {P post : α → Prop}

theorem bind {f : α → WorldM β} {Q : β → Prop} (first : Upholds I x P) (next : ∀ a, P a → Upholds I (f a) Q) :
    Upholds I (x >>= f) Q := by
  refine ⟨fun meets ran => ?_, fun meets ran => ?_⟩ <;> rw [run_bind] at ran <;> split at ran
  · next a u here =>
    obtain ⟨after, post⟩ := first.found meets here
    exact (next a post).found after ran
  · cases ran
  · next a u here =>
    obtain ⟨after, post⟩ := first.found meets here
    exact (next a post).refused after ran
  · next here =>
    cases ran
    exact first.refused meets here

theorem imp {Q : α → Prop} (upholds : Upholds I x P) (weaker : ∀ a, P a → Q a) : Upholds I x Q :=
  ⟨fun meets ran => (upholds.found meets ran).imp_right (weaker _), upholds.refused⟩

theorem pure (here : post a) : Upholds I (Pure.pure a) post := by
  refine ⟨fun meets ran => ?_, fun _ ran => ?_⟩ <;> cases ran
  exact ⟨meets, here⟩

theorem fail {cause : Cause} (refused : I.refused cause) : Upholds I (WorldM.fail cause) post := by
  refine ⟨fun _ ran => ?_, fun meets ran => ?_⟩ <;> cases ran
  exact ⟨meets, refused⟩

theorem ofExcept {e : Except Cause α} (refused : ∀ c, e = .error c → I.refused c) :
    Upholds I (WorldM.ofExcept e) fun a => e = .ok a := by
  cases e with
  | ok a => exact pure rfl
  | error c => exact fail (refused c rfl)

theorem ofType {e : Except TypeError α} (refused : ∀ e, I.refused (.type e)) :
    Upholds I (WorldM.ofType e) fun a => e = .ok a := by
  cases e with
  | ok a => exact pure rfl
  | error c => exact fail (refused c)

theorem current : Upholds I WorldM.current (World.Meets I) := by
  refine ⟨fun meets ran => ?_, fun _ ran => ?_⟩ <;> cases ran
  exact ⟨meets, meets⟩

theorem setTypes {types : Registry} (holds : types.ReachableBy (Registry.Operation.Names I.text)) :
    Upholds I (WorldM.setTypes types) fun _ => True := by
  refine ⟨fun meets ran => ?_, fun _ ran => ?_⟩ <;> cases ran
  exact ⟨⟨holds, meets.deferred, meets.macros⟩, trivial⟩

theorem inTypes {x : TypeM α} (refused : ∀ e, I.refused (.type e))
    (keeps : ∀ {P r}, Registry.Stable P → P r → P (x.run r).2) : Upholds I (WorldM.inTypes x) fun _ => True :=
  current.bind fun _ meets => (setTypes (keeps Registry.ReachableBy.stable meets.types)).bind fun _ _ =>
    (ofType refused).imp fun _ _ => trivial

theorem located (pos : Position) (upholds : Upholds I x post) : Upholds I (x.located pos) post := by
  refine ⟨fun meets ran => ?_, fun meets ran => ?_⟩ <;> obtain ⟨result, rfl⟩ := Prod.mk.inj ran
  · exact upholds.found meets (Prod.ext (mapError_ok result) rfl)
  · obtain ⟨g, failed, same⟩ := locate_error result
    rw [same]
    exact upholds.refused meets (Prod.ext failed rfl)

end WorldM.Upholds

end

theorem Meaning.nonNullable_keeps (ty : TypeId) {P : Registry → Prop} {r : Registry} (stable : Registry.Stable P)
    (holds : P r) : P ((nonNullable ty).run r).2 := by
  have current : (get : TypeM Registry).run r = (.ok r, r) := rfl
  unfold nonNullable
  rw [TypeM.run_bind, current]
  dsimp only
  split
  · next made =>
    obtain ⟨types, inside, same⟩ := Registry.byNonNullable_cases (stable.sound holds) made
    obtain ⟨-, rfl⟩ := Prod.mk.inj same
    exact stable.byUnion holds inside
  · exact holds

structure Invariant.Lawful (I : Invariant ι) : Prop extends I.toFacts.Lawful where
  bound : I.bound e ↔ I.expr (I.apart i) e
  refused : ∀ {c : Cause}, c.isPlace = false → I.refused c
  tooDeep : ∀ n, I.refused (.macroDepth n)
  action : I.node i (.statement (.mk pos kind)) → I.kind (I.located i pos) k → I.action i (.mk pos k)
  breakLoop : I.node i (.kind .breakLoop) →
    if I.breakable i then I.kind i .breakLoop else I.refused .cannotBreak
  continueLoop : I.node i (.kind .continueLoop) →
    if I.breakable i then I.kind i .continueLoop else I.refused .cannotContinue
  ofMacro : I.macros m → I.node I.root (.term m.body)
  ofRoot : I.expr I.root e → I.bound e
  breakableRoot : I.breakable I.root = false
  breakableApart : ∀ i, I.breakable (I.apart i) = I.breakable i
  breakableLocated : ∀ i pos, I.breakable (I.located i pos) = I.breakable i
  breakableAlone : ∀ i, I.breakable (I.alone i) = I.breakable i
  breakableParams : ∀ i, I.breakable (I.params i) = true
  breakableBody : ∀ i, I.breakable (I.body i) = true
  breakableInside : ∀ i, I.breakable (I.inside i) = I.breakable i

def Invariant.meets (I : Invariant ι) (i : ι) (s : Resolving) : Prop := s.Meets I (I.breakable i)

def Invariant.failed (I : Invariant ι) (s : Resolving) (f : Failure) : Prop :=
  s.world.Meets I ∧ I.refused f.cause

abbrev Invariant.reading (I : Invariant ι) : Reading ι Unit := I.toFacts.reading I.meets I.failed

namespace Invariant.Lawful
variable {I : Invariant ι} (law : I.Lawful) {nested : Nested}
include law

theorem rootScope (script : ScriptTypes) : (Scope.root script).Binds fun _ => I.bound := by
  have builtin {s : String} (text : Text.OneLine s) (ty : TypeId) (writable : Bool) (role : Role) :
      I.bound (Expr.leaf (.builtin s ty writable role)) :=
    law.bound.mpr (law.exprLeaf (i := I.apart I.root) (law.builtin _ ty writable role (law.oneLine text)))
  refine .root fun b member => ?_
  simp only [Scope.builtins, List.mem_cons, List.not_mem_nil, or_false] at member
  rcases member with rfl | rfl | rfl | rfl | rfl | rfl | rfl | rfl <;> first
    | exact builtin (by decide) ..
    | exact law.bound.mpr (law.exprLeaf (i := I.apart I.root) (law.sink _ 0 1 _))

theorem bodyScope (m : Macro) (script : ScriptTypes) (key id : Nat) :
    (m.bodyScope script (m.placeholder key id)).Binds fun _ => I.bound := by
  refine (law.rootScope script).params fun _ k _ => law.bound (i := I.root).mpr (law.all.mpr ?_)
  refine List.forall_mem_singleton.mpr ?_
  rw [Piece.run_leaf]
  exact law.deferred _ key id _

theorem types : ∀ e, I.refused (.type e) := fun _ => law.refused rfl

omit law in
theorem meets_eq {i j : ι} (same : I.breakable j = I.breakable i) : I.meets j = I.meets i := by
  funext s
  rw [Invariant.meets, Invariant.meets, same]

omit law in
theorem bind {b : Bool} {s : Resolving} {e : Expr} (bound : I.bound e) (name : String) (meets : s.Meets I b) :
    Resolving.Meets I b { s with scope := s.scope.bind name e } :=
  ⟨meets.world, meets.bindings.bind bound, (Scope.bind_breakable ..).trans meets.breakable⟩

theorem kept : I.toFacts.Kept I.meets I.failed where
  toLawful := law.toLawful
  refused meets other := ⟨meets.world, law.refused other⟩
  leaves failed := failed
  locates failed := ⟨failed.1, (Failure.locate_cause ..).symm ▸ failed.2⟩
  meetsApart i := meets_eq (law.breakableApart i)
  meetsLocated i pos := meets_eq (law.breakableLocated i pos)
  meetsAlone i := meets_eq (law.breakableAlone i)
  meetsParams i := meets_eq ((law.breakableParams i).trans (law.breakableBody i).symm)
  typeRef t meets :=
    ⟨{ meets.world with types := (t.resolve_makes Registry.ReachableBy.stable meets.world.types).kept }, meets.bindings, meets.breakable⟩
  nonNullable t meets :=
    ⟨{ meets.world with types := Meaning.nonNullable_keeps t Registry.ReachableBy.stable meets.world.types }, meets.bindings,
      meets.breakable⟩
  numbers _ _ meets := { meets with world := { meets.world with } }
  lookup meets found := law.bound.mp (meets.bindings.lookup found)
  bindVar v _ _ meets := bind (law.bound (i := I.root).mpr (law.exprLeaf (law.var _ v))) _ meets
  bindTarget _ _ _ meets := bind (law.bound (i := I.root).mpr (law.exprLeaf (law.target _ _))) _ meets
  bindSynonym _ known meets := bind (law.bound.mpr known) _ meets
  enter meets := ⟨meets.world, meets.bindings.push rfl, meets.breakable.trans (law.breakableInside _).symm⟩
  enterLoop meets := ⟨meets.world, meets.bindings.push rfl, (law.breakableBody _).symm⟩
  exit meets inside := ⟨inside.world, meets.bindings, meets.breakable⟩
  exitLoop meets inside := ⟨inside.world, meets.bindings, meets.breakable⟩
  macros meets := meets.world.macros
  reserve meets := by
    refine ⟨⟨meets.world.types, fun e member => ?_, meets.world.macros⟩, meets.bindings, meets.breakable⟩
    rcases List.mem_append.mp member with old | new
    · exact meets.world.deferred e old
    · cases List.mem_singleton.mp new
  bindDeferred id meets known := by
    refine ⟨⟨meets.world.types, fun e member => ?_, meets.world.macros⟩, meets.bindings, meets.breakable⟩
    rcases List.mem_or_eq_of_mem_set member with old | new
    · exact meets.world.deferred e old
    · cases new
      exact law.bound.mpr known
  breakLoop node meets := by
    have known := law.breakLoop node
    rw [← meets.breakable] at known
    split at known <;> simp_all [Invariant.failed, meets.world, Failure.of]
  continueLoop node meets := by
    have known := law.continueLoop node
    rw [← meets.breakable] at known
    split at known <;> simp_all [Invariant.failed, meets.world, Failure.of]
  ofKind := law.action

theorem inBody {scope : Scope} {x : Resolve Expr}
    (step : I.reading.Step false I.root () (I.reading.expr I.root) x x) (breakable : scope.breakable = false)
    (bindings : scope.Binds fun _ => I.bound) (i : ι) :
    I.reading.Step false i () (fun _ e e' => e' = e ∧ I.expr (I.apart i) e) (Resolve.inBody scope x)
      (Resolve.inBody scope x) := by
  have entered {s : Resolving} (meets : I.meets i s) :
      I.meets I.root ⟨{ s.world with depth := s.world.depth + 1 }, scope⟩ :=
    ⟨{ meets.world with }, bindings, breakable.trans law.breakableRoot.symm⟩
  refine Facts.Kept.find (fun meets ran => ?_) fun meets ran => ?_
  · obtain ⟨u, here, rfl⟩ := Resolve.inBody_ok ran
    obtain ⟨inside, known⟩ := (Facts.Kept.found step (entered meets)).2.1 here
    exact ⟨⟨{ inside.world with }, meets.bindings, meets.breakable⟩, law.bound.mp (law.ofRoot known)⟩
  · rcases Resolve.inBody_error ran with ⟨rfl, rfl⟩ | ⟨u, here, rfl⟩
    · exact ⟨meets.world, law.tooDeep _⟩
    · obtain ⟨inside, refused⟩ := (Facts.Kept.found step (entered meets)).2.2 here
      exact ⟨{ inside with }, refused⟩

theorem expands (bodies : ∀ m, I.macros m → I.reading.Step false I.root () (I.reading.expr I.root) (nested m.body)
      (nested m.body)) : I.reading.Lawful nested nested :=
  law.kept.lawful fun {m} isKnown i script key id =>
    law.inBody (bodies m isKnown) (m.bodyScope_breakable ..) (law.bodyScope m script key id) i

theorem nestedCalls (levels : Nat) (m : Macro) (isKnown : I.macros m) :
    I.reading.Step false I.root () (I.reading.expr I.root) (AgentScript.nestedCalls levels m.body)
      (AgentScript.nestedCalls levels m.body) := by
  induction levels generalizing m with
  | zero =>
    refine Facts.Kept.find nofun fun meets ran => ?_
    cases ran
    exact ⟨meets.world, law.tooDeep _⟩
  | succ levels ih => exact (Term.meaning_reads (law.expands ih) m.body (law.ofMacro isKnown)).value

/-- An invariant that follows the rules is a lawful reading. -/
theorem lawful (levels : Nat) :
    I.reading.Lawful (AgentScript.nestedCalls levels) (AgentScript.nestedCalls levels) :=
  law.expands (law.nestedCalls levels)

end Invariant.Lawful

theorem WorldM.Upholds.inScope {I : Invariant ι} {i : ι} {x : Resolve α} {post : α → Prop} {scope : Scope}
    (step : I.reading.Step b i () (fun _ a a' => a' = a ∧ post a) x x) (bindings : scope.Binds fun _ => I.bound)
    (breakable : scope.breakable = I.breakable i) : Upholds I (Resolve.inScope scope x) post := by
  refine ⟨fun meets ran => ?_, fun meets ran => ?_⟩ <;> obtain ⟨result, rfl⟩ := Prod.mk.inj ran
  · obtain ⟨after, post⟩ := (Facts.Kept.found step ⟨meets, bindings, breakable⟩).2.1 (Prod.ext result rfl)
    exact ⟨after.world, post⟩
  · exact (Facts.Kept.found step ⟨meets, bindings, breakable⟩).2.2 (Prod.ext result rfl)

end AgentScript
