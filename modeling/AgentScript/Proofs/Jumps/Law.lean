import AgentScript.Proofs.Jumps.Aimed
import AgentScript.Proofs.Likeness.Generate

/-! Relations that hold between the two ways to write a script: the one that looks up where jumps lead,
and the one that is told. They are shown once, for every relation that respects how routines are put
together. Where loops have no part in it, such a relation is one between codes that are alike. -/
namespace AgentScript

def Instr.isPlain : Instr → Bool
  | goto _ | subr _ => false
  | _ => true

def Op.isPlain : Op → Bool
  | code _ i _ => i.isPlain
  | label => false
  | _ => true

theorem storeInstr_plain (made : storeInstr types exact target input = .ok i) :
    i.isPlain = true := by
  unfold storeInstr at made
  split at made <;> cases made <;> rfl

theorem Instr.isPlain_of_straight {i : Instr} (straight : i.isStraight = true) : i.isPlain = true := by
  cases i <;> simp_all [isStraight, isPlain]

theorem ChainOp.lines_plain (types : Registry) (op : ChainOp) (lt rt : TypeId) (target operand : Arg) :
    ∀ i ∈ op.lines types lt rt target operand, i.isPlain = true :=
  fun i member => i.isPlain_of_straight (op.lines_straight types lt rt target operand i member)

/-- Relations between two routines at a place, one of which is told where jumps lead. -/
abbrev Emit.Relation := Place → Option LoopTarget → {α : Type} → Emit α → Emit α → Prop

/-- What a relation respects that holds between the two ways to write a script. -/
structure Emit.JumpLaw (R : Emit.Relation) : Prop where
  pure : ∀ {p t α} (a : α), R p t (Pure.pure a) (Pure.pure a)
  refuse : ∀ {p t α c}, c.isJump = false → R p t (Emit.refuse c : Emit α) (Emit.refuse c)
  bind : ∀ {p t α β} {x y : Emit α} {f g : α → Emit β}, R p t x y → (∀ a, R p t (f a) (g a)) →
    R p t (x >>= f) (y >>= g)
  look : ∀ {p t α} {f g : Ctx → Emit α}, (∀ s, R p t (f s) (g s)) → R p t (.look f) (.look g)
  perform : ∀ {p t op}, op.isPlain = true → R p t (Emit.perform op) (Emit.perform op)
  located : ∀ {p t α pos} {x y : Emit α}, R p t x y → R p t (x.located pos) (y.located pos)
  inScope : ∀ {p t x y}, R p t x y → R p t (Emit.inScope x) (Emit.inScope y)
  outsideLoops : ∀ {p t t' x y}, R p.apart t' x y →
    R p t (Emit.outsideLoops x) (Emit.outsideLoops y)
  /-- Code without jumps to the loops around it may stand anywhere. -/
  apart : ∀ {p t t' α} {x y : Emit α}, R p.apart t' x y → R p t x y
  breakLoop : ∀ {p t}, p ≠ .outside → R p t Action.breakLoop (Action.breakTo t)
  continueLoop : ∀ {p t}, p ≠ .outside → R p t Action.continueLoop (Action.continueTo t)
  loop : ∀ {p t x pos} {y : LoopTarget → Emit Unit}, (∀ inner, R (p.body pos) (some inner) x (y inner)) →
    R p t (Action.loop x) (Action.loopTo y)
  enumerate : ∀ {p t x env a b pos} {y : LoopTarget → Emit Unit},
    R p t (PartCode.render env a) (PartCode.render env b) →
    (∀ inner, R (p.body pos) (some inner) x (y inner)) →
    R p t (Action.enumerate env a x) (Action.enumerateTo env b y)

/-- All is the same, and nothing fails because of a jump. -/
def Correspondence.calm : Correspondence :=
  { Correspondence.same with causes := fun c d => c = d ∧ c.isJump = false }

theorem Ctx.matches_calm (s : Ctx) : s.Matches .calm s := by
  refine ⟨List.forall₂_same.mpr fun _ _ => ⟨rfl, rfl⟩, ?_, fun _ => rfl, fun _ => rfl⟩
  cases s.loop with
  | none => exact .none
  | some target => exact .some ⟨rfl, rfl, rfl⟩

namespace Emit.JumpLaw
variable {R : Emit.Relation} {p : Place} {t t' : Option LoopTarget} (law : JumpLaw R)
include law

theorem retarget {x y : Emit α} (related : R p.apart t x y) : R p.apart t' x y :=
  law.apart (by simpa using related)

theorem remarks {P : String → Prop} {x y : Emit Unit} (both : Remarks .calm P x y) : R p t x y := by
  induction both with
  | comment _ _ same =>
    cases same
    exact law.perform rfl
  | @asked _ A q q' f g asks _ ih =>
    refine law.look fun s => ?_
    have answers := asks.answers s.matches_calm
    change R p t (Emit.ofExcept (q s) >>= f) (Emit.ofExcept (q' s) >>= g)
    generalize q s = a at answers ⊢
    generalize q' s = b at answers ⊢
    cases answers with
    | error cause =>
      cases cause.1.1
      exact law.refuse cause.1.2
    | ok answer =>
      cases answer.1
      exact ih _ answer.2

theorem straight (env : Env) (p : Place) (t : Option LoopTarget) :
    Straight .calm env env (fun _ => True) (R p t) where
  toSuits := .ofSame rfl (fun _ => trivial) (fun _ => trivial) (fun _ _ => trivial) fun other => ⟨rfl, other⟩
  pure := law.pure
  refuse := by
    rintro _ _ _ ⟨rfl, other⟩
    exact law.refuse other
  bind := law.bind
  look next := law.look fun s => next s s s.matches_calm
  handles := by
    intro a b same
    obtain rfl : a = b := same 0
    exact law.perform rfl
  register := by
    rintro a _ rfl
    refine law.look fun s => ?_
    dsimp only [Emit.andThen]
    split
    · exact law.refuse rfl
    · exact law.bind (law.perform rfl) fun _ => law.pure _
  line straight := law.perform (Instr.isPlain_of_straight straight)
  varNote both := by
    unfold shown
    split
    · exact law.remarks both
    · exact law.pure ()
  placeNote _ _ _ := by
    unfold shown
    split
    · exact law.perform rfl
    · exact law.pure ()
  located _ _ _ _ := law.located
  inScope := law.inScope
  guarded _ _ _ _ _ yes no := by
    cases no with
    | none => exact law.bind (law.perform rfl) fun _ => law.bind yes fun _ => law.perform rfl
    | some no =>
      exact law.bind (law.perform rfl) fun _ => law.bind yes fun _ => law.bind (law.perform rfl) fun _ =>
        law.bind no fun _ => law.perform rfl

/-- Slots that a value is written to, and placeholders, are those of code that may stand anywhere. -/
theorem placed (env : Env) (p : Place) (t : Option LoopTarget) :
    Law .calm env env (fun _ => True) (R p.apart none) (R p t) where
  toStraight := law.straight env p t
  outer := law.straight env p.apart none
  lift := law.apart
  outsideLoops := law.outsideLoops
  outerLoops {x y} related := by
    have inner : R p.apart.apart none x y := by simpa using related
    exact law.outsideLoops inner

end Emit.JumpLaw

end AgentScript
