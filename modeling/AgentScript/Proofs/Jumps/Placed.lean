import AgentScript.Proofs.Jumps.Generate
import AgentScript.Proofs.Resolution.Units

/-! Where jumps are written in a source tree. `Term.placed` and `Statement.placed` ask that jumps stand
in the bodies of loops and that no jump stands in an expression that is written elsewhere than where it
is read: the argument of a macro, what a name is made to stand for, and the target of an assignment.
Resolution then leads to trees in which the same jumps stand in the same loops. -/
namespace AgentScript

/-- What is known of a place in a source tree. -/
inductive Spot where
  /-- No jump may be written here. -/
  | barred
  /-- No loop of the script or macro body is around; a jump is refused when it is resolved. -/
  | outer
  /-- The innermost loop around is known by some positions. -/
  | loop (known : List Position)

namespace Spot

/-- Whether a jump that is known by some positions may be written here. -/
def takes (J : Position → Position → Bool) (jump : List Position) : Spot → Bool
  | barred => false
  | outer => true
  | loop known => jump.all fun pos => known.all (J pos)

/-- The parameters of an enumeration are resolved as if a loop were around. -/
def params : Spot → Spot
  | outer => barred
  | spot => spot

end Spot

mutual
/-- Whether the jumps in a term are written where they may, those in the bodies of loops being related to
their loop by `J`. -/
def Term.placed (J : Position → Position → Bool) (spot : Spot) : Term → Bool
  | .int _ | .float _ | .str _ | .bytes _ | .id _ | .messageId .. => true
  | .group items | .chain _ items => termsPlaced J spot items
  | .call _ args => termsPlaced J .barred args
  | .field base _ | .cast base _ | .denull base | .isInstance base _ | .not base =>
    Term.placed J spot base
  | .compare _ left right | .logic _ left right =>
    Term.placed J spot left && Term.placed J spot right
  | .inline parts _ => fragmentsPlaced J spot parts
  | .seq body result => bodyPlaced J spot body && Term.placed J spot result
def termsPlaced (J : Position → Position → Bool) (spot : Spot) : List Term → Bool
  | [] => true
  | t :: rest => Term.placed J spot t && termsPlaced J spot rest
def termPlaced? (J : Position → Position → Bool) (spot : Spot) : Option Term → Bool
  | none => true
  | some t => Term.placed J spot t
def Fragment.placed (J : Position → Position → Bool) (spot : Spot) : Fragment → Bool
  | .text _ => true
  | .term t => Term.placed J spot t
def fragmentsPlaced (J : Position → Position → Bool) (spot : Spot) : List Fragment → Bool
  | [] => true
  | f :: rest => Fragment.placed J spot f && fragmentsPlaced J spot rest
def Selector.placed (J : Position → Position → Bool) (spot : Spot) : Selector → Bool
  | .name _ => true
  | .number t => Term.placed J spot t
/-- The arms of a branch may take its place, so that they are known by its positions as well. -/
def Statement.placed (J : Position → Position → Bool) (spot : Spot) (also : List Position) :
    Statement → Bool
  | .mk pos kind => StatementKind.placed J spot (pos :: also) kind
def bodyPlaced (J : Position → Position → Bool) (spot : Spot) : List Statement → Bool
  | [] => true
  | s :: rest => Statement.placed J spot [] s && bodyPlaced J spot rest
def statementPlaced? (J : Position → Position → Bool) (spot : Spot) (also : List Position) :
    Option Statement → Bool
  | none => true
  | some s => Statement.placed J spot also s
def StatementKind.placed (J : Position → Position → Bool) (spot : Spot) (known : List Position) :
    StatementKind → Bool
  | .block body _ => bodyPlaced J spot body
  | .declare _ _ init => termPlaced? J spot init
  | .assign targets source => termPlaced? J .barred targets && Term.placed J spot source
  | .update _ target source => Term.placed J spot target && Term.placed J spot source
  | .synonym _ target => Term.placed J .barred target
  | .branch cond yes no =>
    Term.placed J spot cond && Statement.placed J spot known yes && statementPlaced? J spot known no
  | .loop body => Statement.placed J (.loop known) [] body
  | .breakLoop | .continueLoop => spot.takes J known
  | .enumerate _ _ params body =>
    termsPlaced J spot.params params && Statement.placed J (.loop known) [] body
  | .inline parts => fragmentsPlaced J spot parts
  | .send agent message params delay =>
    Term.placed J spot agent && Selector.placed J spot message && termsPlaced J spot params &&
      termPlaced? J spot delay
  | .call script params => Selector.placed J spot script && termsPlaced J spot params
end

section
variable {J : Position → Position → Bool} {strict b : Bool} {p : Place} {known : List Position}

namespace Spot

/-- The spot of a whole script or macro body. A strict reading bars jumps that would be refused. -/
def root (strict : Bool) : Spot := if strict then .barred else .outer

/-- Whether jumps are accepted by the scope of a spot. In a strict reading no spot is outside of loops
without being barred. -/
def Admits (strict b : Bool) : Spot → Prop
  | barred => True
  | outer => strict = false ∧ b = false
  | loop _ => b = true

/-- The place of code that is written at a spot. -/
def Means (p : Place) : Spot → Prop
  | loop known => ∃ pos ∈ known, p = .inside pos
  | _ => p = .outside

theorem root_admits (strict : Bool) : (root strict).Admits strict false := by
  cases strict
  · exact ⟨rfl, rfl⟩
  · trivial

theorem root_means (strict : Bool) : (root strict).Means .outside := by cases strict <;> rfl

variable {spot : Spot}

theorem Means.apart (means : spot.Means p) : p.apart = .outside := by
  cases spot with
  | barred | outer =>
    cases means
    rfl
  | loop known =>
    obtain ⟨pos, _, rfl⟩ := means
    rfl

theorem Means.loop (means : spot.Means p) (isKnown : pos ∈ known) :
    (Spot.loop known).Means (p.body pos) := by
  rw [← Place.apart_body, means.apart]
  exact ⟨pos, isKnown, rfl⟩

theorem Means.params (means : spot.Means p) : spot.params.Means p := by
  cases spot <;> exact means

/-- Parameters of an enumeration are resolved in the frame of its loop. -/
theorem Admits.params (admits : spot.Admits strict b) : spot.params.Admits strict true := by
  cases spot with
  | barred | outer => trivial
  | loop known => rfl

/-- A jump is accepted in the body of a loop, and refused where it may be written outside of loops. -/
theorem takes_cases (admits : spot.Admits strict b) (placed : spot.takes J known = true) :
    if b then ∀ p, spot.Means p → ∀ pos ∈ known, p.takes J pos = true else strict = false := by
  cases spot with
  | barred => cases placed
  | outer =>
    obtain ⟨free, rfl⟩ := admits
    exact free
  | loop loops =>
    cases show b = true from admits
    rintro _ ⟨loop, isLoop, rfl⟩ pos isKnown
    exact List.all_eq_true.mp (List.all_eq_true.mp placed pos isKnown) loop isLoop

end Spot

theorem exprFits_all {e : Expr} :
    exprFits J p e = true ↔ Slices.All (fun q => q.leaf.fits J p = true) e := by
  induction e with
  | nil => simp [exprFits, Slices.All]
  | cons q rest ih =>
    rw [exprFits, Bool.and_eq_true, ih, Slices.all_cons]
    cases q <;> rw [pieceFits] <;> rfl

theorem operandsFit_of {tail : List Operand}
    (each : ∀ e ty after, .mk e ty after ∈ tail → exprFits J p e = true) : operandsFit J p tail = true := by
  induction tail with
  | nil => rw [operandsFit]
  | cons o rest ih =>
    obtain ⟨e, ty, after⟩ := o
    rw [operandsFit, operandFits, Bool.and_eq_true]
    exact ⟨each e ty after List.mem_cons_self,
      ih fun e ty after later => each e ty after (List.mem_cons_of_mem _ later)⟩

theorem copiesFit_of {copies : List (Expr × List LocalVar)}
    (each : ∀ c ∈ copies, exprFits J p c.1 = true) : copiesFit J p (copies.map fun c => .mk c.1 c.2) = true := by
  induction copies with
  | nil => rw [List.map_nil, copiesFit]
  | cons c rest ih =>
    obtain ⟨first, others⟩ := List.forall_mem_cons.mp each
    rw [List.map_cons, copiesFit, copyFits, Bool.and_eq_true]
    exact ⟨first, ih others⟩

def Node.placed (J : Position → Position → Bool) (spot : Spot) (known : List Position) : Node → Bool
  | .term t => t.placed J spot
  | .terms ts => termsPlaced J spot ts
  | .term? t => termPlaced? J spot t
  | .fragments fs => fragmentsPlaced J spot fs
  | .selector s => s.placed J spot
  | .statement s => s.placed J spot known
  | .body ss => bodyPlaced J spot ss
  | .statement? s => statementPlaced? J spot known s
  | .kind k => k.placed J spot known

/-- A spot in a scope where jumps are accepted if `accepts` holds, and the positions that a statement
there is known by. -/
structure Site where
  spot : Spot
  accepts : Bool
  known : List Position

end

/-- Jumps stand in the bodies of the loops that they stand in as a source tree. In a strict reading none
is refused. -/
def jumpsPlaced (J : Position → Position → Bool) (strict : Bool) : Invariant Site where
  node i n := i.spot.Admits strict i.accepts ∧ n.placed J i.spot i.known = true
  text _ := True
  macros m := m.body.placed J (.root strict) = true
  expr i e := ∀ p, i.spot.Means p → exprFits J p e = true
  leaf i leaf := ∀ p, i.spot.Means p → leaf.fits J p = true
  cond i c := ∀ p, i.spot.Means p → c.fits J p = true
  parts i ps := ∀ p, i.spot.Means p → partsFit J p ps = true
  action i a := ∀ p, i.spot.Means p → a.fits J p = true ∧ ∀ pos ∈ i.known, a.kind.fits J p pos = true
  actions i as := ∀ p, i.spot.Means p → actionsFit J p as = true
  kind i k := ∀ p, i.spot.Means p → ∀ pos ∈ i.known, k.fits J p pos = true
  apart i := ⟨.barred, i.accepts, []⟩
  located i pos := { i with known := pos :: i.known }
  alone i := { i with known := [] }
  params i := ⟨i.spot.params, true, []⟩
  body i := ⟨.loop i.known, true, []⟩
  inside := id
  bound e := exprFits J .outside e = true
  refused cause := strict = true → cause.isJump = false
  breakable := Site.accepts
  root := ⟨.root strict, false, []⟩

section
variable {J : Position → Position → Bool} {strict : Bool}

theorem jumpsPlaced_inner {i j : Site} {n m : Node} (placed : (jumpsPlaced J strict).node i n)
    (inner : Node.Inner (jumpsPlaced J strict).toSites i n j m) : (jumpsPlaced J strict).node j m := by
  obtain ⟨admits, placed⟩ := placed
  cases inner with
  | args =>
    refine ⟨trivial, ?_⟩
    rwa [Node.placed, Term.placed] at placed
  | targets =>
    rw [Node.placed, StatementKind.placed, Bool.and_eq_true] at placed
    exact ⟨trivial, placed.1⟩
  | synonym =>
    refine ⟨trivial, ?_⟩
    rwa [Node.placed, StatementKind.placed] at placed
  | loop =>
    refine ⟨rfl, ?_⟩
    rwa [Node.placed, StatementKind.placed] at placed
  | params =>
    rw [Node.placed, StatementKind.placed, Bool.and_eq_true] at placed
    exact ⟨admits.params, placed.1⟩
  | enumerated =>
    rw [Node.placed, StatementKind.placed, Bool.and_eq_true] at placed
    exact ⟨rfl, placed.2⟩
  | _ =>
    refine ⟨admits, ?_⟩
    simp_all [jumpsPlaced, Node.placed, Term.placed, termsPlaced, termPlaced?, Fragment.placed,
      fragmentsPlaced, Selector.placed, Statement.placed, bodyPlaced, statementPlaced?, StatementKind.placed]

theorem jumpsPlaced_facts : (jumpsPlaced J strict).toFacts.Lawful where
  inner := jumpsPlaced_inner
  all := by
    refine ⟨fun fits q member p means => exprFits_all.mp (fits p means) q member, fun each p means => ?_⟩
    exact exprFits_all.mpr fun q member => each q member p means
  apart {_ one} fits p means := one.fits_wider (.inr (means.apart ▸ fits _ rfl))
  oneLine _ := trivial
  fragment _ := trivial
  const _ _ _ _ := by rw [Leaf.fits]
  var _ _ _ _ := by rw [LocalVar.leaf, Leaf.fits]
  builtin _ _ _ _ _ _ _ := by rw [Leaf.fits]
  sink _ _ _ _ _ _ := by rw [Leaf.fits]
  deferred _ _ _ _ _ _ := by rw [Leaf.fits]
  field _ fits p means := by
    rw [Leaf.fits]
    exact fits p means
  cast _ fits p means := by
    rw [Leaf.fits]
    exact fits p means
  isInstance _ _ _ fits p means := by
    rw [Leaf.fits]
    exact fits p means
  chain _ _ fits each p means := by
    rw [Leaf.fits, Bool.and_eq_true]
    exact ⟨fits p means, operandsFit_of fun e ty after member => each e ty after member p means⟩
  test _ fits p means := by
    rw [Leaf.fits]
    exact fits p means
  inline _ fits p means := by
    rw [Leaf.fits]
    exact fits p means
  seq _ first second p means := by
    rw [Leaf.fits, Bool.and_eq_true]
    exact ⟨first p means, second p means⟩
  call _ _ each body p means := by
    cases show p = .outside from means
    rw [Leaf.fits, Bool.and_eq_true]
    exact ⟨copiesFit_of fun c member => (each c member).1 _ rfl, body _ rfl⟩
  known _ _ _ _ := by rw [Cond.fits]
  compare _ left right p means := by
    rw [Cond.fits, Bool.and_eq_true]
    exact ⟨left p means, right p means⟩
  logic _ left right p means := by
    rw [Cond.fits, Bool.and_eq_true]
    exact ⟨left p means, right p means⟩
  not := by simp [jumpsPlaced, Cond.fits]
  noParts _ _ _ := by rw [partsFit]
  textPart _ others p means := by
    rw [partsFit, partFits, Bool.true_and]
    exact others p means
  exprPart first others p means := by
    rw [partsFit, partFits, Bool.and_eq_true]
    exact ⟨first p means, others p means⟩
  ofAction fits p means := (fits p means).2
  noActions _ _ _ := by rw [actionsFit]
  consActions first others p means := by
    rw [actionsFit, Bool.and_eq_true]
    exact ⟨(first p means).1, others p means⟩
  nop _ _ _ _ _ := by rw [ActionKind.fits]
  block fits p means _ _ := by
    rw [ActionKind.fits]
    exact fits p means
  openBlock fits p means _ _ := by
    rw [ActionKind.fits]
    exact fits p means
  declare {_ _ _ _ _ init} _ _ each p means _ _ := by
    rw [ActionKind.fits]
    cases init with
    | none => rw [initFits]
    | some e =>
      rw [initFits]
      exact each e rfl p means
  assign first second p means _ _ := by
    rw [ActionKind.fits, Bool.and_eq_true, means.apart]
    exact ⟨first _ rfl, second p means⟩
  update _ _ _ _ first second p means _ _ := by
    rw [ActionKind.fits, Bool.and_eq_true]
    exact ⟨first p means, second p means⟩
  synonym _ fits p means _ _ := by
    rw [ActionKind.fits, means.apart]
    exact fits _ rfl
  branch {_ _ _ no} cond yes each p means _ _ := by
    rw [ActionKind.fits, Bool.and_eq_true, Bool.and_eq_true]
    refine ⟨⟨cond p means, (yes p means).1⟩, ?_⟩
    cases no with
    | none => rw [otherwiseFits]
    | some a =>
      rw [otherwiseFits]
      exact (each a rfl p means).1
  loop fits p means pos isKnown := by
    rw [ActionKind.fits]
    exact (fits _ (means.loop isKnown)).1
  enumerate parts fits p means pos isKnown := by
    rw [ActionKind.fits, Bool.and_eq_true]
    exact ⟨parts p means.params, (fits _ (means.loop isKnown)).1⟩
  write fits p means _ _ := by
    rw [ActionKind.fits]
    exact fits p means

theorem jumpsPlaced_jump {i : Site} {k : ActionKind} {cause : Cause} (admits : i.spot.Admits strict i.accepts)
    (placed : i.spot.takes J i.known = true) (fits : ∀ p pos, k.fits J p pos = p.takes J pos) :
    if (jumpsPlaced J strict).breakable i then (jumpsPlaced J strict).kind i k
    else (jumpsPlaced J strict).refused cause := by
  have known := Spot.takes_cases admits placed
  change if i.accepts then ∀ p, i.spot.Means p → ∀ pos ∈ i.known, k.fits J p pos = true
    else strict = true → cause.isJump = false
  simp only [fits]
  split at known
  · next accepted => rwa [if_pos accepted]
  · next other =>
    rw [if_neg other, known]
    exact nofun

theorem jumpsPlaced_lawful : (jumpsPlaced J strict).Lawful where
  toLawful := jumpsPlaced_facts
  bound := by
    refine ⟨fun fits p means => ?_, fun fits => fits .outside rfl⟩
    cases show p = .outside from means
    exact fits
  refused other _ := Cause.notJump other
  tooDeep _ _ := rfl
  action _ fits p means := by
    rw [Action.fits]
    exact ⟨fits p means _ List.mem_cons_self, fun pos isKnown =>
      fits p means pos (List.mem_cons_of_mem _ isKnown)⟩
  breakLoop node := jumpsPlaced_jump node.1 node.2 fun _ _ => by rw [ActionKind.fits]
  continueLoop node := jumpsPlaced_jump node.1 node.2 fun _ _ => by rw [ActionKind.fits]
  ofMacro placed := ⟨Spot.root_admits strict, placed⟩
  ofRoot fits := fits .outside (Spot.root_means strict)
  breakableRoot := rfl
  breakableApart _ := rfl
  breakableLocated _ _ := rfl
  breakableAlone _ := rfl
  breakableParams _ := rfl
  breakableBody _ := rfl
  breakableInside _ := rfl

end

end AgentScript
