import AgentScript.Proofs.Safety.Expression
import AgentScript.Proofs.Types.Reachable

/-! Types of operators. Of two primitive types that one type casts to, one casts to the other; so no
type is both text and a number, or both an integer and a float. Main statement: operands of narrower
types are accepted wherever the wider ones are, and the type of the result is narrower too. -/
namespace AgentScript

namespace Registry

variable {r : Registry}

/-- What an agent type casts to is an agent type, a union, or `any`. -/
theorem Casts.of_agent (ordered : r.Ordered) (casts : r.Casts a b) (isAgent : r.isAgent a = true)
    (notAny : b ≠ any) (notUnion : r.members? b = none) : r.isAgent b = true := by
  induction casts with
  | toAny => exact absurd rfl notAny
  | refl => exact isAgent
  | ofUnion isUnion => simp [Registry.isAgent, kind_of_members isUnion, Kind.isAgent] at isAgent
  | toUnion isUnion => simp [isUnion] at notUnion
  | parent isParent _ ih => exact ih (ordered.agents _ isAgent _ isParent) notAny notUnion

theorem Primitive.not_agent (primitive : r.Primitive t parent storage) : r.isAgent t = false := by
  obtain ⟨name, found⟩ := primitive.kind
  simp [Registry.isAgent, found, Kind.isAgent]

/-- A type that is no agent type has one parent at most. -/
theorem parent_unique (notAgent : r.isAgent t = false) (first : p ∈ r.parents t)
    (second : q ∈ r.parents t) : p = q := by
  unfold Registry.isAgent at notAgent
  unfold parents at first second
  generalize r.kind? t = found at notAgent first second
  rcases found with _ | kind
  · simp at first
  · cases kind with
    | primitive name parent =>
      simp only [Option.elim_some, Kind.parents, Option.mem_toList] at first second
      exact Option.some.inj (first.symm.trans second)
    | union members => simp [Kind.parents] at first
    | interface | classified => simp [Kind.isAgent] at notAgent

/-- Of two primitive types above one type, one is above the other. -/
theorem Casts.comparable (ordered : r.Ordered) (primitive : r.Primitive b above storage)
    (primitive' : r.Primitive c above' storage') (notAny : b ≠ any) (notAny' : c ≠ any)
    (first : r.Casts a b) (second : r.Casts a c) : r.Casts b c ∨ r.Casts c b := by
  induction first with
  | toAny => exact absurd rfl notAny
  | refl => exact .inl second
  | @ofUnion a members b isUnion _ ih =>
    have nonempty : members ≠ [] := by
      rintro rfl
      simpa using ordered.several a [] isUnion
    obtain ⟨m, member⟩ := List.exists_mem_of_ne_nil members nonempty
    exact ih m member primitive notAny (second.of_member isUnion member)
  | toUnion isUnion => simp [primitive.members?] at isUnion
  | @parent a p b isParent onward ih =>
    cases second with
    | toAny => exact absurd rfl notAny'
    | refl => exact .inr (.parent isParent onward)
    | ofUnion isUnion => simp [parents_of_union isUnion] at isParent
    | toUnion isUnion => simp [primitive'.members?] at isUnion
    | parent isParent' onward' =>
      have notAgent : r.isAgent a = false := by
        rw [← Bool.not_eq_true]
        intro isAgent
        have isAgent' := (Casts.parent isParent onward).of_agent ordered isAgent notAny primitive.members?
        simp [primitive.not_agent] at isAgent'
      obtain rfl := parent_unique notAgent isParent isParent'
      exact ih primitive notAny onward'

/-- A primitive type casts to another one only through its parent. -/
theorem Primitive.casts (primitive : r.Primitive a above storage)
    (primitive' : r.Primitive b above' storage') (notAny : b ≠ any) (casts : r.Casts a b) :
    a = b ∨ ∃ p ∈ above, r.Casts p b := by
  cases casts with
  | toAny => exact absurd rfl notAny
  | refl => exact .inl rfl
  | ofUnion isUnion => simp [primitive.members?] at isUnion
  | toUnion isUnion => simp [primitive'.members?] at isUnion
  | parent isParent onward =>
    rw [primitive.parents, Option.mem_toList] at isParent
    exact .inr ⟨_, isParent, onward⟩

/-- No type casts to two primitive types, neither of which lies above the other. -/
theorem Primitive.apart (ordered : r.Ordered) (primitive : r.Primitive b above storage)
    (primitive' : r.Primitive c above' storage') (notAny : b ≠ any) (notAny' : c ≠ any) (other : b ≠ c)
    (aside : ∀ p ∈ above, ¬ r.Casts p c) (aside' : ∀ p ∈ above', ¬ r.Casts p b)
    (first : r.Casts a b) : ¬ r.Casts a c := by
  intro second
  rcases first.comparable ordered primitive primitive' notAny notAny' second with casts | casts
  · rcases primitive.casts primitive' notAny' casts with same | ⟨p, isParent, onward⟩
    · exact other same
    · exact aside p isParent onward
  · rcases primitive'.casts primitive notAny casts with same | ⟨p, isParent, onward⟩
    · exact other same.symm
    · exact aside' p isParent onward

namespace Sound
variable (sound : r.Sound)
include sound

theorem number : r.Primitive number none .value := sound.numbers (Registry.number, none) (by decide)

theorem integer : r.Primitive integer (some Registry.number) .value :=
  sound.numbers (Registry.integer, _) (by decide)

theorem float : r.Primitive float (some Registry.number) .value :=
  sound.numbers (Registry.float, _) (by decide)

theorem integer_casts : r.Casts Registry.integer Registry.number :=
  .parent (by simp [sound.integer.parents]) (.refl _)

theorem float_casts : r.Casts Registry.float Registry.number :=
  .parent (by simp [sound.float.parents]) (.refl _)

theorem number_highest (primitive : r.Primitive b above storage) (notAny : b ≠ any)
    (other : Registry.number ≠ b) : ¬ r.Casts Registry.number b := by
  intro casts
  rcases sound.number.casts primitive notAny casts with same | ⟨p, isParent, _⟩
  · exact other same
  · cases isParent

theorem not_number_of_text (ordered : r.Ordered) (isText : r.Casts a string) :
    ¬ r.Casts a Registry.number :=
  sound.text.apart ordered sound.number (by decide) (by decide) (by decide) nofun nofun isText

theorem not_float_of_integer (ordered : r.Ordered) (isInteger : r.Casts a Registry.integer) :
    ¬ r.Casts a Registry.float := by
  refine sound.integer.apart ordered sound.float (by decide) (by decide) (by decide) ?_ ?_ isInteger
  · rintro p ⟨⟩
    exact sound.number_highest sound.float (by decide) (by decide)
  · rintro p ⟨⟩
    exact sound.number_highest sound.integer (by decide) (by decide)

end Sound

end Registry

namespace ChainOp
open Registry (string integer)

/-- The operands that an operator takes, with the type of its result. -/
inductive Steps (r : Registry) : ChainOp → (left right result : TypeId) → Prop
  | append (left : r.Casts a string) (right : r.Casts b string ∨ r.Casts b Registry.number) :
    Steps r .add a b string
  | prepend (left : r.Casts a Registry.number) (right : r.Casts b string) : Steps r .add a b string
  | numbers (arithmetic : op ∈ [add, sub, mul, div]) (left : r.Casts a Registry.number)
    (right : r.Casts b Registry.number) : Steps r op a b (numberType r a b)
  | bits (bitwise : op ∈ [or, and]) (left : r.Casts a integer) (right : r.Casts b integer) :
    Steps r op a b integer

variable {r : Registry} {op : ChainOp}

theorem checkCast_ok (ordered : r.Ordered) (casts : r.Casts a b) : r.checkCast a b = .ok () := by
  simp [Registry.checkCast, ordered.canCast_iff.mpr casts]

theorem casts_of_checkCast (checked : r.checkCast a b = .ok u) : r.Casts a b := by
  unfold Registry.checkCast at checked
  split at checked
  · next casts => exact Registry.casts_of_castsWithin casts
  · cases checked

theorem stepType_steps (typed : op.stepType r a b = .ok t) : Steps r op a b t := by
  have text {c : TypeId} (isText : r.canCast c string = true) : r.Casts c string :=
    Registry.casts_of_castsWithin isText
  cases op with
  | add =>
    unfold stepType at typed
    cases left : r.canCast a string <;> cases right : r.canCast b string <;>
      simp only [left, right, Bool.not_true, Bool.not_false, Bool.false_eq_true, if_true, if_false,
        Bool.or_self, Bool.or_true, Bool.true_or] at typed
    · obtain ⟨_, number, typed⟩ := bind_ok typed
      obtain ⟨_, number', typed⟩ := bind_ok typed
      cases typed
      exact .numbers (by decide) (casts_of_checkCast number) (casts_of_checkCast number')
    · obtain ⟨_, number, typed⟩ := bind_ok typed
      cases typed
      exact .prepend (casts_of_checkCast number) (text right)
    · obtain ⟨_, number, typed⟩ := bind_ok typed
      cases typed
      exact .append (text left) (.inr (casts_of_checkCast number))
    · cases typed
      exact .append (text left) (.inl (text right))
  | sub | mul | div =>
    obtain ⟨_, left, typed⟩ := bind_ok typed
    obtain ⟨_, right, typed⟩ := bind_ok typed
    cases typed
    exact .numbers (by decide) (casts_of_checkCast left) (casts_of_checkCast right)
  | or | and =>
    obtain ⟨_, left, typed⟩ := bind_ok typed
    obtain ⟨_, right, typed⟩ := bind_ok typed
    cases typed
    exact .bits (by decide) (casts_of_checkCast left) (casts_of_checkCast right)

/-- Both directions of the check use that text is no number. -/
theorem Steps.typed (sound : r.Sound) (ordered : r.Ordered) (steps : Steps r op a b t) :
    op.stepType r a b = .ok t := by
  have isText {c : TypeId} (casts : r.Casts c string) : r.canCast c string = true :=
    ordered.canCast_iff.mpr casts
  have notText {c : TypeId} (casts : r.Casts c Registry.number) : r.canCast c string = false := by
    rw [← Bool.not_eq_true, ordered.canCast_iff]
    intro isText
    exact sound.not_number_of_text ordered isText casts
  cases steps with
  | append left right =>
    rcases right with right | right
    · simp [stepType, isText left, isText right, pure, Except.pure]
    · simp [stepType, isText left, notText right, checkCast_ok ordered right, bind, Except.bind, pure,
        Except.pure]
  | prepend left right =>
    simp [stepType, notText left, isText right, checkCast_ok ordered left, bind, Except.bind, pure,
      Except.pure]
  | numbers arithmetic left right =>
    have checked := checkCast_ok ordered left
    have checked' := checkCast_ok ordered right
    simp only [List.mem_cons, List.not_mem_nil, or_false] at arithmetic
    rcases arithmetic with rfl | rfl | rfl | rfl <;>
      simp [stepType, notText left, notText right, checked, checked', bind, Except.bind, pure, Except.pure]
  | bits bitwise left right =>
    have checked := checkCast_ok ordered left
    have checked' := checkCast_ok ordered right
    simp only [List.mem_cons, List.not_mem_nil, or_false] at bitwise
    rcases bitwise with rfl | rfl <;>
      simp [stepType, checked, checked', bind, Except.bind, pure, Except.pure]

theorem numberType_casts (sound : r.Sound) (a b : TypeId) : r.Casts (numberType r a b) Registry.number := by
  unfold numberType
  split
  · exact sound.integer_casts
  · split
    · exact sound.float_casts
    · exact .refl _

/-- Numbers of narrower types have a narrower type: an operand that is a float stays one, since no
integer is a float. -/
theorem numberType_mono (sound : r.Sound) (ordered : r.Ordered) (left : r.Casts a' a)
    (right : r.Casts b' b) : r.Casts (numberType r a' b') (numberType r a b) := by
  have left' {c : TypeId} (casts : r.canCast a c = true) : r.canCast a' c = true :=
    ordered.canCast_iff.mpr (left.trans sound (ordered.canCast_iff.mp casts))
  have right' {c : TypeId} (casts : r.canCast b c = true) : r.canCast b' c = true :=
    ordered.canCast_iff.mpr (right.trans sound (ordered.canCast_iff.mp casts))
  have apart {c : TypeId} (whole : r.canCast c integer = true) : ¬ r.canCast c Registry.float = true := by
    rw [ordered.canCast_iff] at whole ⊢
    exact sound.not_float_of_integer ordered whole
  have lowest := numberType_casts sound a' b'
  unfold numberType at lowest ⊢
  by_cases whole : r.canCast a integer = true ∧ r.canCast b integer = true
  · rw [if_pos whole, if_pos ⟨left' whole.1, right' whole.2⟩]
    exact .refl _
  by_cases single : r.canCast a Registry.float = true ∨ r.canCast b Registry.float = true
  · have single' := single.imp left' right'
    have notWhole : ¬ (r.canCast a' integer = true ∧ r.canCast b' integer = true) := by
      rintro ⟨whole, whole'⟩
      exact single'.elim (apart whole) (apart whole')
    rw [if_neg whole, if_pos single, if_neg notWhole, if_pos single']
    exact .refl _
  · rw [if_neg whole, if_neg single]
    exact lowest

theorem Steps.mono (sound : r.Sound) (ordered : r.Ordered) (steps : Steps r op a b t)
    (left : r.Casts a' a) (right : r.Casts b' b) : ∃ t', Steps r op a' b' t' ∧ r.Casts t' t := by
  cases steps with
  | append text other =>
    have other' : r.Casts b' string ∨ r.Casts b' Registry.number :=
      other.imp (right.trans sound) (right.trans sound)
    exact ⟨_, .append (left.trans sound text) other', .refl _⟩
  | prepend number text => exact ⟨_, .prepend (left.trans sound number) (right.trans sound text), .refl _⟩
  | numbers arithmetic number number' =>
    refine ⟨_, .numbers arithmetic (left.trans sound number) (right.trans sound number'), ?_⟩
    exact numberType_mono sound ordered left right
  | bits bitwise whole whole' =>
    exact ⟨_, .bits bitwise (left.trans sound whole) (right.trans sound whole'), .refl _⟩

end ChainOp

/-- Single values, the first of a type that casts to the type of the second. -/
def Expr.Narrower (r : Registry) (e' e : Expr) : Prop :=
  ∃ ty' ty, e'.singleReadType = .ok ty' ∧ e.singleReadType = .ok ty ∧ r.canCast ty' ty = true

namespace Leaf
variable {r : Registry} {op : ChainOp} {es es' : List Expr}

theorem chainTail_mono (sound : r.Sound) (ordered : r.Ordered)
    (narrower : List.Forall₂ (Expr.Narrower r) es' es) (casts : r.Casts before' before)
    (typed : chainTail r op before es = .ok tail) : ∃ tail', chainTail r op before' es' = .ok tail' ∧
      r.Casts (resultType before' tail') (resultType before tail) := by
  induction narrower generalizing before before' tail with
  | nil =>
    cases typed
    exact ⟨[], rfl, casts⟩
  | @cons e' e rest' rest narrow _ ih =>
    obtain ⟨ty', ty, found', found, below⟩ := narrow
    obtain ⟨_, after, more, same, step, later, rfl⟩ := chainTail_cons typed
    cases found.symm.trans same
    obtain ⟨after', step', casts'⟩ := (ChainOp.stepType_steps step).mono sound ordered casts
      (ordered.canCast_iff.mp below)
    obtain ⟨more', later', result⟩ := ih casts' later
    refine ⟨.mk e' ty' after' :: more', ?_, result⟩
    simp [chainTail, found', step'.typed sound ordered, later', bind, Except.bind, pure, Except.pure]

theorem singleReadType_chain (op : ChainOp) (head : Expr) (ty : TypeId) (tail : List Operand) :
    (Expr.leaf (.chain op head ty tail)).singleReadType = .ok (resultType ty tail) := rfl

theorem mkChain_mono (sound : r.Sound) (ordered : r.Ordered)
    (narrower : List.Forall₂ (Expr.Narrower r) es' es) (made : mkChain r op es = .ok leaf) :
    ∃ leaf', mkChain r op es' = .ok leaf' ∧ Expr.Narrower r (Expr.leaf leaf') (Expr.leaf leaf) := by
  obtain ⟨head, rest, ty, tail, rfl, found, typed, rfl⟩ := mkChain_cases made
  obtain _ | @⟨head', _, rest', _, ⟨ty', _, found', same, below⟩, others⟩ := narrower
  cases found.symm.trans same
  obtain ⟨tail', typed', casts⟩ := chainTail_mono sound ordered others (ordered.canCast_iff.mp below) typed
  refine ⟨.chain op head' ty' tail', ?_, _, _, singleReadType_chain .., singleReadType_chain .., ?_⟩
  · simp [mkChain, found', typed', bind, Except.bind, pure, Except.pure]
  · exact ordered.canCast_iff.mpr casts

end Leaf

/-- An operator takes operands of narrower types, and gives a result of a narrower type. So does a
chain, whose result then fits wherever it did with the wider operands. -/
theorem ChainOp.stepType_monotone {r : Registry} (reachable : r.Reachable) :
    (∀ (op : ChainOp) (a a' b b' t : TypeId), r.canCast a' a = true → r.canCast b' b = true →
      op.stepType r a b = .ok t → ∃ t', op.stepType r a' b' = .ok t' ∧ r.canCast t' t = true) ∧
    ∀ (op : ChainOp) (es es' : List Expr) (leaf : Leaf), List.Forall₂ (Expr.Narrower r) es' es →
      Leaf.mkChain r op es = .ok leaf → ∃ leaf' t t', Leaf.mkChain r op es' = .ok leaf' ∧
        (Expr.leaf leaf).singleReadType = .ok t ∧ (Expr.leaf leaf').singleReadType = .ok t' ∧
        ∀ wanted, r.canCast t wanted = true → r.canCast t' wanted = true := by
  have sound := reachable.sound
  have ordered := reachable.ordered
  constructor
  · intro op a a' b b' t left right typed
    obtain ⟨t', steps, casts⟩ := (stepType_steps typed).mono sound ordered
      (ordered.canCast_iff.mp left) (ordered.canCast_iff.mp right)
    exact ⟨t', steps.typed sound ordered, ordered.canCast_iff.mpr casts⟩
  · intro op es es' leaf narrower made
    obtain ⟨leaf', made', t', t, found', found, casts⟩ := Leaf.mkChain_mono sound ordered narrower made
    refine ⟨leaf', t, t', made', found, found', fun wanted fits => ?_⟩
    rw [ordered.canCast_iff] at casts fits ⊢
    exact casts.trans sound fits

/-- A number of either kind times an integer, with a text after it, and the same with a float and a truth
value. -/
theorem ChainOp.stepType_monotone_mixed :
    let r := Registry.initial.run [.byUnion [Registry.integer, Registry.float]]
    let values (ts : List TypeId) : List Expr := ts.map fun t => Expr.leaf (.var 0 t true)
    mul.stepType r 11 Registry.integer = .ok Registry.number ∧
    (∃ t', mul.stepType r Registry.float Registry.boolean = .ok t' ∧ r.canCast t' Registry.number = true) ∧
    ∃ leaf, Leaf.mkChain r .add (values [11, Registry.integer, Registry.string]) = .ok leaf ∧
      ∃ leaf' t t',
        Leaf.mkChain r .add (values [Registry.float, Registry.boolean, Registry.string]) = .ok leaf' ∧
        (Expr.leaf leaf).singleReadType = .ok t ∧ (Expr.leaf leaf').singleReadType = .ok t' ∧
        ∀ wanted, r.canCast t wanted = true → r.canCast t' wanted = true := by
  intro r values
  have reachable : Registry.Reachable r := Registry.Reachable.initial.run
  have product : mul.stepType r 11 Registry.integer = .ok Registry.number := rfl
  have narrower : List.Forall₂ (Expr.Narrower r)
      (values [Registry.float, Registry.boolean, Registry.string])
      (values [11, Registry.integer, Registry.string]) :=
    .cons ⟨_, _, rfl, rfl, by decide⟩ (.cons ⟨_, _, rfl, rfl, by decide⟩
      (.cons ⟨_, _, rfl, rfl, by decide⟩ .nil))
  obtain ⟨steps, chains⟩ := stepType_monotone reachable
  refine ⟨product, steps mul 11 Registry.float Registry.integer Registry.boolean Registry.number
    (by decide) (by decide) product, _, rfl, ?_⟩
  exact chains add _ _ _ narrower rfl

end AgentScript
