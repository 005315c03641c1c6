import AgentScript.Proofs.Types.Reachable
import AgentScript.Resolve.Term
import Mathlib

/-! Folding and typing of constant chains. An integer is rounded to a single only when it meets one,
and rounding keeps apart zero and the rest; casts between types of values never change. Hence the table
for values and the rule for types agree on each step, with accumulators of any type. -/
namespace AgentScript

namespace Single

open Float.Model Float.Model.UnpackedFloat

theorem mantissa_shift (m : ExtendedMantissa) (n : Nat) : (m >>> n).mantissa = m.mantissa / 2 ^ n := by
  induction n with
  | zero => simp [HShiftRight.hShiftRight, Nat.repeat]
  | succ n ih =>
    have last : (m >>> (n + 1)).mantissa = (m >>> n).mantissa / 2 := rfl
    rw [last, ih, Nat.div_div_eq_div_mul, Nat.pow_succ]

theorem mantissa_le_rounded (m : ExtendedMantissa) : m.mantissa ≤ m.roundedMantissa := by
  obtain ⟨mantissa, round, sticky⟩ := m
  cases round <;> cases sticky <;>
    simp [ExtendedMantissa.roundedMantissa, ExtendedMantissa.accuracy, Accuracy.roundToNearestEven]

/-- A mantissa that was moved to its exponent still has a bit, and fits. -/
theorem target_fits {m : Nat} {e : Int} (some : 0 < m) (least : -149 ≤ e) :
    let moved := shiftToTargetExponent .binary32 m e .exact
    0 < moved.1.mantissa ∧ moved.1.mantissa < 2 ^ 24 ∧ -149 ≤ moved.2 := by
  have target : Format.binary32.targetExponent (totalExponent m e) = max (m.log2 + 1 + e - 24) (-149) :=
    rfl
  have low := Nat.log2_self_le (Nat.ne_of_gt some)
  have high := @Nat.lt_log2_self m
  simp only [shiftToTargetExponent, shiftToExponent, target, mantissa_shift,
    ExtendedMantissa.ofMantissaAndAccuracy]
  generalize m.log2 = bits at *
  generalize amount : (max (bits + 1 + e - 24) (-149) - e).toNat = n
  by_cases wide : 23 ≤ bits
  · have : bits = 23 + n := by omega
    subst this
    have pos := Nat.two_pow_pos n
    rw [show 23 + n + 1 = 24 + n by omega, Nat.pow_add] at high
    rw [Nat.pow_add] at low
    exact ⟨Nat.div_pos (by omega) pos, (Nat.div_lt_iff_lt_mul pos).mpr high, by omega⟩
  · have : n = 0 := by omega
    subst this
    have : 2 ^ (bits + 1) ≤ 2 ^ 24 := Nat.pow_le_pow_right (by decide) (by omega)
    simp
    omega

theorem roundWithAccuracy_finite (sign : Sign) {m : Nat} {e : Int} (some : 0 < m) (least : -149 ≤ e) :
    ∃ m' e' h, roundWithAccuracy .binary32 sign m e .exact = .finite sign m' e' h ∧ m' < 2 ^ 24 ∧
      -149 ≤ e' := by
  obtain ⟨pos, _, least⟩ := target_fits some least
  obtain ⟨pos', fits, least'⟩ := target_fits (pos.trans_le (mantissa_le_rounded _)) least
  simp only [roundWithAccuracy]
  rw [dif_neg (Nat.ne_of_gt pos')]
  exact ⟨_, _, _, rfl, fits, least'⟩

theorem round_finite (sign : Sign) {m : Nat} (some : 0 < m) :
    ∃ m' e h, round .binary32 sign m 0 = .finite sign m' e h ∧ m' < 2 ^ 24 ∧ -149 ≤ e := by
  have target : Format.binary32.targetExponent (totalExponent m 0) = max (m.log2 + 1 + 0 - 24 : Int) (-149) :=
    rfl
  apply roundWithAccuracy_finite sign
  · rw [Nat.shiftLeft_eq]
    exact Nat.mul_pos some (Nat.two_pow_pos _)
  · omega

/-- A single is zero if its exponent and its fraction have no bits. -/
theorem unpack_eq_zero {x : Float32.Model} {sign : Sign} (zero : x.unpack = .zero sign) :
    @unpackExponent .binary32 x.toBits.toBitVec = 0 ∧
      @unpackMantissa .binary32 x.toBits.toBitVec = 0 := by
  simp only [Float32.Model.unpack, UnpackedFloat.unpack] at zero
  split at zero
  · split at zero <;> cases zero
  · split at zero
    · next exponent =>
      split at zero
      · next fraction => exact ⟨exponent, fraction⟩
      · cases zero
    · cases zero

theorem unpack_pack_ne_zero (sign sign' : Sign) {m : Nat} {e : Int} (some : 0 < m) (fits : m < 2 ^ 24)
    (least : -149 ≤ e) : (Float32.Model.pack (.finite sign m e some)).unpack ≠ .zero sign' := by
  intro zero
  obtain ⟨exponent, fraction⟩ := unpack_eq_zero zero
  simp only [Float32.Model.pack, UnpackedFloat.pack] at exponent fraction
  have bias : (Format.binary32.exponentBias : Int) = 127 := rfl
  have width : Format.binary32.mantissaBits = 24 := rfl
  split at exponent
  · simp [packedInfinity] at exponent
  · next small =>
    rw [if_neg small] at fraction
    split at exponent
    · simp [bias, ← BitVec.toNat_inj] at exponent small
      omega
    · next short =>
      rw [if_neg short] at fraction
      simp [← BitVec.toNat_inj] at fraction
      have := (Nat.log2_lt (Nat.ne_of_gt some)).mpr fits
      have : m.log2 < 23 := by omega
      have := (Nat.log2_lt (Nat.ne_of_gt some)).mp this
      omega

theorem beq_zero_iff (x : Float32.Model) :
    (Float32.ofModel x == 0.0) = true ↔ ∃ sign, x.unpack = .zero sign := by
  have zero : (0.0 : Float32).toModel.unpack = .zero .positive := by rfl
  have same : (Float32.ofModel x == 0.0) =
      (x.unpack.compare (0.0 : Float32).toModel.unpack == some .eq) := rfl
  rw [same, zero]
  cases x.unpack with
  | infinity sign => cases sign <;> simp [UnpackedFloat.compare]
  | notANumber | zero => simp [UnpackedFloat.compare]
  | finite sign => cases sign <;> simp [UnpackedFloat.compare]

theorem round_ne_zero (sign sign' : Sign) {n : Nat} (some : 0 < n) :
    (Float32.Model.pack (round .binary32 sign n 0)).unpack ≠ .zero sign' := by
  obtain ⟨m, e, some', same, fits, least⟩ := round_finite sign some
  rw [same]
  exact unpack_pack_ne_zero sign sign' some' fits least

theorem ofInt_eq_zero (v : Int32) : (Single.ofInt v == 0.0) = (v == 0) := by
  have rounds : Single.ofInt v = .ofModel (.pack (normalize .binary32 v.toInt 0 .positive)) := rfl
  rw [Bool.eq_iff_iff, rounds, beq_zero_iff, beq_iff_eq, ← Int32.toInt_inj, Int32.toInt_zero,
    UnpackedFloat.normalize]
  generalize v.toInt = n
  rcases lt_trichotomy n 0 with less | rfl | more
  · have : 0 < (-n).toNat := by omega
    simp [Int.compare_eq_lt.mpr less, round_ne_zero, this, Int.ne_of_lt less]
  · simp only [iff_true]
    exact ⟨.positive, rfl⟩
  · have : 0 < n.toNat := by omega
    simp [Int.compare_eq_gt.mpr more, round_ne_zero, this, Int.ne_of_gt more]

end Single

namespace Registry

variable {r r' : Registry} {a b t : TypeId}

/-- The types of values, and the types above them. -/
def valueTypes : List TypeId := [number, integer, float, boolean, string, bytes]

/-- A type that stays as it was at the start. -/
structure Rooted (r : Registry) (t : TypeId) : Prop where
  inside : t < r.entries.length
  parents : r.parents t = initial.parents t
  members? : r.members? t = none
  isAgent : r.isAgent t = false

theorem initial_rooted (value : t ∈ valueTypes) : initial.Rooted t := by
  have all : ∀ t ∈ valueTypes, t < initial.entries.length ∧ initial.members? t = none ∧
      initial.isAgent t = false := by decide
  obtain ⟨inside, notUnion, notAgent⟩ := all t value
  exact ⟨inside, rfl, notUnion, notAgent⟩

theorem Grows.isAgent (grows : r.Grows r') (inside : t < r.entries.length) :
    r'.isAgent t = r.isAgent t := by
  induction grows with
  | same same => exact isAgent_congr same.shapes t
  | push => simp [isAgent_push, Nat.ne_of_lt inside]
  | trans first _ ih ih' => rw [ih' (Nat.lt_of_lt_of_le inside first.length_le), ih inside]

theorem Grows.rooted (grows : r.Grows r') (rooted : r.Rooted t) : r'.Rooted t where
  inside := rooted.inside.trans_le grows.length_le
  parents := (grows.parents rooted.inside).trans rooted.parents
  members? := (grows.members? rooted.inside).trans rooted.members?
  isAgent := (grows.isAgent rooted.inside).trans rooted.isAgent

theorem Linkable.rooted (linkable : r.Linkable child parent) (rooted : r.Rooted t) :
    (refresh (r.link child parent) child).Rooted t := by
  have same : (refresh (r.link child parent) child).shapes = (r.link child parent).shapes :=
    (SameBesideEffective.refreshWithin _ _ child).shapes
  have other : child ≠ t := by
    rintro rfl
    simpa [rooted.isAgent] using linkable.agentChild
  constructor
  · simpa [length_congr same, length_link] using rooted.inside
  · rw [parents_congr same, parents_link linkable.agentChild, if_neg other, rooted.parents]
  · rw [members?_congr same, members?_link, rooted.members?]
  · rw [isAgent_congr same, isAgent_link, rooted.isAgent]

theorem Reachable.rooted (reachable : Reachable r) (value : t ∈ valueTypes) : r.Rooted t :=
  reachable.keeps (P := fun r => r.Rooted t)
    ⟨fun _ _ rooted adds => adds.grows.rooted rooted, fun _ _ rooted linkable => linkable.rooted rooted⟩
    (initial_rooted value)

/-- Casts between rooted types are the same everywhere. -/
theorem Casts.rooted (rooted : ∀ t ∈ valueTypes, r.Rooted t) (rooted' : ∀ t ∈ valueTypes, r'.Rooted t)
    (casts : r.Casts a b) (value : a ∈ valueTypes) (value' : b ∈ valueTypes) : r'.Casts a b := by
  have upward : ∀ t ∈ valueTypes, ∀ p ∈ initial.parents t, p ∈ valueTypes := by decide
  induction casts with
  | toAny => exact absurd value' (by decide)
  | refl => exact .refl _
  | ofUnion isUnion => simp [(rooted _ value).members?] at isUnion
  | toUnion isUnion => simp [(rooted _ value').members?] at isUnion
  | parent isParent _ ih =>
    rw [(rooted _ value).parents] at isParent
    have next := ih (upward _ value _ isParent) value'
    rw [← (rooted' _ value).parents] at isParent
    exact .parent isParent next

/-- Casts between types of values are settled at the start. -/
theorem Reachable.canCast_value (reachable : Reachable r) (value : a ∈ valueTypes)
    (value' : b ∈ valueTypes) : r.canCast a b = Registry.initial.canCast a b := by
  rw [Bool.eq_iff_iff, reachable.ordered.canCast_iff, initial_ordered.canCast_iff]
  constructor
  · intro casts
    exact casts.rooted (fun _ => reachable.rooted) (fun _ => initial_rooted) value value'
  · intro casts
    exact casts.rooted (fun _ => initial_rooted) (fun _ => reachable.rooted) value value'

end Registry

namespace Value

def isZero : Value → Bool
  | int v => v == 0
  | float v => v == 0.0
  | _ => false

end Value

/-- What the casts of a value's type say about the value. -/
theorem Registry.Reachable.canCast_literal {r : Registry} (reachable : r.Reachable) (v : Value) :
    r.canCast v.literalType Registry.string = (v matches .str _) ∧
    r.canCast v.literalType Registry.number = v.isNumeric ∧
    r.canCast v.literalType Registry.integer = (v matches .int _) ∧
    r.canCast v.literalType Registry.float = (v matches .float _) := by
  have value : v.literalType ∈ valueTypes := by cases v <;> simp [Value.literalType, valueTypes]
  rw [reachable.canCast_value value (by decide), reachable.canCast_value value (by decide),
    reachable.canCast_value value (by decide), reachable.canCast_value value (by decide)]
  cases v <;> exact ⟨rfl, rfl, rfl, rfl⟩

namespace ChainOp

section
variable {r : Registry} {op : ChainOp} {a b c : Value}

theorem fold_divisionByZero : op.fold a b = .divisionByZero ↔ op = div ∧ a.isNumeric ∧ b.isZero := by
  cases op <;> cases a <;> cases b <;>
    simp [fold, foldSingles, applySingle?, Value.asSingle?, Value.isNumeric, Value.isZero,
      Single.ofInt_eq_zero]

def Folded.type? : Folded → Option TypeId
  | value v => some v.literalType
  | divisionByZero | none => Option.none

/-- The rule for types and the table for values are the same. -/
theorem fold_type? (reachable : r.Reachable) (op : ChainOp) (a b : Value)
    (regular : op.fold a b ≠ .divisionByZero) :
    (op.fold a b).type? = (op.stepType r a.literalType b.literalType).toOption := by
  obtain ⟨text, number, whole, single⟩ := reachable.canCast_literal a
  obtain ⟨text', number', whole', single'⟩ := reachable.canCast_literal b
  rw [ne_eq, fold_divisionByZero] at regular
  cases op <;> cases a <;> cases b <;>
    simp_all [fold, foldSingles, applySingle?, stepType, numberType, Registry.checkCast, Value.asSingle?,
      Value.isNumeric, Value.isZero, Single.ofInt_eq_zero, bind, Except.bind, pure, Except.pure,
      Folded.type?, Except.toOption] <;>
    rfl

theorem fold_value (reachable : r.Reachable) (folded : op.fold a b = .value c) :
    op.stepType r a.literalType b.literalType = .ok c.literalType := by
  have same := fold_type? reachable op a b (by simp [folded])
  rw [folded] at same
  cases typed : op.stepType r a.literalType b.literalType with
  | error e => simp [typed, Folded.type?, Except.toOption] at same
  | ok t => simp_all [Folded.type?, Except.toOption]

theorem fold_none (reachable : r.Reachable) (folded : op.fold a b = .none) :
    ∃ e, op.stepType r a.literalType b.literalType = .error e := by
  have same := fold_type? reachable op a b (by simp [folded])
  rw [folded] at same
  cases typed : op.stepType r a.literalType b.literalType with
  | error e => exact ⟨e, rfl⟩
  | ok t => simp [typed, Folded.type?, Except.toOption] at same

theorem fold_div (folded : div.fold a b ≠ .divisionByZero) :
    (∃ c, div.fold a b = .value c ∧ c.isNumeric ∧ a.isNumeric ∧ b.isNumeric) ∨
      div.fold a b = .none ∧ ¬ (a.isNumeric ∧ b.isNumeric) := by
  rw [ne_eq, fold_divisionByZero] at folded
  cases a <;> cases b <;>
    simp_all [fold, foldSingles, applySingle?, Value.asSingle?, Value.isNumeric, Value.isZero,
      Single.ofInt_eq_zero]

end

end ChainOp

namespace Meaning

variable {r : Registry} {op : ChainOp} {acc v : Value} {values : List Value}

/-- The operands of a chain of literals. -/
def literals (values : List Value) : List Expr := values.map fun v => Expr.const (.ofValue v)

theorem chainTail_literals_cons (r : Registry) (op : ChainOp) (t : TypeId) (v : Value) (rest : List Value) :
    Leaf.chainTail r op t (literals (v :: rest)) =
      match op.stepType r t v.literalType with
      | .error e => .error (.type e)
      | .ok after => (Leaf.chainTail r op after (literals rest)).map
          (.mk (Expr.const (.ofValue v)) v.literalType after :: ·) := by
  have single : (Expr.const (.ofValue v)).singleReadType = .ok v.literalType := rfl
  simp only [literals, List.map_cons, Leaf.chainTail, single, bind, Except.bind]
  cases op.stepType r t v.literalType <;> rfl

theorem foldValues_cons (op : ChainOp) (acc v : Value) (rest : List Value) :
    foldValues op acc (v :: rest) = match op.fold acc v with
      | .value acc => foldValues op acc rest
      | .divisionByZero => .error .divisionByZero
      | .none => .ok none := rfl

theorem foldValues_some (reachable : r.Reachable) (folded : foldValues op acc values = .ok (some v)) :
    ∃ tail, Leaf.chainTail r op acc.literalType (literals values) = .ok tail ∧
      Leaf.resultType acc.literalType tail = v.literalType := by
  induction values generalizing acc with
  | nil =>
    cases folded
    exact ⟨[], rfl, rfl⟩
  | cons w rest ih =>
    rw [foldValues_cons] at folded
    split at folded
    · next next step =>
      obtain ⟨tail, typed, result⟩ := ih folded
      refine ⟨.mk (Expr.const (.ofValue w)) w.literalType next.literalType :: tail, ?_, result⟩
      simp [chainTail_literals_cons, ChainOp.fold_value reachable step, typed, Except.map]
    all_goals cases folded

theorem foldValues_none (reachable : r.Reachable) (folded : foldValues op acc values = .ok none) :
    ∃ e, Leaf.chainTail r op acc.literalType (literals values) = .error (.type e) := by
  induction values generalizing acc with
  | nil => cases folded
  | cons w rest ih =>
    rw [foldValues_cons] at folded
    split at folded
    · next next step =>
      obtain ⟨e, refused⟩ := ih folded
      exact ⟨e, by simp [chainTail_literals_cons, ChainOp.fold_value reachable step, refused, Except.map]⟩
    · cases folded
    · next step =>
      obtain ⟨e, refused⟩ := ChainOp.fold_none reachable step
      exact ⟨e, by rw [chainTail_literals_cons, refused]⟩

/-- A zero with only numbers before it. -/
def Zeroed (first : Value) (values : List Value) : Prop :=
  ∃ before zero after, values = before ++ zero :: after ∧ zero.isZero ∧
    ∀ v ∈ first :: before, v.isNumeric

theorem zeroed_cons : Zeroed acc (v :: values) ↔ acc.isNumeric ∧ (v.isZero ∨ Zeroed v values) := by
  constructor
  · rintro ⟨before, zero, after, split, isZero, numeric⟩
    refine ⟨numeric acc (by simp), ?_⟩
    rcases List.cons_eq_append_iff.mp split with ⟨rfl, same⟩ | ⟨before, rfl, rfl⟩
    · cases same
      exact .inl isZero
    · exact .inr ⟨before, zero, after, rfl, isZero, fun w member => numeric w (.tail _ member)⟩
  · rintro ⟨isNumeric, isZero | ⟨before, zero, after, rfl, isZero, numeric⟩⟩
    · exact ⟨[], v, values, rfl, isZero, by simpa using isNumeric⟩
    · exact ⟨v :: before, zero, after, rfl, isZero, List.forall_mem_cons.mpr ⟨isNumeric, numeric⟩⟩

theorem foldValues_error {cause : Cause} : foldValues op acc values = .error cause ↔
    cause = .divisionByZero ∧ op = .div ∧ Zeroed acc values := by
  induction values generalizing acc with
  | nil => simp [foldValues, Zeroed]
  | cons w rest ih =>
    rw [foldValues_cons, zeroed_cons]
    by_cases stops : op.fold acc w = .divisionByZero
    · obtain ⟨rfl, isNumeric, isZero⟩ := ChainOp.fold_divisionByZero.mp stops
      simp [stops, isNumeric, isZero, eq_comm]
    · by_cases divides : op = .div
      · subst divides
        have regular : ¬ (acc.isNumeric ∧ w.isZero) := by simpa [ChainOp.fold_divisionByZero] using stops
        rcases ChainOp.fold_div stops with ⟨next, step, numeric, before, behind⟩ | ⟨step, mixed⟩
        · have same : Zeroed next rest ↔ Zeroed w rest := by simp [Zeroed, numeric, behind]
          simp_all
        · have none : ¬ (acc.isNumeric ∧ Zeroed w rest) := by
            rintro ⟨isNumeric, _, _, _, _, _, numeric⟩
            exact mixed ⟨isNumeric, numeric w (by simp)⟩
          simp_all
      · split <;> simp_all

theorem mkChain_literals (r : Registry) (op : ChainOp) (first : Value) (rest : List Value) :
    Leaf.mkChain r op (literals (first :: rest)) =
      (Leaf.chainTail r op first.literalType (literals rest)).map
        (.chain op (Expr.const (.ofValue first)) first.literalType) := rfl

theorem foldChain_cons (op : ChainOp) (first : Value) (rest : List Value) :
    foldChain op (first :: rest) = (foldValues op first rest).map (·.map .ofValue) := rfl

theorem zeroed_iff : Zeroed acc values ↔ ∃ before zero after, acc :: values = before ++ zero :: after ∧
    before ≠ [] ∧ zero.isZero ∧ ∀ v ∈ before, v.isNumeric := by
  constructor
  · rintro ⟨before, zero, after, rfl, isZero, numeric⟩
    exact ⟨acc :: before, zero, after, rfl, by simp, isZero, numeric⟩
  · rintro ⟨before, zero, after, split, some, isZero, numeric⟩
    rcases List.cons_eq_append_iff.mp split with ⟨rfl, _⟩ | ⟨before, rfl, rfl⟩
    · exact absurd rfl some
    · exact ⟨before, zero, after, rfl, isZero, numeric⟩

/-- Folding a chain of constants agrees with checking its types: what is folded has the type of the
chain, what is not folded has none, and nothing but a zero behind numbers stops a division. -/
theorem foldChain_typed (reachable : r.Reachable) (op : ChainOp) (values : List Value)
    (several : 2 ≤ values.length) :
    (∀ c, foldChain op values = .ok (some c) → ∃ leaf,
      Leaf.mkChain r op (literals values) = .ok leaf ∧
        (Expr.leaf leaf).singleReadType = .ok c.value.literalType) ∧
    (foldChain op values = .ok none → ∃ e, Leaf.mkChain r op (literals values) = .error (.type e)) ∧
    (∀ cause, foldChain op values = .error cause ↔ cause = .divisionByZero ∧ op = .div ∧
      ∃ before zero after, values = before ++ zero :: after ∧ before ≠ [] ∧ zero.isZero ∧
        ∀ v ∈ before, v.isNumeric) := by
  obtain _ | ⟨first, rest⟩ := values
  · simp at several
  have stops (cause : Cause) : foldValues op first rest = .error cause ↔ _ := foldValues_error
  simp only [mkChain_literals, foldChain_cons, ← zeroed_iff]
  cases folds : foldValues op first rest with
  | error e => simpa [folds, Except.map] using stops
  | ok folded =>
    simp only [folds, reduceCtorEq, false_iff] at stops
    refine ⟨?_, ?_, by simpa [Except.map] using stops⟩
    · rintro c same
      obtain ⟨v, rfl, rfl⟩ : ∃ v, folded = some v ∧ .ofValue v = c := by simpa [Except.map] using same
      obtain ⟨tail, typed, result⟩ := foldValues_some reachable folds
      rw [typed]
      refine ⟨_, rfl, ?_⟩
      exact congrArg Except.ok result
    · intro same
      obtain rfl : folded = none := by simpa [Except.map] using same
      obtain ⟨e, refused⟩ := foldValues_none reachable folds
      exact ⟨e, by rw [refused]; rfl⟩

/-- A number, a text and a float joined from the left. -/
theorem foldChain_typed_joined :
    ∃ leaf, Leaf.mkChain Registry.initial .add (literals [.int 1, .str "a", .float 1.5]) = .ok leaf ∧
      (Expr.leaf leaf).singleReadType = .ok Registry.string :=
  (foldChain_typed .initial .add [.int 1, .str "a", .float 1.5] (by decide)).1
    (.ofValue (.str "1a1.5")) (by rfl)

end Meaning
end AgentScript
