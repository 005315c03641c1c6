import AgentScript.Proofs.Preservation.Condition
import AgentScript.Proofs.Preservation.Types
import AgentScript.Proofs.Safety.Resolution
import AgentScript.Resolve.Term

/-! Terms on integers are resolved to code that computes their numbers. Whatever is known before the
script runs agrees with what the code would compute. -/
namespace AgentScript
variable {γ : Bindings}

/-- Types and variables of a script are still there when its code is written. -/
structure Resolving.Within (s : Resolving) (env : Env) (limit : Nat) : Prop where
  types : s.world.types.Extends env.types
  handles : s.world.nextHandle ≤ limit

theorem Resolving.Within.stores {s : Resolving} (inside : s.Within env limit)
    (numeric : s.world.types.Numeric ty) : env.types.Stores ty :=
  (numeric.grown inside.types.entries).stores inside.types.sound

/-- An expression whose code computes a number. -/
structure Expr.Computes (s : Resolving) (e : Expr) (v : Store → Int32) : Prop where
  numeric : ∀ {ty}, e.readType 0 = .ok ty → s.world.types.Numeric ty
  code : ∀ {env limit} (table : Placeholder), s.Within env limit →
    (codeOf env table e).Denotes env limit v

/-- A condition whose code tests whether something holds. What a negation negates can stand on its own. -/
structure Cond.Decides (s : Resolving) (c : Cond) (b : Store → Bool) : Prop where
  code : ∀ {env limit} (table : Placeholder), s.Within env limit →
    (Cond.code env table c).Denotes limit b
  negated : ∀ {c'}, c = .not c' → (∀ c'', c' ≠ .not c'') ∧
    ∀ {env limit} (table : Placeholder), s.Within env limit →
      (Cond.code env table c').Denotes limit fun σ => !b σ

section
variable {s : Resolving} {c : Cond} {op : ChainOp}

theorem readType_leaf {leaf : Leaf} (one : leaf.accesses = [⟨some ty, write, label⟩]) :
    (Expr.leaf leaf).readType 0 = .ok ty := by
  have located : Slices.locate? (Expr.leaf leaf) 0 = some (leaf, 0) := by
    simp [Expr.leaf, Slices.locate?, Piece.len, Slotted.count, one, Piece.owner]
  simp [Expr.readType, Expr.access, located, one, bind, Except.bind]

theorem readType_of_single {e : Expr} (found : e.singleReadType = .ok ty) : e.readType 0 = .ok ty := by
  unfold Expr.singleReadType at found
  split at found
  · exact found
  · cases found

theorem numeric_leaf {leaf : Leaf} (one : leaf.accesses = [⟨some ty, write, label⟩])
    (numeric : s.world.types.Numeric ty) :
    ∀ {ty'}, (Expr.leaf leaf).readType 0 = .ok ty' → s.world.types.Numeric ty' := by
  intro ty' found
  rw [readType_leaf one] at found
  cases found
  exact numeric

theorem const_computes (n : Int32) : (Expr.int n).Computes s fun _ => n := by
  have numeric {r : Registry} : r.Numeric Registry.integer := .of_mem (by decide)
  exact ⟨numeric_leaf rfl numeric, fun _ inside => const_denotes (inside.stores numeric) _ n⟩

theorem var_computes (known : handle < s.world.nextHandle) (numeric : s.world.types.Numeric ty) :
    (Expr.leaf (.var handle ty true)).Computes s fun σ => σ handle :=
  ⟨numeric_leaf rfl numeric, fun _ inside =>
    var_denotes (Nat.lt_of_lt_of_le known inside.handles) (inside.stores numeric) true⟩

theorem Resolving.Within.boolean (inside : s.Within env limit) : env.types.Stores Registry.boolean :=
  inside.stores (.of_mem (by decide))

theorem test_computes (decides : c.Decides s b) :
    (Expr.leaf (.test c Registry.boolean)).Computes s fun σ => truthNumber (b σ) :=
  ⟨numeric_leaf rfl (.of_mem (by decide)), fun table inside =>
    test_denotes (decides.code table inside) inside.boolean _⟩

theorem stepType_numeric {r : Registry} (sound : r.Sound) (l : r.Numeric lt) (isNumeric : r.Numeric rt)
    (made : op.stepType r lt rt = .ok ty) : r.Numeric ty := by
  have numbers : r.Numeric (ChainOp.numberType r lt rt) := by
    unfold ChainOp.numberType
    split
    · exact .of_mem (by decide)
    · split
      · exact .of_mem (by decide)
      · exact .of_mem (by decide)
  have left := (l.stores sound).notText
  have right := (isNumeric.stores sound).notText
  cases op with
  | add =>
    simp only [ChainOp.stepType, left, right, Bool.not_false, ↓reduceIte, Bool.or_self,
      Bool.false_eq_true] at made
    obtain ⟨_, _, made⟩ := bind_ok made
    obtain ⟨_, _, made⟩ := bind_ok made
    cases made
    exact numbers
  | or | and =>
    obtain ⟨_, _, made⟩ := bind_ok made
    obtain ⟨_, _, made⟩ := bind_ok made
    cases made
    exact .of_mem (by decide)
  | _ =>
    obtain ⟨_, _, made⟩ := bind_ok made
    obtain ⟨_, _, made⟩ := bind_ok made
    cases made
    exact numbers

/-- The operands of a chain with their types, and the type of the whole. -/
theorem chainTail_denotes (sound : s.world.types.Sound) {es : List Expr} {vs : List (Store → Int32)}
    (computes : List.Forall₂ (Expr.Computes s) es vs) {before : TypeId}
    (numeric : s.world.types.Numeric before) {tail : List Operand}
    (made : Leaf.chainTail s.world.types op before es = .ok tail) :
    s.world.types.Numeric (Leaf.resultType before tail) ∧
      ∀ {env limit} (table : Placeholder), s.Within env limit →
        List.Forall₂ (OperandCode.Denotes env limit) (operandCodes env table tail) vs := by
  induction computes generalizing before tail with
  | nil =>
    cases made
    exact ⟨numeric, fun table _ => .nil⟩
  | @cons e v es vs first _ ih =>
    obtain ⟨ty, after, more, found, step, later, rfl⟩ := Leaf.chainTail_cons made
    have isNumeric := first.numeric (readType_of_single found)
    have afterwards := stepType_numeric sound numeric isNumeric step
    obtain ⟨result, others⟩ := ih afterwards later
    refine ⟨result, fun table inside => .cons ?_ (others table inside)⟩
    exact ⟨first.code table inside, inside.stores isNumeric, inside.stores afterwards⟩

theorem mkChain_computes (sound : s.world.types.Sound) (known : op ≠ .div) {es : List Expr}
    {vs : List (Store → Int32)} (computes : List.Forall₂ (Expr.Computes s) es vs)
    (made : Leaf.mkChain s.world.types op es = .ok leaf) :
    (Expr.leaf leaf).Computes s fun σ => op.chainNumber (vs.map (· σ)) := by
  obtain ⟨head, rest, ty, tail, rfl, found, later, rfl⟩ := Leaf.mkChain_cases made
  cases computes with
  | @cons _ v _ vs first others =>
    have numeric := first.numeric (readType_of_single found)
    obtain ⟨result, denote⟩ := chainTail_denotes sound others numeric later
    refine ⟨numeric_leaf rfl result, fun table inside => ?_⟩
    exact chain_denotes known (first.code table inside) (inside.stores numeric) (denote table inside)
      (inside.stores result) _

theorem Cond.Decides.constant (decides : c.Decides s b) (known : c.constant? = some k)
    (inside : s.Within env limit) (σ : Store) : b σ = k := by
  have denotes := decides.code (fun _ => none) inside
  cases c with
  | const k' =>
    cases known
    exact denotes.constant rfl σ
  | _ => cases known

theorem const_decides (k : Bool) : (Cond.const k).Decides s fun _ => k :=
  ⟨fun _ _ => CondCode.const_denotes k, nofun⟩

theorem compare_decides {left right : Expr} (l : left.Computes s v) (r : right.Computes s w)
    (op : CompareOp) : (Cond.compare op left right).Decides s fun σ => op.relates (v σ) (w σ) :=
  ⟨fun table inside => CondCode.compare_denotes (l.code table inside) (r.code table inside) op, nofun⟩

theorem join_decides {left right : Cond} (l : left.Decides s a) (r : right.Decides s b)
    (op : LogicOp) : (Cond.join op left right).Decides s fun σ => op.connects (a σ) (b σ) := by
  unfold Cond.join
  split
  · next k k' isLeft isRight =>
    refine ⟨fun {env limit} table inside => ?_, nofun⟩
    have same : (fun σ => op.connects (a σ) (b σ)) = fun _ => op.apply k k' := by
      funext σ
      rw [l.constant isLeft inside, r.constant isRight inside]
      cases op <;> rfl
    rw [same]
    exact CondCode.const_denotes _
  · exact ⟨fun table inside => CondCode.logic_denotes (l.code table inside) (r.code table inside)
      inside.boolean op, nofun⟩

theorem negate_decides (decides : c.Decides s b) : c.negate.Decides s fun σ => !b σ := by
  have inverted {c : Cond} (decides : c.Decides s b) (positive : ∀ c', c ≠ .not c') :
      (Cond.not c).Decides s fun σ => !b σ := by
    refine ⟨fun table inside => CondCode.not_denotes (decides.code table inside), ?_⟩
    rintro _ ⟨⟩
    refine ⟨positive, fun table inside => ?_⟩
    simpa using decides.code table inside
  cases c with
  | const k =>
    refine ⟨fun table inside => ?_, nofun⟩
    have same : (fun σ => !b σ) = fun _ => !k := by
      funext σ
      rw [decides.constant rfl inside]
    rw [same]
    exact CondCode.const_denotes _
  | not c =>
    obtain ⟨positive, code⟩ := decides.negated rfl
    exact ⟨code, fun isNot => absurd isNot (positive _)⟩
  | compare | logic => exact inverted decides nofun

/-- A step that changes nothing if it succeeds, with what is known of its answer. -/
structure Resolve.Finds (s : Resolving) (x : Resolve α) (post : α → Prop) : Prop where
  found : ∀ a t, x.run s = (.ok a, t) → t = s ∧ post a

namespace Resolve.Finds
variable {post : β → Prop}

theorem bind {x : Resolve α} {f : α → Resolve β} {P : α → Prop} {Q : β → Prop} (first : Finds s x P)
    (next : ∀ a, P a → Finds s (f a) Q) : Finds s (x >>= f) Q := by
  refine ⟨fun b t ran => ?_⟩
  obtain ⟨a, u, ranFirst, ranNext⟩ := run_bind_ok ran
  obtain ⟨rfl, here⟩ := first.found a u ranFirst
  exact (next a here).found b t ranNext

theorem pure {post : α → Prop} (here : post a) : Finds s (Pure.pure a) post := by
  refine ⟨fun b t ran => ?_⟩
  cases ran
  exact ⟨rfl, here⟩

theorem fail (cause : Cause) {post : α → Prop} : Finds s (Resolve.fail cause) post := ⟨nofun⟩

theorem ofExcept {e : Except Cause α} {post : α → Prop} (here : ∀ a, e = .ok a → post a) :
    Finds s (Resolve.ofExcept e) post := by
  cases e with
  | ok a => exact .pure (here a rfl)
  | error c => exact .fail c

theorem reading {x : Resolve α} {f : α → Resolve β} {a : α} (reads : x.run s = (.ok a, s))
    (next : Finds s (f a) post) : Finds s (x >>= f) post := by
  have first : Finds s x fun b => b = a := by
    refine ⟨fun b t ran => ?_⟩
    rw [reads] at ran
    cases ran
    exact ⟨rfl, rfl⟩
  exact first.bind fun b same => same ▸ next

theorem types {f : Registry → Resolve β} (next : Finds s (f s.world.types) post) :
    Finds s (Resolve.types >>= f) post :=
  reading rfl next

theorem scope {f : Scope → Resolve β} (next : Finds s (f s.scope) post) :
    Finds s (Resolve.scope >>= f) post :=
  reading rfl next

end Resolve.Finds

/-- A constant is the number that is computed. -/
def KnownAs (v : Store → Int32) (c : Option Constant) : Prop :=
  ∀ k, c = some k → ∃ n, k = .ofValue (.int n) ∧ ∀ σ, v σ = n

structure Meaning.Denotes (s : Resolving) (m : Meaning) (v : Store → Int32) : Prop where
  const : m.const.Finds s (KnownAs v)
  value : m.value.Finds s fun e => e.Computes s v
  cond : m.cond.Finds s fun c => c.Decides s fun σ => v σ != 0

namespace Meaning

theorem truth_finds {const : Resolve (Option Constant)} {value : Resolve Expr}
    (first : const.Finds s (KnownAs v)) (second : value.Finds s fun e => e.Computes s v) :
    (truth const value).Finds s fun c => c.Decides s fun σ => v σ != 0 := by
  refine first.bind fun c isKnown => ?_
  split
  · next b found =>
    obtain ⟨k, rfl, isTrue⟩ := Option.bind_eq_some_iff.mp found
    obtain ⟨n, rfl, same⟩ := isKnown k rfl
    cases isTrue
    refine .pure ?_
    simpa only [same] using const_decides (n != 0)
  · refine second.bind fun e computes => .types (.ofExcept fun c made => ?_)
    obtain ⟨ty, _, rfl⟩ := Cond.truth_cases made
    have relates : (fun σ => CompareOp.ne.relates (v σ) 0) = fun σ => v σ != 0 := by
      funext σ
      exact Bool.eq_iff_iff.mpr (by simp [CompareOp.relates])
    exact relates ▸ compare_decides computes (const_computes 0) .ne

theorem ofConstOr_denotes {const : Resolve (Option Constant)} {otherwise : Resolve Expr}
    (first : const.Finds s (KnownAs v)) (second : otherwise.Finds s fun e => e.Computes s v) :
    (ofConstOr const otherwise).Denotes s v := by
  have value : (ofConstOr const otherwise).value.Finds s fun e => e.Computes s v := by
    refine first.bind fun c isKnown => ?_
    cases c with
    | none => exact second
    | some k =>
      obtain ⟨n, rfl, same⟩ := isKnown k rfl
      obtain rfl : v = fun _ => n := funext same
      exact .pure (const_computes n)
  exact ⟨first, value, truth_finds first value⟩

theorem literal_denotes (n : Int32) : (literal (.int n)).Denotes s fun _ => n := by
  have const : (literal (.int n)).const.Finds s (KnownAs fun _ => n) := by
    refine .bind (P := fun c => c = .ofValue (.int n)) (.pure rfl) fun c same => .pure ?_
    rintro k ⟨⟩
    exact ⟨n, same, fun _ => rfl⟩
  have value : (literal (.int n)).value.Finds s fun e => e.Computes s fun _ => n :=
    .bind (P := fun c => c = .ofValue (.int n)) (.pure rfl) fun c same =>
      .pure (same ▸ const_computes n)
  exact ⟨const, value, truth_finds const value⟩

theorem ofCond_denotes {cond : Resolve Cond} (found : cond.Finds s fun c => c.Decides s b) :
    (ofCond cond).Denotes s fun σ => truthNumber (b σ) := by
  have same : (fun σ => truthNumber (b σ) != 0) = b := by
    funext σ
    cases b σ <;> rfl
  refine ⟨.pure nofun, found.bind fun c decides => .pure (test_computes decides), ?_⟩
  rw [same]
  exact found

theorem not_denotes {m : Meaning} (denotes : m.Denotes s v) :
    (Meaning.not m).Denotes s fun σ => truthNumber (v σ == 0) := by
  have same (σ : Store) : (v σ == 0) = !(v σ != 0) := by simp [bne]
  simp only [same]
  exact ofCond_denotes (denotes.cond.bind fun c decides => .pure (negate_decides decides))

theorem logic_denotes {left right : Meaning} (l : left.Denotes s v) (r : right.Denotes s w)
    (op : LogicOp) : (Meaning.logic op left right).Denotes s fun σ =>
      truthNumber (op.connects (v σ != 0) (w σ != 0)) :=
  ofCond_denotes (l.cond.bind fun _ first => r.cond.bind fun _ second =>
    .pure (join_decides first second op))

end Meaning

theorem CompareOp.holds_relates (op : CompareOp) (x y : Int32) :
    op.holds (compare x.toInt y.toInt) = op.relates x y := by
  have equal : x = y ↔ x.toInt = y.toInt := Int32.toInt_inj.symm
  have less : x < y ↔ x.toInt < y.toInt := Int32.lt_iff_toInt_lt
  have more : y < x ↔ y.toInt < x.toInt := Int32.lt_iff_toInt_lt
  have atMost : x ≤ y ↔ x.toInt ≤ y.toInt := Int32.le_iff_toInt_le
  have atLeast : y ≤ x ↔ y.toInt ≤ x.toInt := Int32.le_iff_toInt_le
  simp only [compare, compareOfLessAndEq]
  split
  · cases op <;> simp [holds, relates, bne, equal, less, more, atMost, atLeast] <;> omega
  · split
    · next same => cases op <;> simp [holds, relates, equal, less, more, atMost, atLeast, same]
    · cases op <;> simp [holds, relates, bne, equal, less, more, atMost, atLeast] <;> omega

namespace Meaning
variable {vs : List (Store → Int32)}

theorem compare_denotes {left right : Meaning} (l : left.Denotes s v) (r : right.Denotes s w)
    (op : CompareOp) : (Meaning.compare op left right).Denotes s fun σ =>
      truthNumber (op.relates (v σ) (w σ)) := by
  refine ofCond_denotes (l.const.bind fun first isKnown => r.const.bind fun second isKnown' => ?_)
  dsimp only
  split
  · next b found =>
    obtain ⟨k, isFirst, rest⟩ := Option.bind_eq_some_iff.mp found
    obtain ⟨k', isSecond, evaluated⟩ := Option.bind_eq_some_iff.mp rest
    obtain ⟨n, rfl, same⟩ := isKnown k isFirst
    obtain ⟨n', rfl, same'⟩ := isKnown' k' isSecond
    cases evaluated
    refine .pure ?_
    simp only [same, same', ← CompareOp.holds_relates]
    exact const_decides _
  · refine l.value.bind fun e computes => r.value.bind fun e' computes' => ?_
    refine .types (.ofExcept fun c made => ?_)
    obtain ⟨_, _, _, _, rfl⟩ := Cond.comparison_cases made
    exact compare_decides computes computes' op

theorem values_finds {items : List Meaning} (denote : List.Forall₂ (Denotes s) items vs) :
    (values items).Finds s fun es => List.Forall₂ (Expr.Computes s) es vs := by
  induction denote with
  | nil => exact .pure .nil
  | cons first _ ih =>
    exact first.value.bind fun e computes => ih.bind fun es others => .pure (.cons computes others)

theorem constants_finds {items : List Meaning} (denote : List.Forall₂ (Denotes s) items vs) :
    (constants items).Finds s fun found => ∀ ks, found = some ks →
      ∃ ns : List Int32, ks = ns.map .int ∧ ∀ σ, vs.map (· σ) = ns := by
  induction denote with
  | nil =>
    refine .pure ?_
    rintro _ ⟨⟩
    exact ⟨[], rfl, fun _ => rfl⟩
  | cons first _ ih =>
    refine first.const.bind fun c isKnown => ?_
    cases c with
    | none => exact .pure nofun
    | some k =>
      obtain ⟨n, rfl, same⟩ := isKnown k rfl
      refine ih.bind fun found others => .pure fun ks isFound => ?_
      obtain ⟨rest, rfl, rfl⟩ := Option.map_eq_some_iff.mp isFound
      obtain ⟨ns, rfl, each⟩ := others rest rfl
      exact ⟨n :: ns, rfl, fun σ => congrArg₂ List.cons (same σ) (each σ)⟩

theorem foldValues_ints (known : op ≠ .div) (a : Int32) (ns : List Int32) :
    foldValues op (.int a) (ns.map .int) = .ok (some (.int (ns.foldl op.number a))) := by
  induction ns generalizing a with
  | nil => rfl
  | cons n rest ih =>
    have folded : op.fold (.int a) (.int n) = .value (.int (op.number a n)) := by
      cases op with
      | div => exact absurd rfl known
      | _ => rfl
    rw [List.map_cons, foldValues, folded]
    exact ih (op.number a n)

theorem chain_denotes (sound : s.world.types.Sound) (known : op ≠ .div) {operands : List Meaning}
    (denote : List.Forall₂ (Denotes s) operands vs) :
    (Meaning.chain op operands).Denotes s fun σ => op.chainNumber (vs.map (· σ)) := by
  refine ofConstOr_denotes ?_ ?_
  · refine (constants_finds denote).bind fun found isKnown => ?_
    cases found with
    | none => exact .pure nofun
    | some ks =>
      obtain ⟨ns, rfl, each⟩ := isKnown ks rfl
      refine .ofExcept fun c made k isConstant => ?_
      subst isConstant
      cases ns with
      | nil => cases made
      | cons n rest =>
        simp only [foldChain, List.map_cons, foldValues_ints known] at made
        cases made
        refine ⟨_, rfl, fun σ => ?_⟩
        dsimp only
        rw [each]
        rfl
  · refine (values_finds denote).bind fun es computes => ?_
    split
    · next e =>
      cases computes with
      | cons first none =>
        cases none
        exact .pure first
    · refine .types (.bind (.ofExcept fun leaf made => ?_) fun leaf here => .pure here)
      exact mkChain_computes sound known computes made

end Meaning

end

/-- The variables in scope with their handles, the last declared first. -/
abbrev Bindings := List (String × Nat)

namespace Bindings

def names (γ : Bindings) : List String := γ.map (·.1)

def handles (γ : Bindings) : List Nat := γ.map (·.2)

def valuation (γ : Bindings) (σ : Store) : Valuation := γ.map fun b => (b.1, σ b.2)

theorem valuation_lookup (γ : Bindings) (σ : Store) (name : String) :
    (γ.valuation σ).lookup name = (γ.lookup name).map σ := by
  induction γ with
  | nil => rfl
  | cons b rest ih =>
    obtain ⟨other, h⟩ := b
    simp only [valuation, List.map_cons, List.lookup_cons] at ih ⊢
    cases name == other with
    | true => rfl
    | false => exact ih

theorem mem_handles (found : γ.lookup name = some h) : h ∈ γ.handles := by
  obtain ⟨l₁, l₂, same, _⟩ := List.lookup_eq_some_iff.mp found
  simp [same, handles]

theorem lookup_of_mem (member : name ∈ γ.names) : ∃ h, γ.lookup name = some h := by
  obtain ⟨b, isBinding, rfl⟩ := List.mem_map.mp member
  cases found : γ.lookup b.1 with
  | some h => exact ⟨h, rfl⟩
  | none => simpa using List.lookup_eq_none_iff.mp found b isBinding

end Bindings

/-- A state of resolution in which exactly the variables of `γ` are in scope. -/
structure Bindings.Describes (γ : Bindings) (s : Resolving) : Prop where
  sound : s.world.types.Sound
  bound : ∀ {name h}, γ.lookup name = some h → ∃ ty, s.world.types.Numeric ty ∧
    s.scope.lookup? name = some (Expr.leaf (.var h ty true))
  others : ∀ {name h ty}, s.scope.lookup? name = some (Expr.leaf (.var h ty true)) →
    γ.lookup name = some h
  handles : ∀ h ∈ γ.handles, h < s.world.nextHandle
  distinct : γ.handles.Nodup
  frames : s.scope.frames ≠ []

theorem name_denotes (describes : γ.Describes s) (member : name ∈ γ.names) :
    (Meaning.name name).Denotes s fun σ => (γ.valuation σ).number name := by
  obtain ⟨h, found⟩ := γ.lookup_of_mem member
  obtain ⟨ty, numeric, inScope⟩ := describes.bound found
  have value : (fun σ => (γ.valuation σ).number name) = fun σ => σ h := by
    funext σ
    simp [Valuation.number, γ.valuation_lookup, found]
  have bound : s.scope.isBound name = true := by simp [Scope.isBound, inScope]
  rw [value]
  refine Meaning.ofConstOr_denotes (.scope ?_) (.scope ?_)
  · simp only [bound, ↓reduceIte]
    exact .pure nofun
  · simp only [inScope]
    exact .pure (var_computes (describes.handles h (γ.mem_handles found)) numeric)

theorem numbers_eq_map (ε : Valuation) (ts : List Term) : numbers ε ts = ts.map fun t => t.number ε := by
  induction ts with
  | nil => rw [numbers, List.map_nil]
  | cons t rest ih => rw [numbers, List.map_cons, ih]

mutual
theorem Term.meaning_denotes (nested : Nested) {γ : Bindings} (describes : γ.Describes s) :
    (t : Term) → t.isNumber γ.names = true →
      (t.meaning nested).Denotes s fun σ => t.number (γ.valuation σ)
  | .int n, _ => by
    simp only [Term.meaning, Term.number]
    exact Meaning.literal_denotes n
  | .id name, isNumber => by
    simp only [Term.meaning, Term.number, Term.isNumber] at isNumber ⊢
    exact name_denotes describes (List.contains_iff_mem.mp isNumber)
  | .chain op operands, isNumber => by
    simp only [Term.meaning, Term.number, Term.isNumber, Bool.and_eq_true, bne_iff_ne] at isNumber ⊢
    have denotes := Meaning.chain_denotes describes.sound isNumber.1
      (meanings_denote nested describes operands isNumber.2)
    simpa only [numbers_eq_map, List.map_map, Function.comp_def] using denotes
  | .compare op left right, isNumber => by
    simp only [Term.meaning, Term.number, Term.isNumber, Bool.and_eq_true] at isNumber ⊢
    exact Meaning.compare_denotes (Term.meaning_denotes nested describes left isNumber.1)
      (Term.meaning_denotes nested describes right isNumber.2) op
  | .logic op left right, isNumber => by
    simp only [Term.meaning, Term.number, Term.isNumber, Bool.and_eq_true] at isNumber ⊢
    exact Meaning.logic_denotes (Term.meaning_denotes nested describes left isNumber.1)
      (Term.meaning_denotes nested describes right isNumber.2) op
  | .not t, isNumber => by
    simp only [Term.meaning, Term.number, Term.isNumber] at isNumber ⊢
    exact Meaning.not_denotes (Term.meaning_denotes nested describes t isNumber)
theorem meanings_denote (nested : Nested) {γ : Bindings} (describes : γ.Describes s) :
    (ts : List Term) → areNumbers γ.names ts = true →
      List.Forall₂ (Meaning.Denotes s) (meanings nested ts)
        (ts.map fun t σ => t.number (γ.valuation σ))
  | [], _ => .nil
  | t :: rest, areNumbers => by
    simp only [AgentScript.areNumbers, Bool.and_eq_true] at areNumbers
    exact .cons (Term.meaning_denotes nested describes t areNumbers.1)
      (meanings_denote nested describes rest areNumbers.2)
end

end AgentScript
