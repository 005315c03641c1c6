import AgentScript.Cache
import Mathlib.Data.List.Forall2

/-! Lengths of sequences, and properties of their pieces that joining and cutting keep. -/
namespace AgentScript

namespace Piece
variable {α : Type}

def leaf : Piece α → α
  | whole leaf => leaf
  | view leaf _ _ => leaf

variable [Slotted α]

@[simp] theorem run_leaf (a : α) (base len : Nat) : (run a base len).leaf = a := by
  unfold run
  split <;> rfl

@[simp] theorem run_len (a : α) (base n : Nat) : (run a base n).len = n := by
  unfold run
  split
  · next all => exact all.2.symm
  · rfl

@[simp] theorem cut_len (p : Piece α) (base n : Nat) : (p.cut base n).len = n := by
  unfold cut
  split
  · next same => exact same.symm
  · split <;> simp

theorem merge?_eq_some {p q m : Piece α} (merged : p.merge? q = some m) :
    ∃ a base n b more, p = view a base n ∧ q = view b (base + n) more ∧ sameLeaf a b = true ∧
      m = run a base (n + more) := by
  unfold merge? at merged
  split at merged
  · split at merged
    · next follows =>
      cases merged
      exact ⟨_, _, _, _, _, rfl, by rw [follows.2], follows.1, rfl⟩
    · cases merged
  · cases merged

theorem merge_len {p q m : Piece α} (merged : p.merge? q = some m) : m.len = p.len + q.len := by
  obtain ⟨a, base, n, b, more, rfl, rfl, _, rfl⟩ := merge?_eq_some merged
  exact run_len _ _ _

/-- A property that a piece keeps when it is joined with another or cut. -/
structure Kept (P : Piece α → Prop) : Prop where
  merge : ∀ {p q m}, P p → P q → p.merge? q = some m → P m
  cut : ∀ {p base n}, P p → base + n ≤ p.len → P (p.cut base n)

theorem leaf_kept (P : α → Prop) : Kept fun p : Piece α => P p.leaf where
  merge := by
    intro p q m first _ merged
    obtain ⟨a, base, n, b, more, rfl, rfl, _, rfl⟩ := merge?_eq_some merged
    rw [run_leaf]
    exact first
  cut := by
    intro p base n holds _
    unfold Piece.cut
    split
    · exact holds
    · split <;> rwa [run_leaf]

end Piece

namespace Slices
variable {α : Type} [Slotted α]

@[simp] theorem len_nil : len ([] : Slices α) = 0 := rfl

@[simp] theorem len_cons (p : Piece α) (e : Slices α) : len (p :: e) = p.len + len e := rfl

@[simp] theorem len_join (p : Piece α) (e : Slices α) : len (cons p e) = p.len + len e := by
  induction e generalizing p with
  | nil => rfl
  | cons q rest ih =>
    unfold cons
    split
    · next merged => rw [ih, Piece.merge_len merged, len_cons, Nat.add_assoc]
    · rfl

theorem len_foldr (a b : Slices α) : len (a.foldr cons b) = len a + len b := by
  induction a with
  | nil => simp
  | cons p a ih => simp [ih, Nat.add_assoc]

@[simp] theorem len_concat (a b : Slices α) : len (concat a b) = len a + len b := by
  unfold concat
  split
  · rfl
  · exact len_foldr a b

theorem len_group_cons (e : Slices α) (parts : List (Slices α)) :
    len (group (e :: parts)) = len e + len (group parts) :=
  len_concat e (group parts)

theorem len_cutWithin (e : Slices α) {base n : Nat} (within : base + n ≤ len e) :
    len (cutWithin e base n) = n := by
  induction e generalizing base n with
  | nil =>
    have : base + n = 0 := by simpa using within
    simp [cutWithin]
    omega
  | cons p rest ih =>
    rw [len_cons] at within
    unfold cutWithin
    split
    · next all => exact all.symm
    · split
      · next empty => simp [empty]
      · split
        · simp
        · split
          · exact ih (by omega)
          · rw [len_join, Piece.cut_len, ih (by omega)]
            omega

section
variable {P : Piece α → Prop}

def All (P : Piece α → Prop) (e : Slices α) : Prop := ∀ p ∈ e, P p

omit [Slotted α] in
theorem all_nil : All P ([] : Slices α) := by simp [All]

omit [Slotted α] in
theorem all_cons {p : Piece α} {e : Slices α} : All P (p :: e) ↔ P p ∧ All P e := List.forall_mem_cons

theorem All.join (kept : Piece.Kept P) {p : Piece α} {e : Slices α} (first : P p) (others : All P e) :
    All P (cons p e) := by
  induction e generalizing p with
  | nil => exact all_cons.mpr ⟨first, all_nil⟩
  | cons q rest ih =>
    obtain ⟨next, others⟩ := all_cons.mp others
    unfold cons
    split
    · next merged => exact ih (kept.merge first next merged) others
    · exact all_cons.mpr ⟨first, all_cons.mpr ⟨next, others⟩⟩

/-- A property of sequences that joining and cutting keep, because of a property of their pieces. -/
structure Kept (P : Piece α → Prop) (X : Slices α → Prop) : Prop where
  nil : X []
  tail : X (p :: e) → P p ∧ X e
  cons : P p → X e → X (cons p e)
  cut : P p → n ≠ 0 → base + n ≤ p.len → P (p.cut base n)

namespace Kept
variable {X : Slices α → Prop} (kept : Kept P X) {a b : Slices α}
include kept

theorem foldr (first : X a) (second : X b) : X (a.foldr Slices.cons b) := by
  induction a with
  | nil => exact second
  | cons p a ih =>
    obtain ⟨here, others⟩ := kept.tail first
    exact kept.cons here (ih others)

theorem concat (first : X a) (second : X b) : X (concat a b) := by
  unfold Slices.concat
  split
  · exact first
  · exact kept.foldr first second

theorem group {parts : List (Slices α)} (each : ∀ e ∈ parts, X e) : X (group parts) := by
  induction parts with
  | nil => exact kept.nil
  | cons e rest ih =>
    obtain ⟨first, others⟩ := List.forall_mem_cons.mp each
    exact kept.concat first (ih others)

theorem cutWithin {e : Slices α} (holds : X e) {base n : Nat} (within : base + n ≤ len e) :
    X (cutWithin e base n) := by
  induction e generalizing base n with
  | nil => exact kept.nil
  | cons p rest ih =>
    rw [len_cons] at within
    obtain ⟨first, others⟩ := kept.tail holds
    unfold Slices.cutWithin
    split
    · exact holds
    split
    · exact kept.nil
    split
    · next some inside => exact kept.cons (kept.cut first some inside) kept.nil
    split
    · exact ih others (by omega)
    · exact kept.cons (kept.cut first (by omega) (by omega)) (ih others (by omega))

end Kept

theorem all_kept (kept : Piece.Kept P) : Kept P (All P) where
  nil := all_nil
  tail := all_cons.mp
  cons := .join kept
  cut holds _ inside := kept.cut holds inside

theorem All.group (kept : Piece.Kept P) {parts : List (Slices α)} (each : ∀ e ∈ parts, All P e) :
    All P (group parts) :=
  (all_kept kept).group each

theorem All.cutWithin (kept : Piece.Kept P) {e : Slices α} (holds : All P e) {base n : Nat}
    (within : base + n ≤ len e) : All P (cutWithin e base n) :=
  (all_kept kept).cutWithin holds within

end

end Slices

/-- The same part of two leaves. -/
inductive Piece.Match {α : Type} (M : α → α → Prop) : Piece α → Piece α → Prop where
  | whole : M a b → Match M (.whole a) (.whole b)
  | view : M a b → Match M (.view a base n) (.view b base n)

/-- Related leaves have as many slots as each other and are told apart alike. -/
structure Slotted.Respects {α : Type} [Slotted α] (M : α → α → Prop) : Prop where
  count : M a b → (Slotted.count a : Nat) = Slotted.count b
  same : M a a' → M b b' → sameLeaf a b = sameLeaf a' b'

section
variable {α : Type} [Slotted α] {M : α → α → Prop} (respects : Slotted.Respects M)
include respects

namespace Piece.Match
variable {p q : Piece α}

theorem len (same : Match M p q) : q.len = p.len := by
  cases same with
  | whole leaf => exact (respects.count leaf).symm
  | view leaf => rfl

theorem run {a b : α} (same : M a b) (base n : Nat) :
    Match M (Piece.run a base n) (Piece.run b base n) := by
  unfold Piece.run
  rw [← respects.count same]
  split
  · exact .whole same
  · exact .view same

theorem cut (same : Match M p q) (base n : Nat) : Match M (p.cut base n) (q.cut base n) := by
  unfold Piece.cut
  rw [same.len respects]
  split
  · exact same
  · cases same with
    | whole leaf => exact run respects leaf base n
    | view leaf => exact run respects leaf _ n

theorem merge? {p' q' : Piece α} (first : Match M p p') (second : Match M q q') :
    Option.Rel (Match M) (p.merge? q) (p'.merge? q') := by
  cases first with
  | whole leaf => exact .none
  | view leaf =>
    cases second with
    | whole other => exact .none
    | view other =>
      simp only [Piece.merge?, respects.same leaf other]
      split
      · exact .some (run respects leaf _ _)
      · exact .none

end Piece.Match

namespace Slices
variable {e e' : Slices α}

theorem len_match (same : List.Forall₂ (Piece.Match M) e e') : len e' = len e := by
  induction same with
  | nil => rfl
  | cons first _ ih => rw [len_cons, len_cons, first.len respects, ih]

theorem cons_match {p p' : Piece α} (first : p.Match M p') (same : List.Forall₂ (Piece.Match M) e e') :
    List.Forall₂ (Piece.Match M) (cons p e) (cons p' e') := by
  induction same generalizing p p' with
  | nil => exact .cons first .nil
  | cons second others ih =>
    have merged := first.merge? respects second
    unfold cons
    generalize Piece.merge? p _ = m at merged ⊢
    generalize Piece.merge? p' _ = m' at merged ⊢
    cases merged with
    | some joined => exact ih joined
    | none => exact .cons first (.cons second others)

theorem concat_match {a a' b b' : Slices α} (first : List.Forall₂ (Piece.Match M) a a')
    (second : List.Forall₂ (Piece.Match M) b b') :
    List.Forall₂ (Piece.Match M) (concat a b) (concat a' b') := by
  cases second with
  | nil => exact first
  | cons next others =>
    have second := List.Forall₂.cons next others
    change List.Forall₂ _ (List.foldr _ _ _) (List.foldr _ _ _)
    induction first with
    | nil => exact second
    | cons here _ ih => exact cons_match respects here ih

theorem group_match {parts parts' : List (Slices α)}
    (each : List.Forall₂ (List.Forall₂ (Piece.Match M)) parts parts') :
    List.Forall₂ (Piece.Match M) (group parts) (group parts') := by
  induction each with
  | nil => exact .nil
  | cons first _ ih => exact concat_match respects first ih

theorem cutWithin_match (same : List.Forall₂ (Piece.Match M) e e') (base n : Nat) :
    List.Forall₂ (Piece.Match M) (cutWithin e base n) (cutWithin e' base n) := by
  induction same generalizing base n with
  | nil => exact .nil
  | cons first others ih =>
    unfold cutWithin
    rw [first.len respects, len_match respects others]
    split
    · exact .cons first others
    · split
      · exact .nil
      · split
        · exact .cons (first.cut respects base n) .nil
        · split
          · exact ih _ n
          · exact cons_match respects (first.cut respects _ _) (ih _ _)

/-- The owners of a slot are related, and it has the same place in both. -/
theorem locate?_match (same : List.Forall₂ (Piece.Match M) e e') (i : Nat) :
    Option.Rel (fun a b => M a.1 b.1 ∧ b.2 = a.2) (locate? e i) (locate? e' i) := by
  induction same generalizing i with
  | nil => exact .none
  | cons first _ ih =>
    unfold locate?
    rw [first.len respects]
    split
    · cases first with
      | whole leaf | view leaf => exact .some ⟨leaf, rfl⟩
    · exact ih _

end Slices

end

namespace Cache
variable {rs : List Run}

/-- Runs that follow each other from slot `start` on, each as long as the flag stays the same. -/
def Covers (flags : List Bool) : Nat → List Run → Prop
  | start, [] => start = flags.length
  | start, r :: rest => r.start = start ∧ 0 < r.len ∧
    (∀ i, start ≤ i → i < start + r.len → flags[i]? = some r.copied) ∧
    flags[start + r.len]? ≠ some r.copied ∧ Covers flags (start + r.len) rest

theorem runs_covers (before flags : List Bool) :
    Covers (before ++ flags) before.length (runs before.length flags) := by
  induction flags generalizing before with
  | nil => simp [runs, Covers]
  | cons b rest ih =>
    have later := ih (before ++ [b])
    rw [List.length_append, List.length_singleton, List.append_assoc, List.singleton_append] at later
    have here (i : Nat) (low : before.length ≤ i) (high : i < before.length + 1) :
        (before ++ b :: rest)[i]? = some b := by
      obtain rfl : i = before.length := by omega
      simp
    unfold runs
    split
    · next none =>
      rw [none] at later
      refine ⟨rfl, Nat.one_pos, here, ?_, later⟩
      rw [List.getElem?_eq_none (Nat.le_of_eq later.symm)]
      exact nofun
    · next first more found =>
      rw [found] at later
      obtain ⟨begins, some, flag, last, others⟩ := later
      split
      · next same =>
        subst same
        have length : before.length + (first.len + 1) = before.length + 1 + first.len := by omega
        refine ⟨rfl, Nat.succ_pos _, fun i low high => ?_, length ▸ last, length ▸ others⟩
        by_cases isFirst : i < before.length + 1
        · exact here i low isFirst
        · exact flag i (Nat.not_lt.mp isFirst) (by simp only at high; omega)
      · next differ =>
        refine ⟨rfl, Nat.one_pos, here, ?_, begins, some, flag, last, others⟩
        rw [flag _ (Nat.le_refl _) (Nat.lt_add_of_pos_right some)]
        simpa using differ

namespace Covers
variable {flags : List Bool} {start : Nat}

theorem le (covers : Covers flags start rs) : start ≤ flags.length := by
  induction rs generalizing start with
  | nil => exact Nat.le_of_eq covers
  | cons r rest ih =>
    have := ih covers.2.2.2.2
    omega

theorem pairwise (covers : Covers flags start rs) :
    rs.Pairwise (fun r later => r.start + r.len ≤ later.start) ∧ ∀ r ∈ rs, start ≤ r.start := by
  induction rs generalizing start with
  | nil => exact ⟨.nil, by simp⟩
  | cons r rest ih =>
    obtain ⟨rfl, _, _, _, later⟩ := covers
    obtain ⟨ordered, above⟩ := ih later
    refine ⟨.cons above ordered, List.forall_mem_cons.mpr ⟨Nat.le_refl _, fun r' member => ?_⟩⟩
    exact Nat.le_trans (Nat.le_add_right ..) (above r' member)

/-- A run has one flag, which its neighbours do not have. -/
theorem each (covers : Covers flags start rs) : ∀ r ∈ rs, 0 < r.len ∧ r.start + r.len ≤ flags.length ∧
    (∀ i, r.start ≤ i → i < r.start + r.len → flags[i]? = some r.copied) ∧
    flags[r.start + r.len]? ≠ some r.copied ∧ (start < r.start → flags[r.start - 1]? ≠ some r.copied) := by
  induction rs generalizing start with
  | nil => simp
  | cons r rest ih =>
    obtain ⟨rfl, some, flag, last, later⟩ := covers
    refine List.forall_mem_cons.mpr
      ⟨⟨some, later.le, flag, last, fun before => absurd before (Nat.lt_irrefl _)⟩, fun r' member => ?_⟩
    obtain ⟨some', inside, flag', last', others⟩ := ih later r' member
    refine ⟨some', inside, flag', last', fun after => ?_⟩
    by_cases further : r.start + r.len < r'.start
    · exact others further
    -- the next run begins where this one ends
    · have := later.pairwise.2 r' member
      have follows : r'.start = r.start + r.len := by omega
      rw [flag _ (by omega) (by omega), ← flag' _ (Nat.le_refl _) (by omega), follows]
      exact Ne.symm last

/-- Each slot is in a run with its flag, which goes on as long as the flag does. -/
theorem mem (covers : Covers flags start rs) (low : start ≤ i) (found : flags[i]? = some b) :
    ∃ r ∈ rs, r.copied = b ∧ r.start ≤ i ∧ i < r.start + r.len ∧ flags[r.start + r.len]? ≠ some b := by
  induction rs generalizing start with
  | nil =>
    have : i < flags.length := (List.getElem?_eq_some_iff.mp found).1
    have : start = flags.length := covers
    omega
  | cons r rest ih =>
    obtain ⟨rfl, _, flag, last, later⟩ := covers
    by_cases here : i < r.start + r.len
    · obtain rfl : r.copied = b := Option.some.inj ((flag i low here).symm.trans found)
      exact ⟨r, List.mem_cons_self, rfl, low, here, last⟩
    · obtain ⟨r', member, isRun⟩ := ih later (Nat.not_lt.mp here)
      exact ⟨r', List.mem_cons_of_mem _ member, isRun⟩

end Covers

theorem copied_of_flag {copied : Nat → Bool} {n start len : Nat} {b : Bool} (inside : start + len ≤ n)
    (flag : ∀ i, start ≤ i → i < start + len → ((List.range n).map copied)[i]? = some b) :
    ∀ i, start ≤ i → i < start + len → copied i = b := by
  intro i low high
  simpa [List.getElem?_range (Nat.lt_of_lt_of_le high inside)] using flag i low high

section
variable {α : Type} [Slotted α] {next next' : Nat} {s : Source α}

theorem freshVars_next {readType : Nat → Except Cause TypeId} {label : Nat → String} {places : List Nat}
    {r : Except Cause (List LocalVar)} (made : freshVars readType label places next = (r, next')) :
    next ≤ next' := by
  induction places generalizing next r with
  | nil =>
    cases made
    exact Nat.le_refl _
  | cons i rest ih =>
    unfold freshVars at made
    split at made
    · cases made
      exact Nat.le_refl _
    · split at made <;> next later =>
        cases made
        exact Nat.le_of_succ_le (ih later)

/-- Each slot has a variable of its type, and the variables have handles in order. -/
theorem freshVars_spec {readType : Nat → Except Cause TypeId} {label : Nat → String} {places : List Nat}
    {vars : List LocalVar} (made : freshVars readType label places next = (.ok vars, next')) :
    vars.map (·.handle) = List.range' next places.length ∧ vars.map (·.label) = places.map label ∧
      (vars.map fun v => Except.ok v.ty) = places.map readType ∧ next' = next + places.length := by
  fun_induction freshVars readType label places next generalizing vars next' with
  | case1 => simp_all
  | case2 => simp at made
  | case3 => simp at made
  | case4 i rest next ty isType vars next' made' ih =>
    simp only [Prod.mk.injEq, Except.ok.injEq] at made
    obtain ⟨rfl, rfl⟩ := made
    obtain ⟨handles, labels, types, stop⟩ := ih made'
    simp [handles, labels, types, isType, stop, List.range'_succ, Nat.add_assoc, Nat.add_comm 1]

theorem freshVars_length {readType : Nat → Except Cause TypeId} {label : Nat → String} {places : List Nat}
    {vars : List LocalVar} (made : freshVars readType label places next = (.ok vars, next')) :
    vars.length = places.length := by
  simpa using congrArg List.length (freshVars_spec made).1

theorem pieces_next {r : Except Cause (List (Slices α × List LocalVar) × List (Slices α))}
    (made : pieces s rs next = (r, next')) : next ≤ next' := by
  induction rs generalizing next r with
  | nil =>
    cases made
    exact Nat.le_refl _
  | cons run rest ih =>
    unfold pieces at made
    dsimp only at made
    split at made
    · split at made
      · next failed =>
        cases made
        exact freshVars_next failed
      · next vars =>
        split at made <;> next later =>
          cases made
          exact Nat.le_trans (freshVars_next vars) (ih later)
    · split at made <;> next later =>
        cases made
        exact ih later

theorem make_next (s : Source α) (copied : Nat → Bool) (next : Nat) :
    next ≤ (make s copied next).2 := by
  unfold make
  split <;> next found => exact pieces_next found

theorem len_vars {leafOf : LocalVar → α} (single : ∀ v, Slotted.count (leafOf v) = 1)
    (vars : List LocalVar) : Slices.len (vars.map fun v => Piece.whole (leafOf v)) = vars.length := by
  induction vars with
  | nil => rfl
  | cons v rest ih => simp [Piece.len, single, ih, Nat.add_comm]

/-- How a sequence is taken apart: into copies, and into parts that are cut from it or made of variables. -/
inductive Split (s : Source α) : List Run → (next : Nat) → List (Slices α × List LocalVar) →
    List (Slices α) → Prop
  | nil : Split s [] n [] []
  | copied {r : Run} {vars : List LocalVar} : r.copied →
    freshVars s.readType s.label (List.range' r.start r.len) n = (.ok vars, n') →
    Split s rest n' copies parts → Split s (r :: rest) n
      ((Slices.cutWithin s.input r.start r.len, vars) :: copies) (vars.map (fun v => .whole (s.leafOf v)) :: parts)
  | kept : ¬ r.copied → Split s rest n copies parts →
    Split s (r :: rest) n copies (Slices.cutWithin s.input r.start r.len :: parts)

theorem pieces_split {copies : List (Slices α × List LocalVar)} {parts : List (Slices α)}
    (made : pieces s rs next = (.ok (copies, parts), next')) : Split s rs next copies parts := by
  induction rs generalizing next copies parts with
  | nil =>
    cases made
    exact .nil
  | cons r rest ih =>
    unfold pieces at made
    dsimp only at made
    split at made
    · next copied =>
      split at made
      · cases made
      · next vars _ fresh =>
        split at made <;> cases made
        next later => exact .copied copied fresh (ih later)
    · next kept =>
      split at made <;> cases made
      next later => exact .kept kept (ih later)

theorem make_split {copied : Nat → Bool} {result : Result α} (made : make s copied next = (.ok result, next')) :
    ∃ parts, Split s (runs 0 ((List.range (Slices.len s.input)).map copied)) next result.copies parts ∧
      result.output = Slices.group parts := by
  unfold make at made
  split at made <;> cases made
  next found => exact ⟨_, pieces_split found, rfl⟩

theorem freshVars_error {readType : Nat → Except Cause TypeId} {label : Nat → String} {places : List Nat}
    (failed : (freshVars readType label places next).1 = .error c) : ∃ i ∈ places, readType i = .error c := by
  fun_induction freshVars readType label places next with
  | case1 => cases failed
  | case2 i rest next e isError =>
    cases failed
    exact ⟨i, List.mem_cons_self, isError⟩
  | case3 i rest next ty _ e next' made ih =>
    cases failed
    obtain ⟨j, member, isError⟩ := ih (by rw [made])
    exact ⟨j, List.mem_cons_of_mem _ member, isError⟩
  | case4 => cases failed

theorem pieces_error (failed : (pieces s rs next).1 = .error c) :
    ∃ r ∈ rs, r.copied = true ∧ ∃ i ∈ List.range' r.start r.len, s.readType i = .error c := by
  induction rs generalizing next with
  | nil => cases failed
  | cons r rest ih =>
    have later {next : Nat} (failed : (pieces s rest next).1 = .error c) :
        ∃ r' ∈ r :: rest, r'.copied = true ∧ ∃ i ∈ List.range' r'.start r'.len, s.readType i = .error c := by
      obtain ⟨r', member, found⟩ := ih failed
      exact ⟨r', List.mem_cons_of_mem _ member, found⟩
    unfold pieces at failed
    dsimp only at failed
    split at failed
    · next isCopied =>
      split at failed
      · next fresh =>
        cases failed
        exact ⟨r, List.mem_cons_self, isCopied, freshVars_error (by rw [fresh])⟩
      · split at failed <;> cases failed
        next others => exact later (by rw [others])
    · split at failed <;> cases failed
      next others => exact later (by rw [others])

/-- Making copies fails only because a slot to be copied cannot be read. -/
theorem make_error {copied : Nat → Bool} (failed : (make s copied next).1 = .error c) :
    ∃ i < Slices.len s.input, copied i = true ∧ s.readType i = .error c := by
  have covers := runs_covers [] ((List.range (Slices.len s.input)).map copied)
  unfold make at failed
  split at failed <;> cases failed
  next found =>
    obtain ⟨r, member, isCopied, i, place, isError⟩ := pieces_error (by rw [found])
    obtain ⟨_, inside, flag, _⟩ := covers.each r member
    obtain ⟨low, high⟩ := List.mem_range'_1.mp place
    simp only [List.nil_append, List.length_map, List.length_range] at inside flag
    have copied := (copied_of_flag inside flag i low high).trans isCopied
    exact ⟨i, Nat.lt_of_lt_of_le high inside, copied, isError⟩

/-- Copies have a variable for each slot, and each part is cut from the sequence or made of the
variables of a copy. -/
theorem Split.parts {P : Piece α → Prop} (kept : Piece.Kept P) (input : Slices.All P s.input)
    {start : Nat} {copies : List (Slices α × List LocalVar)} {parts : List (Slices α)}
    (covers : Covers flags start rs) (count : flags.length = Slices.len s.input) (split : Split s rs next copies parts) :
    (∀ c ∈ copies, Slices.All P c.1 ∧ c.2.length = Slices.len c.1) ∧
    (∀ e ∈ parts, Slices.All P e ∨ ∃ c ∈ copies, e = c.2.map fun v => .whole (s.leafOf v)) ∧
    ((∀ v, Slotted.count (s.leafOf v) = 1) → start + Slices.len (Slices.group parts) = Slices.len s.input) := by
  induction split generalizing start with
  | nil => exact ⟨by simp, by simp, fun _ => (show start = flags.length from covers).trans count⟩
  | @copied _ _ _ _ _ r vars _ fresh _ ih =>
    obtain ⟨rfl, _, _, _, later⟩ := covers
    have inside := count ▸ later.le
    have cutLen := Slices.len_cutWithin s.input inside
    obtain ⟨sources, outputs, total⟩ := ih later
    have varCount : vars.length = r.len := by simpa using freshVars_length fresh
    refine ⟨?_, ?_, fun single => ?_⟩
    · exact List.forall_mem_cons.mpr ⟨⟨input.cutWithin kept inside, varCount.trans cutLen.symm⟩, sources⟩
    · refine List.forall_mem_cons.mpr ⟨.inr ⟨_, List.mem_cons_self, rfl⟩, fun e member => ?_⟩
      exact (outputs e member).imp_right fun ⟨c, among, same⟩ => ⟨c, List.mem_cons_of_mem _ among, same⟩
    · have := total single
      have varLen := len_vars single vars
      rw [Slices.len_group_cons, varLen]
      omega
  | kept _ _ ih =>
    obtain ⟨rfl, _, _, _, later⟩ := covers
    have inside := count ▸ later.le
    obtain ⟨sources, outputs, total⟩ := ih later
    refine ⟨sources, List.forall_mem_cons.mpr ⟨.inl (input.cutWithin kept inside), outputs⟩, fun single => ?_⟩
    have := total single
    rw [Slices.len_group_cons, Slices.len_cutWithin s.input inside]
    omega

theorem make_parts {P : Piece α → Prop} (kept : Piece.Kept P) (input : Slices.All P s.input)
    {copied : Nat → Bool} {result : Result α} (made : make s copied next = (.ok result, next')) :
    (∀ c ∈ result.copies, Slices.All P c.1 ∧ c.2.length = Slices.len c.1) ∧
    (∀ {Q : Piece α → Prop}, Piece.Kept Q → (∀ p, P p → Q p) →
      (∀ c ∈ result.copies, ∀ v ∈ c.2, Q (.whole (s.leafOf v))) → Slices.All Q result.output) ∧
    ((∀ v, Slotted.count (s.leafOf v) = 1) → Slices.len result.output = Slices.len s.input) := by
  obtain ⟨parts, split, isOutput⟩ := make_split made
  have covers := runs_covers [] ((List.range (Slices.len s.input)).map copied)
  obtain ⟨sources, outputs, total⟩ := split.parts kept input covers (by simp)
  rw [isOutput]
  refine ⟨sources, fun keptQ weaker vars => .group keptQ fun e member => ?_, fun single => ?_⟩
  · rcases outputs e member with cut | ⟨c, among, rfl⟩
    · exact fun p here => weaker p (cut p here)
    · intro p here
      obtain ⟨v, isVar, rfl⟩ := List.mem_map.mp here
      exact vars c among v isVar
  · simpa using total single

end

end Cache

end AgentScript
