import AgentScript.Proofs.Safety.Expression

/-! Sequences of slots as lists. Whatever is put together from leaves by joining and cutting denotes the
list that joining and cutting lists gives, although views of one leaf are merged on the way; and what can
be done with a slot of an expression is decided by the slot alone. -/
namespace AgentScript

namespace Piece
variable {α : Type} [Slotted α]

@[simp] theorem slots_length (p : Piece α) : p.slots.length = p.len := by
  cases p <;> simp [slots, len]

theorem slots_getElem? (p : Piece α) (i : Nat) :
    p.slots[i]? = if i < p.len then some (p.owner i) else none := by
  split
  · next inside => cases p <;> simp_all [slots, len, owner]
  · next outside => exact List.getElem?_eq_none (by rw [slots_length]; omega)

theorem slots_run (a : α) (base n : Nat) :
    (run a base n).slots = (List.range n).map fun i => (a, base + i) := by
  unfold run
  split
  · next whole =>
    obtain ⟨rfl, rfl⟩ := whole
    simp [slots]
  · rfl

theorem owner_run (a : α) (base n i : Nat) : (run a base n).owner i = (a, base + i) := by
  unfold run
  split
  · next whole => simp [owner, whole.1]
  · rfl

theorem slots_cut (p : Piece α) (inside : base + n ≤ p.len) :
    (p.cut base n).slots = (p.slots.drop base).take n := by
  apply List.ext_getElem?
  intro i
  rw [slots_getElem?, cut_len, List.getElem?_take, List.getElem?_drop, slots_getElem?]
  by_cases early : i < n
  · rw [if_pos early, if_pos early, if_pos (by omega), Option.some.injEq]
    unfold cut
    split
    · next whole =>
      have : base = 0 := by omega
      rw [this, Nat.zero_add]
    · cases p with
      | whole a => exact owner_run a base n i
      | view a start len => exact (owner_run ..).trans (by rw [owner, Nat.add_assoc])
  · rw [if_neg early, if_neg early]

theorem slots_merge {p q m : Piece α} (identity : sameLeaf p.leaf q.leaf = true → p.leaf = q.leaf)
    (merged : p.merge? q = some m) : m.slots = p.slots ++ q.slots := by
  obtain ⟨a, base, n, b, more, rfl, rfl, same, rfl⟩ := merge?_eq_some merged
  obtain rfl : a = b := identity same
  rw [slots_run, List.range_add, List.map_append, List.map_map]
  simp [slots, Function.comp_def, Nat.add_assoc]

/-- A piece of one of some leaves that lies within it. -/
structure Of (leaves : α → Prop) (p : Piece α) : Prop where
  leaf : leaves p.leaf
  fits : p.Fits

variable {leaves : α → Prop}

theorem Of.slots {p : Piece α} (piece : p.Of leaves) {x : α × Nat} (member : x ∈ p.slots) :
    leaves x.1 ∧ x.2 < Slotted.count x.1 := by
  obtain ⟨isLeaf, fits⟩ := piece
  cases p with
  | whole a =>
    obtain ⟨i, inside, rfl⟩ := List.mem_map.mp member
    exact ⟨isLeaf, List.mem_range.mp inside⟩
  | view a base len =>
    obtain ⟨i, inside, rfl⟩ := List.mem_map.mp member
    have fits : base + len ≤ Slotted.count a := fits
    have inside := List.mem_range.mp inside
    exact ⟨isLeaf, by dsimp only; omega⟩

theorem of_kept (identity : ∀ a b, leaves a → leaves b → sameLeaf a b = true → a = b) :
    Kept (Of leaves) where
  merge {p q m} first second merged := by
    refine ⟨(leaf_kept leaves).merge first.leaf second.leaf merged, ?_⟩
    obtain ⟨a, base, n, b, more, rfl, rfl, same, rfl⟩ := merge?_eq_some merged
    obtain rfl : a = b := identity a b first.leaf second.leaf same
    have within : base + n + more ≤ Slotted.count a := second.fits
    exact run_fits (by omega)
  cut piece inside := ⟨(leaf_kept leaves).cut piece.leaf inside, cut_fits piece.fits inside⟩

end Piece

namespace Slices
variable {α : Type} [Slotted α]

@[simp] theorem slots_nil : slots ([] : Slices α) = [] := rfl

@[simp] theorem slots_cons (p : Piece α) (e : Slices α) : slots (p :: e) = p.slots ++ slots e := rfl

@[simp] theorem slots_length (e : Slices α) : (slots e).length = len e := by
  induction e with
  | nil => rfl
  | cons p rest ih => rw [slots_cons, List.length_append, Piece.slots_length, ih, len_cons]

theorem locate?_eq (e : Slices α) (i : Nat) : locate? e i = (slots e)[i]? := by
  induction e generalizing i with
  | nil => rfl
  | cons p rest ih =>
    unfold locate?
    rw [slots_cons]
    split
    · next first =>
      rw [List.getElem?_append_left (by rwa [Piece.slots_length]), Piece.slots_getElem?, if_pos first]
    · next later =>
      rw [List.getElem?_append_right (by rw [Piece.slots_length]; omega), Piece.slots_length, ih]

/-- Sequences that are put together from some leaves. -/
inductive Built (leaves : α → Prop) : Slices α → Prop
  | empty : Built leaves []
  | leaf : leaves a → Built leaves [.whole a]
  | concat : Built leaves a → Built leaves b → Built leaves (concat a b)
  | group : (∀ e ∈ parts, Built leaves e) → Built leaves (group parts)
  | cut : Built leaves e → Slices.cut e base n = .ok part → Built leaves part

theorem Built.keeps {leaves : α → Prop} {P : Piece α → Prop} {X : Slices α → Prop} (kept : Kept P X)
    (whole : ∀ a, leaves a → P (.whole a)) {e : Slices α} (built : Built leaves e) : X e := by
  induction built with
  | empty => exact kept.nil
  | leaf isLeaf => exact kept.cons (whole _ isLeaf) kept.nil
  | concat _ _ first second => exact kept.concat first second
  | group _ each => exact kept.group each
  | cut _ done ih =>
    unfold Slices.cut at done
    split at done
    · cases done
    · next inside =>
      cases done
      exact kept.cutWithin ih (by omega)

section
variable {leaves : α → Prop} (identity : ∀ a b, leaves a → leaves b → sameLeaf a b = true → a = b)
include identity

theorem slots_join {p : Piece α} {e : Slices α} (first : p.Of leaves) (others : All (Piece.Of leaves) e) :
    slots (cons p e) = p.slots ++ slots e := by
  induction e generalizing p with
  | nil => rfl
  | cons q rest ih =>
    obtain ⟨next, others⟩ := all_cons.mp others
    unfold cons
    split
    · next merged =>
      rw [ih ((Piece.of_kept identity).merge first next merged) others,
        Piece.slots_merge (identity _ _ first.leaf next.leaf) merged, slots_cons, List.append_assoc]
    · rfl

theorem slots_concat {a b : Slices α} (first : All (Piece.Of leaves) a) (second : All (Piece.Of leaves) b) :
    slots (concat a b) = slots a ++ slots b := by
  unfold concat
  split
  · simp
  · induction a with
    | nil => rfl
    | cons p a ih =>
      obtain ⟨here, others⟩ := all_cons.mp first
      -- what the rest of `a` is joined to is again made of the leaves
      have joined := (all_kept (Piece.of_kept identity)).foldr others second
      rw [List.foldr_cons, slots_join identity here joined, ih others, slots_cons, List.append_assoc]

theorem slots_group {parts : List (Slices α)} (each : ∀ e ∈ parts, All (Piece.Of leaves) e) :
    slots (group parts) = (parts.map slots).flatten := by
  induction parts with
  | nil => rfl
  | cons e rest ih =>
    obtain ⟨first, others⟩ := List.forall_mem_cons.mp each
    change slots (concat e (group rest)) = _
    rw [slots_concat identity first (.group (Piece.of_kept identity) others), ih others, List.map_cons,
      List.flatten_cons]

theorem slots_cutWithin {e : Slices α} (built : All (Piece.Of leaves) e) (inside : base + n ≤ len e) :
    slots (cutWithin e base n) = ((slots e).drop base).take n := by
  induction e generalizing base n with
  | nil => simp [cutWithin]
  | cons p rest ih =>
    obtain ⟨here, others⟩ := all_cons.mp built
    rw [len_cons] at inside
    unfold cutWithin
    split
    · next whole =>
      have start : base = 0 := by omega
      rw [start, List.drop_zero, List.take_of_length_le (by rw [slots_length, len_cons]; omega)]
    · split
      · next none => simp [none]
      · rw [slots_cons, List.drop_append, List.take_append, Piece.slots_length, List.length_drop,
          Piece.slots_length]
        split
        · next within =>
          rw [show n - (p.len - base) = 0 by omega, List.take_zero, List.append_nil]
          exact (List.append_nil _).trans (p.slots_cut within)
        · split
          · next after =>
            have passed : p.slots.drop base = [] := List.drop_eq_nil_of_le (by rwa [Piece.slots_length])
            rw [ih others (by omega), passed, show p.len - base = 0 by omega, List.take_nil,
              List.nil_append, Nat.sub_zero]
          · next before =>
            have first : base + (p.len - base) ≤ p.len := by omega
            have later : 0 + (n - (p.len - base)) ≤ len rest := by omega
            rw [slots_join identity ((Piece.of_kept identity).cut here first)
                (others.cutWithin (Piece.of_kept identity) later),
              p.slots_cut first, ih others later, show base - p.len = 0 by omega,
              List.take_of_length_le (l := p.slots.drop base) (by simp),
              List.take_of_length_le (l := p.slots.drop base) (by simp; omega)]

theorem Built.all {e : Slices α} (built : Built leaves e) : All (Piece.Of leaves) e :=
  built.keeps (all_kept (Piece.of_kept identity)) fun _ isLeaf => ⟨isLeaf, trivial⟩

end

end Slices

/-- What can be asked of slot `i` of `e` and done with it is what can be asked of slot `j` of `e'`. -/
structure Expr.AlikeAt (e : Expr) (i : Nat) (e' : Expr) (j : Nat) : Prop where
  readType : e.readType i = e'.readType j
  writeType : e.writeType i = e'.writeType j
  perm : e.perm i = e'.perm j
  inline : ∀ env table, Slot.inlineAt (codeOf env table e).slots i =
    Slot.inlineAt (codeOf env table e').slots j
  role : ∀ env table, Slot.roleAt (codeOf env table e).slots i =
    Slot.roleAt (codeOf env table e').slots j
  write : ∀ env table, Slot.writeAt (codeOf env table e).slots i =
    Slot.writeAt (codeOf env table e').slots j

/-- A slot of generated code is the slot of the code of its leaf. -/
theorem codeOf_slots (env : Env) (table : Placeholder) {e : Expr} (fits : Slices.All Piece.Fits e)
    (i : Nat) : (codeOf env table e).slots[i]? =
      (Slices.slots e)[i]?.bind fun x => (x.1.code env table).slots[x.2]? := by
  induction e generalizing i with
  | nil =>
    rw [codeOf]
    rfl
  | cons p rest ih =>
    obtain ⟨here, others⟩ := Slices.all_cons.mp fits
    have count : (Code.pieceSlots (pieceCode env table p)).length = p.len := by
      cases p with
      | whole a =>
        rw [pieceCode]
        exact Leaf.code_count env table a
      | view a base len =>
        have within : base + len ≤ a.accesses.length := here
        rw [pieceCode]
        simp only [Code.pieceSlots, viewOf, List.length_take, List.length_drop, Leaf.code_count]
        exact Nat.min_eq_left (by omega)
    have first : (Code.pieceSlots (pieceCode env table p))[i]? =
        p.slots[i]?.bind fun x => (x.1.code env table).slots[x.2]? := by
      rw [Piece.slots_getElem?]
      split
      · next inside =>
        cases p with
        | whole a =>
          rw [pieceCode]
          rfl
        | view a base len =>
          have inside : i < len := inside
          rw [pieceCode]
          simp [Code.pieceSlots, viewOf, List.getElem?_take_of_lt inside, Piece.owner]
      · next outside => exact List.getElem?_eq_none (by omega)
    rw [codeOf, Slices.slots_cons]
    change (Code.pieceSlots (pieceCode env table p) ++ (codeOf env table rest).slots)[i]? = _
    by_cases inside : i < p.len
    · rw [List.getElem?_append_left (by omega), List.getElem?_append_left (by simpa using inside), first]
    · rw [List.getElem?_append_right (by omega), List.getElem?_append_right (by simpa using inside),
        count, Piece.slots_length, ih others]

section
variable {leaves : Leaf → Prop} (identity : ∀ a b, leaves a → leaves b → sameLeaf a b = true → a = b)
  {e e' : Expr} {i j : Nat}
include identity

theorem Expr.slots_of_leaves (built : Slices.Built leaves e) {x : Leaf × Nat}
    (member : x ∈ Slices.slots e) : leaves x.1 ∧ x.2 < Slotted.count x.1 := by
  obtain ⟨p, isPiece, isSlot⟩ := List.mem_flatMap.mp member
  exact (built.all identity p isPiece).slots isSlot

theorem Expr.access_eq (built : Slices.Built leaves e) (here : (Slices.slots e)[i]? = some (a, k)) :
    ∃ use, a.accesses[k]? = some use ∧ e.access i = .ok use := by
  have inside : k < a.accesses.length :=
    (slots_of_leaves identity built (List.mem_of_getElem? here)).2
  refine ⟨_, List.getElem?_eq_getElem inside, ?_⟩
  simp only [Expr.access, Slices.locate?_eq, here, List.getElem?_eq_getElem inside]

/-- Slots of two expressions that are the same slot of one leaf are used alike. -/
theorem Expr.AlikeAt.of_slot (built : Slices.Built leaves e) (built' : Slices.Built leaves e')
    (here : (Slices.slots e)[i]? = some x) (there : (Slices.slots e')[j]? = some x) :
    e.AlikeAt i e' j := by
  obtain ⟨a, k⟩ := x
  obtain ⟨use, found, access⟩ := access_eq identity built here
  obtain ⟨use', found', access'⟩ := access_eq identity built' there
  obtain rfl : use = use' := Option.some.inj (found.symm.trans found')
  have same : e.access i = e'.access j := access.trans access'.symm
  have slots (env : Env) (table : Placeholder) :
      (codeOf env table e).slots[i]? = (codeOf env table e').slots[j]? := by
    rw [codeOf_slots env table (fun p member => (built.all identity p member).fits),
      codeOf_slots env table (fun p member => (built'.all identity p member).fits), here, there]
  have get (env : Env) (table : Placeholder) :
      Slot.get (codeOf env table e).slots i = Slot.get (codeOf env table e').slots j := by
    have inside : k < a.accesses.length := (List.getElem?_eq_some_iff.mp found).1
    have isSlot : (codeOf env table e).slots[i]? = some ((a.code env table).slots.get
        ⟨k, by rwa [Leaf.code_count]⟩) := by
      rw [codeOf_slots env table (fun p member => (built.all identity p member).fits), here]
      exact List.getElem?_eq_getElem _
    unfold Slot.get
    rw [← slots env table, isSlot]
  refine ⟨?_, ?_, ?_, fun env table => ?_, fun env table => ?_, fun env table => ?_⟩
  · rw [Expr.readType, Expr.readType, same]
  · rw [Expr.writeType, Expr.writeType, same]
  · rw [Expr.perm, Expr.perm, same]
  · funext forWrite s
    rw [Slot.inlineAt, Slot.inlineAt, get env table]
  · rw [Slot.roleAt, Slot.roleAt, slots env table]
  · funext input exact
    rw [Slot.writeAt, Slot.writeAt, get env table]

end

end AgentScript
