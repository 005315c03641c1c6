import AgentScript.Proofs.Slots

/-! What becomes of the slots of an expression when some of them are copied. The others stay as they are,
each copied slot becomes a variable of its own, and neighbours are copied together as far as they go. -/
namespace AgentScript.Cache

section
variable {copied : Nat → Bool} {b : Bool} {start n i j k : Nat}

def rank (copied : Nat → Bool) (i : Nat) : Nat := ((List.range i).filter copied).length

theorem rank_succ (copied : Nat → Bool) (i : Nat) :
    rank copied (i + 1) = rank copied i + if copied i then 1 else 0 := by
  cases known : copied i <;> simp [rank, List.range_succ, known]

theorem rank_mono (le : i ≤ j) : rank copied i ≤ rank copied j := by
  induction le with
  | refl => exact Nat.le_refl _
  | step _ ih =>
    rw [rank_succ]
    omega

theorem rank_inj (first : copied i = true) (second : copied j = true) (same : rank copied i = rank copied j) :
    i = j := by
  have before {i j : Nat} (isCopied : copied i = true) (less : i < j) : rank copied i < rank copied j := by
    have later : rank copied (i + 1) ≤ rank copied j := rank_mono less
    rw [rank_succ, if_pos isCopied] at later
    omega
  rcases Nat.lt_trichotomy i j with less | equal | more
  · exact absurd same (Nat.ne_of_lt (before first less))
  · exact equal
  · exact absurd same.symm (Nat.ne_of_lt (before second more))

theorem rank_run (all : ∀ i, start ≤ i → i < start + n → copied i = b) (inside : k ≤ n) :
    rank copied (start + k) = rank copied start + if b then k else 0 := by
  induction k with
  | zero => simp
  | succ k ih =>
    rw [← Nat.add_assoc, rank_succ, ih (by omega), all (start + k) (by omega) (by omega)]
    cases b <;> simp [Nat.add_assoc]

end

theorem view_some (list : List β) (start n : Nat) (inside : start + n ≤ list.length) :
    ((list.drop start).take n).map some = (List.range' start n).map fun i => list[i]? := by
  apply List.ext_getElem?
  intro k
  by_cases within : k < n
  · simp [List.getElem?_take_of_lt within, List.getElem?_range' within, show start + k < list.length by omega]
  · rw [List.getElem?_eq_none (by simp; omega), List.getElem?_eq_none (by simp; omega)]

section
variable {α : Type} {s : Source α} {copied : Nat → Bool} {start next : Nat}

/-- Variables for some slots, each with the handle that its rank gives. -/
structure VarsFor (s : Source α) (copied : Nat → Bool) (next : Nat) (places : List Nat)
    (vars : List LocalVar) : Prop where
  handles : vars.map (·.handle) = places.map fun i => next + rank copied i
  labels : vars.map (·.label) = places.map s.label
  types : (vars.map fun v => Except.ok v.ty) = places.map s.readType

theorem VarsFor.get {places : List Nat} {vars : List LocalVar} {k i : Nat} 
    (isFor : VarsFor s copied next places vars) (here : places[k]? = some i) :
    ∃ ty, s.readType i = .ok ty ∧ vars[k]? = some ⟨next + rank copied i, ty, s.label i⟩ := by
  have handle := congrArg (·[k]?) isFor.handles
  have label := congrArg (·[k]?) isFor.labels
  have type := congrArg (·[k]?) isFor.types
  simp only [List.getElem?_map, here, Option.map_some] at handle label type
  cases found : vars[k]? with
  | none => simp [found] at handle
  | some v =>
    simp only [found, Option.map_some, Option.some.injEq] at handle label type
    exact ⟨v.ty, type.symm, by rw [← handle, ← label]⟩

theorem range'_split {start n len : Nat} (inside : start + n ≤ len) :
    List.range' start (len - start) = List.range' start n ++ List.range' (start + n) (len - (start + n)) := by
  rw [List.range'_append_1]
  congr 1
  omega

variable [Slotted α]

/-- What slot `i` becomes. -/
def Becomes (s : Source α) (copied : Nat → Bool) (next i : Nat) (slot : Option (α × Nat)) : Prop :=
  if copied i then ∃ ty, s.readType i = .ok ty ∧ slot = some (s.leafOf ⟨next + rank copied i, ty, s.label i⟩, 0)
  else slot = (Slices.slots s.input)[i]?

theorem slots_vars {leafOf : LocalVar → α} (single : ∀ v, Slotted.count (leafOf v) = 1) (vars : List LocalVar) :
    Slices.slots (vars.map fun v => Piece.whole (leafOf v)) = vars.map fun v => (leafOf v, 0) := by
  induction vars with
  | nil => rfl
  | cons v rest ih =>
    rw [List.map_cons, Slices.slots_cons, ih, Piece.slots, single]
    rfl

variable {leaves : α → Prop} (identity : ∀ a b, leaves a → leaves b → sameLeaf a b = true → a = b)
  (built : Slices.All (Piece.Of leaves) s.input) (single : ∀ v, Slotted.count (s.leafOf v) = 1)
include identity built single

/-- Run after run: what the slots become, which slots are copied, and to which variables. -/
theorem Split.partition {rs : List Run} {copies : List (Slices α × List LocalVar)} {parts : List (Slices α)}
    (covers : Covers ((List.range (Slices.len s.input)).map copied) start rs)
    (split : Split s rs n copies parts) (ranked : n = next + rank copied start) :
    (∀ i, start ≤ i → i < Slices.len s.input →
      Becomes s copied next i (parts.map Slices.slots).flatten[i - start]?) ∧
    (copies.map fun c => Slices.slots c.1).flatten.map some =
      ((List.range' start (Slices.len s.input - start)).filter copied).map (fun i => (Slices.slots s.input)[i]?) ∧
    ∀ c ∈ copies, ∃ r ∈ rs, r.copied = true ∧ c.1 = Slices.cutWithin s.input r.start r.len ∧
      VarsFor s copied next (List.range' r.start r.len) c.2 := by
  induction split generalizing start with
  | nil =>
    have stop : start = Slices.len s.input := by simpa [Covers] using covers
    exact ⟨fun i low high => by omega, by simp [stop], by simp⟩
  | @copied n n' rest copies parts r vars isCopied fresh _ ih =>
    obtain ⟨rfl, _, flag, _, later⟩ := covers
    have inside : r.start + r.len ≤ Slices.len s.input := by simpa using later.le
    have all := copied_of_flag inside flag
    rw [isCopied] at all
    obtain ⟨handles, labels, types, rfl⟩ := freshVars_spec fresh
    have isFor : VarsFor s copied next (List.range' r.start r.len) vars := by
      refine ⟨?_, labels, types⟩
      rw [handles, ranked, List.length_range']
      apply List.ext_getElem (by simp)
      intro k short _
      rw [List.length_range'] at short
      simp [rank_run all (Nat.le_of_lt short), Nat.add_assoc]
    obtain ⟨become, sources, each⟩ := ih later (by
      rw [ranked, List.length_range', rank_run all (Nat.le_refl _), if_pos rfl, Nat.add_assoc])
    refine ⟨fun i low high => ?_, ?_, ?_⟩
    · rw [List.map_cons, List.flatten_cons, slots_vars single]
      have count : vars.length = r.len := by simpa using congrArg List.length handles
      by_cases here : i < r.start + r.len
      · obtain ⟨ty, isType, found⟩ := isFor.get (k := i - r.start) (i := i) (by
          rw [List.getElem?_range' (by omega)]
          simp
          omega)
        rw [List.getElem?_append_left (by simp; omega), Becomes, if_pos (all i low here)]
        exact ⟨ty, isType, by simp [found]⟩
      · rw [List.getElem?_append_right (by simp; omega), List.length_map, count, Nat.sub_sub]
        exact become i (Nat.not_lt.mp here) high
    · have front : (List.range' r.start r.len).filter copied = List.range' r.start r.len := by
        apply List.filter_eq_self.mpr
        intro i member
        obtain ⟨low, high⟩ := List.mem_range'_1.mp member
        exact all i low high
      rw [range'_split inside, List.filter_append, front, List.map_append, ← sources, List.map_cons,
        List.flatten_cons, List.map_append, Slices.slots_cutWithin identity built inside,
        view_some _ _ _ (by rwa [Slices.slots_length])]
    · refine List.forall_mem_cons.mpr ⟨⟨r, List.mem_cons_self, isCopied, rfl, isFor⟩, fun c member => ?_⟩
      obtain ⟨r', among, isRun⟩ := each c member
      exact ⟨r', List.mem_cons_of_mem _ among, isRun⟩
  | @kept rest n copies parts r isKept _ ih =>
    obtain ⟨rfl, _, flag, _, later⟩ := covers
    have inside : r.start + r.len ≤ Slices.len s.input := by simpa using later.le
    have all := copied_of_flag inside flag
    rw [Bool.eq_false_iff.mpr isKept] at all
    obtain ⟨become, sources, each⟩ := ih later (by
      rw [ranked, rank_run all (Nat.le_refl _)]
      rfl)
    have cut := Slices.slots_cutWithin identity built inside
    refine ⟨fun i low high => ?_, ?_, fun c member => ?_⟩
    · rw [List.map_cons, List.flatten_cons]
      have count : (Slices.slots (Slices.cutWithin s.input r.start r.len)).length = r.len := by
        rw [Slices.slots_length, Slices.len_cutWithin s.input inside]
      by_cases here : i < r.start + r.len
      · rw [List.getElem?_append_left (by omega), Becomes, if_neg (by simp [all i low here]), cut,
          List.getElem?_take_of_lt (by omega), List.getElem?_drop, Nat.add_sub_cancel' low]
      · rw [List.getElem?_append_right (by omega), count, Nat.sub_sub]
        exact become i (Nat.not_lt.mp here) high
    · have front : (List.range' r.start r.len).filter copied = [] := by
        apply List.filter_eq_nil_iff.mpr
        intro i member
        obtain ⟨low, high⟩ := List.mem_range'_1.mp member
        simp [all i low high]
      rw [range'_split inside, List.filter_append, front, List.nil_append, sources]
    · obtain ⟨r', among, isRun⟩ := each c member
      exact ⟨r', List.mem_cons_of_mem _ among, isRun⟩

/-- The same for the whole sequence, where a run has other slots around it. -/
theorem make_becomes (isLeaf : ∀ v, leaves (s.leafOf v)) {result : Result α}
    (made : make s copied next = (.ok result, next')) :
    (∀ i < Slices.len s.input, Becomes s copied next i (Slices.slots result.output)[i]?) ∧
    (result.copies.map fun c => Slices.slots c.1).flatten.map some =
      ((List.range (Slices.len s.input)).filter copied).map (fun i => (Slices.slots s.input)[i]?) ∧
    ∀ c ∈ result.copies, ∃ start n, 0 < n ∧ start + n ≤ Slices.len s.input ∧
      Slices.cut s.input start n = .ok c.1 ∧ (∀ i, start ≤ i → i < start + n → copied i = true) ∧
      (0 < start → copied (start - 1) = false) ∧ (start + n < Slices.len s.input → copied (start + n) = false) ∧
      VarsFor s copied next (List.range' start n) c.2 := by
  obtain ⟨parts, split, isOutput⟩ := make_split made
  have covers := runs_covers [] ((List.range (Slices.len s.input)).map copied)
  have kept := Piece.of_kept identity
  have slots : Slices.slots result.output = (parts.map Slices.slots).flatten := by
    rw [isOutput]
    refine Slices.slots_group identity fun e member => ?_
    rcases (split.parts kept built covers (by simp)).2.1 e member with cut | ⟨c, _, rfl⟩
    · exact cut
    · intro p member
      obtain ⟨v, _, rfl⟩ := List.mem_map.mp member
      exact ⟨isLeaf v, trivial⟩
  obtain ⟨become, sources, each⟩ := split.partition identity built single covers rfl
  refine ⟨fun i inside => ?_, ?_, fun c member => ?_⟩
  · rw [slots]
    exact become i (Nat.zero_le i) inside
  · rw [List.range_eq_range']
    exact sources
  · obtain ⟨r, among, isCopied, source, isFor⟩ := each c member
    obtain ⟨some, inside, flag, last, first⟩ := covers.each r among
    simp only [List.nil_append, List.length_map, List.length_range] at inside flag last first
    have all := copied_of_flag inside flag
    rw [isCopied] at all last first
    refine ⟨r.start, r.len, some, inside, ?_, all, fun before => ?_, fun after => ?_, isFor⟩
    · rw [Slices.cut, if_neg (by omega), source]
    · simpa [List.getElem?_range (show r.start - 1 < Slices.len s.input by omega)] using first before
    · simpa [List.getElem?_range after] using last

end

/-- Slots of an expression are copied to variables that a supply of distinct handles gives. This fails
exactly if a slot to be copied cannot be read. Otherwise the result is as long as the expression, each
copied slot is a variable with a handle and the type of the slot, and the others are as before; the copies
are runs of slots that cannot be longer, they list the copied slots in order, and there are none only if
no slot is to be copied. -/
theorem make_partitions {leaves : Leaf → Prop}
    (identity : ∀ a b, leaves a → leaves b → sameLeaf a b = true → a = b) {e : Expr}
    (built : Slices.Built leaves e) (copied : Nat → Bool) (label : Nat → String) (next : Nat)
    {mint : Nat → Nat} (distinct : Function.Injective mint) :
    let made := (make ⟨e, e.readType, label, fun v => .var (mint v.handle) v.ty true⟩ copied next).1
    (mint = id → made = (ofExpr e copied label next).1) ∧
    ((∃ c, made = .error c) ↔ ∃ i < Slices.len e, copied i = true ∧ ∃ c, e.readType i = .error c) ∧
    ∀ result, made = .ok result →
      Slices.len result.output = Slices.len e ∧
      (∃ handle : Nat → Nat, (∀ i, ∃ k, handle i = mint (next + k)) ∧
        (∀ i j, copied i = true → copied j = true → handle i = handle j → i = j) ∧
        ∀ i < Slices.len e, if copied i = true
          then ∃ ty, e.readType i = .ok ty ∧ (Slices.slots result.output)[i]? = some (.var (handle i) ty true, 0)
          else (Slices.slots result.output)[i]? = (Slices.slots e)[i]?) ∧
      (result.copies.map fun c => Slices.slots c.1).flatten.map some =
        ((List.range (Slices.len e)).filter copied).map (fun i => (Slices.slots e)[i]?) ∧
      (∀ c ∈ result.copies, ∃ start n, 0 < n ∧ e.cut start n = .ok c.1 ∧
        (∀ i, start ≤ i → i < start + n → copied i = true) ∧ (0 < start → copied (start - 1) = false) ∧
        (start + n < Slices.len e → copied (start + n) = false) ∧ c.2.length = n ∧
        ∀ k < n, ∃ v, c.2[k]? = some v ∧ v.label = label (start + k) ∧
          (Slices.slots result.output)[start + k]? = some (.var (mint v.handle) v.ty true, 0)) ∧
      (result.copies = [] ↔ ∀ i < Slices.len e, copied i = false) := by
  intro made
  have identity' : ∀ a b : Leaf, (leaves a ∨ ∃ h ty, a = .var h ty true) →
      (leaves b ∨ ∃ h ty, b = .var h ty true) → sameLeaf a b = true → a = b := by
    rintro a b (first | ⟨h, ty, rfl⟩) (second | ⟨h, ty, rfl⟩) same
    · exact identity a b first second same
    · simp [sameLeaf, Slotted.key, Leaf.key] at same
    · simp [sameLeaf, Slotted.key, Leaf.key] at same
    · simp [sameLeaf, Slotted.key, Leaf.key] at same
  have all : Slices.All (Piece.Of fun a => leaves a ∨ ∃ h ty, a = .var h ty true) e := by
    intro p member
    obtain ⟨isLeaf, fits⟩ := built.all identity p member
    exact ⟨.inl isLeaf, fits⟩
  have ok (result : Result Leaf) (isOk : made = .ok result) :=
    make_becomes identity' all (fun _ => rfl) (fun v => .inr ⟨mint v.handle, v.ty, rfl⟩) (Prod.ext isOk rfl)
  refine ⟨?_, ⟨?_, ?_⟩, fun result isOk => ?_⟩
  · rintro rfl
    rfl
  · rintro ⟨c, failed⟩
    obtain ⟨i, inside, isCopied, isError⟩ := make_error failed
    exact ⟨i, inside, isCopied, c, isError⟩
  · rintro ⟨i, inside, isCopied, c, isError⟩
    cases isMade : made with
    | error c => exact ⟨c, rfl⟩
    | ok result =>
      obtain ⟨become, _⟩ := ok result isMade
      have here := become i inside
      rw [Becomes, if_pos isCopied] at here
      obtain ⟨ty, isType, _⟩ := here
      cases isError.symm.trans isType
  · obtain ⟨become, sources, each⟩ := ok result isOk
    refine ⟨?_, ⟨fun i => mint (next + rank copied i), fun i => ⟨_, rfl⟩, ?_, become⟩, sources, ?_, ?_, ?_⟩
    · exact (make_parts (Piece.of_kept identity') all (Prod.ext isOk rfl)).2.2 fun _ => rfl
    · intro i j first second same
      exact rank_inj first second (Nat.add_left_cancel (distinct same))
    · intro c member
      obtain ⟨start, n, some, inside, cut, isRun, first, last, isFor⟩ := each c member
      refine ⟨start, n, some, ?_, isRun, first, last, ?_, fun k short => ?_⟩
      · rw [Expr.cut, cut]
      · simpa using congrArg List.length isFor.labels
      · obtain ⟨ty, isType, isVar⟩ := isFor.get (k := k) (i := start + k)
          (by rw [List.getElem?_range' short, Nat.one_mul])
        have here := become (start + k) (Nat.lt_of_lt_of_le (Nat.add_lt_add_left short start) inside)
        rw [Becomes, if_pos (isRun _ (by omega) (by omega))] at here
        obtain ⟨ty', isType', slot⟩ := here
        cases isType.symm.trans isType'
        exact ⟨_, isVar, rfl, slot⟩
    · intro none i inside
      rw [none] at sources
      have none : (List.range (Slices.len e)).filter copied = [] := by simpa using sources.symm
      simpa using List.filter_eq_nil_iff.mp none i (List.mem_range.mpr inside)
    · intro none
      refine List.eq_nil_iff_forall_not_mem.mpr fun c member => ?_
      obtain ⟨start, n, some, inside, _, isRun, _⟩ := each c member
      have begins : start < Slices.len e := Nat.lt_of_lt_of_le (Nat.lt_add_of_pos_right some) inside
      exact Bool.false_ne_true ((none start begins).symm.trans (isRun start (Nat.le_refl _) (by omega)))

/-- Two variables after a part of a sink, copied together to variables with odd handles. -/
theorem make_partitions_tail :
    let sink : Leaf := .sink 7 4 Registry.any
    let e : Expr := [.view sink 1 2, .whole (.var 3 Registry.integer true), .whole (.var 5 Registry.float true)]
    ∃ result handle handle', (make ⟨e, e.readType, fun _ => "part",
        fun v => .var (2 * v.handle + 1) v.ty true⟩ (2 ≤ ·) 0).1 = .ok result ∧ handle ≠ handle' ∧
      (Slices.slots result.output)[1]? = some (sink, 2) ∧
      (Slices.slots result.output)[2]? = some (.var handle Registry.integer true, 0) ∧
      (Slices.slots result.output)[3]? = some (.var handle' Registry.float true, 0) ∧
      (result.copies.map fun c => Slices.slots c.1).flatten.map some =
        [some (.var 3 Registry.integer true, 0), some (.var 5 Registry.float true, 0)] := by
  intro sink e
  have identity : ∀ a b, (a = sink ∨ a.key = none) → (b = sink ∨ b.key = none) → sameLeaf a b = true → a = b := by
    rintro a b (rfl | first) (rfl | second) same
    · rfl
    all_goals simp_all [sameLeaf, Slotted.key]
  have built : Slices.Built (fun a => a = sink ∨ a.key = none) e := by
    have view : Slices.Built (fun a => a = sink ∨ a.key = none) [.view sink 1 2] :=
      (Slices.Built.leaf (.inl rfl)).cut (show Slices.cut [.whole sink] 1 2 = .ok _ from rfl)
    exact view.concat ((Slices.Built.leaf (.inr rfl)).concat (.leaf (.inr rfl)))
  have distinct : Function.Injective fun k => 2 * k + 1 := fun i j same => by
    simp only at same
    omega
  obtain ⟨_, _, partition⟩ := make_partitions identity built (2 ≤ ·) (fun _ => "part") 0 distinct
  obtain ⟨_, ⟨handle, _, unique, slots⟩, sources, _⟩ := partition _ rfl
  obtain ⟨ty, isType, third⟩ : ∃ ty, _ := slots 2 (by decide)
  obtain ⟨ty', isType', fourth⟩ : ∃ ty, _ := slots 3 (by decide)
  cases isType
  cases isType'
  refine ⟨_, handle 2, handle 3, rfl, fun same => ?_, slots 1 (by decide), third, fourth, sources⟩
  cases unique 2 3 rfl rfl same

end AgentScript.Cache
