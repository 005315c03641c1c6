import Mathlib.Data.List.Sort
import AgentScript.Proofs.Types.Reachable

/-! Unions as joins. A union is the least type that each of its types casts to, and it does not
matter in which order, how often and in which groups they are given. A union has the members that do
not cast to one another when it is made; only a new parent of a type can change that later. -/
namespace AgentScript.Registry
variable {types : List TypeId}

variable {r r' : Registry}

section
variable {types others : List TypeId}

theorem flatten_congr (same : ∀ t, t ∈ types ↔ t ∈ others) :
    r.flatten types = r.flatten others := by
  apply List.Pairwise.eq_of_mem_iff (flatten_pairwise r types) (flatten_pairwise r others)
  intro m
  simp only [mem_flatten, same]

theorem mem_normal (ordered : r.Ordered) : m ∈ r.normal types ↔
    m ∈ r.flatten types ∧ ∀ x ∈ r.flatten types, r.Casts m x → x = m := by
  have alone : (∀ x ∈ r.flatten types, r.Casts m x → x = m) ↔
      (r.flatten types).any (fun x => x != m && r.canCast m x) = false := by
    simp only [List.any_eq_false, Bool.and_eq_true, bne_iff_ne, ordered.canCast_iff, not_and]
    constructor
    · intro alone x member different casts
      exact different (alone x member casts)
    · intro alone x member casts
      exact Decidable.not_not.mp fun different => alone x member different casts
  rw [alone]
  simp [normal, maximal, List.mem_filter]

/-- The type that stands for a list of members. -/
def Denotes (r : Registry) (u : TypeId) (members : List TypeId) : Prop :=
  members = [u] ∨ r.members? u = some members

variable (sound : r.Sound) (ordered : r.Ordered) (inside : ∀ t ∈ types, t < r.entries.length)
include sound ordered inside

theorem exists_normal (member : m ∈ r.flatten types) : ∃ x ∈ r.normal types, r.Casts m x := by
  obtain ⟨rank, ranked⟩ := ordered.ranked
  -- Each cast to another member goes up, or ends at `any`, which casts to nothing else.
  induction known : rank m using Nat.strong_induction_on generalizing m with
  | _ n ih =>
    subst known
    by_cases kept : m ∈ r.normal types
    · exact ⟨m, kept, .refl m⟩
    simp only [mem_normal ordered, member, true_and, not_forall] at kept
    obtain ⟨x, isMember, casts, different⟩ := kept
    by_cases isAny : x = any
    · subst isAny
      refine ⟨any, (mem_normal ordered).mpr ⟨isMember, ?_⟩, casts⟩
      intro y _ onward
      exact onward.of_any sound rfl
    · have notUnion := (flatten_inside sound inside isMember).2
      rcases casts.rank_lt ordered ranked isAny notUnion with same | up
      · exact absurd same.symm different
      · obtain ⟨y, kept, onward⟩ := ih (rank x) up isMember rfl
        exact ⟨y, kept, casts.trans sound onward⟩

theorem normal_ne_nil (nonempty : types ≠ []) : r.normal types ≠ [] := by
  obtain ⟨t, isType⟩ := List.exists_mem_of_ne_nil types nonempty
  have found : ∃ m, m ∈ r.flatten types := by
    cases isUnion : r.members? t with
    | none => exact ⟨t, mem_flatten.mpr ⟨t, isType, by simp [isUnion]⟩⟩
    | some members =>
      cases members with
      | nil => simpa using ordered.several t [] isUnion
      | cons m rest => exact ⟨m, mem_flatten.mpr ⟨t, isType, by simp [isUnion]⟩⟩
  obtain ⟨m, member⟩ := found
  obtain ⟨x, kept, _⟩ := exists_normal sound ordered inside member
  exact List.ne_nil_of_mem kept

/-- A type that stands for the kept members flattens to them. -/
theorem Denotes.flat (denotes : r.Denotes u (r.normal types)) :
    (r.members? u).getD [u] = r.normal types := by
  rcases denotes with single | isUnion
  · have member : u ∈ r.normal types := by simp [single]
    have notUnion := (flatten_inside sound inside ((mem_normal ordered).mp member).1).2
    rw [notUnion, single, Option.getD_none]
  · rw [isUnion, Option.getD_some]

theorem Denotes.upper (denotes : r.Denotes u (r.normal types)) (isType : t ∈ types) :
    r.Casts t u := by
  rw [casts_iff_members]
  intro m member
  obtain ⟨x, kept, casts⟩ :=
    exists_normal sound ordered inside (mem_flatten.mpr ⟨t, isType, member⟩)
  rcases denotes with single | isUnion
  · rw [single, List.mem_singleton] at kept
    exact kept ▸ casts
  · exact .toUnion isUnion kept casts

omit sound inside in
theorem Denotes.least (denotes : r.Denotes u (r.normal types)) (above : ∀ t ∈ types, r.Casts t c) :
    r.Casts u c := by
  have each {m : TypeId} (kept : m ∈ r.normal types) : r.Casts m c := by
    obtain ⟨t, isType, member⟩ := mem_flatten.mp ((mem_normal ordered).mp kept).1
    exact casts_iff_members.mp (above t isType) m member
  rcases denotes with single | isUnion
  · exact each (by simp [single])
  · exact .ofUnion isUnion fun m => each

theorem normal_nested {rest part nested : List TypeId} (denotes : r.Denotes p (r.normal part))
    (whole : ∀ t, t ∈ types ↔ t ∈ rest ∨ t ∈ part) (grouped : ∀ t, t ∈ nested ↔ t ∈ rest ∨ t = p) :
    r.normal nested = r.normal types := by
  have partInside : ∀ t ∈ part, t < r.entries.length := fun t isType =>
    inside t ((whole t).mpr (.inr isType))
  have inWhole (x : TypeId) : x ∈ r.flatten types ↔ x ∈ r.flatten rest ∨ x ∈ r.flatten part := by
    simp only [mem_flatten, whole, or_and_right, exists_or]
  have inNested (x : TypeId) : x ∈ r.flatten nested ↔ x ∈ r.flatten rest ∨ x ∈ r.normal part := by
    rw [← denotes.flat sound ordered partInside]
    simp only [mem_flatten, grouped, or_and_right, exists_or, exists_eq_left]
  apply List.Pairwise.eq_of_mem_iff (normal_pairwise r nested) (normal_pairwise r types)
  intro m
  rw [mem_normal ordered, mem_normal ordered, inNested, inWhole]
  constructor
  · rintro ⟨member, alone⟩
    have known : m ∈ r.flatten types := by
      rw [inWhole]
      exact member.imp_right fun kept => ((mem_normal ordered).mp kept).1
    refine ⟨(inWhole m).mp known, fun x isMember casts => ?_⟩
    rcases (inWhole x).mp isMember with inRest | inPart
    · exact alone x ((inNested x).mpr (.inl inRest)) casts
    · -- A member of the group casts to one that was kept, which can only be `m` again.
      obtain ⟨y, kept, onward⟩ := exists_normal sound ordered partInside inPart
      obtain rfl := alone y ((inNested y).mpr (.inr kept)) (casts.trans sound onward)
      exact onward.antisymm sound ordered (flatten_inside sound partInside inPart).2
        (flatten_inside sound inside known).2 casts
  · rintro ⟨member, alone⟩
    refine ⟨member.imp_right fun inPart => ?_, fun x isMember casts => ?_⟩
    · rw [mem_normal ordered]
      exact ⟨inPart, fun x isMember => alone x ((inWhole x).mpr (.inr isMember))⟩
    · apply alone x _ casts
      rw [inWhole]
      exact ((inNested x).mp isMember).imp_right fun kept => ((mem_normal ordered).mp kept).1

end

theorem byUnion_denotes (sound : r.Sound) (ordered : r.Ordered)
    (inside : ∀ t ∈ types, t < r.entries.length) (nonempty : types ≠ []) :
    (r.byUnion types).2.Denotes (r.byUnion types).1 (r.normal types) := by
  have some := normal_ne_nil sound ordered inside nonempty
  unfold byUnion
  split
  · next none => exact absurd none some
  · next single => exact .inl single
  · split
    · next found => exact .inr (findUnion?_eq_some found)
    · exact .inr (members?_push_new.mpr rfl)

theorem byUnion_of_denotes (ordered : r.Ordered) (denotes : r.Denotes u (r.normal types)) :
    r.byUnion types = (u, r) := by
  unfold byUnion
  rcases denotes with single | isUnion
  · rw [← normal, single]
  · have several := ordered.several u _ isUnion
    split
    · next none => simp [normal, none] at several
    · next single => simp [normal, single] at several
    · split
      · next found =>
        rw [ordered.interned _ u _ (findUnion?_eq_some found) isUnion]
      · next notFound => exact absurd isUnion (findUnion?_eq_none notFound u)

namespace Grows

theorem normal (grows : r.Grows r') (sound : r.Sound) (ordered : r.Ordered)
    (inside : ∀ t ∈ types, t < r.entries.length) : r'.normal types = r.normal types := by
  have flat : r'.flatten types = r.flatten types := by
    apply List.Pairwise.eq_of_mem_iff (flatten_pairwise r' types) (flatten_pairwise r types)
    intro m
    simp only [mem_flatten]
    apply exists_congr
    intro t
    apply and_congr_right
    intro isType
    rw [grows.members? (inside t isType)]
  apply List.Pairwise.eq_of_mem_iff (normal_pairwise r' types) (normal_pairwise r types)
  intro m
  rw [mem_normal (grows.ordered ordered), mem_normal ordered, flat]
  apply and_congr_right
  intro member
  apply forall₂_congr
  intro x isMember
  rw [grows.casts_iff ordered (flatten_inside sound inside member).1
    (flatten_inside sound inside isMember).1]

theorem denotes (grows : r.Grows r') {members : List TypeId} (denotes : r.Denotes u members) :
    r'.Denotes u members := by
  rcases denotes with single | isUnion
  · exact .inl single
  · exact .inr ((grows.members? (members?_inside isUnion)).trans isUnion)

end Grows

/-- Registries after more unions were asked for. -/
inductive AfterUnions (r : Registry) : Registry → Prop
  | refl : AfterUnions r r
  | step {r' : Registry} (before : AfterUnions r r') {types : List TypeId}
    (inside : ∀ t ∈ types, t < r'.entries.length) : AfterUnions r (r'.byUnion types).2

namespace AfterUnions

theorem reachable (after : r.AfterUnions r') (reachable : Reachable r) : Reachable r' := by
  induction after with
  | refl => exact reachable
  | step _ inside ih => exact ih.step (.byUnion _) inside

theorem grows (after : r.AfterUnions r') (reachable : Reachable r) : r.Grows r' := by
  induction after with
  | refl => exact .refl r
  | step before inside ih =>
    exact ih.trans (byUnion_grows (before.reachable reachable).sound inside)

end AfterUnions

/-- Asked for one after the other, with more unions between them, the lists give one type. -/
def SameUnion (r : Registry) (types others : List TypeId) : Prop :=
  ∀ r', (r.byUnion types).2.AfterUnions r' → r'.byUnion others = ((r.byUnion types).1, r')

theorem sameUnion_of_normal (reachable : Reachable r) {others : List TypeId}
    (inside : ∀ t ∈ types, t < r.entries.length) (inside' : ∀ t ∈ others, t < r.entries.length)
    (nonempty : types ≠ []) (same : r.normal others = r.normal types) : r.SameUnion types others := by
  intro r' after
  have sound := reachable.sound
  have ordered := reachable.ordered
  have made : Reachable (r.byUnion types).2 := reachable.step (.byUnion types) inside
  have first := byUnion_grows sound inside
  have further := after.grows made
  have ordered' := (after.reachable made).ordered
  apply byUnion_of_denotes ordered'
  rw [(first.trans further).normal sound ordered inside', same]
  exact further.denotes (byUnion_denotes sound ordered inside nonempty)

/-- A list of types and the list with a group replaced by its union give one type. -/
theorem nested_sameUnion (reachable : Reachable r) {rest part nested : List TypeId}
    (inside : ∀ t ∈ types, t < r.entries.length) (partInside : ∀ t ∈ part, t < r.entries.length)
    (nonempty : part ≠ []) (whole : ∀ t, t ∈ types ↔ t ∈ rest ∨ t ∈ part)
    (after : (r.byUnion part).2.AfterUnions r')
    (grouped : ∀ t, t ∈ nested ↔ t ∈ rest ∨ t = (r.byUnion part).1) :
    r'.SameUnion nested types ∧ r'.SameUnion types nested := by
  have made : Reachable (r.byUnion part).2 := reachable.step (.byUnion part) partInside
  have reachable' := after.reachable made
  have further := after.grows made
  have grows := (byUnion_grows reachable.sound partInside).trans further
  have typesInside : ∀ t ∈ types, t < r'.entries.length := fun t isType =>
    Nat.lt_of_lt_of_le (inside t isType) grows.length_le
  have nestedInside : ∀ t ∈ nested, t < r'.entries.length := by
    intro t isType
    rcases (grouped t).mp isType with inRest | rfl
    · exact typesInside t ((whole t).mpr (.inl inRest))
    · exact Nat.lt_of_lt_of_le (byUnion_made reachable.sound partInside).2 further.length_le
  have denotes : r'.Denotes (r.byUnion part).1 (r'.normal part) := by
    rw [grows.normal reachable.sound reachable.ordered partInside]
    exact further.denotes (byUnion_denotes reachable.sound reachable.ordered partInside nonempty)
  have same := normal_nested reachable'.sound reachable'.ordered typesInside denotes whole grouped
  constructor
  · apply sameUnion_of_normal reachable' nestedInside typesInside _ same.symm
    exact List.ne_nil_of_mem ((grouped _).mpr (.inr rfl))
  · apply sameUnion_of_normal reachable' typesInside nestedInside _ same
    obtain ⟨t, isType⟩ := List.exists_mem_of_ne_nil part nonempty
    exact List.ne_nil_of_mem ((whole t).mpr (.inr isType))

theorem Reachable.void_inside (reachable : Reachable r) : void < r.entries.length :=
  Nat.lt_trans (by decide) reachable.sound.text.inside

theorem Reachable.members?_void (reachable : Reachable r) : r.members? void = none := by
  induction reachable with
  | initial => rfl
  | step before op inside ih =>
    rw [op.apply_members? before.sound before.ordered inside before.void_inside, ih]

theorem Ordered.exists_other (ordered : r.Ordered) (isUnion : r.members? u = some members) (t : TypeId) :
    ∃ m ∈ members, m ≠ t := by
  have several := ordered.several u members isUnion
  have sorted := ordered.sorted u members isUnion
  rcases members with _ | ⟨x, _ | ⟨y, rest⟩⟩
  · simp at several
  · simp at several
  · have before := (List.pairwise_cons.mp sorted).1 y List.mem_cons_self
    by_cases isFirst : x = t
    · exact ⟨y, by simp, fun isSecond => Nat.lt_irrefl t (by rwa [isFirst, isSecond] at before)⟩
    · exact ⟨x, by simp, isFirst⟩

/-- Where no type has `void` for a parent, nothing else casts to it. -/
theorem eq_void_of_casts (reachable : Reachable r) (none : ∀ t, void ∉ r.parents t)
    (casts : r.Casts a b) (isVoid : b = void) : a = void := by
  induction casts with
  | toAny => cases isVoid
  | refl => exact isVoid
  | @ofUnion a members b isUnion _ ih =>
    obtain ⟨m, member, other⟩ := reachable.ordered.exists_other isUnion void
    exact absurd (ih m member isVoid) other
  | toUnion isUnion =>
    subst isVoid
    simp [reachable.members?_void] at isUnion
  | @parent a p b isParent _ ih =>
    rw [ih isVoid] at isParent
    exact absurd isParent (none a)

section
variable (reachable : Reachable r) (inside : ∀ t ∈ types, t < r.entries.length) (nonempty : types ≠ [])
include reachable inside nonempty

theorem byUnion_made_denotes :
    (r.byUnion types).2.Denotes (r.byUnion types).1 ((r.byUnion types).2.normal types) := by
  rw [(byUnion_grows reachable.sound inside).normal reachable.sound reachable.ordered inside]
  exact byUnion_denotes reachable.sound reachable.ordered inside nonempty

theorem byUnion_upper (isType : t ∈ types) : (r.byUnion types).2.Casts t (r.byUnion types).1 := by
  have made : Reachable (r.byUnion types).2 := reachable.step (.byUnion types) inside
  have grows := byUnion_grows reachable.sound inside
  exact (byUnion_made_denotes reachable inside nonempty).upper made.sound made.ordered
    (fun t isType => Nat.lt_of_lt_of_le (inside t isType) grows.length_le) isType

theorem byUnion_least (above : ∀ t ∈ types, (r.byUnion types).2.Casts t c) :
    (r.byUnion types).2.Casts (r.byUnion types).1 c :=
  (byUnion_made_denotes reachable inside nonempty).least (reachable.step (.byUnion types) inside).ordered above

end

/-- The union of some types is their join: it changes no cast between known types, each of the types
casts to it, and it casts to whatever they all cast to. Order, repetition and grouping do not
matter. It is `void` only if all types cast to `void`, and then they are `void` unless some type was
declared below `void`. -/
theorem byUnion_join (reachable : Reachable r) (types : List TypeId) (nonempty : types ≠ [])
    (inside : ∀ t ∈ types, t < r.entries.length) :
    (∀ a < r.entries.length, ∀ b < r.entries.length,
      (r.byUnion types).2.canCast a b = r.canCast a b) ∧
    (∀ t ∈ types, (r.byUnion types).2.canCast t (r.byUnion types).1 = true) ∧
    (∀ c, (∀ t ∈ types, (r.byUnion types).2.canCast t c = true) →
      (r.byUnion types).2.canCast (r.byUnion types).1 c = true) ∧
    (∀ others, (∀ t, t ∈ others ↔ t ∈ types) → r.SameUnion types others) ∧
    (∀ rest part : List TypeId, part ≠ [] → (∀ t, t ∈ types ↔ t ∈ rest ∨ t ∈ part) →
      ∀ r', (r.byUnion part).2.AfterUnions r' →
      ∀ nested, (∀ t, t ∈ nested ↔ t ∈ rest ∨ t = (r.byUnion part).1) →
        r'.SameUnion nested types ∧ r'.SameUnion types nested) ∧
    ((r.byUnion types).1 = void → (∀ t ∈ types, (r.byUnion types).2.canCast t void = true) ∧
      ((∀ t, void ∉ r.parents t) → ∀ t ∈ types, t = void)) := by
  have sound := reachable.sound
  have ordered := reachable.ordered
  have made : Reachable (r.byUnion types).2 := reachable.step (.byUnion types) inside
  have grows := byUnion_grows sound inside
  have upper : ∀ t ∈ types, (r.byUnion types).2.Casts t (r.byUnion types).1 := fun t =>
    byUnion_upper reachable inside nonempty
  have known : ∀ a < r.entries.length, ∀ b < r.entries.length,
      (r.byUnion types).2.canCast a b = r.canCast a b := by
    intro a insideA b insideB
    rw [Bool.eq_iff_iff, made.ordered.canCast_iff, ordered.canCast_iff]
    exact grows.casts_iff ordered insideA insideB
  refine ⟨known, ?_, ?_, ?_, ?_, ?_⟩
  · simpa only [made.ordered.canCast_iff] using upper
  · simp only [made.ordered.canCast_iff]
    intro c above
    exact byUnion_least reachable inside nonempty above
  · intro others same
    apply sameUnion_of_normal reachable inside _ nonempty
    · rw [normal, normal, flatten_congr same]
    · exact fun t isType => inside t ((same t).mp isType)
  · intro rest part some whole r' after nested grouped
    have partInside : ∀ t ∈ part, t < r.entries.length := fun t isType =>
      inside t ((whole t).mpr (.inr isType))
    exact nested_sameUnion reachable inside partInside some whole after grouped
  · intro isVoid
    rw [isVoid] at upper
    refine ⟨by simpa only [made.ordered.canCast_iff] using upper, ?_⟩
    intro none t isType
    have known := grows.casts_iff ordered (inside t isType) reachable.void_inside
    exact eq_void_of_casts reachable none (known.mp (upper t isType)) rfl

/-- The first interface is dropped from the union with `null`, since it implements the second. -/
theorem byUnion_join_linked : ((initial.run linkedUnion).byUnion [13, null]).1 = 14 ∧
    ((initial.run linkedUnion).byUnion [13, null]).2.members? 14 = some [null, 12] ∧
    ((initial.run linkedUnion).byUnion [13, null]).2.canCast 13 14 = true := by
  have reachable : Reachable (initial.run linkedUnion) := Reachable.initial.run
  have made : ((initial.run linkedUnion).byUnion [13, null]).1 = 14 := by decide
  have join := byUnion_join reachable [13, null] (by decide) (by decide)
  refine ⟨made, by decide, ?_⟩
  rw [← made]
  exact join.2.1 13 (by decide)

/-- A type below `void` is dropped from the union with it. -/
theorem byUnion_void_below :
    Reachable (initial.run [.declarePrimitive "nothing" .unknown (some void)]) ∧
    (initial.run [.declarePrimitive "nothing" .unknown (some void)]).find? "nothing" = some 11 ∧
    ((initial.run [.declarePrimitive "nothing" .unknown (some void)]).byUnion [11, void]).1 = void ∧
    ¬ ∀ t ∈ [11, void], t = void :=
  ⟨Reachable.initial.run, by decide, by decide, by decide⟩

/-- No type of a list casts to another one of it. -/
def Unrelated (r : Registry) (types : List TypeId) : Prop :=
  ∀ a ∈ types, ∀ b ∈ types, r.canCast a b = true → a = b

theorem flatten_union (ordered : r.Ordered) (isUnion : r.members? u = some members) :
    r.flatten [u] = members := by
  apply List.Pairwise.eq_of_mem_iff (flatten_pairwise r [u]) (ordered.sorted u members isUnion)
  intro m
  simp [mem_flatten, isUnion]

theorem normal_eq_iff (ordered : r.Ordered) (isUnion : r.members? u = some members) :
    r.normal [u] = members ↔ r.Unrelated members := by
  constructor
  · intro same a isMember b isMember' casts
    rw [← same, mem_normal ordered, flatten_union ordered isUnion] at isMember
    exact (isMember.2 b isMember' (ordered.canCast_iff.mp casts)).symm
  · intro unrelated
    apply List.Pairwise.eq_of_mem_iff (normal_pairwise r [u]) (ordered.sorted u members isUnion)
    intro m
    rw [mem_normal ordered, flatten_union ordered isUnion]
    constructor
    · exact And.left
    · intro member
      refine ⟨member, fun x isMember casts => ?_⟩
      exact (unrelated m member x isMember (ordered.canCast_iff.mpr casts)).symm

/-- A union is what it is made of as long as its members are unrelated. -/
theorem byUnion_self_iff (sound : r.Sound) (ordered : r.Ordered)
    (isUnion : r.members? u = some members) :
    (r.byUnion [u]).1 = u ↔ r.Unrelated members := by
  have inside : ∀ t ∈ [u], t < r.entries.length := by simpa using members?_inside isUnion
  rw [← normal_eq_iff ordered isUnion]
  constructor
  · intro same
    have denotes := byUnion_denotes sound ordered inside (by simp)
    rw [same] at denotes
    rcases denotes with single | isUnion'
    · have member : u ∈ r.normal [u] := by simp [single]
      have notUnion := (flatten_inside sound inside ((mem_normal ordered).mp member).1).2
      simp [isUnion] at notUnion
    · rw [(byUnion_grows sound inside).members? (members?_inside isUnion), isUnion] at isUnion'
      exact (Option.some.inj isUnion').symm
  · intro same
    rw [byUnion_of_denotes ordered (.inr (same ▸ isUnion))]

theorem byUnion_unrelated (reachable : Reachable r) (inside : ∀ t ∈ types, t < r.entries.length)
    (isUnion : (r.byUnion types).2.members? (r.byUnion types).1 = some members) :
    (r.byUnion types).2.Unrelated members := by
  have sound := reachable.sound
  have ordered := reachable.ordered
  have made : Reachable (r.byUnion types).2 := reachable.step (.byUnion types) inside
  have grows := byUnion_grows sound inside
  by_cases nonempty : types = []
  · subst nonempty
    exact absurd isUnion (by simp [byUnion, flatten, maximal, reachable.members?_void])
  have kept {m : TypeId} (member : m ∈ r.normal types) :=
    flatten_inside sound inside ((mem_normal ordered).mp member).1
  have same : members = r.normal types := by
    rcases byUnion_denotes sound ordered inside nonempty with single | isUnion'
    · obtain ⟨old, notUnion⟩ := kept (single ▸ List.mem_singleton_self _)
      rw [grows.members? old, notUnion] at isUnion
      cases isUnion
    · exact Option.some.inj (isUnion.symm.trans isUnion')
  subst same
  intro a isMember b isMember' casts
  rw [made.ordered.canCast_iff,
    grows.casts_iff ordered (kept isMember).1 (kept isMember').1] at casts
  exact (((mem_normal ordered).mp isMember).2 b ((mem_normal ordered).mp isMember').1 casts).symm

/-- No operation but a new parent relates members of a union. -/
theorem Operation.apply_unrelated (reachable : Reachable r) (isUnion : r.members? u = some members)
    (unrelated : r.Unrelated members) {op : Operation}
    (inside : ∀ t ∈ op.types, t < r.entries.length)
    (other : ∀ child parent, op ≠ .addParent child parent) : (op.apply r).Unrelated members := by
  have ordered := reachable.ordered
  have ordered' := (reachable.step op inside).ordered
  have known {m : TypeId} (member : m ∈ members) : m < r.entries.length :=
    ordered.inside u m (mem_supers_of_member isUnion member)
  rcases apply_grows reachable.sound ordered inside with grows | ⟨child, parent, isLink, _⟩
  · intro a isMember b isMember' casts
    rw [ordered'.canCast_iff, grows.casts_iff ordered (known isMember) (known isMember'),
      ← ordered.canCast_iff] at casts
    exact unrelated a isMember b isMember' casts
  · exact absurd isLink (other child parent)

/-- A union has several members, none of which is a union, and no other union has the same. When it
is made its members are unrelated; they stay so until a type gets a new parent, and as long as they
do, the union of the union alone is the union itself. -/
theorem unions_canonical (reachable : Reachable r) :
    (∀ u members, r.members? u = some members →
      2 ≤ members.length ∧ (∀ m ∈ members, r.members? m = none) ∧
      (∀ u' members', r.members? u' = some members' → (∀ m, m ∈ members' ↔ m ∈ members) → u' = u) ∧
      ((r.byUnion [u]).1 = u ↔ r.Unrelated members) ∧
      (r.Unrelated members → ∀ op : Operation, (∀ t ∈ op.types, t < r.entries.length) →
        (∀ child parent, op ≠ .addParent child parent) → (op.apply r).Unrelated members)) ∧
    ∀ types members, (∀ t ∈ types, t < r.entries.length) →
      (r.byUnion types).2.members? (r.byUnion types).1 = some members →
      (r.byUnion types).2.Unrelated members := by
  have sound := reachable.sound
  have ordered := reachable.ordered
  constructor
  · intro u members isUnion
    refine ⟨ordered.several u members isUnion, ?_, ?_, byUnion_self_iff sound ordered isUnion, ?_⟩
    · intro m member
      exact ((sound.unions u members isUnion).members m member).2.2
    · intro u' members' isUnion' same
      obtain rfl : members' = members := List.Pairwise.eq_of_mem_iff
        (ordered.sorted u' members' isUnion') (ordered.sorted u members isUnion) same
      exact ordered.interned u' u members' isUnion' isUnion
    · intro unrelated op inside other
      exact op.apply_unrelated reachable isUnion unrelated inside other
  · intro types members inside isUnion
    exact byUnion_unrelated reachable inside isUnion

/-- The union of two interfaces before one of them implements the other. -/
theorem unions_canonical_linked :
    (initial.run (linkedUnion.take 3)).members? 13 = some [11, 12] ∧
    (initial.run (linkedUnion.take 3)).Unrelated [11, 12] := by
  have reachable : Reachable (initial.run (linkedUnion.take 3)) := Reachable.initial.run
  have isUnion : (initial.run (linkedUnion.take 3)).members? 13 = some [11, 12] := by decide
  have self : ((initial.run (linkedUnion.take 3)).byUnion [13]).1 = 13 := by decide
  have canonical := (unions_canonical reachable).1 13 [11, 12] isUnion
  exact ⟨isUnion, canonical.2.2.2.1.mp self⟩

/-- Once one of its members implements the other, a union is no longer what it is made of. -/
theorem union_not_canonical_linked :
    Reachable (initial.run linkedUnion) ∧ (initial.run linkedUnion).members? 13 = some [11, 12] ∧
    (initial.run linkedUnion).canCast 11 12 = true ∧
    ((initial.run linkedUnion).byUnion [13]).1 = 12 :=
  ⟨Reachable.initial.run, by decide, by decide, by decide⟩

end AgentScript.Registry
