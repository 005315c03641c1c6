import AgentScript.Proofs.Types.Join
import AgentScript.Proofs.Independence.Late

/-! Types that stand for the same in two registries that scripts have made from one. A declared type
stands for itself, a late class for the class of its classifier, and a late union for the union of what
its members stand for. The members of a union come in the order in which they were made, so that they
may stand in another order; whatever is asked of twins has the same answer, as long as no two declared
types see two interfaces that give one name two meanings in opposite orders. -/
namespace AgentScript

/-- Only the storage classes of a list count, not their order. -/
theorem Major.common_congr {l l' : List Major} (same : ∀ m, m ∈ l ↔ m ∈ l') :
    Major.common l = Major.common l' := by
  have known (m : Major) : m ∈ l.filter (· ≠ .unknown) ↔ m ∈ l'.filter (· ≠ .unknown) := by
    rw [List.mem_filter, List.mem_filter, same]
  unfold Major.common
  generalize l.filter (· ≠ .unknown) = f at known ⊢
  generalize l'.filter (· ≠ .unknown) = f' at known ⊢
  have all {first : Major} {rest : List Major} :
      rest.all (· = first) = true ↔ ∀ m ∈ first :: rest, m = first := by simp
  cases f with
  | nil =>
    cases f' with
    | nil => rfl
    | cons first rest => exact absurd ((known first).mpr List.mem_cons_self) List.not_mem_nil
  | cons first rest =>
    cases f' with
    | nil => exact absurd ((known first).mp List.mem_cons_self) List.not_mem_nil
    | cons first' rest' =>
      dsimp only
      by_cases one : ∀ m ∈ first :: rest, m = first
      · have here := one first' ((known first').mpr List.mem_cons_self)
        have one' : ∀ m ∈ first' :: rest', m = first' := fun m member =>
          (one m ((known m).mpr member)).trans here.symm
        rw [if_pos (all.mpr one), if_pos (all.mpr one'), here]
      · have several : ¬ ∀ m ∈ first' :: rest', m = first' := fun one' => one fun m member =>
          (one' m ((known m).mp member)).trans (one' first ((known first).mp List.mem_cons_self)).symm
        rw [if_neg (mt all.mp one), if_neg (mt all.mp several)]

namespace Registry

variable {base r r' : Registry}

/-- What is known of a registry before any script is resolved. -/
structure Closed (base : Registry) : Prop where
  sound : base.Sound
  ordered : base.Ordered
  distinct : base.Distinct
  builtin : agentOrNull < base.entries.length
  effective : ∀ t, ∀ i ∈ base.effective t, i < base.interfaces.length
  fields : ∀ f ∈ base.interfaces, ∀ x ∈ f.fields, x.ty < base.entries.length
  constants : ∀ p ∈ base.constants, p.2.ty < base.entries.length

theorem Reachable.closed (reachable : Reachable r) : r.Closed where
  sound := reachable.sound
  ordered := reachable.ordered
  distinct := reachable.filled.distinct
  builtin := Nat.lt_of_lt_of_le (by decide) reachable.length
  effective := reachable.effective_inside
  fields := reachable.filled.fields
  constants := reachable.filled.constants

/-- One declared type, or late classes of one classifier. -/
inductive Core (base r r' : Registry) : TypeId → TypeId → Prop
  | old (inside : t < base.entries.length) : Core base r r' t t
  | cls (late : base.entries.length ≤ t) (late' : base.entries.length ≤ u)
    (isClass : r.classifierOf t = some c) (isClass' : r'.classifierOf u = some c) : Core base r r' t u

/-- Each type of one list stands for one of the other. -/
structure Covers (base r r' : Registry) (types types' : List TypeId) : Prop where
  left : ∀ t ∈ types, ∃ u ∈ types', Core base r r' t u
  right : ∀ u ∈ types', ∃ t ∈ types, Core base r r' t u

inductive Twin (base r r' : Registry) : TypeId → TypeId → Prop
  | core (core : Core base r r' t u) : Twin base r r' t u
  | union (late : base.entries.length ≤ t) (late' : base.entries.length ≤ u)
    (isUnion : r.members? t = some ms) (isUnion' : r'.members? u = some ms')
    (covers : Covers base r r' ms ms') : Twin base r r' t u

theorem Core.symm (core : Core base r r' t u) : Core base r' r u t := by
  cases core with
  | old inside => exact .old inside
  | cls late late' isClass isClass' => exact .cls late' late isClass' isClass

theorem Covers.symm {types types' : List TypeId} (covers : Covers base r r' types types') :
    Covers base r' r types' types where
  left u member := by
    obtain ⟨t, isMember, core⟩ := covers.right u member
    exact ⟨t, isMember, core.symm⟩
  right t member := by
    obtain ⟨u, isMember, core⟩ := covers.left t member
    exact ⟨u, isMember, core.symm⟩

theorem Twin.symm (twin : Twin base r r' t u) : Twin base r' r u t := by
  cases twin with
  | core core => exact .core core.symm
  | union late late' isUnion isUnion' covers =>
    exact .union late' late isUnion' isUnion covers.symm

theorem Twin.old (inside : t < base.entries.length) : Twin base r r' t t := .core (.old inside)

theorem Twin.eq_old (twin : Twin base r r' t u) (inside : t < base.entries.length) : u = t := by
  cases twin with
  | core core =>
    cases core with
    | old => rfl
    | cls late => exact absurd inside (Nat.not_lt.mpr late)
  | union late => exact absurd inside (Nat.not_lt.mpr late)

section
variable {r₁ r₁' : Registry} (added : r.entries <+: r₁.entries) (added' : r'.entries <+: r₁'.entries)
include added added'

theorem Core.grown (core : Core base r r' t u) : Core base r₁ r₁' t u := by
  cases core with
  | old inside => exact .old inside
  | cls late late' isClass isClass' =>
    exact .cls late late' ((classifierOf_grown added (classifierOf_inside isClass)).trans isClass)
      ((classifierOf_grown added' (classifierOf_inside isClass')).trans isClass')

theorem Covers.grown {types types' : List TypeId} (covers : Covers base r r' types types') :
    Covers base r₁ r₁' types types' where
  left t member := by
    obtain ⟨u, isMember, core⟩ := covers.left t member
    exact ⟨u, isMember, core.grown added added'⟩
  right u member := by
    obtain ⟨t, isMember, core⟩ := covers.right u member
    exact ⟨t, isMember, core.grown added added'⟩

theorem Twin.grown (twin : Twin base r r' t u) : Twin base r₁ r₁' t u := by
  cases twin with
  | core core => exact .core (core.grown added added')
  | union late late' isUnion isUnion' covers =>
    exact .union late late' ((members?_grown added (members?_inside isUnion)).trans isUnion)
      ((members?_grown added' (members?_inside isUnion')).trans isUnion') (covers.grown added added')

end

section
variable (closed : base.Closed) (above : base.Above r) (above' : base.Above r')

section
include above'

theorem Core.right_unique (first : Core base r r' t u) (second : Core base r r' t v) : u = v := by
  cases first with
  | old inside =>
    cases second with
    | old => rfl
    | cls late => exact absurd inside (Nat.not_lt.mpr late)
  | cls late late' isClass isClass' =>
    cases second with
    | old inside => exact absurd inside (Nat.not_lt.mpr late)
    | cls _ _ again isClass'' =>
      rw [isClass] at again
      cases again
      exact above'.distinct _ _ _ isClass' isClass''

/-- A list in order is determined by what it stands for. -/
theorem Covers.right_unique {ms ms₁ ms₂ : List TypeId} (first : Covers base r r' ms ms₁)
    (second : Covers base r r' ms ms₂) (sorted : ms₁.Pairwise (· < ·)) (sorted' : ms₂.Pairwise (· < ·)) :
    ms₁ = ms₂ := by
  have sub {xs ys : List TypeId} (first : Covers base r r' ms xs) (second : Covers base r r' ms ys)
      {u : TypeId} (member : u ∈ xs) : u ∈ ys := by
    obtain ⟨t, isMember, core⟩ := first.right u member
    obtain ⟨v, isMember', core'⟩ := second.left t isMember
    exact core.right_unique above' core' ▸ isMember'
  exact List.Pairwise.eq_of_mem_iff sorted sorted' fun u => ⟨sub first second, sub second first⟩

theorem Twin.right_unique (first : Twin base r r' t u) (second : Twin base r r' t v) : u = v := by
  have apart {t u ms : _} (core : Core base r r' t u) (late : base.entries.length ≤ t)
      (isUnion : r.members? t = some ms) : False := by
    cases core with
    | old inside => exact absurd inside (Nat.not_lt.mpr late)
    | cls _ _ isClass => simp [members?_of_class isClass] at isUnion
  cases first with
  | core core =>
    cases second with
    | core core' => exact core.right_unique above' core'
    | union late _ isUnion => exact (apart core late isUnion).elim
  | union late late' isUnion isUnion' covers =>
    cases second with
    | core core => exact (apart core late isUnion).elim
    | union _ _ again isUnion'' covers' =>
      rw [isUnion] at again
      cases again
      obtain rfl := covers.right_unique above' covers' (above'.ordered.sorted _ _ isUnion')
        (above'.ordered.sorted _ _ isUnion'')
      exact above'.ordered.interned _ _ _ isUnion' isUnion''

end

section
include above above'

theorem Core.of_class (isClass : r.classifierOf t = some c) (isClass' : r'.classifierOf u = some c) :
    Core base r r' t u := by
  have old {r r' : Registry} {t u : TypeId} (above : base.Above r) (above' : base.Above r')
      (isClass : r.classifierOf t = some c) (isClass' : r'.classifierOf u = some c)
      (inside : t < base.entries.length) : u = t := by
    rw [classifierOf_grown above.entries inside,
      ← classifierOf_grown above'.entries inside] at isClass
    exact above'.distinct _ _ _ isClass' isClass
  by_cases inside : t < base.entries.length
  · obtain rfl := old above above' isClass isClass' inside
    exact .old inside
  · by_cases inside' : u < base.entries.length
    · obtain rfl := old above' above isClass' isClass inside'
      exact .old inside'
    · exact .cls (Nat.le_of_not_lt inside) (Nat.le_of_not_lt inside') isClass isClass'

end

theorem Above.late_class (above : base.Above r) (late : base.entries.length ≤ t)
    (isClass : r.classifierOf t = some c) : ∃ own ups,
      r.kind? t = some (.classified c.display c own ups) ∧ base.interfaces.length ≤ own ∧
      ups.map r.classifierOf = c.above.head?.toList.map some ∧ r.major t = .agent := by
  cases above.late t late (classifierOf_inside isClass) with
  | cls kind new under storage =>
    rw [classifierOf, kind] at isClass
    cases isClass
    exact ⟨_, _, kind, new, under, storage⟩
  | union kind => simp [classifierOf, kind, Kind.classifier?] at isClass

include closed above above'

theorem Core.parents (core : Core base r r' t u) (isParent : p ∈ r.parents t) :
    ∃ q ∈ r'.parents u, Core base r r' p q := by
  cases core with
  | old inside =>
    rw [parents_grown above.entries inside] at isParent
    refine ⟨p, (parents_grown above'.entries inside).symm ▸ isParent, .old ?_⟩
    exact closed.ordered.inside t p (mem_supers_of_parent isParent)
  | cls late late' isClass isClass' =>
    obtain ⟨own, ups, kind, _, under, _⟩ := above.late_class late isClass
    obtain ⟨own', ups', kind', _, under', _⟩ := above'.late_class late' isClass'
    simp only [Registry.parents, kind, kind', Option.elim_some, Kind.parents] at isParent ⊢
    have known : r.classifierOf p ∈ ups'.map r'.classifierOf := by
      rw [under', ← under]
      exact List.mem_map_of_mem isParent
    have some : ∃ c', r.classifierOf p = some c' := by
      have member : r.classifierOf p ∈ ups.map r.classifierOf := List.mem_map_of_mem isParent
      rw [under] at member
      obtain ⟨c', _, same⟩ := List.mem_map.mp member
      exact ⟨c', same.symm⟩
    obtain ⟨c', isClass''⟩ := some
    obtain ⟨q, isParent', same⟩ := List.mem_map.mp known
    exact ⟨q, isParent', .of_class above above' isClass'' (same.trans isClass'')⟩

theorem Twin.parents (twin : Twin base r r' t u) (isParent : p ∈ r.parents t) :
    ∃ q ∈ r'.parents u, Twin base r r' p q := by
  cases twin with
  | core core =>
    obtain ⟨q, isParent', core⟩ := core.parents closed above above' isParent
    exact ⟨q, isParent', .core core⟩
  | union _ _ isUnion => simp [parents_of_union isUnion] at isParent

theorem Twin.members (twin : Twin base r r' t u) (isUnion : r.members? t = some ms) :
    ∃ ms', r'.members? u = some ms' ∧ Covers base r r' ms ms' := by
  cases twin with
  | core core =>
    cases core with
    | old inside =>
      rw [members?_grown above.entries inside] at isUnion
      have member (m : TypeId) (isMember : m ∈ ms) : m < base.entries.length :=
        ((closed.sound.unions t ms isUnion).members m isMember).1
      refine ⟨ms, (members?_grown above'.entries inside).trans isUnion, ⟨fun m isMember => ?_,
        fun m isMember => ?_⟩⟩
      · exact ⟨m, isMember, .old (member m isMember)⟩
      · exact ⟨m, isMember, .old (member m isMember)⟩
    | cls _ _ isClass => simp [members?_of_class isClass] at isUnion
  | union _ _ isUnion' isUnion'' covers =>
    rw [isUnion] at isUnion'
    cases isUnion'
    exact ⟨_, isUnion'', covers⟩

theorem Twin.casts (casts : r.Casts a c) (first : Twin base r r' a b) (second : Twin base r r' c d) :
    r'.Casts b d := by
  induction casts generalizing b d with
  | toAny =>
    rw [second.eq_old (Nat.lt_trans (by decide) closed.builtin)]
    exact .toAny b
  | refl =>
    rw [first.right_unique above' second]
    exact .refl d
  | ofUnion isUnion _ ih =>
    obtain ⟨ms', isUnion', covers⟩ := first.members closed above above' isUnion
    refine .ofUnion isUnion' fun m' member' => ?_
    obtain ⟨m, member, core⟩ := covers.right m' member'
    exact ih m member (.core core) second
  | toUnion isUnion member _ ih =>
    obtain ⟨ms', isUnion', covers⟩ := second.members closed above above' isUnion
    obtain ⟨m', member', core⟩ := covers.left _ member
    exact .toUnion isUnion' member' (ih first (.core core))
  | parent isParent _ ih =>
    obtain ⟨q, isParent', twin⟩ := first.parents closed above above' isParent
    exact .parent isParent' (ih twin second)

theorem Twin.canCast (first : Twin base r r' a b) (second : Twin base r r' c d) :
    r'.canCast b d = r.canCast a c := by
  rw [Bool.eq_iff_iff, above.ordered.canCast_iff, above'.ordered.canCast_iff]
  constructor
  · intro casts
    exact Twin.casts closed above' above casts first.symm second.symm
  · intro casts
    exact Twin.casts closed above above' casts first second

omit closed in
theorem Core.major (core : Core base r r' t u) : r'.major u = r.major t := by
  cases core with
  | old inside => rw [major_grown above.entries inside, major_grown above'.entries inside]
  | cls late late' isClass isClass' =>
    obtain ⟨_, _, _, _, _, storage⟩ := above.late_class late isClass
    obtain ⟨_, _, _, _, _, storage'⟩ := above'.late_class late' isClass'
    rw [storage, storage']

omit closed in
theorem Twin.major (twin : Twin base r r' t u) : r'.major u = r.major t := by
  cases twin with
  | core core => exact core.major above above'
  | union _ _ isUnion isUnion' covers =>
    rw [(above.sound.unions _ _ isUnion).major, (above'.sound.unions _ _ isUnion').major]
    refine Major.common_congr fun m => ?_
    simp only [List.mem_map]
    constructor
    · rintro ⟨u, member, rfl⟩
      obtain ⟨t, member, core⟩ := covers.right u member
      exact ⟨t, member, (core.major above above').symm⟩
    · rintro ⟨t, member, rfl⟩
      obtain ⟨u, member, core⟩ := covers.left t member
      exact ⟨u, member, core.major above above'⟩

omit closed in
theorem Twin.classifierOf (twin : Twin base r r' t u) : r'.classifierOf u = r.classifierOf t := by
  have none {r : Registry} {t : TypeId} {ms : List TypeId} (isUnion : r.members? t = some ms) :
      r.classifierOf t = none := by
    rw [Registry.classifierOf, kind_of_members isUnion]
    rfl
  cases twin with
  | core core =>
    cases core with
    | old inside =>
      rw [classifierOf_grown above.entries inside, classifierOf_grown above'.entries inside]
    | cls _ _ isClass isClass' => rw [isClass, isClass']
  | union _ _ isUnion isUnion' => rw [none isUnion, none isUnion']

omit closed in
/-- A class is named where it is declared, and else by its classifier. -/
theorem Core.class_name (core : Core base r r' t u) (isClass : r.classifierOf t = some c) :
    r'.name u = r.name t := by
  have isClass' := (Twin.core core).classifierOf above above' |>.trans isClass
  unfold name plainName
  rw [members?_of_class isClass, members?_of_class isClass']
  cases core with
  | old inside => rw [kind?_grown above.entries inside, kind?_grown above'.entries inside]
  | cls late late' =>
    obtain ⟨_, _, kind, _⟩ := above.late_class late isClass
    obtain ⟨_, _, kind', _⟩ := above'.late_class late' isClass'
    rw [kind, kind']
    rfl

end

end Registry

end AgentScript
