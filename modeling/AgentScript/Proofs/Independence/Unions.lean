import AgentScript.Proofs.Independence.Members

/-! Types that are made in two registries. The class of a classifier, a union of twins and a twin without
`null` are twins again, whatever else the two registries hold. -/
namespace AgentScript.Registry
variable {types types' : List TypeId}

variable {base r r' : Registry}

/-- Two registries that scripts have made from one. -/
structure Siblings (base r r' : Registry) : Prop where
  closed : base.Closed
  left : base.Above r
  right : base.Above r'

theorem Siblings.symm (siblings : Siblings base r r') : Siblings base r' r :=
  ⟨siblings.closed, siblings.right, siblings.left⟩

structure Twins (base r r' : Registry) (types types' : List TypeId) : Prop where
  left : ∀ t ∈ types, ∃ u ∈ types', Twin base r r' t u
  right : ∀ u ∈ types', ∃ t ∈ types, Twin base r r' t u

theorem Twins.symm (twins : Twins base r r' types types') : Twins base r' r types' types where
  left u member := by
    obtain ⟨t, isMember, twin⟩ := twins.right u member
    exact ⟨t, isMember, twin.symm⟩
  right t member := by
    obtain ⟨u, isMember, twin⟩ := twins.left t member
    exact ⟨u, isMember, twin.symm⟩

theorem Twins.of_forall₂ (each : List.Forall₂ (Twin base r r') types types') :
    Twins base r r' types types' := by
  induction each with
  | nil => exact ⟨List.forall_mem_nil _, List.forall_mem_nil _⟩
  | cons first _ ih =>
    refine ⟨fun t member => ?_, fun u member => ?_⟩
    · rcases List.mem_cons.mp member with rfl | member
      · exact ⟨_, List.mem_cons_self, first⟩
      · obtain ⟨u, isMember, twin⟩ := ih.left t member
        exact ⟨u, List.mem_cons_of_mem _ isMember, twin⟩
    · rcases List.mem_cons.mp member with rfl | member
      · exact ⟨_, List.mem_cons_self, first⟩
      · obtain ⟨t, isMember, twin⟩ := ih.right u member
        exact ⟨t, List.mem_cons_of_mem _ isMember, twin⟩

theorem Twin.inside (above : base.Above r) (twin : Twin base r r' t u) : t < r.entries.length := by
  cases twin with
  | core core =>
    cases core with
    | old inside => exact Nat.lt_of_lt_of_le inside above.entries.length_le
    | cls _ _ isClass => exact classifierOf_inside isClass
  | union _ _ isUnion => exact members?_inside isUnion

section
variable (siblings : Siblings base r r')
include siblings

theorem Twin.core_of_single (twin : Twin base r r' t u) (single : r.members? t = none) :
    Core base r r' t u ∧ r'.members? u = none := by
  cases twin with
  | core core =>
    refine ⟨core, ?_⟩
    cases isUnion : r'.members? u with
    | none => rfl
    | some ms =>
      obtain ⟨_, isUnion', _⟩ :=
        (Twin.core core).symm.members siblings.closed siblings.right siblings.left isUnion
      rw [single] at isUnion'
      cases isUnion'
  | union _ _ isUnion =>
    rw [single] at isUnion
    cases isUnion

theorem Twin.flat (twin : Twin base r r' t u) :
    Covers base r r' ((r.members? t).getD [t]) ((r'.members? u).getD [u]) := by
  cases isUnion : r.members? t with
  | none =>
    obtain ⟨core, none⟩ := twin.core_of_single siblings isUnion
    rw [none]
    exact ⟨by simpa using core, by simpa using core⟩
  | some ms =>
    obtain ⟨ms', isUnion', covers⟩ := twin.members siblings.closed siblings.left siblings.right isUnion
    rw [isUnion']
    exact covers

theorem Twins.flatten (twins : Twins base r r' types types') :
    Covers base r r' (r.flatten types) (r'.flatten types') where
  left m member := by
    obtain ⟨t, isType, isMember⟩ := mem_flatten.mp member
    obtain ⟨u, isType', twin⟩ := twins.left t isType
    obtain ⟨m', isMember', core⟩ := (twin.flat siblings).left m isMember
    exact ⟨m', mem_flatten.mpr ⟨u, isType', isMember'⟩, core⟩
  right m' member := by
    obtain ⟨u, isType, isMember⟩ := mem_flatten.mp member
    obtain ⟨t, isType', twin⟩ := twins.right u isType
    obtain ⟨m, isMember', core⟩ := (twin.flat siblings).right m' isMember
    exact ⟨m, mem_flatten.mpr ⟨t, isType', isMember'⟩, core⟩

/-- A member that casts to no other one has a twin that casts to no other one. -/
theorem Twins.kept (twins : Twins base r r' types types') (kept : m ∈ r.normal types) :
    ∃ m' ∈ r'.normal types', Core base r r' m m' := by
  rw [mem_normal siblings.left.ordered] at kept
  obtain ⟨m', member, core⟩ := (twins.flatten siblings).left m kept.1
  refine ⟨m', (mem_normal siblings.right.ordered).mpr ⟨member, fun x' isMember casts => ?_⟩, core⟩
  obtain ⟨x, isMember', core'⟩ := (twins.flatten siblings).right x' isMember
  have back := Twin.casts siblings.closed siblings.right siblings.left casts (.core core.symm)
    (.core core'.symm)
  rw [kept.2 x isMember' back] at core'
  exact core'.right_unique siblings.right core

theorem Twins.normal (twins : Twins base r r' types types') :
    Covers base r r' (r.normal types) (r'.normal types') where
  left _ kept := twins.kept siblings kept
  right _ kept := by
    obtain ⟨m, kept, core⟩ := twins.symm.kept siblings.symm kept
    exact ⟨m, kept, core.symm⟩

/-- Unions of the same are twins, also where one of them was declared. -/
theorem Twin.of_members (isUnion : r.members? t = some ms) (isUnion' : r'.members? u = some ms')
    (covers : Covers base r r' ms ms') : Twin base r r' t u := by
  have declared {r r' : Registry} {t u : TypeId} {ms ms' : List TypeId} (siblings : Siblings base r r')
      (isUnion : r.members? t = some ms) (isUnion' : r'.members? u = some ms')
      (covers : Covers base r r' ms ms') (inside : t < base.entries.length) : u = t := by
    have inBase : base.members? t = some ms := members?_grown siblings.left.entries inside ▸ isUnion
    have itself : Covers base r r' ms ms := by
      have old (m : TypeId) (member : m ∈ ms) : Core base r r' m m :=
        .old ((siblings.closed.sound.unions t ms inBase).members m member).1
      exact ⟨fun m member => ⟨m, member, old m member⟩, fun m member => ⟨m, member, old m member⟩⟩
    have same := itself.right_unique siblings.right covers (siblings.left.ordered.sorted t ms isUnion)
      (siblings.right.ordered.sorted u ms' isUnion')
    subst same
    have again : r'.members? t = some ms :=
      (members?_grown siblings.right.entries inside).trans inBase
    exact siblings.right.ordered.interned u t ms isUnion' again
  by_cases inside : t < base.entries.length
  · rw [declared siblings isUnion isUnion' covers inside]
    exact .old inside
  · by_cases inside' : u < base.entries.length
    · rw [declared siblings.symm isUnion' isUnion covers.symm inside']
      exact .old inside'
    · exact .union (Nat.le_of_not_lt inside) (Nat.le_of_not_lt inside') isUnion isUnion' covers

theorem Covers.singleton (covers : Covers base r r' [t] ms') (sorted : ms'.Pairwise (· < ·)) :
    ∃ u, ms' = [u] ∧ Core base r r' t u := by
  obtain ⟨u, member, core⟩ := covers.left t List.mem_cons_self
  refine ⟨u, ?_, core⟩
  have only (v : TypeId) (isMember : v ∈ ms') : v = u := by
    obtain ⟨s, isFirst, core'⟩ := covers.right v isMember
    cases List.mem_singleton.mp isFirst
    exact core'.right_unique siblings.right core
  refine List.Pairwise.eq_of_mem_iff sorted (List.pairwise_singleton _ _) fun v => ?_
  exact ⟨fun isMember => List.mem_singleton.mpr (only v isMember),
    fun isU => List.mem_singleton.mp isU ▸ member⟩

end

/-- Twins that were made, with whatever else was made on the way. -/
structure Birth (base r r' : Registry) (p p' : TypeId × Registry) : Prop where
  siblings : Siblings base p.2 p'.2
  added : r.entries <+: p.2.entries
  added' : r'.entries <+: p'.2.entries
  twin : Twin base p.2 p'.2 p.1 p'.1

theorem Siblings.builtin (siblings : Siblings base r r') (builtin : t ≤ agentOrNull := by decide) :
    Twin base r r' t t :=
  .old (Nat.lt_of_le_of_lt builtin siblings.closed.builtin)

theorem Siblings.byClassifier (siblings : Siblings base r r') (c : Classifier) :
    Birth base r r' (r.byClassifier c) (r'.byClassifier c) := by
  obtain ⟨above, isClass⟩ := siblings.left.byClassifier c
  obtain ⟨above', isClass'⟩ := siblings.right.byClassifier c
  exact ⟨⟨siblings.closed, above, above'⟩, (byClassifier_made siblings.left.sound c).1.entries,
    (byClassifier_made siblings.right.sound c).1.entries,
    .core (.of_class above above' isClass isClass')⟩

theorem Siblings.byUnion (siblings : Siblings base r r') (twins : Twins base r r' types types') :
    Birth base r r' (r.byUnion types) (r'.byUnion types') := by
  have inside (t : TypeId) (member : t ∈ types) : t < r.entries.length := by
    obtain ⟨u, _, twin⟩ := twins.left t member
    exact twin.inside siblings.left
  have inside' (u : TypeId) (member : u ∈ types') : u < r'.entries.length := by
    obtain ⟨t, _, twin⟩ := twins.right u member
    exact twin.symm.inside siblings.right
  have made := (byUnion_made siblings.left.sound inside).1.entries
  have made' := (byUnion_made siblings.right.sound inside').1.entries
  have after : Siblings base (r.byUnion types).2 (r'.byUnion types').2 :=
    ⟨siblings.closed, siblings.left.byUnion inside, siblings.right.byUnion inside'⟩
  refine ⟨after, made, made', ?_⟩
  have covers := (twins.normal siblings).grown made made'
  have sorted := normal_pairwise r types
  have sorted' := normal_pairwise r' types'
  by_cases nonempty : types = []
  · subst nonempty
    obtain rfl : types' = [] := List.eq_nil_iff_forall_not_mem.mpr fun u member => by
      obtain ⟨t, isMember, _⟩ := twins.right u member
      cases isMember
    exact siblings.builtin (by decide : void ≤ agentOrNull)
  · have nonempty' : types' ≠ [] := by
      rintro rfl
      obtain ⟨t, member⟩ := List.exists_mem_of_ne_nil types nonempty
      obtain ⟨u, isMember, _⟩ := twins.left t member
      cases isMember
    rcases byUnion_denotes siblings.left.sound siblings.left.ordered inside nonempty with single | isUnion
    · rw [single] at covers
      obtain ⟨u, single', core⟩ := covers.singleton after sorted'
      rcases byUnion_denotes siblings.right.sound siblings.right.ordered inside' nonempty' with
        known | isUnion'
      · rw [single', List.singleton_inj] at known
        exact known ▸ .core core
      · have several := after.right.ordered.several _ _ isUnion'
        simp [single'] at several
    · rcases byUnion_denotes siblings.right.sound siblings.right.ordered inside' nonempty' with
        single' | isUnion'
      · rw [single'] at covers
        obtain ⟨t, single, _⟩ := covers.symm.singleton after.symm sorted
        have several := after.left.ordered.several _ _ isUnion
        simp [single] at several
      · exact .of_members after isUnion isUnion' covers

theorem Siblings.byNullable (siblings : Siblings base r r') (twin : Twin base r r' t u) :
    Birth base r r' (r.byNullable t) (r'.byNullable u) :=
  siblings.byUnion (.of_forall₂ (.cons twin (.cons siblings.builtin .nil)))

/-- A union without `null`. A type that is no union has a twin that is none. -/
theorem Siblings.byNonNullable (siblings : Siblings base r r') (twin : Twin base r r' t u) :
    (∃ p p', r.byNonNullable t = .ok p ∧ r'.byNonNullable u = .ok p' ∧ Birth base r r' p p') ∨
      ∃ e e', r.byNonNullable t = .error e ∧ r'.byNonNullable u = .error e' := by
  unfold Registry.byNonNullable
  cases isUnion : r.members? t with
  | none =>
    rw [(twin.core_of_single siblings isUnion).2]
    exact .inr ⟨_, _, rfl, rfl⟩
  | some ms =>
    obtain ⟨ms', isUnion', covers⟩ := twin.members siblings.closed siblings.left siblings.right isUnion
    rw [isUnion']
    have isNull {m m' : TypeId} (core : Core base r r' m m') : m = null ↔ m' = null := by
      have inside : null < base.entries.length := Nat.lt_trans (by decide) siblings.closed.builtin
      constructor
      · rintro rfl
        exact (Twin.core core).eq_old inside
      · rintro rfl
        exact (Twin.core core).symm.eq_old inside
    refine .inl ⟨_, _, rfl, rfl, siblings.byUnion ⟨fun m member => ?_, fun m' member => ?_⟩⟩
    · simp only [List.mem_filter, decide_eq_true_eq] at member
      obtain ⟨m', isMember, core⟩ := covers.left m member.1
      exact ⟨m', by simpa [isMember, ← isNull core] using member.2, .core core⟩
    · simp only [List.mem_filter, decide_eq_true_eq] at member
      obtain ⟨m, isMember, core⟩ := covers.right m' member.1
      exact ⟨m, by simpa [isMember, isNull core] using member.2, .core core⟩

end AgentScript.Registry
