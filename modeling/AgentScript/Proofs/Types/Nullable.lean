import AgentScript.Proofs.Types.Join

/-! Types with and without `null`. To add `null` to a type and to take it away again gives the union of the
type alone, unless a member of the type is declared below `null`: the union with `null` drops it. -/
namespace AgentScript.Registry

variable {r r' : Registry} {types : List TypeId} {N : String → Prop}

theorem Reachable.kind?_null (reachable : Reachable r) : ∃ name, r.kind? null = some (.primitive name none) := by
  have root : ∃ k, r.kind? null = some k ∧ ∃ name, k = .primitive name none := by
    refine reachable.keeps (kept_kind ?_ ?_ null) ⟨_, rfl, "null", rfl⟩
    · rintro name _ ⟨_, rfl⟩
      exact ⟨name, rfl⟩
    · rintro parent _ ⟨name, rfl⟩
      exact ⟨name, rfl⟩
  obtain ⟨_, found, name, rfl⟩ := root
  exact ⟨name, found⟩

theorem Reachable.members?_null (reachable : Reachable r) : r.members? null = none := by
  obtain ⟨name, found⟩ := reachable.kind?_null
  simp [members?, found]

/-- Only `any`, `null` and unions with `null` admit null. -/
theorem Casts.of_null (reachable : Reachable r) (casts : r.Casts a c) (isNull : a = null) :
    c = any ∨ c = null ∨ ∃ members, r.members? c = some members ∧ null ∈ members := by
  induction casts with
  | toAny => exact .inl rfl
  | refl => exact .inr (.inl isNull)
  | ofUnion isUnion =>
    subst isNull
    simp [reachable.members?_null] at isUnion
  | @toUnion c members m _ isUnion member _ ih =>
    obtain ⟨_, notAny, notUnion⟩ := (reachable.sound.unions c members isUnion).members m member
    rcases ih isNull with isAny | rfl | ⟨_, isUnion', _⟩
    · exact absurd isAny notAny
    · exact .inr (.inr ⟨members, isUnion, member⟩)
    · simp [notUnion] at isUnion'
  | parent isParent =>
    subst isNull
    obtain ⟨name, found⟩ := reachable.kind?_null
    simp [parents, found, Kind.parents] at isParent

theorem normal_inside (sound : r.Sound) (ordered : r.Ordered) (inside : ∀ t ∈ types, t < r.entries.length) :
    ∀ m ∈ r.normal types, m < r.entries.length := fun _ kept =>
  (flatten_inside sound inside ((mem_normal ordered).mp kept).1).1

theorem normal_normal (sound : r.Sound) (ordered : r.Ordered) (inside : ∀ t ∈ types, t < r.entries.length) :
    r.normal (r.normal types) = r.normal types := by
  have flat (m : TypeId) : m ∈ r.flatten (r.normal types) ↔ m ∈ r.normal types := by
    have alone {t : TypeId} (kept : t ∈ r.normal types) : (r.members? t).getD [t] = [t] := by
      rw [(flatten_inside sound inside ((mem_normal ordered).mp kept).1).2, Option.getD_none]
    rw [mem_flatten]
    constructor
    · rintro ⟨t, kept, member⟩
      rw [alone kept, List.mem_singleton] at member
      exact member ▸ kept
    · intro kept
      exact ⟨m, kept, by simp [alone kept]⟩
  apply List.Pairwise.eq_of_mem_iff (normal_pairwise r _) (normal_pairwise r types)
  intro m
  rw [mem_normal ordered, flat]
  constructor
  · exact And.left
  · intro kept
    refine ⟨kept, fun x kept' casts => ?_⟩
    exact ((mem_normal ordered).mp kept).2 x ((mem_normal ordered).mp ((flat x).mp kept')).1 casts

section
variable (reachable : Reachable r) (inside : t < r.entries.length) (without : ¬ r.Casts null t)
    (apart : ∀ m ∈ (r.members? t).getD [t], ¬ r.Casts m null)
include reachable without apart

/-- `null` joins the members of a type, and none of them is dropped for it. -/
theorem mem_normal_nullable : m ∈ r.normal [t, null] ↔ m = null ∨ m ∈ r.normal [t] := by
  have ordered := reachable.ordered
  have flat (m : TypeId) : m ∈ r.flatten [t, null] ↔ m ∈ r.flatten [t] ∨ m = null := by
    simp [mem_flatten, reachable.members?_null]
  have member {m : TypeId} : m ∈ r.flatten [t] → m ∈ (r.members? t).getD [t] := by
    simp [mem_flatten]
  have notBelow {m : TypeId} (isMember : m ∈ r.flatten [t]) : ¬ r.Casts null m := fun casts =>
    without (casts.trans reachable.sound (by
      have own := casts_iff_members.mp (.refl (r := r) t)
      exact own m (member isMember)))
  rw [mem_normal ordered, mem_normal ordered, flat]
  constructor
  · rintro ⟨isMember | rfl, alone⟩
    · exact .inr ⟨isMember, fun x isMember' => alone x ((flat x).mpr (.inl isMember'))⟩
    · exact .inl rfl
  · rintro (rfl | ⟨isMember, alone⟩)
    · refine ⟨.inr rfl, fun x isMember casts => ?_⟩
      rcases (flat x).mp isMember with among | rfl
      · exact absurd casts (notBelow among)
      · rfl
    · refine ⟨.inl isMember, fun x isMember' casts => ?_⟩
      rcases (flat x).mp isMember' with among | rfl
      · exact alone x among casts
      · exact absurd casts (apart m (member isMember))

theorem normal_nullable_without : (r.normal [t, null]).filter (· ≠ null) = r.normal [t] := by
  have sorted := (normal_pairwise r [t, null]).filter fun m => decide (m ≠ null)
  apply List.Pairwise.eq_of_mem_iff sorted (normal_pairwise r [t])
  intro m
  rw [List.mem_filter, mem_normal_nullable reachable without apart, decide_eq_true_eq]
  constructor
  · rintro ⟨rfl | kept, notNull⟩
    · exact absurd rfl notNull
    · exact kept
  · intro kept
    refine ⟨.inr kept, ?_⟩
    rintro rfl
    have isMember := ((mem_normal reachable.ordered).mp kept).1
    exact apart null (by simpa [mem_flatten] using isMember) (.refl null)

include inside

/-- The union with `null` has `null` and the members of the union without it. -/
theorem byNonNullable_byNullable :
    (r.byNullable t).2.byNonNullable (r.byNullable t).1 = .ok ((r.byNullable t).2.byUnion (r.normal [t])) ∧
      (r.byNullable t).2.SameUnion (r.normal [t]) [t] := by
  have sound := reachable.sound
  have ordered := reachable.ordered
  have both := nullable_inside sound inside
  have single : ∀ x ∈ [t], x < r.entries.length := by simpa using inside
  have made : Reachable (r.byNullable t).2 := reachable.step (.byNullable t) (by simpa [Operation.types] using inside)
  have grows : r.Grows (r.byNullable t).2 := byUnion_grows sound both
  have kept := normal_inside sound ordered single
  have nonempty := normal_ne_nil sound ordered single (by simp)
  have isUnion : (r.byNullable t).2.members? (r.byNullable t).1 = some (r.normal [t, null]) := by
    rcases byUnion_denotes sound ordered both (by simp) with one | isUnion
    · -- A single member would be `null` and a member of the type.
      obtain ⟨m, isKept⟩ := List.exists_mem_of_ne_nil _ nonempty
      have first := (mem_normal_nullable reachable without apart).mpr (.inl rfl)
      have second := (mem_normal_nullable reachable without apart).mpr (.inr isKept)
      rw [one, List.mem_singleton] at first second
      have isMember := ((mem_normal ordered).mp isKept).1
      rw [second.trans first.symm] at isMember
      exact absurd (.refl null) (apart null (by simpa [mem_flatten] using isMember))
    · exact isUnion
  constructor
  · rw [byNonNullable, isUnion]
    dsimp only
    rw [normal_nullable_without reachable without apart]
  · refine sameUnion_of_normal made (fun m isKept => ?_) (fun x isType => ?_) nonempty ?_
    · exact Nat.lt_of_lt_of_le (kept m isKept) grows.length_le
    · exact Nat.lt_of_lt_of_le (single x isType) grows.length_le
    · rw [grows.normal sound ordered single, grows.normal sound ordered kept,
        normal_normal sound ordered single]

end

section
variable (reachable : Reachable r) (isUnion : r.members? u = some members)
include reachable isUnion

theorem others_inside : ∀ m ∈ members.filter (· ≠ null), m < r.entries.length := fun m member =>
  ((reachable.sound.unions u members isUnion).members m (List.mem_of_mem_filter member)).1

theorem others_ne_nil : members.filter (· ≠ null) ≠ [] := by
  obtain ⟨m, member, notNull⟩ := reachable.ordered.exists_other isUnion null
  exact List.ne_nil_of_mem (List.mem_filter.mpr ⟨member, decide_eq_true notNull⟩)

theorem byNonNullable_without : ¬ (r.byUnion (members.filter (· ≠ null))).2.Casts null
    (r.byUnion (members.filter (· ≠ null))).1 := by
  intro casts
  have inside := others_inside reachable isUnion
  have made : Reachable (r.byUnion (members.filter (· ≠ null))).2 := reachable.step (.byUnion _) inside
  have grows := byUnion_grows reachable.sound inside
  have flat := (byUnion_made_denotes reachable inside (others_ne_nil reachable isUnion)).flat made.sound
    made.ordered fun m member => Nat.lt_of_lt_of_le (inside m member) grows.length_le
  rw [grows.normal reachable.sound reachable.ordered inside] at flat
  have kept {m : TypeId} (isKept : m ∈ r.normal (members.filter (· ≠ null))) : m ∈ members ∧ m ≠ null := by
    obtain ⟨t, isType, member⟩ := mem_flatten.mp ((mem_normal reachable.ordered).mp isKept).1
    obtain ⟨among, notNull⟩ := List.mem_filter.mp isType
    rw [((reachable.sound.unions u members isUnion).members t among).2.2, Option.getD_none,
      List.mem_singleton] at member
    rw [member]
    exact ⟨among, of_decide_eq_true notNull⟩
  rcases casts.of_null made rfl with isAny | isNull | ⟨others, isUnion', member⟩
  · rw [isAny, made.sound.anything.members?, Option.getD_none] at flat
    have among := (kept (flat ▸ List.mem_singleton_self any)).1
    exact ((reachable.sound.unions u members isUnion).members any among).2.1 rfl
  · rw [isNull, made.members?_null, Option.getD_none] at flat
    exact (kept (flat ▸ List.mem_singleton_self null)).2 rfl
  · rw [isUnion', Option.getD_some] at flat
    exact (kept (flat ▸ member)).2 rfl

end

/-- What is above all members of a union but `null` is, with `null`, the union again. -/
theorem nullable_again (reachable : Reachable r) (inside : t < r.entries.length)
    (isUnion : r.members? u = some members) (below : r.Casts t u)
    (above : ∀ m ∈ members, m ≠ null → r.Casts m t) (admits : r.Casts null u) :
    (r.byUnion [t, null]).2.canCast (r.byUnion [t, null]).1 u = true ∧
      (r.byUnion [t, null]).2.canCast u (r.byUnion [t, null]).1 = true := by
  have both := nullable_inside reachable.sound inside
  have made : Reachable (r.byUnion [t, null]).2 := reachable.step (.byUnion _) both
  have grows := byUnion_grows reachable.sound both
  have known := members?_inside isUnion
  have upper {x : TypeId} (isType : x ∈ [t, null]) := byUnion_upper reachable both (by simp) isType
  have later {a b : TypeId} (insideA : a < r.entries.length) (insideB : b < r.entries.length)
      (casts : r.Casts a b) : (r.byUnion [t, null]).2.Casts a b :=
    (grows.casts_iff reachable.ordered insideA insideB).mpr casts
  rw [made.ordered.canCast_iff, made.ordered.canCast_iff]
  constructor
  · apply byUnion_least reachable both (by simp)
    rw [List.forall_mem_cons, List.forall_mem_singleton]
    exact ⟨later inside known below, later (both null (by simp)) known admits⟩
  · refine .ofUnion ((grows.members? known).trans isUnion) fun m member => ?_
    by_cases isNull : m = null
    · rw [isNull]
      exact upper (by simp)
    · have insideM := ((reachable.sound.unions u members isUnion).members m member).1
      exact (later insideM inside (above m member isNull)).trans made.sound (upper (by simp))

theorem byNonNullable_union (reachable : Reachable r) (isUnion : r.members? u = some members) :
    ∃ p, r.byNonNullable u = .ok p ∧ p.2.canCast null p.1 = false ∧ p.2.canCast p.1 u = true ∧
      (r.canCast null u = true →
        (p.2.byUnion [p.1, null]).2.canCast (p.2.byUnion [p.1, null]).1 u = true ∧
        (p.2.byUnion [p.1, null]).2.canCast u (p.2.byUnion [p.1, null]).1 = true) := by
  have inside := others_inside reachable isUnion
  have nonempty := others_ne_nil reachable isUnion
  have made : Reachable (r.byUnion (members.filter (· ≠ null))).2 := reachable.step (.byUnion _) inside
  have grows := byUnion_grows reachable.sound inside
  have known := members?_inside isUnion
  have isUnion' := (grows.members? known).trans isUnion
  have below : (r.byUnion (members.filter (· ≠ null))).2.Casts (r.byUnion (members.filter (· ≠ null))).1 u :=
    byUnion_least reachable inside nonempty fun m member =>
      .toUnion isUnion' (List.mem_of_mem_filter member) (.refl m)
  refine ⟨_, by rw [byNonNullable, isUnion], ?_, ?_, fun admits => ?_⟩
  · rw [← Bool.not_eq_true, made.ordered.canCast_iff]
    exact byNonNullable_without reachable isUnion
  · exact made.ordered.canCast_iff.mpr below
  · refine nullable_again made (byUnion_made reachable.sound inside).2 isUnion' below ?_ ?_
    · intro m member notNull
      exact byUnion_upper reachable inside nonempty (List.mem_filter.mpr ⟨member, decide_eq_true notNull⟩)
    · have nullInside := nullable_inside reachable.sound known null (by simp)
      exact (grows.casts_iff reachable.ordered nullInside known).mpr (reachable.ordered.canCast_iff.mp admits)

/-- To add `null` and to take it away gives the union of the type alone, whether that was asked for before
or is asked for afterwards. A union without `null` lies below the union, and no null casts to it; with
`null` added it is the union again, if null casts to that. -/
theorem nullable_round_trip (reachable : Reachable r) :
    (∀ t < r.entries.length, r.canCast null t = false →
      (∀ m ∈ (r.members? t).getD [t], r.canCast m null = false) →
      (∃ p, (r.byNullable t).2.byNonNullable (r.byNullable t).1 = .ok p ∧
        ∀ r', p.2.AfterUnions r' → r'.byUnion [t] = (p.1, r')) ∧
      ∀ r', (r.byUnion [t]).2.AfterUnions r' →
        ∃ r'', (r'.byNullable t).2.byNonNullable (r'.byNullable t).1 = .ok ((r.byUnion [t]).1, r'')) ∧
    ∀ u members, r.members? u = some members →
      ∃ p, r.byNonNullable u = .ok p ∧ p.2.canCast null p.1 = false ∧ p.2.canCast p.1 u = true ∧
        (r.canCast null u = true →
          (p.2.byUnion [p.1, null]).2.canCast (p.2.byUnion [p.1, null]).1 u = true ∧
          (p.2.byUnion [p.1, null]).2.canCast u (p.2.byUnion [p.1, null]).1 = true) := by
  have ordered := reachable.ordered
  refine ⟨fun t inside without apart => ?_, fun u members => byNonNullable_union reachable⟩
  have single : ∀ x ∈ [t], x < r.entries.length := by simpa using inside
  have notNull : ¬ r.Casts null t := by simp [← ordered.canCast_iff, without]
  have notBelow : ∀ m ∈ (r.members? t).getD [t], ¬ r.Casts m null := fun m member => by
    simp [← ordered.canCast_iff, apart m member]
  constructor
  · obtain ⟨ok, same⟩ := byNonNullable_byNullable reachable inside notNull notBelow
    exact ⟨_, ok, same⟩
  · intro r' after
    have made : Reachable (r.byUnion [t]).2 := reachable.step (.byUnion [t]) single
    have reachable' := after.reachable made
    have grows := (byUnion_grows reachable.sound single).trans (after.grows made)
    have inside' := Nat.lt_of_lt_of_le inside grows.length_le
    have nullInside := nullable_inside reachable.sound inside null (by simp)
    have notBelow' : ∀ m ∈ (r'.members? t).getD [t], ¬ r'.Casts m null := by
      intro m member
      rw [grows.members? inside] at member
      have known := (flatten_inside reachable.sound single (mem_flatten.mpr ⟨t, by simp, member⟩)).1
      rw [grows.casts_iff ordered known nullInside]
      exact notBelow m member
    obtain ⟨ok, same⟩ := byNonNullable_byNullable reachable' inside'
      (mt (grows.casts_iff ordered nullInside inside).mp notNull) notBelow'
    -- Both unions are asked for again at the end.
    have first := same _ .refl
    have both := nullable_inside reachable'.sound inside'
    have kept : ∀ m ∈ r'.normal [t], m < (r'.byUnion [t, null]).2.entries.length := fun m isKept =>
      Nat.lt_of_lt_of_le (normal_inside reachable'.sound reachable'.ordered (by simpa using inside') m isKept)
        (byUnion_grows reachable'.sound both).length_le
    have second := sameUnion_of_normal reachable single single (by simp) rfl _ ((after.step both).step kept)
    refine ⟨_, ok.trans (congrArg Except.ok (Prod.ext ?_ rfl))⟩
    exact congrArg Prod.fst (first.symm.trans second)

/-- An interface, with `null` and without it again. -/
theorem nullable_round_trip_interface :
    (initial.run [.declareInterface "Walker"]).canCast null 11 = false ∧
    ∃ p, ((initial.run [.declareInterface "Walker"]).byNullable 11).2.byNonNullable 12 = .ok p ∧
      p.2.byUnion [11] = p := by
  have reachable : Reachable (initial.run [.declareInterface "Walker"]) := Reachable.initial.run
  have without : (initial.run [.declareInterface "Walker"]).canCast null 11 = false := by decide
  obtain ⟨⟨p, ok, same⟩, _⟩ := (nullable_round_trip reachable).1 11 (by decide) without (by decide)
  exact ⟨without, p, ok, same p.2 .refl⟩

/-- A type below `null` is dropped from the union with it. -/
theorem nullable_below_null :
    Reachable (initial.run [.declarePrimitive "nobody" .agent (some null)]) ∧
    (initial.run [.declarePrimitive "nobody" .agent (some null)]).find? "nobody" = some 11 ∧
    (initial.run [.declarePrimitive "nobody" .agent (some null)]).canCast null 11 = false ∧
    (((initial.run [.declarePrimitive "nobody" .agent (some null)]).byNullable 11).2.byNonNullable
      ((initial.run [.declarePrimitive "nobody" .agent (some null)]).byNullable 11).1).isOk = false :=
  ⟨Reachable.initial.run, by decide, by decide, by decide⟩

end AgentScript.Registry
