import AgentScript.Proofs.Types.Effective

/-! What follows from the shape of the arena. No type is built on itself, so every recursion along
parents, members or dependents ends, and a parent is refused exactly when it would close a cycle.
A type that casts to another has all its members. -/
namespace AgentScript.Registry

variable {r r' : Registry}

/-- A cast from `a` to `b`, the second pair, asks for the cast of the first pair. -/
inductive CastCall (r : Registry) : TypeId × TypeId → TypeId × TypeId → Prop
  | fromMember (isUnion : r.members? a = some members) (member : m ∈ members) :
    CastCall r (m, b) (a, b)
  | toMember (isUnion : r.members? b = some members) (member : m ∈ members) :
    CastCall r (a, m) (a, b)
  | parent (isParent : p ∈ r.parents a) : CastCall r (p, b) (a, b)

theorem Ordered.acyclic (ordered : r.Ordered) (t : TypeId) :
    ¬ Relation.TransGen (fun t s => s ∈ r.supers t) t t := by
  obtain ⟨rank, ranked⟩ := ordered.ranked
  have lower {t s : TypeId} (path : Relation.TransGen (fun t s => s ∈ r.supers t) t s) :
      rank s < rank t := by
    induction path with
    | single isSuper => exact ranked _ _ isSuper
    | tail _ isSuper ih => exact (ranked _ _ isSuper).trans ih
  intro cycle
  exact Nat.lt_irrefl _ (lower cycle)

theorem Ordered.castCall_wf (ordered : r.Ordered) : WellFounded r.CastCall := by
  obtain ⟨rank, ranked⟩ := ordered.ranked
  apply Subrelation.wf (r := (measure fun pair : TypeId × TypeId => rank pair.1 + rank pair.2).rel)
  · intro pair pair' call
    cases call with
    | fromMember isUnion member =>
      exact Nat.add_lt_add_right (ranked _ _ (mem_supers_of_member isUnion member)) _
    | toMember isUnion member =>
      exact Nat.add_lt_add_left (ranked _ _ (mem_supers_of_member isUnion member)) _
    | parent isParent => exact Nat.add_lt_add_right (ranked _ _ (mem_supers_of_parent isParent)) _
  · exact (measure _).wf

/-- Casting is its own rule, without a bound on the steps. -/
theorem Ordered.canCast_eq (ordered : r.Ordered) (a b : TypeId) :
    r.canCast a b = (b == any || a == b ||
      (r.members? a).any (fun members => members.all fun m => r.canCast m b) ||
      (r.members? b).any (fun members => members.any fun m => r.canCast a m) ||
      (r.parents a).any fun p => r.canCast p b) := by
  rw [Bool.eq_iff_iff]
  simp only [Bool.or_eq_true, beq_iff_eq, Option.any_eq_true, List.all_eq_true, List.any_eq_true,
    ordered.canCast_iff]
  constructor
  · intro casts
    cases casts with
    | toAny => exact .inl (.inl (.inl (.inl rfl)))
    | refl => exact .inl (.inl (.inl (.inr rfl)))
    | ofUnion isUnion each => exact .inl (.inl (.inr ⟨_, isUnion, each⟩))
    | toUnion isUnion member onward => exact .inl (.inr ⟨_, isUnion, _, member, onward⟩)
    | parent isParent onward => exact .inr ⟨_, isParent, onward⟩
  · rintro ((((rfl | rfl) | ⟨members, isUnion, each⟩) | ⟨members, isUnion, m, member, onward⟩) |
      ⟨p, isParent, onward⟩)
    · exact .toAny a
    · exact .refl a
    · exact .ofUnion isUnion each
    · exact .toUnion isUnion member onward
    · exact .parent isParent onward

/-- The members of a union are no unions, so their names are those that are shown. -/
theorem Sound.name_union (sound : r.Sound) (isUnion : r.members? t = some members) :
    r.name t = "|".intercalate
      ((members.filter (· ≠ null) ++ if null ∈ members then [null] else []).map r.name) := by
  rw [name, isUnion]
  dsimp only
  congr 1
  apply List.map_congr_left
  intro m isShown
  have member : m ∈ members := by
    rcases List.mem_append.mp isShown with other | isNull
    · exact List.mem_of_mem_filter other
    · split at isNull
      · next here => rwa [List.mem_singleton.mp isNull]
      · simp at isNull
  have single := ((sound.unions t members isUnion).members m member).2.2
  rw [name, single]

theorem Ordered.dependents_wf (ordered : r.Ordered) (tracked : r.Tracked) :
    WellFounded fun d t => d ∈ r.dependentsOf t := by
  obtain ⟨height, h⟩ := ordered.height
  apply Subrelation.wf (r := (measure fun t => r.entries.length - height t).rel)
  · intro d t isDependent
    have higher := h.below d t ((tracked.dependents t d).mp isDependent)
    have bounded := h.bounded d
    change r.entries.length - height d < r.entries.length - height t
    omega
  · exact (measure _).wf

theorem Cascade.unique {types : List TypeId} (first : r.Cascade types r')
    (second : r.Cascade types r'') : r' = r'' := by
  induction first generalizing r'' with
  | done =>
    cases second
    rfl
  | next _ _ ih ih' =>
    cases second with
    | next dependents others =>
      obtain rfl := ih dependents
      exact ih' others

theorem foldl_refresh_cascade (ordered : r.Ordered) (tracked : r.Tracked) {types : List TypeId}
    (inside : ∀ t ∈ types, t < r.entries.length) : r.Cascade types (types.foldl refresh r) := by
  induction types generalizing r with
  | nil => exact .done
  | cons t rest ih =>
    obtain ⟨here, others⟩ := List.forall_mem_cons.mp inside
    cases refresh_cascade ordered tracked here with
    | @next _ _ _ refreshed _ dependents last =>
      cases last
      have same := SameBesideEffective.refreshWithin r.entries.length r t
      apply Cascade.next dependents
      apply ih (ordered.congr same.shapes) (same.tracked tracked)
      intro s isRest
      exact Nat.lt_of_lt_of_eq (others s isRest) same.length.symm

/-- Recomputing is its own rule, without a bound on the length of paths. -/
theorem Ordered.refresh_eq (ordered : r.Ordered) (tracked : r.Tracked) (inside : t < r.entries.length) :
    r.refresh t = ((r.recompute t).dependentsOf t).foldl refresh (r.recompute t) := by
  have same := SameBesideEffective.recompute r t
  cases refresh_cascade ordered tracked inside with
  | @next _ _ _ refreshed _ dependents last =>
    cases last
    apply dependents.unique
    apply foldl_refresh_cascade (ordered.congr same.shapes) (same.tracked tracked)
    intro d isDependent
    exact mem_supers_inside (((same.tracked tracked).dependents t d).mp isDependent)

/-- Along parents an agent type casts to the agent types that it is built on, and to no others. -/
theorem Ordered.casts_agent_iff (ordered : r.Ordered) (sound : r.Sound) (isAgent : r.isAgent a = true)
    (isAgent' : r.isAgent b = true) :
    r.Casts a b ↔ Relation.ReflTransGen (fun t p => p ∈ r.parents t) a b := by
  have notAny : b ≠ any := by
    rintro rfl
    obtain ⟨name, found⟩ := sound.anything.kind
    simp [Registry.isAgent, found, Kind.isAgent] at isAgent'
  have notUnion {t : TypeId} (isAgent : r.isAgent t = true) : r.members? t = none := by
    cases isUnion : r.members? t with
    | none => rfl
    | some members => simp [Registry.isAgent, kind_of_members isUnion, Kind.isAgent] at isAgent
  constructor
  · intro casts
    induction casts with
    | toAny => exact absurd rfl notAny
    | refl => exact .refl
    | ofUnion isUnion => simp [notUnion isAgent] at isUnion
    | toUnion isUnion => simp [notUnion isAgent'] at isUnion
    | parent isParent _ ih =>
      exact .head isParent (ih (ordered.agents _ isAgent _ isParent) isAgent' notAny)
  · intro path
    exact ordered.casts_of_agent isAgent
      (Relation.ReflTransGen.mono (fun _ _ => mem_supers_of_parent) _ _ path)

/-- Two agent types are related unless that is so already or closes a cycle. -/
theorem addParent_of_agents {child parent : TypeId} (isAgent : r.isAgent child = true)
    (isAgent' : r.isAgent parent = true) (new : parent ∉ r.parents child) :
    r.addParent child parent = if child = parent ∨ r.canCast parent child then
      .error (.cyclicParent (r.name child) (r.name parent))
      else .ok (refresh (r.link child parent) child) := by
  simp [addParent, isAgent, isAgent', new]

/-- Every recursion along parents, members or dependents ends, and no bound cuts it short. -/
structure Grounded (r : Registry) : Prop where
  acyclic : ∀ t, ¬ Relation.TransGen (fun t s => s ∈ r.supers t) t t
  castCalls : WellFounded r.CastCall
  canCast : ∀ a b, r.canCast a b = (b == any || a == b ||
    (r.members? a).any (fun members => members.all fun m => r.canCast m b) ||
    (r.members? b).any (fun members => members.any fun m => r.canCast a m) ||
    (r.parents a).any fun p => r.canCast p b)
  name : ∀ t members, r.members? t = some members → r.name t = "|".intercalate
    ((members.filter (· ≠ null) ++ if null ∈ members then [null] else []).map r.name)
  dependents : WellFounded fun d t => d ∈ r.dependentsOf t
  refresh : ∀ t < r.entries.length,
    r.refresh t = ((r.recompute t).dependentsOf t).foldl Registry.refresh (r.recompute t)

theorem Ordered.grounded (ordered : r.Ordered) (sound : r.Sound) (tracked : r.Tracked) : r.Grounded where
  acyclic := ordered.acyclic
  castCalls := ordered.castCall_wf
  canCast := ordered.canCast_eq
  name _ _ := sound.name_union
  dependents := ordered.dependents_wf tracked
  refresh _ := ordered.refresh_eq tracked

/-- No type is built on itself, and no recursion along the types that others are built on is without
end, also while a parent is added. One agent type is refused as the parent of another, of which it is
none yet, exactly if the two are the same or the child is among its own ancestors; nothing changes
then. -/
theorem parents_acyclic (reachable : Reachable r) :
    r.Grounded ∧
    ∀ child parent, r.isAgent child = true → r.isAgent parent = true → parent ∉ r.parents child →
      ((∃ c p, r.addParent child parent = .error (.cyclicParent c p)) ↔
        child = parent ∨ Relation.ReflTransGen (fun t p => p ∈ r.parents t) parent child) ∧
      (∀ e, r.addParent child parent = .error e →
        e = .cyclicParent (r.name child) (r.name parent) ∧ (Operation.addParent child parent).apply r = r) ∧
      ∀ r', r.addParent child parent = .ok r' →
        (r.link child parent).Grounded ∧ r' = (r.link child parent).refresh child := by
  have sound := reachable.sound
  have ordered := reachable.ordered
  have tracked := reachable.current.tracked
  refine ⟨ordered.grounded sound tracked, fun child parent isAgent isAgent' new => ?_⟩
  have added := addParent_of_agents isAgent isAgent' new
  rw [← ordered.casts_agent_iff sound isAgent' isAgent, ← ordered.canCast_iff]
  by_cases cyclic : child = parent ∨ r.canCast parent child = true
  · rw [if_pos cyclic] at added
    refine ⟨iff_of_true ⟨_, _, added⟩ cyclic, fun e refused => ?_, fun r' done => ?_⟩
    · rw [added] at refused
      cases refused
      exact ⟨rfl, by simp [Operation.apply, added, Operation.apply.after]⟩
    · rw [added] at done
      cases done
  · rw [if_neg cyclic] at added
    refine ⟨iff_of_false (fun found => ?_) cyclic, fun e refused => ?_, fun r' done => ?_⟩
    · obtain ⟨c, p, refused⟩ := found
      rw [added] at refused
      cases refused
    · rw [added] at refused
      cases refused
    · rw [added] at done
      cases done
      rw [not_or, Bool.not_eq_true] at cyclic
      have linkable : r.Linkable child parent := ⟨isAgent, isAgent', cyclic.1, cyclic.2⟩
      exact ⟨(ordered.link linkable).grounded (sound.link child parent) (tracked.link linkable), rfl⟩

/-- The first interface implements the second, so the second cannot implement the first. -/
theorem parents_acyclic_linked :
    (initial.run linkedUnion).isAgent 12 = true ∧ (initial.run linkedUnion).isAgent 11 = true ∧
    11 ∉ (initial.run linkedUnion).parents 12 ∧ 12 ∈ (initial.run linkedUnion).parents 11 ∧
    (∃ c p, (initial.run linkedUnion).addParent 12 11 = .error (.cyclicParent c p)) ∧
    (Operation.addParent 12 11).apply (initial.run linkedUnion) = initial.run linkedUnion := by
  have reachable : Reachable (initial.run linkedUnion) := Reachable.initial.run
  have agents : (initial.run linkedUnion).isAgent 12 = true ∧
      (initial.run linkedUnion).isAgent 11 = true := by decide
  have new : 11 ∉ (initial.run linkedUnion).parents 12 := by decide
  have linked : 12 ∈ (initial.run linkedUnion).parents 11 := by decide
  obtain ⟨cyclic, unchanged, _⟩ := (parents_acyclic reachable).2 12 11 agents.1 agents.2 new
  obtain ⟨c, p, refused⟩ := cyclic.mpr (.inr (.single linked))
  exact ⟨agents.1, agents.2, new, linked, ⟨c, p, refused⟩, (unchanged _ refused).2⟩

theorem Current.effective_parent (current : r.Current) (isParent : p ∈ r.parents t) :
    r.effective p ⊆ r.effective t := by
  intro i isSeen
  cases found : r.kind? t with
  | none => simp [parents, found] at isParent
  | some kind =>
    have notUnion : r.members? t = none := by
      cases isUnion : r.members? t with
      | none => rfl
      | some members => simp [parents_of_union isUnion] at isParent
    rw [current.effective_single found notUnion, List.mem_eraseDups]
    have isParent' : p ∈ kind.parents := by simpa [parents, found] using isParent
    exact List.mem_append_right _ (List.mem_flatMap.mpr ⟨p, isParent', isSeen⟩)

theorem Current.mem_effective_union (current : r.Current) (ordered : r.Ordered)
    (isUnion : r.members? t = some members) : i ∈ r.effective t ↔ ∀ m ∈ members, i ∈ r.effective m := by
  cases members with
  | nil => simpa using ordered.several t [] isUnion
  | cons first rest => simp [current.effective_union isUnion]

/-- What casts to a type sees the interfaces that the type sees. -/
theorem Casts.effective (current : r.Current) (ordered : r.Ordered) (sound : r.Sound)
    (casts : r.Casts a b) : r.effective b ⊆ r.effective a := by
  induction casts with
  | toAny a =>
    intro i isSeen
    obtain ⟨name, found⟩ := sound.anything.kind
    simp [current.effective_single found sound.anything.members?, Kind.own?, Kind.parents] at isSeen
  | refl a => exact List.Subset.refl _
  | ofUnion isUnion _ ih =>
    intro i isSeen
    rw [current.mem_effective_union ordered isUnion]
    intro m member
    exact ih m member isSeen
  | toUnion isUnion member _ ih =>
    intro i isSeen
    rw [current.mem_effective_union ordered isUnion] at isSeen
    exact ih (isSeen _ member)
  | parent isParent _ ih => exact List.Subset.trans ih (current.effective_parent isParent)

theorem findSome?_visible_isSome {find : Interface → Option α} (sees : r.effective b ⊆ r.effective a)
    (found : ((r.visible b).findSome? find).isSome = true) :
    ((r.visible a).findSome? find).isSome = true := by
  rw [List.findSome?_isSome_iff] at found ⊢
  obtain ⟨f, isVisible, here⟩ := found
  obtain ⟨i, isSeen, isInterface⟩ := List.mem_filterMap.mp isVisible
  exact ⟨f, List.mem_filterMap.mpr ⟨i, sees isSeen, isInterface⟩, here⟩

/-- What casts to a type has all its interfaces, and so all its members. -/
theorem canCast_keeps_members (reachable : Reachable r) (casts : r.canCast a b = true) :
    (∀ i ∈ r.effective b, i ∈ r.effective a) ∧
    (∀ name, (r.field? b name).isSome → (r.field? a name).isSome) ∧
    (∀ name, (r.messageNumber? b name).isSome → (r.messageNumber? a name).isSome) ∧
    (∀ number, (r.messageName? b number).isSome → (r.messageName? a number).isSome) ∧
    (∀ name, (r.scriptNumber? b name).isSome → (r.scriptNumber? a name).isSome) ∧
    ∀ number, (r.scriptName? b number).isSome → (r.scriptName? a number).isSome := by
  have ordered := reachable.ordered
  have sees := (ordered.canCast_iff.mp casts).effective reachable.current ordered reachable.sound
  exact ⟨fun _ isSeen => sees isSeen, fun _ => findSome?_visible_isSome sees,
    fun _ => findSome?_visible_isSome sees, fun _ => findSome?_visible_isSome sees,
    fun _ => findSome?_visible_isSome sees, fun _ => findSome?_visible_isSome sees⟩

/-- A message of the second interface is one of the union of both. -/
theorem canCast_keeps_members_linked :
    let r := initial.run (linkedUnion ++ [.declareMessage 12 "greet" 7])
    r.canCast 13 12 = true ∧ r.messageNumber? 12 "greet" = some 7 ∧
      (r.messageNumber? 13 "greet").isSome = true := by
  intro r
  have reachable : Reachable r := Reachable.initial.run
  have casts : r.canCast 13 12 = true := by decide
  have found : r.messageNumber? 12 "greet" = some 7 := by decide
  exact ⟨casts, found, (canCast_keeps_members reachable casts).2.2.1 "greet" (by rw [found]; rfl)⟩

end AgentScript.Registry
