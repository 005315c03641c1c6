import AgentScript.Proofs.Types.Changes

/-! Every operation on a registry, and what all of them keep. Main statement: casting is a preorder
in each registry that operations lead to, and a partial order on the types that are no unions. -/
namespace AgentScript.Registry

variable {r r' : Registry} {N : String → Prop}

/-- What `addParent` checks before it changes anything. -/
structure Linkable (r : Registry) (child parent : TypeId) : Prop where
  agentChild : r.isAgent child = true
  agentParent : r.isAgent parent = true
  apart : child ≠ parent
  upward : r.canCast parent child = false

theorem addParent_cases {child parent : TypeId} (added : r.addParent child parent = .ok r') :
    r' = r ∨ r.Linkable child parent ∧ r' = refresh (r.link child parent) child := by
  unfold addParent at added
  split at added
  · cases added
  split at added
  · cases added
  split at added
  · cases added
    exact .inl rfl
  split at added
  · cases added
  · next agentChild agentParent _ upward =>
    cases added
    simp only [Decidable.not_not] at agentChild agentParent
    simp only [not_or, Bool.not_eq_true] at upward
    exact .inr ⟨⟨agentChild, agentParent, upward.1, upward.2⟩, rfl⟩

section
variable {child parent : TypeId}

theorem kind?_link (t : TypeId) : (r.link child parent).kind? t =
    (r.kind? t).map (if child = t then Kind.addParent parent else id) := by
  simp only [kind?, link, List.getElem?_modify]
  split
  · cases r.entries[t]? <;> rfl
  · cases r.entries[t]? <;> rfl

theorem members?_link (t : TypeId) : (r.link child parent).members? t = r.members? t := by
  unfold members?
  rw [kind?_link]
  generalize r.kind? t = found
  rcases found with _ | k
  · rfl
  · by_cases same : child = t
    · cases k <;> simp [same, Kind.addParent]
    · simp [same]

theorem isAgent_link (t : TypeId) : (r.link child parent).isAgent t = r.isAgent t := by
  unfold isAgent
  rw [kind?_link]
  generalize r.kind? t = found
  rcases found with _ | k
  · rfl
  · by_cases same : child = t
    · cases k <;> simp [same, Kind.addParent, Kind.isAgent]
    · simp [same]

theorem length_link : (r.link child parent).entries.length = r.entries.length := by
  simp [link]

theorem parents_link (isAgent : r.isAgent child = true) (t : TypeId) :
    (r.link child parent).parents t =
      if child = t then r.parents t ++ [parent] else r.parents t := by
  unfold parents
  rw [kind?_link]
  by_cases same : child = t
  · subst same
    unfold Registry.isAgent at isAgent
    generalize r.kind? child = found at isAgent ⊢
    rcases found with _ | k
    · cases isAgent
    · cases k <;> simp_all [Kind.isAgent, Kind.addParent, Kind.parents]
  · simp [same]

theorem mem_supers_link (isAgent : r.isAgent child = true) : s ∈ (r.link child parent).supers t ↔
    s ∈ r.supers t ∨ t = child ∧ s = parent := by
  by_cases same : child = t
  · subst same
    rw [supers_of_agent ((isAgent_link child).trans isAgent), parents_link isAgent,
      supers_of_agent isAgent]
    simp
  · have others : (r.link child parent).supers t = r.supers t := by
      unfold supers
      rw [kind?_link]
      simp [same]
    simp [others, Ne.symm same]

theorem Ordered.casts_of_agent (ordered : r.Ordered) (isAgent : r.isAgent a = true)
    (path : Relation.ReflTransGen (fun t s => s ∈ r.supers t) a b) : r.Casts a b := by
  induction path using Relation.ReflTransGen.head_induction_on with
  | refl => exact .refl b
  | head isSuper _ ih =>
    rw [supers_of_agent isAgent] at isSuper
    exact .parent isSuper (ih (ordered.agents _ isAgent _ isSuper))

/-- The new parent is not built on the child, so all that is can be moved above the new parent. -/
theorem Ordered.link (ordered : r.Ordered) (linkable : r.Linkable child parent) :
    (r.link child parent).Ordered where
  inside := by
    intro t s isSuper
    rw [length_link]
    rcases (mem_supers_link linkable.agentChild).mp isSuper with old | ⟨_, rfl⟩
    · exact ordered.inside t s old
    · exact isAgent_inside linkable.agentParent
  ranked := by
    classical
    obtain ⟨rank, ranked⟩ := ordered.ranked
    let Above (t : TypeId) := Relation.ReflTransGen (fun t s => s ∈ r.supers t) t child
    have parentNot : ¬ Above parent := by
      intro above
      have casts := ordered.canCast_iff.mpr (ordered.casts_of_agent linkable.agentParent above)
      simp [linkable.upward] at casts
    refine ⟨fun t => if Above t then rank t + rank parent + 1 else rank t, ?_⟩
    intro t s isSuper
    dsimp only
    rcases (mem_supers_link linkable.agentChild).mp isSuper with old | ⟨rfl, rfl⟩
    · have := ranked t s old
      by_cases above : Above s
      · rw [if_pos above, if_pos (above.head old)]
        omega
      · rw [if_neg above]
        split <;> omega
    · rw [if_neg parentNot, if_pos Relation.ReflTransGen.refl]
      omega
  agents := by
    intro t isAgent p isParent
    rw [isAgent_link] at isAgent ⊢
    rw [parents_link linkable.agentChild] at isParent
    split at isParent
    · rcases List.mem_append.mp isParent with old | new
      · exact ordered.agents t isAgent p old
      · rw [List.mem_singleton.mp new]
        exact linkable.agentParent
    · exact ordered.agents t isAgent p isParent
  root := by rw [isAgent_link, ordered.root]
  several := by simpa only [members?_link] using ordered.several
  sorted := by simpa only [members?_link] using ordered.sorted
  interned := by simpa only [members?_link] using ordered.interned

end

/-- Registries that differ in effective interfaces only. -/
structure SameBesideEffective (r r' : Registry) : Prop where
  kind? : ∀ t, r'.kind? t = r.kind? t
  length : r'.entries.length = r.entries.length
  dependents : r'.dependents = r.dependents
  interfaces : r'.interfaces = r.interfaces
  constants : r'.constants = r.constants

namespace SameBesideEffective

theorem refl (r : Registry) : r.SameBesideEffective r := ⟨fun _ => rfl, rfl, rfl, rfl, rfl⟩

theorem trans (first : r.SameBesideEffective r') (second : r'.SameBesideEffective r'') :
    r.SameBesideEffective r'' :=
  ⟨fun t => (second.kind? t).trans (first.kind? t), second.length.trans first.length,
    second.dependents.trans first.dependents, second.interfaces.trans first.interfaces,
    second.constants.trans first.constants⟩

theorem setEffective (r : Registry) (t : TypeId) (list : List InterfaceId) :
    r.SameBesideEffective (r.setEffective t list) := by
  refine ⟨fun x => ?_, by simp [Registry.setEffective], rfl, rfl, rfl⟩
  simp only [Registry.kind?, Registry.setEffective, List.getElem?_modify]
  split <;> cases r.entries[x]? <;> rfl

theorem recompute (r : Registry) (t : TypeId) : r.SameBesideEffective (r.recompute t) :=
  recompute_keeps (fun r' t list same => same.trans (setEffective r' t list)) (refl r) t

theorem refreshWithin (steps : Nat) (r : Registry) (t : TypeId) :
    r.SameBesideEffective (refreshWithin steps r t) :=
  refreshWithin_keeps (fun r' t list same => same.trans (setEffective r' t list)) (refl r) steps t

theorem shapes (same : r.SameBesideEffective r') : r'.shapes = r.shapes := by
  apply List.ext_getElem?
  intro t
  have kinds := congrArg (Option.map (Kind.rename "")) (same.kind? t)
  simpa [Registry.shapes, Registry.kind?, Function.comp_def] using kinds

end SameBesideEffective

/-- An operation on a registry. -/
inductive Operation where
  | byClassifier (c : Classifier)
  | byUnion (types : List TypeId)
  | byNullable (t : TypeId)
  | byNonNullable (t : TypeId)
  | declarePrimitive (name : String) (major : Major) (parent : Option TypeId)
  | declareClass (c : Classifier) (name : String)
  | declareInterface (name : String)
  | declareTypedef (name : String) (t : TypeId)
  | addParent (child parent : TypeId)
  | declareField (owner : TypeId) (name : String) (ty : TypeId) (slot : UInt8)
  | declareMessage (owner : TypeId) (name : String) (number : UInt16)
  | declareScript (owner : TypeId) (name : String) (number : UInt16)
  | declareConstant (name : String) (constant : Constant)

namespace Operation

def types : Operation → List TypeId
  | byClassifier _ | declareClass _ _ | declareInterface _ => []
  | byUnion types => types
  | byNullable t | byNonNullable t | declareTypedef _ t => [t]
  | declarePrimitive _ _ parent => parent.toList
  | addParent child parent => [child, parent]
  | declareField owner _ ty _ => [owner, ty]
  | declareMessage owner _ _ | declareScript owner _ _ => [owner]
  | declareConstant _ constant => [constant.ty]

/-- The registry after an operation, which is the old one if it is refused. A refused name for a
class is the exception: the class is made before its name is looked at. -/
def apply (r : Registry) : Operation → Registry
  | byClassifier c => (r.byClassifier c).2
  | byUnion types => (r.byUnion types).2
  | byNullable t => (r.byNullable t).2
  | byNonNullable t => after (r.byNonNullable t) (·.2)
  | declarePrimitive name major parent => after (r.declarePrimitive name major parent) (·.2)
  | declareClass c name => (r.declareClass c name).2
  | declareInterface name => after (r.declareInterface name) (·.2)
  | declareTypedef name t => after (r.declareTypedef name t) id
  | addParent child parent => after (r.addParent child parent) id
  | declareField owner name ty slot => after (r.declareField owner name ty slot) id
  | declareMessage owner name number => after (r.declareMessage owner name number) id
  | declareScript owner name number => after (r.declareScript owner name number) id
  | declareConstant name constant => after (r.declareConstant name constant) id
where
  after {α : Type} (result : Except TypeError α) (registry : α → Registry) : Registry :=
    match result with
    | .ok a => registry a
    | .error _ => r

end Operation

/-- The registries that operations on known types lead to. -/
inductive Reachable : Registry → Prop
  | initial : Reachable initial
  | step {r : Registry} (before : Reachable r) (op : Operation)
    (inside : ∀ t ∈ op.types, t < r.entries.length) : Reachable (op.apply r)

def run (r : Registry) (ops : List Operation) : Registry := ops.foldl (fun r op => op.apply r) r

/-- Each operation is given types that are known when it comes. -/
def Runs (r : Registry) : List Operation → Prop
  | [] => True
  | op :: rest => (∀ t ∈ op.types, t < r.entries.length) ∧ (op.apply r).Runs rest

instance Runs.decidable (r : Registry) : (ops : List Operation) → Decidable (r.Runs ops)
  | [] => .isTrue trivial
  | op :: rest =>
    have := Runs.decidable (op.apply r) rest
    inferInstanceAs (Decidable ((∀ t ∈ op.types, t < r.entries.length) ∧ (op.apply r).Runs rest))

theorem Reachable.run {ops : List Operation} (reachable : Reachable r)
    (runs : r.Runs ops := by decide) :
    Reachable (r.run ops) := by
  induction ops generalizing r with
  | nil => exact reachable
  | cons op rest ih => exact ih (reachable.step op runs.1) runs.2

inductive ReachableBy (A : Operation → Prop) : Registry → Prop
  | initial : ReachableBy A initial
  | step {r : Registry} (before : ReachableBy A r) (op : Operation) (allowed : A op)
    (inside : ∀ t ∈ op.types, t < r.entries.length) : ReachableBy A (op.apply r)

theorem ReachableBy.reachable {A : Operation → Prop} (reachable : ReachableBy A r) : Reachable r := by
  induction reachable with
  | initial => exact .initial
  | step _ op _ inside ih => exact ih.step op inside

namespace Operation

variable {op : Operation}

/-- The names that an operation gives to types are of a kind. -/
def Names (N : String → Prop) : Operation → Prop
  | declarePrimitive name _ _ | declareClass _ name | declareInterface name => N name
  | _ => True

theorem names_any (op : Operation) : op.Names fun _ => True := by
  cases op <;> trivial

theorem after_cases {result : Except TypeError α} {registry : α → Registry} {P : Registry → Prop}
    (refused : P r) (done : ∀ a, result = .ok a → P (registry a)) :
    P (apply.after r result registry) := by
  unfold apply.after
  split
  · exact done _ rfl
  · exact refused

/-- An operation makes changes or gives a type a parent. -/
theorem apply_cases (words : Wording N) (names : op.Names N) (sound : r.Sound) (ordered : r.Ordered)
    (inside : ∀ t ∈ op.types, t < r.entries.length) : r.Builds N (op.apply r) ∨
      ∃ child parent, op = addParent child parent ∧ r.Linkable child parent ∧
        op.apply r = refresh (r.link child parent) child := by
  have refused {α : Type} {result : Except TypeError α} {registry : α → Registry}
      (builds : ∀ a, result = .ok a → r.Builds N (registry a)) :
      r.Builds N (apply.after r result registry) :=
    after_cases .refl builds
  cases op with
  | byClassifier c => exact .inl (classUnder_builds words r c).1
  | byUnion types => exact .inl (byUnion_builds words sound inside)
  | byNullable t =>
    left
    exact byUnion_builds words sound (nullable_inside sound (inside t (by simp [types])))
  | byNonNullable t =>
    left
    apply refused
    intro p made
    obtain ⟨types, known, rfl⟩ := byNonNullable_cases sound made
    exact byUnion_builds words sound known
  | declarePrimitive name major parent =>
    left
    apply refused
    intro p declared
    apply declarePrimitive_builds names _ declared
    intro p isParent
    exact inside p (by simpa [types] using isParent)
  | declareClass c name => exact .inl (declareClass_builds words names r c)
  | declareInterface name => exact .inl (refused fun _ => declareInterface_builds names ordered)
  | declareTypedef name t =>
    exact .inl (refused fun _ => declareTypedef_builds (inside t (by simp [types])))
  | addParent child parent =>
    cases added : r.addParent child parent with
    | error e =>
      left
      simp only [apply, added]
      exact .refl
    | ok r' =>
      rcases addParent_cases added with rfl | ⟨linkable, same⟩
      · left
        simp only [apply, added]
        exact .refl
      · refine .inr ⟨child, parent, rfl, linkable, ?_⟩
        simp only [apply, added]
        exact same
  | declareField owner name ty slot =>
    exact .inl (refused fun _ => declareField_builds (inside ty (by simp [types])))
  | declareMessage owner name number => exact .inl (refused fun _ => declareMessage_builds)
  | declareScript owner name number => exact .inl (refused fun _ => declareScript_builds)
  | declareConstant name constant =>
    exact .inl (refused fun _ => declareConstant_builds (inside constant.ty (by simp [types])))

theorem apply_grows (sound : r.Sound) (ordered : r.Ordered)
    (inside : ∀ t ∈ op.types, t < r.entries.length) : r.Grows (op.apply r) ∨
      ∃ child parent, op = addParent child parent ∧ r.Linkable child parent ∧
        op.apply r = refresh (r.link child parent) child :=
  (apply_cases .any op.names_any sound ordered inside).imp_left (·.grows)

theorem apply_members? (sound : r.Sound) (ordered : r.Ordered)
    (inside : ∀ t ∈ op.types, t < r.entries.length) (old : t < r.entries.length) :
    (op.apply r).members? t = r.members? t := by
  rcases apply_grows sound ordered inside with grows | ⟨child, parent, _, _, linked⟩
  · exact grows.members? old
  · rw [linked, refresh, members?_congr (SameBesideEffective.refreshWithin _ _ child).shapes,
      members?_link]

end Operation

theorem mem_supers_inside (isSuper : s ∈ r.supers t) : t < r.entries.length := by
  apply Nat.lt_of_not_le
  intro outside
  simp [supers, kind?, List.getElem?_eq_none outside] at isSuper

theorem initial_ordered : initial.Ordered := by
  have older : ∀ t < initial.entries.length, ∀ s ∈ initial.supers t, s < t := by decide
  have union (t : TypeId) (members : List TypeId) (isUnion : initial.members? t = some members) :
      t = agentOrNull ∧ members = [null, agent] := by
    have only : ∀ t < initial.entries.length, initial.members? t ≠ none → t = agentOrNull := by
      decide
    obtain rfl := only t (members?_inside isUnion) (by simp [isUnion])
    cases isUnion
    exact ⟨rfl, rfl⟩
  constructor
  · intro t s isSuper
    have inside := mem_supers_inside isSuper
    exact (older t inside s isSuper).trans inside
  · exact ⟨id, fun t s isSuper => older t (mem_supers_inside isSuper) s isSuper⟩
  · intro t isAgent
    have agents : ∀ t < initial.entries.length, initial.isAgent t = true →
        ∀ p ∈ initial.parents t, initial.isAgent p = true := by decide
    exact agents t (isAgent_inside isAgent) isAgent
  · rfl
  · intro t members isUnion
    rw [(union t members isUnion).2]
    decide
  · intro t members isUnion
    rw [(union t members isUnion).2]
    decide
  · intro t u members isUnion isUnion'
    rw [(union t members isUnion).1, (union u members isUnion').1]

/-- What changes and new parents keep. -/
structure Kept (N : String → Prop) (P : Registry → Prop) : Prop where
  adds : ∀ {r r' : Registry}, r.Sound → r.Ordered → P r → r.Adds N r' → P r'
  link : ∀ {r : Registry} {child parent}, r.Sound → r.Ordered → P r → r.Linkable child parent →
    P (refresh (r.link child parent) child)

theorem kept_ordered : Kept N fun r => r.Sound ∧ r.Ordered where
  adds sound ordered _ adds := ⟨adds.sound sound, adds.grows.ordered ordered⟩
  link {_ child parent} sound ordered _ linkable :=
    ⟨(sound.link child parent).refreshWithin _ child,
      (ordered.link linkable).congr (SameBesideEffective.refreshWithin _ _ child).shapes⟩

theorem kept_length (n : Nat) : Kept N fun r => n ≤ r.entries.length where
  adds _ _ enough adds := Nat.le_trans enough adds.grows.length_le
  link {_ child _} _ _ enough _ := by
    rwa [refresh, (SameBesideEffective.refreshWithin _ _ child).length, length_link]

/-- What holds of the kind of a type under every name and with every parent holds for good. -/
theorem kept_kind {P : Kind → Prop} (renamed : ∀ name k, P k → P (k.rename name))
    (linked : ∀ parent k, P k → P (k.addParent parent)) (t : TypeId) :
    Kept N fun r => ∃ k, r.kind? t = some k ∧ P k where
  adds _ _ := by
    rintro ⟨k, found, holds⟩ adds
    cases adds with
    | type => exact ⟨k, (kind?_push ..).trans ((if_neg (Nat.ne_of_lt (kind?_inside found))).trans found), holds⟩
    | rename =>
      rw [kind?_rename, found]
      split
      · exact ⟨_, rfl, renamed _ k holds⟩
      · exact ⟨k, rfl, holds⟩
    | interface | bind | member | constant => exact ⟨k, found, holds⟩
  link {_ child _} _ _ := by
    rintro ⟨k, found, holds⟩ _
    rw [refresh, (SameBesideEffective.refreshWithin _ _ child).kind?, kind?_link, found]
    split
    · exact ⟨_, rfl, linked _ k holds⟩
    · exact ⟨k, rfl, holds⟩

theorem Builds.keeps {P : Registry → Prop}
    (each : ∀ {r r' : Registry}, r.Sound → r.Ordered → P r → r.Adds N r' → P r')
    (sound : r.Sound) (ordered : r.Ordered) (holds : P r) (builds : r.Builds N r') : P r' := by
  have all : (r'.Sound ∧ r'.Ordered) ∧ P r' := by
    induction builds with
    | refl => exact ⟨⟨sound, ordered⟩, holds⟩
    | tail _ adds ih =>
      exact ⟨kept_ordered.adds ih.1.1 ih.1.2 ih.1 adds, each ih.1.1 ih.1.2 ih.2 adds⟩
  exact all.2

namespace Kept
variable {P : Registry → Prop} (kept : Kept N P)
include kept

theorem apply (words : Wording N) {op : Operation} (names : op.Names N) (sound : r.Sound)
    (ordered : r.Ordered) (inside : ∀ t ∈ op.types, t < r.entries.length) (holds : P r) :
    P (op.apply r) := by
  rcases op.apply_cases words names sound ordered inside with builds | ⟨child, parent, _, linkable, linked⟩
  · exact builds.keeps kept.adds sound ordered holds
  · rw [linked]
    exact kept.link sound ordered holds linkable

end Kept

namespace Reachable

theorem sound_ordered (reachable : Reachable r) : r.Sound ∧ r.Ordered := by
  induction reachable with
  | initial => exact ⟨initial_sound, initial_ordered⟩
  | step _ op inside ih => exact kept_ordered.apply .any op.names_any ih.1 ih.2 inside ih

theorem sound (reachable : Reachable r) : r.Sound := reachable.sound_ordered.1

theorem ordered (reachable : Reachable r) : r.Ordered := reachable.sound_ordered.2

theorem step_keeps {P : Registry → Prop} (kept : Kept (fun _ => True) P) (reachable : Reachable r)
    (op : Operation) (inside : ∀ t ∈ op.types, t < r.entries.length) (holds : P r) : P (op.apply r) :=
  kept.apply .any op.names_any reachable.sound reachable.ordered inside holds

theorem keeps {P : Registry → Prop} (kept : Kept (fun _ => True) P) (initial : P Registry.initial)
    (reachable : Reachable r) : P r := by
  induction reachable with
  | initial => exact initial
  | step before op inside ih => exact before.step_keeps kept op inside ih

theorem traced (reachable : Reachable r) : ReachableBy (Operation.Names fun _ => True) r := by
  induction reachable with
  | initial => exact .initial
  | step _ op inside ih => exact ih.step op op.names_any inside

end Reachable

namespace ReachableBy

theorem keeps {P : Registry → Prop} (words : Wording N) (kept : Kept N P) (initial : P Registry.initial)
    (reachable : ReachableBy (Operation.Names N) r) : P r := by
  induction reachable with
  | initial => exact initial
  | step before op names inside ih =>
    exact kept.apply words names before.reachable.sound before.reachable.ordered inside ih

theorem stable : Stable (ReachableBy (Operation.Names N)) where
  sound reachable := reachable.reachable.sound
  byClassifier c reachable := reachable.step (.byClassifier c) trivial (List.forall_mem_nil _)
  byUnion {_ types} reachable inside := reachable.step (.byUnion types) trivial inside

end ReachableBy

/-- Casting is a preorder, and a partial order on the types that are no unions. -/
theorem canCast_order (reachable : Reachable r) :
    (∀ a, r.canCast a a = true) ∧
    (∀ a b c, r.canCast a b = true → r.canCast b c = true → r.canCast a c = true) ∧
    ∀ a b, r.members? a = none → r.members? b = none → r.canCast a b = true → r.canCast b a = true →
      a = b := by
  have sound := reachable.sound
  have ordered := reachable.ordered
  simp only [ordered.canCast_iff]
  refine ⟨fun a => .refl a, fun a b c first second => first.trans sound second, ?_⟩
  intro a b notUnion notUnion' first second
  exact first.antisymm sound ordered notUnion notUnion' second

/-- Two interfaces, the union of both, and then the first implements the second. -/
def linkedUnion : List Operation :=
  [.declareInterface "Walker", .declareInterface "Talker", .byUnion [11, 12], .addParent 11 12]

theorem canCast_order_linked : (initial.run linkedUnion).canCast 13 12 = true ∧
    (initial.run linkedUnion).canCast 12 agent = true ∧
    (initial.run linkedUnion).canCast 13 agent = true := by
  have reachable : Reachable (initial.run linkedUnion) := Reachable.initial.run
  have first : (initial.run linkedUnion).canCast 13 12 = true := by decide
  have second : (initial.run linkedUnion).canCast 12 agent = true := by decide
  exact ⟨first, second, (canCast_order reachable).2.1 13 12 agent first second⟩

end AgentScript.Registry
