import AgentScript.Proofs.Types.Growth

/-! What operations do to a registry, one change at a time: they add an interface or a type that fits,
give a type a name, or add a member or a constant. Only a new parent is left out. -/
namespace AgentScript

/-- One more member, whose name and number are not taken. -/
inductive Interface.Adds (f : Interface) : Interface → Prop
  | field {x : Field} (range : x.slot < fieldSlots) (named : f.field? x.name = none)
    (placed : f.fieldAt? x.slot = none) : Adds f { f with fields := f.fields ++ [x] }
  | message {name : String} {number : UInt16} (free : taken f.messages name number = false) :
    Adds f { f with messages := f.messages ++ [(name, number)] }
  | script {name : String} {number : UInt16} (free : taken f.scripts name number = false) :
    Adds f { f with scripts := f.scripts ++ [(name, number)] }

namespace Registry
variable {r r' : Registry} {N : String → Prop}

theorem kind?_inside (found : r.kind? t = some kind) : t < r.entries.length := by
  obtain ⟨e, isEntry, _⟩ := Option.map_eq_some_iff.mp found
  exact (List.getElem?_eq_some_iff.mp isEntry).1

theorem isAgent_of_class (isClass : r.classifierOf t = some c) : r.isAgent t = true := by
  unfold classifierOf at isClass
  unfold Registry.isAgent
  cases found : r.kind? t with
  | none => simp [found] at isClass
  | some kind => cases kind <;> simp_all [Kind.classifier?, Kind.isAgent]

/-- A type that can be made, whose name is of a kind. A class is new and lies under the class of the next
more general classifier. -/
structure Makes (N : String → Prop) (r : Registry) (kind : Kind) (major : Major) : Prop
    extends fits : r.Fits kind where
  named : N kind.name
  owns : ∀ i, kind.own? = some i → i < r.interfaces.length
  cls : ∀ c, kind.classifier? = some c → r.findClass? c = none ∧
    kind.parents.map r.classifierOf = c.above.head?.toList.map some
  single : ∀ members, kind = .union members → major = Major.common (members.map r.major) ∧
    ∀ m ∈ members, m ≠ any ∧ r.members? m = none

/-- One change, where names that types get are of a kind. -/
inductive Adds (N : String → Prop) (r : Registry) : Registry → Prop
  | type {kind : Kind} {major : Major} (makes : Makes N r kind major) : Adds N r (r.push kind major).2
  | interface (name : String) : Adds N r (r.pushInterface name).2
  | bind (name : String) (inside : t < r.entries.length) : Adds N r (r.bindName name t)
  | rename (t : TypeId) {name : String} (named : N name) : Adds N r (r.rename t name)
  | member (found : r.interfaces[i]? = some f) (adds : f.Adds g)
    (inside : ∀ x ∈ g.fields, x ∈ f.fields ∨ x.ty < r.entries.length) :
    Adds N r { r with interfaces := r.interfaces.set i g }
  | constant (name : String) (inside : c.ty < r.entries.length) :
    Adds N r { r with constants := (name, c) :: r.constants }

abbrev Builds (N : String → Prop) : Registry → Registry → Prop := Relation.ReflTransGen (Adds N)

theorem rename_sameTypes (r : Registry) (t : TypeId) (name : String) :
    r.SameTypes (r.rename t name) where
  shapes := by
    have twice (k : Kind) : (k.rename name).rename "" = k.rename "" := by cases k <;> rfl
    apply List.ext_getElem?
    intro x
    by_cases same : t = x
    · simp [shapes, rename, same, Function.comp_def, twice]
    · simp [shapes, rename, same]
  effective := by
    intro x
    simp only [effective, rename, List.getElem?_modify]
    split
    · cases r.entries[x]? <;> rfl
    · cases r.entries[x]? <;> rfl
  dependents := rfl

theorem kind?_rename (r : Registry) (t : TypeId) (name : String) (u : TypeId) :
    (r.rename t name).kind? u = (r.kind? u).map (if t = u then Kind.rename name else id) := by
  simp only [kind?, rename, List.getElem?_modify]
  split <;> cases r.entries[u]? <;> rfl

/-- Interfaces keep their members when a type gets a name. -/
theorem rename_interfaces (r : Registry) (t : TypeId) (name : String) (i : InterfaceId) :
    ∃ title : Interface → String,
      (r.rename t name).interfaces[i]? = r.interfaces[i]?.map fun f => { f with name := title f } := by
  simp only [rename]
  split
  · next own _ =>
    refine ⟨fun f => if own = i then name else f.name, ?_⟩
    rw [List.getElem?_modify]
    split <;> cases r.interfaces[i]? <;> rfl
  · exact ⟨(·.name), by simp⟩

theorem Adds.grows (adds : r.Adds N r') : r.Grows r' := by
  cases adds with
  | type makes => exact .push makes.fits _
  | rename t => exact .same (rename_sameTypes r t _)
  | interface | bind | member | constant => exact .same (.of_entries rfl rfl)

theorem Adds.sound (adds : r.Adds N r') (sound : r.Sound) : r'.Sound := by
  cases adds with
  | type makes =>
    refine (push_extends sound fun members isUnion => ?_).sound
    obtain ⟨storage, each⟩ := makes.single members isUnion
    refine ⟨storage, fun m member => ⟨makes.inside m ?_, each m member⟩⟩
    simpa [isUnion, Kind.supers, Kind.parents, Kind.members] using member
  | interface name => exact (pushInterface_extends sound name).sound
  | bind name inside => exact sound.bindName name inside
  | rename t => exact sound.rename t _
  | member | constant => exact sound.same rfl rfl

theorem Builds.grows (builds : r.Builds N r') : r.Grows r' := by
  induction builds with
  | refl => exact .refl r
  | tail _ adds ih => exact ih.trans adds.grows

/-- The names of types that nobody named. -/
structure Wording (N : String → Prop) : Prop where
  cls : ∀ c : Classifier, N c.display
  union : N ""

theorem Wording.any : Wording fun _ => True := ⟨fun _ => trivial, trivial⟩

section
variable (words : Wording N)
include words

theorem pushClass_makes (new : r.findClass? c = none) {parents : List TypeId}
    (under : parents.map r.classifierOf = c.above.head?.toList.map some) :
    Makes N (r.pushInterface c.display).2
      (.classified c.display c (r.pushInterface c.display).1 parents) .agent := by
  have agents (p : TypeId) (isParent : p ∈ parents) : r.isAgent p = true := by
    have member : r.classifierOf p ∈ parents.map r.classifierOf := List.mem_map_of_mem isParent
    rw [under] at member
    obtain ⟨c', _, same⟩ := List.mem_map.mp member
    exact isAgent_of_class same.symm
  refine ⟨⟨fun s isSuper => ?_, fun _ => agents, by simp⟩, words.cls c, ?_, ?_, by simp⟩
  · simp only [Kind.supers, Kind.parents, Kind.members, List.append_nil] at isSuper
    exact isAgent_inside (agents s isSuper)
  · rintro _ ⟨⟩
    simp [pushInterface]
  · rintro _ ⟨⟩
    exact ⟨new, under⟩

theorem classUnder_builds (r : Registry) (c : Classifier) : r.Builds N (r.classUnder c c.above).2 ∧
    (r.classUnder c c.above).2.classifierOf (r.classUnder c c.above).1 = some c := by
  refine classUnder_keeps .refl (fun {r' c' _} builds new under => ?_) c
  exact (builds.tail (.interface c'.display)).tail (.type (pushClass_makes words new under))

end

theorem findUnion?_eq_some (found : r.findUnion? members = some t) :
    r.members? t = some members := by
  obtain ⟨inside, isUnion, _⟩ := List.findIdx?_eq_some_iff_getElem.mp found
  unfold members? kind?
  rw [List.getElem?_eq_getElem inside]
  simp only [Option.map_some]
  cases kind : r.entries[t].kind <;> simp_all [Kind.isUnionOf]

theorem findUnion?_eq_none (notFound : r.findUnion? members = none) (t : TypeId) :
    r.members? t ≠ some members := by
  intro isUnion
  have found := kind_of_members isUnion
  obtain ⟨e, isEntry, kind⟩ := Option.map_eq_some_iff.mp found
  have := List.findIdx?_eq_none_iff.mp notFound e (List.mem_of_getElem? isEntry)
  simp [kind, Kind.isUnionOf] at this

theorem byUnion_cases (sound : r.Sound) {types : List TypeId}
    (inside : ∀ t ∈ types, t < r.entries.length) : (r.byUnion types).2 = r ∨
      Makes (fun name => name = "") r (.union (r.normal types)) (Major.common ((r.normal types).map r.major)) ∧
      r.byUnion types = r.push (.union (r.normal types)) (Major.common ((r.normal types).map r.major)) := by
  refine (byUnion_or sound inside).imp And.left fun ⟨made, several, notFound, each⟩ => ⟨?_, made⟩
  refine ⟨⟨fun s isSuper => ?_, by simp [Kind.isAgent], ?_⟩, rfl, by simp [Kind.own?],
    by simp [Kind.classifier?], ?_⟩
  · simp only [Kind.supers, Kind.parents, Kind.members, List.nil_append] at isSuper
    exact (each s isSuper).1
  · rintro _ ⟨⟩
    exact ⟨several, normal_pairwise r types, findUnion?_eq_none notFound⟩
  · rintro _ ⟨⟩
    exact ⟨rfl, fun m member => (each m member).2⟩

theorem Makes.mono {M : String → Prop} {major : Major} (makes : Makes N r kind major) (weaker : ∀ name, N name → M name) :
    Makes M r kind major :=
  { makes with named := weaker _ makes.named }

theorem byUnion_builds (words : Wording N) (sound : r.Sound) {types : List TypeId}
    (inside : ∀ t ∈ types, t < r.entries.length) : r.Builds N (r.byUnion types).2 := by
  rcases byUnion_cases sound inside with same | ⟨makes, made⟩
  · rw [same]
  · rw [made]
    exact .single (.type (makes.mono fun name blank => blank ▸ words.union))

theorem byUnion_grows (sound : r.Sound) {types : List TypeId}
    (inside : ∀ t ∈ types, t < r.entries.length) : r.Grows (r.byUnion types).2 :=
  (byUnion_builds .any sound inside).grows

theorem nullable_inside (sound : r.Sound) (inside : t < r.entries.length) :
    ∀ x ∈ [t, null], x < r.entries.length := by
  have nullInside : null < r.entries.length := Nat.lt_trans (by decide) sound.text.inside
  simpa using ⟨inside, nullInside⟩

theorem byNonNullable_cases (sound : r.Sound) (made : r.byNonNullable t = .ok p) :
    ∃ types, (∀ m ∈ types, m < r.entries.length) ∧ p = r.byUnion types := by
  unfold byNonNullable at made
  split at made
  · next members isUnion =>
    cases made
    refine ⟨members.filter (· ≠ null), fun m member => ?_, rfl⟩
    exact ((sound.unions t members isUnion).members m (List.mem_of_mem_filter member)).1
  · cases made

section
variable {name : String}

theorem declarePrimitive_builds {major : Major} {parent : Option TypeId} (named : N name)
    (inside : ∀ p ∈ parent, p < r.entries.length)
    (declared : r.declarePrimitive name major parent = .ok p) : r.Builds N p.2 := by
  unfold declarePrimitive at declared
  repeat' split at declared
  · cases declared
    have makes : Makes N r (.primitive name parent) major := by
      refine ⟨⟨fun s isSuper => ?_, by simp [Kind.isAgent], by simp⟩, named, by simp [Kind.own?],
        by simp [Kind.classifier?], by simp⟩
      simp only [Kind.supers, Kind.parents, Kind.members, List.append_nil, Option.mem_toList] at isSuper
      exact inside s isSuper
    exact .tail (.single (.type makes)) (.bind name (by simp [push]))
  · cases declared
    exact .refl
  · cases declared
  · cases declared

theorem declareInterface_builds (named : N name) (ordered : r.Ordered)
    (declared : r.declareInterface name = .ok p) : r.Builds N p.2 := by
  unfold declareInterface at declared
  split at declared
  · split at declared
    · cases declared
      exact .refl
    · cases declared
  · cases declared
    have makes : Makes N (r.pushInterface name).2
        (.interface name (r.pushInterface name).1 [agent]) .agent := by
      refine ⟨⟨fun s isSuper => ?_, fun _ p isParent => ?_, by simp⟩, named, ?_, by simp [Kind.classifier?],
        by simp⟩
      · simp only [Kind.supers, Kind.parents, Kind.members, List.append_nil,
          List.mem_singleton] at isSuper
        subst isSuper
        exact isAgent_inside ordered.root
      · simp only [Kind.parents, List.mem_singleton] at isParent
        subst isParent
        exact ordered.root
      · rintro _ ⟨⟩
        simp [pushInterface]
    exact .tail (.tail (.single (.interface name)) (.type makes)) (.bind name (by simp [push, pushInterface]))

theorem declareClass_builds (words : Wording N) (named : N name) (r : Registry) (c : Classifier) :
    r.Builds N (r.declareClass c name).2 := by
  obtain ⟨first, isClass⟩ := classUnder_builds words r c
  change r.Builds N (r.byClassifier c).2 at first
  change (r.byClassifier c).2.classifierOf (r.byClassifier c).1 = some c at isClass
  have inside := classifierOf_inside isClass
  unfold declareClass
  generalize r.byClassifier c = p at first inside ⊢
  obtain ⟨t, r'⟩ := p
  dsimp only at first inside ⊢
  split
  · split <;> exact first
  · split
    · exact (first.tail (.rename t named)).tail (.bind name (by simpa [rename] using inside))
    · exact first.tail (.bind name inside)

theorem declareTypedef_builds (inside : t < r.entries.length)
    (declared : r.declareTypedef name t = .ok r') : r.Builds N r' := by
  unfold declareTypedef at declared
  repeat' split at declared
  · cases declared
    exact .single (.bind name inside)
  · cases declared
    exact .refl
  · cases declared

theorem updateOwn_cases {owner : TypeId} {change : Interface → Except TypeError Interface}
    (updated : r.updateOwn owner change = .ok r') : ∃ i f g, (r.kind? owner).bind Kind.own? = some i ∧
      r.interfaces[i]? = some f ∧ change f = .ok g ∧ r' = { r with interfaces := r.interfaces.set i g } := by
  unfold updateOwn at updated
  repeat' split at updated
  · cases updated
  · cases updated
  · cases updated
  · next i owns _ f found _ g changed =>
    cases updated
    exact ⟨i, f, g, owns, found, changed, rfl⟩

theorem updateOwn_builds {owner : TypeId} {change : Interface → Except TypeError Interface}
    (adds : ∀ f g, change f = .ok g →
      f.Adds g ∧ ∀ x ∈ g.fields, x ∈ f.fields ∨ x.ty < r.entries.length)
    (updated : r.updateOwn owner change = .ok r') : r.Builds N r' := by
  obtain ⟨i, f, g, _, found, changed, rfl⟩ := updateOwn_cases updated
  obtain ⟨added, inside⟩ := adds f g changed
  exact .single (.member found added inside)

theorem declareField_builds {owner ty : TypeId} {slot : UInt8} (inside : ty < r.entries.length)
    (declared : r.declareField owner name ty slot = .ok r') : r.Builds N r' := by
  unfold declareField at declared
  split at declared
  · cases declared
  · next range =>
    refine updateOwn_builds (fun f g changed => ?_) declared
    unfold Interface.declareField at changed
    split at changed
    · cases changed
    · next named =>
      split at changed
      · cases changed
      · next placed =>
        cases changed
        refine ⟨.field (UInt8.not_le.mp range) named placed, fun x isField => ?_⟩
        rcases List.mem_append.mp isField with old | new
        · exact .inl old
        · cases List.mem_singleton.mp new
          exact .inr inside

theorem declareMessage_builds {owner : TypeId} {number : UInt16}
    (declared : r.declareMessage owner name number = .ok r') : r.Builds N r' := by
  refine updateOwn_builds (fun f g changed => ?_) declared
  unfold Interface.declareMessage at changed
  split at changed
  · cases changed
  · next free =>
    cases changed
    exact ⟨.message (Bool.not_eq_true _ ▸ free), fun _ => .inl⟩

theorem declareScript_builds {owner : TypeId} {number : UInt16}
    (declared : r.declareScript owner name number = .ok r') : r.Builds N r' := by
  refine updateOwn_builds (fun f g changed => ?_) declared
  unfold Interface.declareScript at changed
  split at changed
  · cases changed
  · next free =>
    cases changed
    exact ⟨.script (Bool.not_eq_true _ ▸ free), fun _ => .inl⟩

theorem declareConstant_builds {c : Constant} (inside : c.ty < r.entries.length)
    (declared : r.declareConstant name c = .ok r') : r.Builds N r' := by
  unfold declareConstant at declared
  split at declared
  · cases declared
  · cases declared
    exact .single (.constant name inside)

end

end Registry

end AgentScript
