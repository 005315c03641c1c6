import AgentScript.Proofs.Preservation.Value
import AgentScript.Resolve.Basic

/-! Types of numbers. Whatever a number casts to is stored as a number, if it can be stored at all: a
union has a storage class only if its members agree on one, and `any` is not a member of a union. -/
namespace AgentScript

/-- Each classifier above another one has the rest above it. -/
theorem Classifier.above_tail {c p : Classifier} {rest : List Classifier} (here : c.above = p :: rest) :
    p.above = rest := by
  obtain ⟨f, g, s⟩ := c
  unfold above at here
  by_cases species : s = 0 <;> by_cases genus : g = 0 <;> by_cases family : f = 0 <;>
    simp_all [above, root] <;> obtain ⟨rfl, rfl⟩ := here <;> simp_all

theorem Classifier.not_mem_above (c : Classifier) : c ∉ c.above := by
  obtain ⟨f, g, s⟩ := c
  unfold above
  by_cases species : s = 0 <;> by_cases genus : g = 0 <;> by_cases family : f = 0 <;>
    simp_all [root]

namespace Registry
variable {r : Registry}

def numberTypes : List (TypeId × Option TypeId) :=
  [(number, none), (integer, some number), (float, some number), (boolean, some integer)]

def IsNumber (t : TypeId) : Prop := t ∈ numberTypes.map (·.1)

def Numeric (r : Registry) (t : TypeId) : Prop :=
  t = any ∨ IsNumber t ∨ ∃ members, r.members? t = some members ∧ ∃ m ∈ members, IsNumber m

theorem Numeric.of_mem (member : t ∈ [number, integer, float, boolean]) : r.Numeric t :=
  .inr (.inl member)

structure Primitive (r : Registry) (t : TypeId) (parent : Option TypeId) (storage : Major) :
    Prop where
  kind : ∃ name, r.kind? t = some (.primitive name parent)
  major : r.major t = storage

structure Union (r : Registry) (t : TypeId) (members : List TypeId) : Prop where
  major : r.major t = Major.common (members.map r.major)
  members : ∀ m ∈ members, m < r.entries.length ∧ m ≠ any ∧ r.members? m = none

structure Sound (r : Registry) : Prop where
  anything : r.Primitive any none .unknown
  numbers : ∀ p ∈ numberTypes, r.Primitive p.1 p.2 .value
  text : r.Primitive string none .string
  unions : ∀ t members, r.members? t = some members → r.Union t members
  named : ∀ p ∈ r.named, p.2 < r.entries.length

theorem initial_sound : initial.Sound := by
  have only : ∀ t < initial.entries.length, initial.members? t ≠ none → t = agentOrNull := by decide
  refine ⟨⟨⟨"any", rfl⟩, rfl⟩, ?_, ⟨⟨"string", rfl⟩, rfl⟩, fun t members isUnion => ?_, by decide⟩
  · simp only [numberTypes, List.forall_mem_cons]
    exact ⟨⟨⟨"number", rfl⟩, rfl⟩, ⟨⟨"integer", rfl⟩, rfl⟩, ⟨⟨"float", rfl⟩, rfl⟩,
      ⟨⟨"boolean", rfl⟩, rfl⟩, List.forall_mem_nil _⟩
  · have inside : t < initial.entries.length := by
      refine Nat.lt_of_not_le fun outside => ?_
      simp [Registry.members?, kind?, List.getElem?_eq_none outside] at isUnion
    obtain rfl := only t inside (by simp [isUnion])
    cases isUnion
    exact ⟨rfl, by decide⟩

section
variable {r : Registry} {types : List TypeId}

theorem Primitive.inside (primitive : r.Primitive t parent storage) : t < r.entries.length := by
  obtain ⟨name, found⟩ := primitive.kind
  obtain ⟨e, isEntry, _⟩ := Option.map_eq_some_iff.mp found
  exact (List.getElem?_eq_some_iff.mp isEntry).1

theorem Primitive.parents (primitive : r.Primitive t parent storage) : r.parents t = parent.toList := by
  obtain ⟨name, found⟩ := primitive.kind
  simp [Registry.parents, found, Kind.parents]

theorem Primitive.members? (primitive : r.Primitive t parent storage) : r.members? t = none := by
  obtain ⟨name, found⟩ := primitive.kind
  simp [Registry.members?, found]

theorem IsNumber.primitive (isNumber : IsNumber t) (sound : r.Sound) :
    ∃ parent, (t, parent) ∈ numberTypes ∧ r.Primitive t parent .value := by
  obtain ⟨⟨t', parent⟩, member, rfl⟩ := List.mem_map.mp isNumber
  exact ⟨parent, member, sound.numbers _ member⟩

theorem IsNumber.parent (member : (t, some p) ∈ numberTypes) : IsNumber p := by
  simp only [numberTypes, List.mem_cons, Prod.mk.injEq, reduceCtorEq, and_false, Option.some.injEq,
    List.not_mem_nil, or_false, false_or] at member
  rcases member with ⟨_, rfl⟩ | ⟨_, rfl⟩ | ⟨_, rfl⟩ <;> simp [IsNumber, numberTypes]

/-- Casting leads from types that take numbers to types that take numbers. -/
theorem Numeric.casts (sound : r.Sound) (numeric : r.Numeric a) (casts : r.castsWithin steps a b) :
    r.Numeric b := by
  induction steps generalizing a b with
  | zero => cases casts
  | succ steps ih =>
    simp only [castsWithin, Bool.or_eq_true, beq_iff_eq, Option.any_eq_true, List.all_eq_true,
      List.any_eq_true] at casts
    rcases casts with (((isAny | rfl) | ⟨members, isUnion, all⟩) | ⟨members, isUnion, m, member, onward⟩) |
      ⟨p, isParent, onward⟩
    · exact .inl isAny
    · exact numeric
    · rcases numeric with rfl | isNumber | ⟨members', isUnion', m, member, isNumber⟩
      · simp [sound.anything.members?] at isUnion
      · obtain ⟨parent, _, primitive⟩ := isNumber.primitive sound
        simp [primitive.members?] at isUnion
      · rw [isUnion] at isUnion'
        cases isUnion'
        exact ih (.inr (.inl isNumber)) (all m member)
    · obtain ⟨_, notAny, notUnion⟩ := (sound.unions b members isUnion).members m member
      rcases ih numeric onward with isAny | isNumber | ⟨_, isUnion', _⟩
      · exact absurd isAny notAny
      · exact .inr (.inr ⟨members, isUnion, m, member, isNumber⟩)
      · rw [notUnion] at isUnion'
        cases isUnion'
    · rcases numeric with rfl | isNumber | ⟨members, isUnion, _⟩
      · simp [sound.anything.parents] at isParent
      · obtain ⟨parent, member, primitive⟩ := isNumber.primitive sound
        rw [primitive.parents, Option.mem_toList] at isParent
        cases isParent
        exact ih (.inr (.inl (.parent member))) onward
      · simp only [Registry.members?] at isUnion
        split at isUnion
        · next found => simp [Registry.parents, found, Kind.parents] at isParent
        · cases isUnion

theorem major_common {majors : List Major} (member : Major.value ∈ majors) :
    Major.common majors = .value ∨ Major.common majors = .unknown := by
  unfold Major.common
  have known : Major.value ∈ majors.filter (· ≠ .unknown) := List.mem_filter.mpr ⟨member, rfl⟩
  split
  · exact .inr rfl
  · next first rest isFilter =>
    split
    · next same =>
      rw [isFilter] at known
      rcases List.mem_cons.mp known with rfl | inRest
      · exact .inl rfl
      · exact .inl (of_decide_eq_true (List.all_eq_true.mp same _ inRest)).symm
    · exact .inr rfl

theorem Numeric.stores (sound : r.Sound) (numeric : r.Numeric t) : r.Stores t := by
  refine ⟨?_, ?_⟩
  · rcases numeric with rfl | isNumber | ⟨members, isUnion, m, member, isNumber⟩
    · exact .inr sound.anything.major
    · obtain ⟨_, _, primitive⟩ := isNumber.primitive sound
      exact .inl primitive.major
    · obtain ⟨_, _, primitive⟩ := isNumber.primitive sound
      rw [(sound.unions t members isUnion).major]
      exact major_common (List.mem_map.mpr ⟨m, member, primitive.major⟩)
  · rw [← Bool.not_eq_true]
    intro casts
    rcases numeric.casts sound casts with isAny | isNumber | ⟨_, isUnion, _⟩
    · exact absurd isAny (by decide)
    · exact absurd isNumber (by simp [IsNumber, numberTypes, string, number, integer, float, boolean])
    · simp [sound.text.members?] at isUnion

theorem members?_inside (isUnion : r.members? t = some members) : t < r.entries.length := by
  refine Nat.lt_of_not_le fun outside => ?_
  simp [Registry.members?, kind?, List.getElem?_eq_none outside] at isUnion

section
variable {r' : Registry} (added : r.entries <+: r'.entries)
include added

theorem entry_grown (inside : t < r.entries.length) : r'.entries[t]? = r.entries[t]? := by
  obtain ⟨more, same⟩ := added
  rw [← same, List.getElem?_append_left inside]

theorem members?_grown (inside : t < r.entries.length) : r'.members? t = r.members? t := by
  simp only [Registry.members?, kind?, entry_grown added inside]

theorem major_grown (inside : t < r.entries.length) : r'.major t = r.major t := by
  simp only [Registry.major, entry_grown added inside]

theorem Primitive.grown (primitive : r.Primitive t parent storage) :
    r'.Primitive t parent storage := by
  have same := entry_grown added primitive.inside
  obtain ⟨name, found⟩ := primitive.kind
  refine ⟨⟨name, ?_⟩, (major_grown added primitive.inside).trans primitive.major⟩
  rwa [kind?, same]

theorem Union.grown (isMajor : r'.major t = Major.common (ms.map r.major))
    (each : ∀ m ∈ ms, m < r.entries.length ∧ m ≠ any ∧ r.members? m = none) : r'.Union t ms := by
  refine ⟨isMajor.trans (congrArg _ (List.map_congr_left fun m member => ?_)), fun m member => ?_⟩
  · exact (major_grown added (each m member).1).symm
  · obtain ⟨before, notAny, notUnion⟩ := each m member
    exact ⟨Nat.lt_of_lt_of_le before added.length_le, notAny,
      (members?_grown added before).trans notUnion⟩

theorem Numeric.grown (numeric : r.Numeric t) : r'.Numeric t := by
  rcases numeric with isAny | isNumber | ⟨members, isUnion, some⟩
  · exact .inl isAny
  · exact .inr (.inl isNumber)
  · exact .inr (.inr ⟨members, (members?_grown added (members?_inside isUnion)).trans isUnion, some⟩)

/-- A registry is sound with more types, if the new unions and names are. -/
theorem Sound.grown (sound : r.Sound)
    (unions : ∀ t members, r.entries.length ≤ t → r'.members? t = some members → r'.Union t members)
    (named : ∀ p ∈ r'.named, p.2 < r'.entries.length) : r'.Sound := by
  refine ⟨sound.anything.grown added, fun p member => (sound.numbers p member).grown added,
    sound.text.grown added, fun t members isUnion => ?_, named⟩
  by_cases inside : t < r.entries.length
  · rw [members?_grown added inside] at isUnion
    have union := sound.unions t members isUnion
    exact .grown added ((major_grown added inside).trans union.major) union.members
  · exact unions t members (Nat.le_of_not_lt inside) isUnion

end

/-- Types are only added, and the registry is sound. -/
structure Extends (r r' : Registry) : Prop where
  entries : r.entries <+: r'.entries
  sound : r'.Sound

namespace Extends

theorem refl (sound : r.Sound) : r.Extends r := ⟨List.prefix_rfl, sound⟩

theorem trans {r' r'' : Registry} (first : r.Extends r') (second : r'.Extends r'') : r.Extends r'' :=
  ⟨first.entries.trans second.entries, second.sound⟩

end Extends

theorem pushInterface_extends (sound : r.Sound) (name : String) :
    r.Extends (r.pushInterface name).2 := by
  have entries : r.entries <+: (r.pushInterface name).2.entries := List.prefix_rfl
  refine ⟨entries, sound.grown entries (fun t members outside isUnion => ?_) sound.named⟩
  exact absurd (members?_inside isUnion) (Nat.not_lt.mpr outside)

section
variable {kind : Kind} {major : Major}

theorem length_push (r : Registry) (kind : Kind) (major : Major) :
    (r.push kind major).2.entries.length = r.entries.length + 1 := by
  simp [push]

theorem entries_push (r : Registry) (kind : Kind) (major : Major) (t : TypeId) :
    (r.push kind major).2.entries[t]? =
      if t = r.entries.length then some ⟨kind, major, r.effectiveOf kind⟩ else r.entries[t]? := by
  unfold push
  dsimp only
  split
  · next last => simp [last]
  · next other =>
    rcases Nat.lt_or_gt_of_ne other with inside | beyond
    · rw [List.getElem?_append_left inside]
    · rw [List.getElem?_eq_none (by simpa using Nat.succ_le_of_lt beyond),
        List.getElem?_eq_none (Nat.le_of_lt beyond)]

theorem kind?_push (r : Registry) (kind : Kind) (major : Major) (t : TypeId) :
    (r.push kind major).2.kind? t = if t = r.entries.length then some kind else r.kind? t := by
  unfold kind?
  rw [entries_push]
  split <;> rfl

theorem members?_push_new : (r.push kind major).2.members? r.entries.length = some members ↔
    kind = .union members := by
  unfold Registry.members?
  rw [kind?_push, if_pos rfl]
  cases kind <;> simp

theorem members?_push_old (old : t ≠ r.entries.length) :
    (r.push kind major).2.members? t = r.members? t := by
  unfold Registry.members?
  rw [kind?_push, if_neg old]

theorem members?_push_cases (isUnion : (r.push kind major).2.members? t = some members) :
    t = r.entries.length ∧ kind = .union members ∨ r.members? t = some members := by
  by_cases last : t = r.entries.length
  · subst last
    exact .inl ⟨rfl, members?_push_new.mp isUnion⟩
  · rw [members?_push_old last] at isUnion
    exact .inr isUnion

/-- A type is added; the members of a union are there already. -/
theorem push_extends (sound : r.Sound)
    (union : ∀ members, kind = .union members → major = Major.common (members.map r.major) ∧
      ∀ m ∈ members, m < r.entries.length ∧ m ≠ any ∧ r.members? m = none) :
    r.Extends (r.push kind major).2 := by
  have entries : r.entries <+: (r.push kind major).2.entries := List.prefix_append _ _
  refine ⟨entries, sound.grown entries (fun t members outside isUnion => ?_) fun p member => ?_⟩
  · rcases members?_push_cases isUnion with ⟨rfl, isKind⟩ | old
    · obtain ⟨isMajor, each⟩ := union members isKind
      refine .grown entries (.trans ?_ isMajor) each
      simp [Registry.major, entries_push]
    · exact absurd (members?_inside old) (Nat.not_lt.mpr outside)
  · exact Nat.lt_of_lt_of_le (sound.named p member) entries.length_le

end

theorem classifierOf_inside (isClass : r.classifierOf t = some c) : t < r.entries.length := by
  apply Nat.lt_of_not_le
  intro outside
  simp [classifierOf, kind?, List.getElem?_eq_none outside] at isClass

theorem findClass?_eq_some (found : r.findClass? c = some t) : r.classifierOf t = some c := by
  obtain ⟨inside, isClass, _⟩ := List.findIdx?_eq_some_iff_getElem.mp found
  simpa [classifierOf, kind?, List.getElem?_eq_getElem inside] using isClass

theorem findClass?_eq_none : r.findClass? c = none ↔ ∀ t, r.classifierOf t ≠ some c := by
  constructor
  · intro notFound t isClass
    unfold classifierOf kind? at isClass
    cases isEntry : r.entries[t]? with
    | none => simp [isEntry] at isClass
    | some e =>
      have := List.findIdx?_eq_none_iff.mp notFound e (List.mem_of_getElem? isEntry)
      simp_all
  · intro none
    cases found : r.findClass? c with
    | none => rfl
    | some t => exact absurd (findClass?_eq_some found) (none t)

theorem classifierOf_push (kind : Kind) (major : Major) (t : TypeId) :
    (r.push kind major).2.classifierOf t =
      if t = r.entries.length then kind.classifier? else r.classifierOf t := by
  unfold classifierOf
  rw [kind?_push]
  split <;> rfl

theorem pushClass_classes {ups : List TypeId}
    (isClass : (r.pushClass c ups).2.classifierOf t = some c') : r.classifierOf t = some c' ∨ c' = c := by
  unfold pushClass at isClass
  rw [classifierOf_push] at isClass
  split at isClass
  · exact .inr (Option.some.inj isClass).symm
  · exact .inl isClass

/-- The classes that are made on the way to a class are above it. -/
theorem classUnder_classes {above : List Classifier}
    (isClass : (r.classUnder c above).2.classifierOf t = some c') :
    r.classifierOf t = some c' ∨ c' ∈ c :: above := by
  induction above generalizing c with
  | nil =>
    unfold classUnder at isClass
    split at isClass
    · exact .inl isClass
    · simpa using pushClass_classes isClass
  | cons p above ih =>
    unfold classUnder at isClass
    split at isClass
    · exact .inl isClass
    · rcases pushClass_classes isClass with before | rfl
      · exact (ih before).imp_right (List.mem_cons_of_mem _)
      · exact .inr List.mem_cons_self

/-- The classes of the classifiers above another one are made first. -/
theorem classUnder_keeps {P : Registry → Prop} (holds : P r)
    (make : ∀ {r : Registry} {c parents}, P r → r.findClass? c = none →
      parents.map r.classifierOf = c.above.head?.toList.map some → P (r.pushClass c parents).2)
    (c : Classifier) : P (r.classUnder c c.above).2 ∧
      (r.classUnder c c.above).2.classifierOf (r.classUnder c c.above).1 = some c := by
  have made (r : Registry) (c : Classifier) (parents : List TypeId) :
      (r.pushClass c parents).2.classifierOf (r.pushClass c parents).1 = some c :=
    (classifierOf_push ..).trans (if_pos rfl)
  induction known : c.above generalizing c with
  | nil =>
    unfold classUnder
    split
    · next found => exact ⟨holds, findClass?_eq_some found⟩
    · next new => exact ⟨make holds new (by simp [known]), made ..⟩
  | cons p rest ih =>
    unfold classUnder
    split
    · next found => exact ⟨holds, findClass?_eq_some found⟩
    · next new =>
      obtain ⟨first, isClass⟩ := ih p (Classifier.above_tail known)
      refine ⟨make first (findClass?_eq_none.mpr fun t isClass' => ?_) (by simp [known, isClass]), made ..⟩
      rcases classUnder_classes isClass' with before | member
      · exact findClass?_eq_none.mp new t before
      · exact c.not_mem_above (known ▸ member)

/-- What is made is one of the types. -/
def Made (r : Registry) (p : TypeId × Registry) : Prop := r.Extends p.2 ∧ p.1 < p.2.entries.length

theorem byClassifier_made (sound : r.Sound) (c : Classifier) : r.Made (r.byClassifier c) := by
  refine (classUnder_keeps (P := r.Extends) (.refl sound) (fun {_ c' _} extended _ _ => ?_) c).imp_right
    classifierOf_inside
  have second := pushInterface_extends extended.sound c'.display
  exact (extended.trans second).trans (push_extends second.sound nofun)

theorem mem_insertType : x ∈ insertType t types ↔ x = t ∨ x ∈ types := by
  induction types with
  | nil => simp [insertType]
  | cons y rest ih =>
    unfold insertType
    split
    · simp
    · split
      · next same => simp [same]
      · simp only [List.mem_cons, ih]
        exact or_left_comm

theorem insertType_pairwise (sorted : types.Pairwise (· < ·)) :
    (insertType t types).Pairwise (· < ·) := by
  induction types with
  | nil => simp [insertType]
  | cons y rest ih =>
    obtain ⟨first, others⟩ := List.pairwise_cons.mp sorted
    unfold insertType
    split
    · next before =>
      refine List.pairwise_cons.mpr ⟨fun x member => ?_, sorted⟩
      rcases List.mem_cons.mp member with rfl | inRest
      · exact before
      · exact Nat.lt_trans before (first x inRest)
    · split
      · exact sorted
      · next notBefore different =>
        refine List.pairwise_cons.mpr ⟨fun x member => ?_, ih others⟩
        rcases mem_insertType.mp member with rfl | inRest
        · exact Nat.lt_of_le_of_ne (Nat.le_of_not_lt notBefore) (Ne.symm different)
        · exact first x inRest

theorem flatten_pairwise (r : Registry) (types : List TypeId) :
    (r.flatten types).Pairwise (· < ·) := by
  unfold flatten
  induction types.flatMap fun t => (r.members? t).getD [t] with
  | nil => exact List.Pairwise.nil
  | cons t rest ih => exact insertType_pairwise ih

theorem mem_flatten : m ∈ r.flatten types ↔ ∃ t ∈ types, m ∈ (r.members? t).getD [t] := by
  rw [← List.mem_flatMap]
  unfold flatten
  induction types.flatMap fun t => (r.members? t).getD [t] with
  | nil => simp
  | cons t rest ih => simp [mem_insertType, ih]

/-- A union counts as its members, which are no unions. -/
theorem flatten_inside (sound : r.Sound) (inside : ∀ t ∈ types, t < r.entries.length)
    (member : m ∈ r.flatten types) : m < r.entries.length ∧ r.members? m = none := by
  obtain ⟨t, isType, inUnion⟩ := mem_flatten.mp member
  cases isUnion : r.members? t with
  | none =>
    rw [isUnion, Option.getD_none, List.mem_singleton] at inUnion
    exact inUnion ▸ ⟨inside t isType, isUnion⟩
  | some members =>
    rw [isUnion, Option.getD_some] at inUnion
    obtain ⟨before, _, notUnion⟩ := (sound.unions t members isUnion).members m inUnion
    exact ⟨before, notUnion⟩

theorem canCast_any (r : Registry) (t : TypeId) : r.canCast t any = true := by
  simp [canCast, castSteps, castsWithin]

theorem any_not_mem_maximal (sorted : types.Pairwise (· < ·)) (several : 2 ≤ (r.maximal types).length) :
    any ∉ r.maximal types := by
  intro isAny
  have distinct : (r.maximal types).Pairwise (· < ·) := sorted.filter _
  have other : ∃ x ∈ r.maximal types, x ≠ any := by
    match members : r.maximal types, several with
    | a :: b :: rest, _ =>
      rw [members] at distinct
      have before : a < b := (List.pairwise_cons.mp distinct).1 b List.mem_cons_self
      exact ⟨b, List.mem_cons_of_mem _ List.mem_cons_self, Nat.ne_of_gt (Nat.zero_lt_of_lt before)⟩
  obtain ⟨x, member, different⟩ := other
  have alone := (List.mem_filter.mp member).2
  rw [Bool.not_eq_true', List.any_eq_false] at alone
  refine alone any (List.mem_filter.mp isAny).1 ?_
  simp [canCast_any, Ne.symm different]

def normal (r : Registry) (types : List TypeId) : List TypeId := r.maximal (r.flatten types)

theorem normal_pairwise (r : Registry) (types : List TypeId) : (r.normal types).Pairwise (· < ·) :=
  (flatten_pairwise r types).filter _

theorem byUnion_or (sound : r.Sound) (inside : ∀ t ∈ types, t < r.entries.length) :
    (r.byUnion types).2 = r ∧ (r.byUnion types).1 < r.entries.length ∨
      r.byUnion types = r.push (.union (r.normal types)) (Major.common ((r.normal types).map r.major)) ∧
      2 ≤ (r.normal types).length ∧ r.findUnion? (r.normal types) = none ∧
      ∀ m ∈ r.normal types, m < r.entries.length ∧ m ≠ any ∧ r.members? m = none := by
  have each {m : TypeId} (member : m ∈ r.normal types) :=
    flatten_inside sound inside (List.mem_filter.mp member).1
  unfold byUnion
  split
  · have before : void < string := by decide
    exact .inl ⟨rfl, Nat.lt_trans before sound.text.inside⟩
  · next t isOne => exact .inl ⟨rfl, (each (by simp [normal, isOne])).1⟩
  · next members notNil notOne =>
    split
    · next found => exact .inl ⟨rfl, (List.findIdx?_eq_some_iff_getElem.mp found).1⟩
    · next notFound =>
      have several : 2 ≤ (r.normal types).length := by
        unfold normal
        rcases isMembers : r.maximal (r.flatten types) with _ | ⟨t, _ | ⟨_, _⟩⟩
        · exact absurd isMembers notNil
        · exact absurd isMembers (notOne t)
        · simp
      have notAny := any_not_mem_maximal (flatten_pairwise r types) several
      refine .inr ⟨rfl, several, notFound, fun m member => ⟨(each member).1, ?_, (each member).2⟩⟩
      exact fun isAny => notAny (isAny ▸ member)

theorem byUnion_made (sound : r.Sound) (inside : ∀ t ∈ types, t < r.entries.length) :
    r.Made (r.byUnion types) := by
  rcases byUnion_or sound inside with ⟨same, among⟩ | ⟨made, _, _, each⟩
  · unfold Made
    rw [same]
    exact ⟨.refl sound, among⟩
  · rw [made]
    refine ⟨push_extends sound ?_, by simp [push]⟩
    rintro _ ⟨⟩
    exact ⟨rfl, each⟩

theorem byName_inside (sound : r.Sound) {name : String} (found : r.byName name = .ok t) :
    t < r.entries.length := by
  unfold byName find? at found
  split at found
  · next isNamed =>
    cases found
    obtain ⟨l₁, l₂, same, _⟩ := List.lookup_eq_some_iff.mp isNamed
    exact sound.named (name, t) (by simp [same])
  · cases found

end

end Registry

theorem TypeM.run_bind (x : TypeM α) (f : α → TypeM β) (r : Registry) :
    (x >>= f).run r = match x.run r with
      | (.ok a, r') => (f a).run r'
      | (.error e, r') => (.error e, r') := by
  have run : (x >>= f).run r = ExceptT.bindCont f (x.run r).1 (x.run r).2 := rfl
  rw [run]
  rcases x.run r with ⟨e | a, r'⟩ <;> rfl

theorem TypeRef.run_named (name : String) (r : Registry) :
    (TypeRef.named name).resolve.run r = (r.byName name, r) := by
  have current : (get : TypeM Registry).run r = (.ok r, r) := rfl
  unfold TypeRef.resolve
  rw [TypeM.run_bind, current]
  dsimp only
  cases r.byName name <;> rfl

/-- What stays true of a registry when classes and unions of known types are made. -/
structure Registry.Stable (P : Registry → Prop) : Prop where
  sound : ∀ {r}, P r → r.Sound
  byClassifier : ∀ {r} c, P r → P (r.byClassifier c).2
  byUnion : ∀ {r types}, P r → (∀ t ∈ types, t < r.entries.length) → P (r.byUnion types).2

theorem Registry.Stable.extends (r : Registry) : Stable r.Extends where
  sound extended := extended.sound
  byClassifier c extended := extended.trans (byClassifier_made extended.sound c).1
  byUnion extended inside := extended.trans (byUnion_made extended.sound inside).1

/-- A step that makes types, with what is known of its answer. -/
structure TypeM.Makes (P : Registry → Prop) (r : Registry) (x : TypeM α) (post : Registry → α → Prop) :
    Prop where
  kept : P (x.run r).2
  grown : r.entries <+: (x.run r).2.entries
  found : ∀ a r', x.run r = (.ok a, r') → post r' a

namespace TypeM.Makes
variable {P : Registry → Prop} {r : Registry}

theorem bind {x : TypeM α} {f : α → TypeM β} {Q : Registry → α → Prop} {post : Registry → β → Prop}
    (first : Makes P r x Q)
    (next : ∀ r' a, P r' → r.entries <+: r'.entries → Q r' a → Makes P r' (f a) post) :
    Makes P r (x >>= f) post := by
  obtain ⟨kept, grown, found⟩ := first
  have ran := run_bind x f r
  rcases first : x.run r with ⟨e | a, r'⟩ <;> rw [first] at kept grown ran
  · refine ⟨?_, ?_, fun b r'' done => ?_⟩ <;> rw [ran] at *
    · exact kept
    · exact grown
    · cases done
  · obtain ⟨kept', grown', found'⟩ := next r' a kept grown (found a r' first)
    exact ⟨ran ▸ kept', ran ▸ grown.trans grown', fun b r'' done => found' b r'' (ran.symm.trans done)⟩

theorem pure (holds : P r) {post : Registry → α → Prop} (here : post r a) :
    Makes P r (Pure.pure a) post :=
  ⟨holds, List.prefix_rfl, by rintro _ _ ⟨⟩; exact here⟩

theorem make (f : Registry → TypeId × Registry) (kept : P (f r).2) (made : r.Made (f r)) :
    Makes P r (TypeM.make f) fun r' t => t < r'.entries.length :=
  ⟨kept, made.1.entries, by rintro _ _ ⟨⟩; exact made.2⟩

end TypeM.Makes

mutual
/-- A reference denotes one of the types, and makes classes and unions only. -/
theorem TypeRef.resolve_makes {P : Registry → Prop} (stable : Registry.Stable P) {r : Registry} (holds : P r) :
    (t : TypeRef) → TypeM.Makes P r t.resolve fun r' ty => ty < r'.entries.length
  | .named name => by
    refine ⟨?_, ?_, fun t r' ran => ?_⟩
    · rwa [TypeRef.run_named]
    · simp only [TypeRef.run_named, List.prefix_rfl]
    · rw [TypeRef.run_named] at ran
      obtain ⟨found, rfl⟩ := Prod.mk.inj ran
      exact r.byName_inside (stable.sound holds) found
  | .classifier c => .make _ (stable.byClassifier c holds) (Registry.byClassifier_made (stable.sound holds) c)
  | .nullable t => by
    refine (TypeRef.resolve_makes stable holds t).bind fun r' ty holds _ inside => ?_
    have sound := stable.sound holds
    have null : Registry.null < r'.entries.length :=
      Nat.lt_trans (by decide : Registry.null < Registry.string) sound.text.inside
    have both : ∀ u ∈ [ty, Registry.null], u < r'.entries.length := by simp [inside, null]
    exact .make _ (stable.byUnion holds both) (Registry.byUnion_made sound both)
  | .union members => by
    refine (TypeRef.resolveAll_makes stable holds members).bind fun r' types holds _ inside => ?_
    exact .make _ (stable.byUnion holds inside) (Registry.byUnion_made (stable.sound holds) inside)
theorem TypeRef.resolveAll_makes {P : Registry → Prop} (stable : Registry.Stable P) {r : Registry} (holds : P r) :
    (types : List TypeRef) →
    TypeM.Makes P r (TypeRef.resolveAll types) fun r' tys => ∀ ty ∈ tys, ty < r'.entries.length
  | [] => .pure holds (List.forall_mem_nil _)
  | t :: rest => by
    refine (TypeRef.resolve_makes stable holds t).bind fun r' ty holds _ inside => ?_
    refine (TypeRef.resolveAll_makes stable holds rest).bind fun r'' tys holds grown others => ?_
    exact .pure holds (List.forall_mem_cons.mpr ⟨Nat.lt_of_lt_of_le inside grown.length_le, others⟩)
end

theorem WorldM.typeRef_ok {w v : World} {ref : TypeRef} {t : TypeId}
    (ran : (inTypes ref.resolve).run w = (.ok t, v)) : ref.resolve.run w.types = (.ok t, v.types) := by
  rw [run_inTypes] at ran
  obtain ⟨ok, rfl⟩ := Prod.mk.inj ran
  exact Prod.ext (mapError_ok ok) rfl

theorem Resolve.world_typeRef (ref : TypeRef) (s : Resolving) : ((Resolve.typeRef ref).run s).2.world =
    { s.world with types := (ref.resolve.run s.world.types).2 } := by
  change ((WorldM.inTypes ref.resolve).run s.world).2 = _
  rw [WorldM.run_inTypes]

end AgentScript
