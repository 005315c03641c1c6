import AgentScript.Proofs.Types.Filled

/-! Types that scripts add to those that were declared. A script can make the class of a classifier,
under that of the next more general one, and unions; it can neither name a type nor give it members or
parents. So a late class sees what the nearest declared class above it sees. -/
namespace AgentScript

namespace Registry

variable {base r r' : Registry}

section
variable (added : r.entries <+: r'.entries)
include added

theorem kind?_grown (inside : t < r.entries.length) : r'.kind? t = r.kind? t := by
  rw [kind?, kind?, entry_grown added inside]

theorem classifierOf_grown (inside : t < r.entries.length) : r'.classifierOf t = r.classifierOf t := by
  rw [classifierOf, classifierOf, kind?_grown added inside]

theorem parents_grown (inside : t < r.entries.length) : r'.parents t = r.parents t := by
  rw [parents, parents, kind?_grown added inside]

theorem effective_grown (inside : t < r.entries.length) : r'.effective t = r.effective t := by
  rw [effective, effective, entry_grown added inside]

end

theorem members?_of_class (isClass : r.classifierOf t = some c) : r.members? t = none := by
  unfold classifierOf at isClass
  unfold members?
  cases found : r.kind? t with
  | none => rfl
  | some kind => cases kind <;> simp_all [Kind.classifier?]

/-- What a script can make. -/
inductive Late (base r : Registry) (t : TypeId) : Prop
  | cls {c : Classifier} {own : InterfaceId} {ups : List TypeId}
    (kind : r.kind? t = some (.classified c.display c own ups)) (new : base.interfaces.length ≤ own)
    (under : ups.map r.classifierOf = c.above.head?.toList.map some) (storage : r.major t = .agent)
  | union {members : List TypeId} (kind : r.kind? t = some (.union members))

/-- A registry to which scripts have added types. -/
structure Above (base r : Registry) : Prop where
  entries : base.entries <+: r.entries
  interfaces : base.interfaces <+: r.interfaces
  named : r.named = base.named
  constants : r.constants = base.constants
  sound : r.Sound
  ordered : r.Ordered
  distinct : r.Distinct
  empty : ∀ i f, base.interfaces.length ≤ i → r.interfaces[i]? = some f → f = .empty f.name
  late : ∀ t, base.entries.length ≤ t → t < r.entries.length → Late base r t
  fresh : ∀ t, base.entries.length ≤ t → r.Fresh t

theorem Late.grown (late : Late base r t) (added : r.entries <+: r'.entries) (ordered : r.Ordered)
    (inside : t < r.entries.length) : Late base r' t := by
  cases late with
  | @cls c own ups kind new under storage =>
    refine .cls ((kind?_grown added inside).trans kind) new ?_ ((major_grown added inside).trans storage)
    rw [← under]
    refine List.map_congr_left fun p isParent => classifierOf_grown added (ordered.inside t p ?_)
    simp [supers, kind, Kind.supers, Kind.parents, isParent]
  | union kind => exact .union ((kind?_grown added inside).trans kind)

namespace Above

theorem refl (sound : base.Sound) (ordered : base.Ordered) (distinct : base.Distinct) :
    base.Above base where
  entries := List.prefix_rfl
  interfaces := List.prefix_rfl
  named := rfl
  constants := rfl
  sound := sound
  ordered := ordered
  distinct := distinct
  empty i f outside found := by
    rw [List.getElem?_eq_none outside] at found
    cases found
  late t outside inside := absurd inside (Nat.not_lt.mpr outside)
  fresh t outside := by simp [Fresh, effective, kind?, List.getElem?_eq_none outside]

theorem pushInterface (above : base.Above r) (name : String) : base.Above (r.pushInterface name).2 where
  entries := above.entries
  interfaces := above.interfaces.trans (List.prefix_append _ _)
  named := above.named
  constants := above.constants
  sound := (pushInterface_extends above.sound name).sound
  ordered := above.ordered.congr (r := r) rfl
  distinct := above.distinct
  empty i f outside found := by
    by_cases old : i < r.interfaces.length
    · exact above.empty i f outside ((List.getElem?_append_left old).symm.trans found)
    · change (r.interfaces ++ [Interface.empty name])[i]? = some f at found
      rw [List.getElem?_append_right (Nat.le_of_not_lt old)] at found
      obtain ⟨_, rfl⟩ := List.getElem?_eq_some_iff.mp found
      simp [Interface.empty]
  late t outside inside := by
    cases above.late t outside inside with
    | cls kind new under storage => exact .cls kind new under storage
    | union kind => exact .union kind
  fresh := above.fresh

theorem push (above : base.Above r) {kind : Kind} {major : Major} (makes : Makes N r kind major)
    (late : Late base (r.push kind major).2 r.entries.length) : base.Above (r.push kind major).2 := by
  have added : r.entries <+: (r.push kind major).2.entries := List.prefix_append _ _
  refine ⟨above.entries.trans added, above.interfaces, above.named, above.constants,
    (Adds.type makes).sound above.sound, above.ordered.push makes.fits,
    above.distinct.push fun c isClass => (makes.cls c isClass).1, above.empty, fun t outside inside => ?_,
    fun t outside => ?_⟩
  · by_cases last : t = r.entries.length
    · exact last ▸ late
    · rw [length_push] at inside
      have old : t < r.entries.length := by omega
      exact (above.late t outside old).grown added above.ordered old
  · have old {s : TypeId} (inside : s < r.entries.length) :
        (r.push kind major).2.effective s = r.effective s := effective_grown added inside
    by_cases last : t = r.entries.length
    · subst last
      unfold Fresh
      rw [effective_push, if_pos rfl, kind?_push, if_pos rfl]
      exact (effectiveOf_congr fun s isSuper => old (makes.inside s isSuper)).symm
    · apply (above.fresh t outside).congr
      · rw [kind?_push, if_neg last]
      · rw [effective_push, if_neg last]
      · intro s isSuper
        exact old (above.ordered.inside t s isSuper)

theorem pushClass (above : base.Above r) (new : r.findClass? c = none) {parents : List TypeId}
    (under : parents.map r.classifierOf = c.above.head?.toList.map some) :
    base.Above (r.pushClass c parents).2 := by
  have makes := pushClass_makes .any new under
  refine (above.pushInterface c.display).push makes ?_
  refine .cls ((kind?_push ..).trans (if_pos rfl)) above.interfaces.length_le ?_ ?_
  · rw [← under]
    refine List.map_congr_left fun p isParent => ?_
    refine classifierOf_grown (r := r) (List.prefix_append _ _) (makes.inside p ?_)
    simp [Kind.supers, Kind.parents, isParent]
  · simp [Registry.push, Registry.major]

theorem classUnder (above : base.Above r) (c : Classifier) :
    base.Above (r.classUnder c c.above).2 ∧
      (r.classUnder c c.above).2.classifierOf (r.classUnder c c.above).1 = some c :=
  classUnder_keeps above (fun above new => above.pushClass new) c

theorem byClassifier (above : base.Above r) (c : Classifier) :
    base.Above (r.byClassifier c).2 ∧
      (r.byClassifier c).2.classifierOf (r.byClassifier c).1 = some c :=
  above.classUnder c

theorem byUnion (above : base.Above r) {types : List TypeId}
    (inside : ∀ t ∈ types, t < r.entries.length) : base.Above (r.byUnion types).2 := by
  rcases byUnion_cases above.sound inside with same | ⟨makes, made⟩
  · rwa [same]
  · rw [made]
    exact above.push makes (.union ((kind?_push ..).trans (if_pos rfl)))

end Above

/-- The declared interfaces that a type sees. -/
def sees (base r : Registry) (t : TypeId) : List InterfaceId :=
  (r.effective t).filter (· < base.interfaces.length)

theorem Above.findSome?_visible (above : base.Above r) {find : Interface → Option α}
    (none : ∀ name, find (.empty name) = none) (t : TypeId) :
    (r.visible t).findSome? find =
      (sees base r t).findSome? fun i => base.interfaces[i]?.bind find := by
  unfold visible sees
  induction r.effective t with
  | nil => rfl
  | cons i rest ih =>
    by_cases old : i < base.interfaces.length
    · have same : r.interfaces[i]? = base.interfaces[i]? := by
        obtain ⟨more, same⟩ := above.interfaces
        rw [← same, List.getElem?_append_left old]
      rw [List.filter_cons_of_pos (by simpa using old), List.findSome?_cons, List.filterMap_cons, same,
        List.getElem?_eq_getElem old, ← ih]
      exact List.findSome?_cons
    · rw [List.filter_cons_of_neg (by simpa using old), ← ih, List.filterMap_cons]
      cases found : r.interfaces[i]? with
      | none => rfl
      | some f =>
        rw [List.findSome?_cons, above.empty i f (Nat.le_of_not_lt old) found, none]

end Registry

end AgentScript
