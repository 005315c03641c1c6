import AgentScript.Proofs.Types.Reachable

/-! Effective interfaces are always up to date. The list that a type keeps is the one that the lists
of the types it is built on give. A new parent makes that wrong for the child; recomputing the child
and, again and again, whatever is built on a recomputed type makes it right everywhere, because each
type is recomputed after the last change of anything it is built on. -/
namespace AgentScript.Registry
variable {list : List InterfaceId} {kind : Kind}

variable {r r' : Registry}

theorem addNew_nodup (nodup : list.Nodup) (i : InterfaceId) : (addNew list i).Nodup := by
  unfold addNew
  split
  · exact nodup
  · next new => exact List.nodup_append.mpr ⟨nodup, by simp, by grind⟩

theorem foldl_addNew_nodup (nodup : list.Nodup) (more : List InterfaceId) :
    (more.foldl addNew list).Nodup := by
  induction more generalizing list with
  | nil => exact nodup
  | cons i more ih => exact ih (addNew_nodup nodup i)

theorem eraseDups_of_nodup (nodup : list.Nodup) : list.eraseDups = list := by
  induction list with
  | nil => rfl
  | cons i rest ih =>
    obtain ⟨new, nodup⟩ := List.nodup_cons.mp nodup
    rw [List.eraseDups_cons, List.filter_eq_self.mpr (by grind), ih nodup]

theorem foldl_addNew (nodup : list.Nodup) (more : List InterfaceId) :
    more.foldl addNew list = (list ++ more).eraseDups := by
  induction more generalizing list with
  | nil => simp [eraseDups_of_nodup nodup]
  | cons i more ih =>
    rw [List.foldl_cons, ih (addNew_nodup nodup i)]
    by_cases old : i ∈ list
    · simp [addNew, old, List.eraseDups_append, List.cons_removeAll]
    · simp [addNew, old]

theorem effectiveOf_fold (single : ∀ members, kind ≠ .union members) :
    r.effectiveOf kind = (kind.parents.flatMap r.effective).foldl addNew kind.own?.toList := by
  rw [List.foldl_flatMap]
  cases kind with
  | primitive | interface | classified => rfl
  | union members => exact absurd rfl (single members)

theorem effectiveOf_single (single : ∀ members, kind ≠ .union members) :
    r.effectiveOf kind = (kind.own?.toList ++ kind.parents.flatMap r.effective).eraseDups := by
  have nodup : kind.own?.toList.Nodup := by cases kind.own? <;> simp
  rw [effectiveOf_fold single, foldl_addNew nodup]

theorem filter_all_congr {lists lists' : TypeId → List InterfaceId} {first : TypeId}
    {rest : List TypeId} (same : ∀ m ∈ first :: rest, lists' m = lists m) :
    ((lists' first).filter fun i => rest.all fun m => i ∈ lists' m) =
      (lists first).filter fun i => rest.all fun m => i ∈ lists m := by
  obtain ⟨here, others⟩ := List.forall_mem_cons.mp same
  rw [here]
  apply List.filter_congr
  intro i _
  rw [Bool.eq_iff_iff, List.all_eq_true, List.all_eq_true]
  apply forall₂_congr
  intro m member
  rw [others m member]

theorem effectiveOf_congr (same : ∀ s ∈ kind.supers, r'.effective s = r.effective s) :
    r'.effectiveOf kind = r.effectiveOf kind := by
  have parents : ∀ p ∈ kind.parents, r'.effective p = r.effective p := fun p isParent =>
    same p (List.mem_append_left _ isParent)
  cases kind with
  | primitive | interface | classified =>
    rw [effectiveOf_single, effectiveOf_single, List.flatMap_congr parents] <;> simp
  | union members =>
    cases members with
    | nil => rfl
    | cons first rest =>
      apply filter_all_congr
      intro m member
      exact same m (List.mem_append_right _ member)

theorem effectiveOf_rename (r : Registry) (kind : Kind) (name : String) :
    r.effectiveOf (kind.rename name) = r.effectiveOf kind := by
  cases kind <;> rfl

/-- The interfaces that a type keeps are those that it should have, given those that the types it is
built on keep. -/
def Fresh (r : Registry) (t : TypeId) : Prop :=
  r.effective t = (r.kind? t).elim [] r.effectiveOf

theorem Fresh.congr (fresh : r.Fresh t) (kind : r'.kind? t = r.kind? t)
    (effective : r'.effective t = r.effective t)
    (supers : ∀ s ∈ r.supers t, r'.effective s = r.effective s) : r'.Fresh t := by
  unfold Fresh
  rw [effective, kind, fresh]
  cases found : r.kind? t with
  | none => rfl
  | some k =>
    simp only [Option.elim_some]
    apply (effectiveOf_congr _).symm
    simpa [Registry.supers, found] using supers

/-- The table has every type that is built on another one. -/
structure Tracked (r : Registry) : Prop where
  length : r.dependents.length = r.entries.length
  dependents : ∀ s t, t ∈ r.dependentsOf s ↔ s ∈ r.supers t

theorem Tracked.congr (tracked : r.Tracked) (shapes : r'.shapes = r.shapes)
    (dependents : r'.dependents = r.dependents) : r'.Tracked := by
  constructor
  · rw [dependents, length_congr shapes, tracked.length]
  · simpa only [dependentsOf, dependents, supers_congr shapes] using tracked.dependents

theorem length_record (t : TypeId) (table : List (List TypeId)) (supers : List TypeId) :
    (record t table supers).length = table.length := by
  unfold record
  induction supers generalizing table with
  | nil => rfl
  | cons s rest ih => rw [List.foldl_cons, ih, List.length_modify]

theorem mem_record {table : List (List TypeId)} {supers : List TypeId} :
    x ∈ ((record t table supers)[s]?).getD [] ↔
      x ∈ (table[s]?).getD [] ∨ x = t ∧ s ∈ supers ∧ s < table.length := by
  unfold record
  induction supers generalizing table with
  | nil => simp
  | cons y rest ih =>
    rw [List.foldl_cons, ih, List.length_modify, List.getElem?_modify]
    by_cases inside : s < table.length
    · by_cases same : y = s
      · subst same
        simp [inside]
        grind
      · simp [inside, same, Ne.symm same]
    · simp [inside]

theorem Tracked.push (tracked : r.Tracked) (fits : r.Fits kind) (major : Major) :
    (r.push kind major).2.Tracked := by
  have length : (record r.entries.length r.dependents kind.supers).length = r.entries.length := by
    rw [length_record, tracked.length]
  refine ⟨by simp [Registry.push, length], fun s t => ?_⟩
  have table : (r.push kind major).2.dependentsOf s =
      ((record r.entries.length r.dependents kind.supers)[s]?).getD [] := by
    unfold dependentsOf Registry.push
    rw [List.getElem?_append]
    split
    · rfl
    · next beyond =>
      rw [List.getElem?_eq_none (Nat.le_of_not_lt beyond)]
      cases s - (record r.entries.length r.dependents kind.supers).length <;> rfl
  have old : t ∈ (r.dependents[s]?).getD [] ↔ s ∈ r.supers t := tracked.dependents s t
  rw [table, mem_record, tracked.length, old, supers_push]
  split
  · next last =>
    subst last
    constructor
    · rintro (isSuper | ⟨_, isSuper, _⟩)
      · exact absurd (mem_supers_inside isSuper) (Nat.lt_irrefl _)
      · exact isSuper
    · intro isSuper
      exact .inr ⟨rfl, isSuper, fits.inside s isSuper⟩
  · next other => simp [other]

theorem Tracked.link (tracked : r.Tracked) (linkable : r.Linkable child parent) :
    (r.link child parent).Tracked := by
  constructor
  · rw [length_link, ← tracked.length]
    exact length_record child r.dependents [parent]
  · intro s t
    have old : t ∈ (r.dependents[s]?).getD [] ↔ s ∈ r.supers t := tracked.dependents s t
    have inside := isAgent_inside linkable.agentParent
    change t ∈ ((record child r.dependents [parent])[s]?).getD [] ↔ _
    rw [mem_record, old, mem_supers_link linkable.agentChild, tracked.length]
    grind

/-- The registry after types were recomputed, each followed by all that is built on it, as far as
that goes. -/
inductive Cascade : Registry → List TypeId → Registry → Prop
  | done {r : Registry} : Cascade r [] r
  | next {r r' r'' : Registry}
    (dependents : Cascade (r.recompute t) ((r.recompute t).dependentsOf t) r')
    (others : Cascade r' rest r'') : Cascade r (t :: rest) r''

namespace SameBesideEffective

variable (same : r.SameBesideEffective r')
include same

theorem height {height : TypeId → Nat} (h : r.Height height) : r'.Height height := by
  constructor
  · simpa only [supers_congr same.shapes] using h.below
  · simpa only [same.length] using h.bounded
  · simpa only [same.length] using h.inside

theorem tracked (tracked : r.Tracked) : r'.Tracked := tracked.congr same.shapes same.dependents

end SameBesideEffective

theorem refreshWithin_cascade (h : r.Height height) (tracked : r.Tracked)
    (inside : t < r.entries.length) (enough : r.entries.length ≤ steps + height t) :
    (r.recompute t).Cascade ((r.recompute t).dependentsOf t) (refreshWithin steps r t) := by
  induction steps generalizing r t with
  | zero =>
    have := h.inside t inside
    omega
  | succ steps ih =>
    have all (types : List TypeId) {r' : Registry} (same : r.SameBesideEffective r')
        (each : ∀ d ∈ types, t ∈ r.supers d) :
        r'.Cascade types (types.foldl (fun r d => refreshWithin steps r d) r') := by
      induction types generalizing r' with
      | nil => exact .done
      | cons d rest next =>
        obtain ⟨here, others⟩ := List.forall_mem_cons.mp each
        have higher := h.below d t here
        have inside' : d < r'.entries.length := same.length ▸ mem_supers_inside here
        have first := ih (same.height h) (same.tracked tracked) inside' (by rw [same.length]; omega)
        exact .next first (next (same.trans (.refreshWithin steps r' d)) others)
    have same := SameBesideEffective.recompute r t
    apply all _ same
    intro d isDependent
    rw [← supers_congr same.shapes]
    exact ((same.tracked tracked).dependents t d).mp isDependent

theorem refresh_cascade (ordered : r.Ordered) (tracked : r.Tracked)
    (inside : t < r.entries.length) : r.Cascade [t] (r.refresh t) := by
  obtain ⟨height, h⟩ := ordered.height
  exact .next (refreshWithin_cascade h tracked inside (Nat.le_add_right _ _)) .done

theorem recompute_effective (r : Registry) (t : TypeId) :
    (r.recompute t).effective x =
      if t = x then (r.kind? x).elim [] r.effectiveOf else r.effective x := by
  unfold recompute
  by_cases same : t = x
  · subst same
    cases found : r.kind? t with
    | none =>
      have missing : r.entries[t]? = none := by simpa [kind?] using found
      simp [effective, missing]
    | some kind =>
      obtain ⟨e, isEntry, _⟩ := Option.map_eq_some_iff.mp found
      simp [effective, setEffective, isEntry]
  · rw [if_neg same]
    split
    · simp [effective, setEffective, same]
    · rfl

theorem recompute_fresh (apart : t ∉ r.supers t) : (r.recompute t).Fresh t := by
  unfold Fresh
  rw [recompute_effective, if_pos rfl, (SameBesideEffective.recompute r t).kind?]
  cases found : r.kind? t with
  | none => rfl
  | some kind =>
    apply (effectiveOf_congr _).symm
    intro s isSuper
    rw [recompute_effective, if_neg]
    rintro rfl
    exact apart (by simpa [supers, found] using isSuper)

theorem Fresh.recompute (fresh : r.Fresh x) (other : t ≠ x) (apart : t ∉ r.supers x) :
    (r.recompute t).Fresh x := by
  apply fresh.congr ((SameBesideEffective.recompute r t).kind? x)
  · rw [recompute_effective, if_neg other]
  · intro s isSuper
    rw [recompute_effective, if_neg]
    rintro rfl
    exact apart isSuper

namespace Cascade

theorem same {types : List TypeId} (cascade : r.Cascade types r') : r.SameBesideEffective r' := by
  induction cascade with
  | done => exact .refl _
  | next _ _ first second => exact ((SameBesideEffective.recompute _ _).trans first).trans second

/-- What is built on a recomputed type is right afterwards, and what was right stays so. -/
theorem fresh {types : List TypeId} (cascade : r.Cascade types r') (tracked : r.Tracked)
    (apart : ∀ t, t ∉ r.supers t) :
    (∀ t ∈ types, ∀ x, Relation.ReflTransGen (fun x s => s ∈ r.supers x) x t → r'.Fresh x) ∧
    ∀ x, r.Fresh x → r'.Fresh x := by
  induction cascade with
  | done => exact ⟨by simp, fun _ => id⟩
  | @next t rest r r' r'' dependents _ first second =>
    have same := SameBesideEffective.recompute r t
    have same' := same.trans dependents.same
    have supers := supers_congr same.shapes
    obtain ⟨above, keep⟩ := first (same.tracked tracked) (by simpa only [supers] using apart)
    obtain ⟨aboveRest, keepRest⟩ := second (same'.tracked tracked)
      (by simpa only [supers_congr same'.shapes] using apart)
    simp only [supers] at above
    simp only [supers_congr same'.shapes] at aboveRest
    -- A path from `x` to `t` is empty or ends with a dependent of `t`.
    have aboveHere (x : TypeId) (path : Relation.ReflTransGen (fun x s => s ∈ r.supers x) x t) :
        r'.Fresh x := by
      rcases Relation.ReflTransGen.cases_tail path with rfl | ⟨d, path, isSuper⟩
      · exact keep _ (recompute_fresh (apart _))
      · apply above d _ x path
        exact ((same.tracked tracked).dependents t d).mpr (by rwa [supers])
    constructor
    · intro s isRecomputed x path
      rcases List.mem_cons.mp isRecomputed with rfl | inRest
      · exact keepRest x (aboveHere x path)
      · exact aboveRest s inRest x path
    · intro x fresh
      apply keepRest
      by_cases path : Relation.ReflTransGen (fun x s => s ∈ r.supers x) x t
      · exact aboveHere x path
      · apply keep x
        apply fresh.recompute
        · rintro rfl
          exact path .refl
        · intro isSuper
          exact path (.single isSuper)

end Cascade

/-- Every type keeps the interfaces that it should have. -/
structure Current (r : Registry) : Prop where
  tracked : r.Tracked
  fresh : ∀ t, r.Fresh t

theorem Current.push (current : r.Current) (ordered : r.Ordered) (fits : r.Fits kind) (major : Major) :
    (r.push kind major).2.Current := by
  have old {s : TypeId} (inside : s < r.entries.length) :
      (r.push kind major).2.effective s = r.effective s := by
    rw [effective_push, if_neg (Nat.ne_of_lt inside)]
  refine ⟨current.tracked.push fits major, fun t => ?_⟩
  by_cases last : t = r.entries.length
  · subst last
    unfold Fresh
    rw [effective_push, if_pos rfl, kind?_push, if_pos rfl]
    exact (effectiveOf_congr fun s isSuper => old (fits.inside s isSuper)).symm
  · apply (current.fresh t).congr
    · rw [kind?_push, if_neg last]
    · rw [effective_push, if_neg last]
    · intro s isSuper
      exact old (ordered.inside t s isSuper)

theorem Current.sameTypes (current : r.Current) (same : r.SameTypes r') : r'.Current := by
  have computed : r'.effectiveOf = r.effectiveOf :=
    funext fun kind => effectiveOf_congr fun s _ => same.effective s
  refine ⟨current.tracked.congr same.shapes same.dependents, fun t => ?_⟩
  unfold Fresh
  rw [same.effective, current.fresh t, computed]
  exact (kind_congr same.shapes _ _ (fun k => effectiveOf_rename r k "") t).symm

theorem Grows.current (grows : r.Grows r') (ordered : r.Ordered) (current : r.Current) :
    r'.Current := by
  induction grows with
  | same same => exact current.sameTypes same
  | push fits major => exact current.push ordered fits major
  | trans first _ ih ih' => exact ih' (first.ordered ordered) (ih ordered current)

/-- Only the child is wrong before the cascade, and the cascade starts there. -/
theorem Current.link (current : r.Current) (ordered : r.Ordered)
    (linkable : r.Linkable child parent) :
    (r.link child parent).Cascade [child] (refresh (r.link child parent) child) ∧
      (refresh (r.link child parent) child).Current := by
  have tracked := current.tracked.link linkable
  have ordered' := ordered.link linkable
  have inside : child < (r.link child parent).entries.length :=
    length_link.symm ▸ isAgent_inside linkable.agentChild
  have cascade := refresh_cascade ordered' tracked inside
  have apart : ∀ t, t ∉ (r.link child parent).supers t := by
    obtain ⟨rank, ranked⟩ := ordered'.ranked
    intro t isSuper
    exact Nat.lt_irrefl _ (ranked t t isSuper)
  have effective (t : TypeId) : (r.link child parent).effective t = r.effective t := by
    simp only [Registry.effective, Registry.link, List.getElem?_modify]
    split <;> cases r.entries[t]? <;> rfl
  obtain ⟨above, keep⟩ := cascade.fresh tracked apart
  refine ⟨cascade, cascade.same.tracked tracked, fun t => ?_⟩
  by_cases isChild : child = t
  · subst isChild
    exact above child (List.mem_singleton_self child) child .refl
  · apply keep
    apply (current.fresh t).congr _ (effective t) fun s _ => effective s
    rw [kind?_link, if_neg isChild, Option.map_id_fun, id]

theorem initial_current : initial.Current := by
  have recorded : ∀ s < initial.dependents.length, ∀ t ∈ initial.dependentsOf s,
      s ∈ initial.supers t := by decide
  have complete : ∀ t < initial.entries.length, ∀ s ∈ initial.supers t,
      t ∈ initial.dependentsOf s := by decide
  have fresh : ∀ t < initial.entries.length,
      initial.effective t = (initial.kind? t).elim [] initial.effectiveOf := by decide
  refine ⟨⟨rfl, fun s t => ⟨fun isDependent => ?_, fun isSuper => ?_⟩⟩, fun t => ?_⟩
  · apply recorded s _ t isDependent
    apply Nat.lt_of_not_le
    intro outside
    simp [dependentsOf, List.getElem?_eq_none outside] at isDependent
  · exact complete t (mem_supers_inside isSuper) s isSuper
  · by_cases inside : t < initial.entries.length
    · exact fresh t inside
    · simp [Fresh, effective, kind?, List.getElem?_eq_none (Nat.le_of_not_lt inside)]

theorem kept_current {N : String → Prop} : Kept N Current where
  adds _ ordered current adds := adds.grows.current ordered current
  link _ ordered current linkable := (current.link ordered linkable).2

theorem Reachable.current (reachable : Reachable r) : r.Current := reachable.keeps kept_current initial_current

/-- The interfaces of a type, computed without what any type keeps. A type has its own interface
and then those of its parents, each one where it comes first. A union has those of its first member
that all others have. -/
inductive Scratch (r : Registry) : TypeId → List InterfaceId → Prop
  | single {kind : Kind} {lists : TypeId → List InterfaceId} (found : r.kind? t = some kind)
    (notUnion : r.members? t = none) (each : ∀ p ∈ kind.parents, Scratch r p (lists p)) :
    Scratch r t (kind.own?.toList ++ kind.parents.flatMap lists).eraseDups
  | union {lists : TypeId → List InterfaceId} (isUnion : r.members? t = some (first :: rest))
    (each : ∀ m ∈ first :: rest, Scratch r m (lists m)) :
    Scratch r t ((lists first).filter fun i => rest.all fun m => i ∈ lists m)

theorem Current.effective_single (current : r.Current) (found : r.kind? t = some kind)
    (notUnion : r.members? t = none) :
    r.effective t = (kind.own?.toList ++ kind.parents.flatMap r.effective).eraseDups := by
  have single : ∀ members, kind ≠ .union members := by
    rintro members rfl
    simp [Registry.members?, found] at notUnion
  rw [current.fresh t, found, Option.elim_some, effectiveOf_single single]

theorem Current.effective_union (current : r.Current)
    (isUnion : r.members? t = some (first :: rest)) :
    r.effective t = (r.effective first).filter fun i => rest.all fun m => i ∈ r.effective m := by
  rw [current.fresh t, kind_of_members isUnion]
  rfl

theorem Scratch.eq_effective (current : r.Current) (scratch : r.Scratch t list) :
    list = r.effective t := by
  induction scratch with
  | single found notUnion _ ih =>
    rw [current.effective_single found notUnion, List.flatMap_congr ih]
  | union isUnion _ ih => rw [current.effective_union isUnion, filter_all_congr ih]

theorem scratch_effective (current : r.Current) (ordered : r.Ordered)
    (inside : t < r.entries.length) : r.Scratch t (r.effective t) := by
  obtain ⟨rank, ranked⟩ := ordered.ranked
  induction known : rank t using Nat.strong_induction_on generalizing t with
  | _ n ih =>
    subst known
    have each (s : TypeId) (isSuper : s ∈ r.supers t) : r.Scratch s (r.effective s) :=
      ih (rank s) (ranked t s isSuper) (ordered.inside t s isSuper) rfl
    cases isUnion : r.members? t with
    | none =>
      obtain ⟨kind, found⟩ : ∃ kind, r.kind? t = some kind := by
        simp [kind?, List.getElem?_eq_getElem inside]
      rw [current.effective_single found isUnion]
      apply Scratch.single found isUnion
      intro p isParent
      exact each p (mem_supers_of_parent (by simpa [parents, found] using isParent))
    | some members =>
      cases members with
      | nil => simpa using ordered.several t [] isUnion
      | cons first rest =>
        rw [current.effective_union isUnion]
        apply Scratch.union isUnion
        intro m member
        exact each m (mem_supers_of_member isUnion member)

theorem Scratch.nodup (scratch : r.Scratch t list) : list.Nodup := by
  induction scratch with
  | @single t kind lists _ _ _ _ =>
    have own : kind.own?.toList.Nodup := by cases kind.own? <;> simp
    rw [← foldl_addNew own]
    exact foldl_addNew_nodup own _
  | @union t first rest lists _ _ ih => exact (ih first List.mem_cons_self).filter _

/-- Every type keeps the interfaces that are computed from scratch, without repetition. Recomputing
a type and all that is built on it ends, in particular when a type gets a new parent. -/
theorem effective_up_to_date (reachable : Reachable r) :
    (∀ t < r.entries.length, (∀ list, r.Scratch t list ↔ list = r.effective t) ∧
      (r.effective t).Nodup ∧ r.Cascade [t] (r.refresh t)) ∧
    ∀ child parent r', r.addParent child parent = .ok r' →
      r' = r ∨ (r.link child parent).Cascade [child] r' := by
  have ordered := reachable.ordered
  have current := reachable.current
  constructor
  · intro t inside
    have scratch := scratch_effective current ordered inside
    refine ⟨fun list => ⟨fun computed => computed.eq_effective current, ?_⟩, scratch.nodup,
      refresh_cascade ordered current.tracked inside⟩
    rintro rfl
    exact scratch
  · intro child parent r' added
    rcases addParent_cases added with same | ⟨linkable, rfl⟩
    · exact .inl same
    · exact .inr (current.link ordered linkable).1

/-- A genus and then its new interface get a parent, after a union and a type on top of it were
made. -/
def lateParents : List Operation :=
  [.declareInterface "Walker", .declareInterface "Talker", .byClassifier ⟨2, 15, 1⟩,
    .byUnion [15, 12], .declarePrimitive "handle" .agent (some 16), .addParent 14 11,
    .addParent 11 12]

theorem effective_up_to_date_late :
    (initial.run lateParents).effective 15 = [5, 4, 3, 0, 1, 2] ∧
    (initial.run lateParents).Scratch 15 [5, 4, 3, 0, 1, 2] ∧
    (initial.run lateParents).Scratch 17 [2, 0] := by
  have reachable : Reachable (initial.run lateParents) := Reachable.initial.run
  have kept : (initial.run lateParents).effective 15 = [5, 4, 3, 0, 1, 2] := by decide
  have computed := (effective_up_to_date reachable).1
  refine ⟨kept, ((computed 15 (by decide)).1 _).mpr kept.symm, ?_⟩
  exact ((computed 17 (by decide)).1 _).mpr (by decide)

end AgentScript.Registry
