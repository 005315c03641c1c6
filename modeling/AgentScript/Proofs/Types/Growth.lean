import Mathlib.Data.Finset.Lattice.Fold
import AgentScript.Proofs.Preservation.Declarations
import AgentScript.Proofs.Types.Casting

/-! The registries that operations lead to. An operation changes names, adds types at the end, or
gives one agent type a new parent that does not cast to it; so the arena stays ordered. -/
namespace AgentScript.Registry

variable {r r' r'' : Registry}

/-- The kinds of all types without their names. -/
def shapes (r : Registry) : List Kind := r.entries.map fun e => e.kind.rename ""

section
variable (same : r'.shapes = r.shapes)
include same

theorem length_congr : r'.entries.length = r.entries.length := by
  simpa [shapes] using congrArg List.length same

theorem kind_congr (f : Kind → α) (default : α) (nameless : ∀ k : Kind, f (k.rename "") = f k)
    (t : TypeId) : (r'.kind? t).elim default f = (r.kind? t).elim default f := by
  have shape : (r'.kind? t).map (Kind.rename "") = (r.kind? t).map (Kind.rename "") := by
    simpa [shapes, kind?, Function.comp_def] using congrArg (·[t]?) same
  cases found : r.kind? t with
  | none =>
    cases found' : r'.kind? t with
    | none => rfl
    | some k' => simp [found, found'] at shape
  | some k =>
    cases found' : r'.kind? t with
    | none => simp [found, found'] at shape
    | some k' =>
      simp only [found, found', Option.map_some, Option.some.injEq] at shape
      simp only [Option.elim_some]
      rw [← nameless, shape, nameless]

theorem parents_congr (t : TypeId) : r'.parents t = r.parents t :=
  kind_congr same _ _ (by intro k; cases k <;> rfl) t

theorem supers_congr (t : TypeId) : r'.supers t = r.supers t :=
  kind_congr same _ _ (by intro k; cases k <;> rfl) t

theorem isAgent_congr (t : TypeId) : r'.isAgent t = r.isAgent t := by
  have agents (r : Registry) : r.isAgent t = (r.kind? t).elim false Kind.isAgent := by
    unfold Registry.isAgent
    cases r.kind? t <;> rfl
  rw [agents, agents]
  exact kind_congr same _ _ (by intro k; cases k <;> rfl) t

theorem members?_congr (t : TypeId) : r'.members? t = r.members? t := by
  have unions (r : Registry) (members : List TypeId) : r.members? t = some members ↔
      (r.kind? t).elim false (Kind.isUnionOf members) = true := by
    unfold Registry.members?
    rcases r.kind? t with _ | k
    · simp
    · cases k <;> simp [Kind.isUnionOf]
  apply Option.ext
  intro members
  rw [unions, unions, kind_congr same _ _ (by intro k; cases k <;> rfl) t]

theorem Ordered.congr (ordered : r.Ordered) : r'.Ordered := by
  constructor <;> simp only [supers_congr same, parents_congr same, isAgent_congr same,
    members?_congr same, length_congr same]
  · exact ordered.inside
  · exact ordered.ranked
  · exact ordered.agents
  · exact ordered.root
  · exact ordered.several
  · exact ordered.sorted
  · exact ordered.interned

end

/-- A kind that a type can be made of. -/
structure Fits (r : Registry) (kind : Kind) : Prop where
  inside : ∀ s ∈ kind.supers, s < r.entries.length
  agents : kind.isAgent = true → ∀ p ∈ kind.parents, r.isAgent p = true
  union : ∀ members, kind = .union members →
    2 ≤ members.length ∧ members.Pairwise (· < ·) ∧ ∀ t, r.members? t ≠ some members

theorem effective_push (r : Registry) (kind : Kind) (major : Major) (t : TypeId) :
    (r.push kind major).2.effective t =
      if t = r.entries.length then r.effectiveOf kind else r.effective t := by
  unfold effective
  rw [entries_push]
  split <;> rfl

section
variable {kind : Kind} {major : Major}

theorem supers_push (t : TypeId) : (r.push kind major).2.supers t =
    if t = r.entries.length then kind.supers else r.supers t := by
  unfold supers
  rw [kind?_push]
  split <;> rfl

theorem parents_push (t : TypeId) : (r.push kind major).2.parents t =
    if t = r.entries.length then kind.parents else r.parents t := by
  unfold parents
  rw [kind?_push]
  split <;> rfl

theorem isAgent_push (t : TypeId) : (r.push kind major).2.isAgent t =
    if t = r.entries.length then kind.isAgent else r.isAgent t := by
  unfold Registry.isAgent
  rw [kind?_push]
  split <;> rfl

theorem isAgent_push_old (isAgent : r.isAgent t = true) :
    (r.push kind major).2.isAgent t = true := by
  rw [isAgent_push, if_neg (Nat.ne_of_lt (isAgent_inside isAgent)), isAgent]

theorem Ordered.push (ordered : r.Ordered) (fits : r.Fits kind) :
    (r.push kind major).2.Ordered where
  inside := by
    intro t s isSuper
    rw [length_push]
    rw [supers_push] at isSuper
    split at isSuper
    · exact Nat.lt_succ_of_lt (fits.inside s isSuper)
    · exact Nat.lt_succ_of_lt (ordered.inside t s isSuper)
  ranked := by
    obtain ⟨rank, ranked⟩ := ordered.ranked
    let top := (Finset.range r.entries.length).sup rank
    refine ⟨fun t => if t = r.entries.length then top + 1 else rank t, ?_⟩
    intro t s isSuper
    rw [supers_push] at isSuper
    dsimp only
    split at isSuper
    · next last =>
      have inside := fits.inside s isSuper
      have : rank s ≤ top := Finset.le_sup (Finset.mem_range.mpr inside)
      rw [if_pos last, if_neg (Nat.ne_of_lt inside)]
      omega
    · next old =>
      rw [if_neg old, if_neg (Nat.ne_of_lt (ordered.inside t s isSuper))]
      exact ranked t s isSuper
  agents := by
    intro t isAgent p isParent
    rw [isAgent_push] at isAgent
    rw [parents_push] at isParent
    apply isAgent_push_old
    split at isAgent
    · next last =>
      rw [if_pos last] at isParent
      exact fits.agents isAgent p isParent
    · next old =>
      rw [if_neg old] at isParent
      exact ordered.agents t isAgent p isParent
  root := isAgent_push_old ordered.root
  several := by
    intro t members isUnion
    rcases members?_push_cases isUnion with ⟨_, new⟩ | old
    · exact (fits.union members new).1
    · exact ordered.several t members old
  sorted := by
    intro t members isUnion
    rcases members?_push_cases isUnion with ⟨_, new⟩ | old
    · exact (fits.union members new).2.1
    · exact ordered.sorted t members old
  interned := by
    intro t u members isUnion isUnion'
    rcases members?_push_cases isUnion with ⟨last, new⟩ | old <;>
      rcases members?_push_cases isUnion' with ⟨last', new'⟩ | old'
    · rw [last, last']
    · exact absurd old' ((fits.union members new).2.2 u)
    · exact absurd old ((fits.union members new').2.2 t)
    · exact ordered.interned t u members old old'

end

/-- Registries that differ in names and in what they hold besides types. -/
structure SameTypes (r r' : Registry) : Prop where
  shapes : r'.shapes = r.shapes
  effective : ∀ t, r'.effective t = r.effective t
  dependents : r'.dependents = r.dependents

theorem SameTypes.of_entries (entries : r'.entries = r.entries)
    (dependents : r'.dependents = r.dependents) : r.SameTypes r' :=
  ⟨by simp [Registry.shapes, entries], by simp [Registry.effective, entries], dependents⟩

/-- Types are added at the end, and names may change. -/
inductive Grows : Registry → Registry → Prop
  | same {r r' : Registry} (same : r.SameTypes r') : Grows r r'
  | push {r : Registry} (fits : r.Fits kind) (storage : Major) : Grows r (r.push kind storage).2
  | trans {r r' r'' : Registry} (first : Grows r r') (second : Grows r' r'') : Grows r r''

namespace Grows

theorem refl (r : Registry) : r.Grows r := .same (.of_entries rfl rfl)

theorem ordered (grows : r.Grows r') (ordered : r.Ordered) : r'.Ordered := by
  induction grows with
  | same same => exact ordered.congr same.shapes
  | push fits => exact ordered.push fits
  | trans _ _ first second => exact second (first ordered)

theorem length_le (grows : r.Grows r') : r.entries.length ≤ r'.entries.length := by
  induction grows with
  | same same => exact Nat.le_of_eq (length_congr same.shapes).symm
  | push => simp [length_push]
  | trans _ _ first second => exact first.trans second

theorem members? (grows : r.Grows r') (inside : t < r.entries.length) :
    r'.members? t = r.members? t := by
  induction grows with
  | same same => exact members?_congr same.shapes t
  | push => exact members?_push_old (Nat.ne_of_lt inside)
  | trans first _ ih ih' => rw [ih' (Nat.lt_of_lt_of_le inside first.length_le), ih inside]

theorem parents (grows : r.Grows r') (inside : t < r.entries.length) :
    r'.parents t = r.parents t := by
  induction grows with
  | same same => exact parents_congr same.shapes t
  | push => rw [parents_push, if_neg (Nat.ne_of_lt inside)]
  | trans first _ ih ih' => rw [ih' (Nat.lt_of_lt_of_le inside first.length_le), ih inside]

theorem casts_iff (grows : r.Grows r') (ordered : r.Ordered) (inside : a < r.entries.length)
    (inside' : b < r.entries.length) : r'.Casts a b ↔ r.Casts a b := by
  constructor
  · intro casts
    induction casts with
    | toAny a => exact .toAny a
    | refl a => exact .refl a
    | @ofUnion a members b isUnion _ ih =>
      rw [grows.members? inside] at isUnion
      apply Casts.ofUnion isUnion
      intro m member
      exact ih m member (ordered.inside a m (mem_supers_of_member isUnion member)) inside'
    | @toUnion b members m a isUnion member _ ih =>
      rw [grows.members? inside'] at isUnion
      exact .toUnion isUnion member
        (ih inside (ordered.inside b m (mem_supers_of_member isUnion member)))
    | @parent a p b isParent _ ih =>
      rw [grows.parents inside] at isParent
      exact .parent isParent (ih (ordered.inside a p (mem_supers_of_parent isParent)) inside')
  · apply Casts.mono
    · intro t members isUnion
      rw [grows.members? (members?_inside isUnion), isUnion]
    · intro t p isParent
      by_cases known : t < r.entries.length
      · rwa [grows.parents known]
      · simp [Registry.parents, kind?, List.getElem?_eq_none (Nat.le_of_not_lt known)] at isParent

end Grows

end AgentScript.Registry
