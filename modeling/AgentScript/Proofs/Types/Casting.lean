import Mathlib.Data.Finset.Card
import AgentScript.Proofs.Preservation.Types

/-! Casting as an order. Types are built on types that exist and never on themselves, so the bound
on the steps of a cast is never met, and casting is what its four rules say. It is a preorder, and
two types that are no unions cast to each other only if they are the same. -/
namespace AgentScript.Registry

variable {r r' : Registry}

theorem mem_supers_of_parent (isParent : p ∈ r.parents t) : p ∈ r.supers t := by
  unfold parents at isParent
  unfold supers
  cases found : r.kind? t with
  | none => simp [found] at isParent
  | some kind =>
    simp only [found, Option.elim_some] at isParent ⊢
    exact List.mem_append_left _ isParent

theorem kind_of_members (isUnion : r.members? t = some members) :
    r.kind? t = some (.union members) := by
  unfold members? at isUnion
  split at isUnion
  · next found =>
    cases isUnion
    exact found
  · cases isUnion

theorem mem_supers_of_member (isUnion : r.members? t = some members) (member : m ∈ members) :
    m ∈ r.supers t := by
  simp [supers, kind_of_members isUnion, Kind.supers, Kind.parents, Kind.members, member]

theorem parents_of_union (isUnion : r.members? t = some members) : r.parents t = [] := by
  simp [parents, kind_of_members isUnion, Kind.parents]

theorem isAgent_inside (isAgent : r.isAgent t = true) : t < r.entries.length := by
  apply Nat.lt_of_not_le
  intro outside
  simp [Registry.isAgent, kind?, List.getElem?_eq_none outside] at isAgent

theorem supers_of_agent (isAgent : r.isAgent t = true) : r.supers t = r.parents t := by
  unfold Registry.isAgent at isAgent
  unfold supers parents
  cases found : r.kind? t with
  | none => rfl
  | some kind => cases kind <;> simp_all [Kind.isAgent, Kind.supers, Kind.members]

/-- The shape of an arena of types. -/
structure Ordered (r : Registry) : Prop where
  /-- Types are built on types that exist. -/
  inside : ∀ t, ∀ s ∈ r.supers t, s < r.entries.length
  /-- No type is built on itself, however many steps apart. -/
  ranked : ∃ rank : TypeId → Nat, ∀ t, ∀ s ∈ r.supers t, rank s < rank t
  agents : ∀ t, r.isAgent t = true → ∀ p ∈ r.parents t, r.isAgent p = true
  root : r.isAgent agent = true
  several : ∀ t members, r.members? t = some members → 2 ≤ members.length
  sorted : ∀ t members, r.members? t = some members → members.Pairwise (· < ·)
  /-- Equal unions are one type. -/
  interned : ∀ t u members, r.members? t = some members → r.members? u = some members → t = u

/-- The length of some paths upwards from a type, none of which is longer than the arena. -/
structure Height (r : Registry) (height : TypeId → Nat) : Prop where
  below : ∀ t, ∀ s ∈ r.supers t, height s < height t
  bounded : ∀ t, height t ≤ r.entries.length
  inside : ∀ t < r.entries.length, height t < r.entries.length

/-- Any ranks can be counted off, so that none is left out. -/
theorem Ordered.height (ordered : r.Ordered) : ∃ height, r.Height height := by
  obtain ⟨rank, ranked⟩ := ordered.ranked
  let lower (t : TypeId) := (Finset.range r.entries.length).filter fun x => rank x < rank t
  refine ⟨fun t => (lower t).card, fun t s isSuper => ?_, fun t => ?_, fun t inside => ?_⟩
  · have before := ranked t s isSuper
    apply Finset.card_lt_card
    apply Finset.ssubset_iff_of_subset _ |>.mpr
    · exact ⟨s, by simp [lower, ordered.inside t s isSuper, before], by simp [lower]⟩
    · intro x member
      simp only [lower, Finset.mem_filter] at member ⊢
      exact ⟨member.1, member.2.trans before⟩
  · simpa using Finset.card_filter_le (Finset.range r.entries.length) fun x => rank x < rank t
  · have proper : lower t ⊂ Finset.range r.entries.length := by
      apply Finset.filter_ssubset.mpr
      exact ⟨t, by simpa using inside, by simp⟩
    simpa using Finset.card_lt_card proper

/-- The rules, applied any number of times. -/
inductive Casts (r : Registry) : TypeId → TypeId → Prop
  | toAny (a : TypeId) : Casts r a any
  | refl (a : TypeId) : Casts r a a
  | ofUnion (isUnion : r.members? a = some members) (each : ∀ m ∈ members, Casts r m b) :
    Casts r a b
  | toUnion (isUnion : r.members? b = some members) (member : m ∈ members) (onward : Casts r a m) :
    Casts r a b
  | parent (isParent : p ∈ r.parents a) (onward : Casts r p b) : Casts r a b

theorem casts_of_castsWithin (casts : r.castsWithin steps a b = true) : r.Casts a b := by
  induction steps generalizing a b with
  | zero => cases casts
  | succ steps ih =>
    simp only [castsWithin, Bool.or_eq_true, beq_iff_eq, Option.any_eq_true, List.all_eq_true,
      List.any_eq_true] at casts
    rcases casts with (((rfl | rfl) | ⟨members, isUnion, each⟩) |
      ⟨members, isUnion, m, member, onward⟩) | ⟨p, isParent, onward⟩
    · exact .toAny a
    · exact .refl a
    · exact .ofUnion isUnion fun m member => ih (each m member)
    · exact .toUnion isUnion member (ih onward)
    · exact .parent isParent (ih onward)

theorem Casts.within (casts : r.Casts a b) {height : TypeId → Nat} (h : r.Height height)
    {steps : Nat} (enough : height a + height b < steps) : r.castsWithin steps a b = true := by
  induction steps generalizing a b with
  | zero => omega
  | succ steps ih =>
    cases casts with
    | toAny | refl => simp [castsWithin]
    | @ofUnion _ members _ isUnion each =>
      have casts : ∀ m ∈ members, r.castsWithin steps m b = true := by
        intro m member
        have := h.below a m (mem_supers_of_member isUnion member)
        exact ih (each m member) (by omega)
      simp only [castsWithin, Bool.or_eq_true, isUnion, Option.any_some, List.all_eq_true]
      exact .inl (.inl (.inr casts))
    | @toUnion _ members m _ isUnion member onward =>
      have := h.below b m (mem_supers_of_member isUnion member)
      have casts : r.castsWithin steps a m = true := ih onward (by omega)
      simp only [castsWithin, Bool.or_eq_true, isUnion, Option.any_some, List.any_eq_true]
      exact .inl (.inr ⟨m, member, casts⟩)
    | @parent _ p _ isParent onward =>
      have := h.below a p (mem_supers_of_parent isParent)
      have casts : r.castsWithin steps p b = true := ih onward (by omega)
      simp only [castsWithin, Bool.or_eq_true, List.any_eq_true]
      exact .inr ⟨p, isParent, casts⟩

theorem Ordered.canCast_iff (ordered : r.Ordered) : r.canCast a b = true ↔ r.Casts a b := by
  constructor
  · exact casts_of_castsWithin
  · intro casts
    obtain ⟨height, h⟩ := ordered.height
    have := h.bounded a
    have := h.bounded b
    exact casts.within h (by unfold castSteps; omega)

theorem Casts.of_any (sound : r.Sound) (casts : r.Casts a b) (isAny : a = any) : b = any := by
  induction casts with
  | toAny => rfl
  | refl => exact isAny
  | ofUnion isUnion =>
    subst isAny
    simp [sound.anything.members?] at isUnion
  | @toUnion b members m a isUnion member _ ih =>
    exact absurd (ih isAny) ((sound.unions b members isUnion).members m member).2.1
  | parent isParent =>
    subst isAny
    simp [sound.anything.parents] at isParent

theorem Casts.of_member (casts : r.Casts u b) (isUnion : r.members? u = some members)
    (member : m ∈ members) : r.Casts m b := by
  induction casts with
  | toAny => exact .toAny m
  | refl u => exact .toUnion isUnion member (.refl m)
  | ofUnion isUnion' each =>
    rw [isUnion] at isUnion'
    cases isUnion'
    exact each m member
  | toUnion isUnion' member' _ ih => exact .toUnion isUnion' member' (ih isUnion)
  | parent isParent => simp [parents_of_union isUnion] at isParent

/-- A type casts to what all its members cast to, where a type that is no union is its only one. -/
theorem casts_iff_members : r.Casts t c ↔ ∀ m ∈ (r.members? t).getD [t], r.Casts m c := by
  cases isUnion : r.members? t with
  | none => simp
  | some members =>
    rw [Option.getD_some]
    constructor
    · intro casts m member
      exact casts.of_member isUnion member
    · exact .ofUnion isUnion

theorem Casts.trans (sound : r.Sound) (first : r.Casts a b) (second : r.Casts b c) :
    r.Casts a c := by
  induction first with
  | toAny a =>
    rw [second.of_any sound rfl]
    exact .toAny a
  | refl => exact second
  | ofUnion isUnion _ ih => exact .ofUnion isUnion fun m member => ih m member second
  | toUnion isUnion member _ ih => exact ih (second.of_member isUnion member)
  | parent isParent _ ih => exact .parent isParent (ih second)

theorem Casts.rank_lt (ordered : r.Ordered) {rank : TypeId → Nat}
    (ranked : ∀ t, ∀ s ∈ r.supers t, rank s < rank t) (casts : r.Casts a b) (notAny : b ≠ any)
    (notUnion : r.members? b = none) : a = b ∨ rank b < rank a := by
  induction casts with
  | toAny => exact absurd rfl notAny
  | refl => exact .inl rfl
  | @ofUnion a members b isUnion _ ih =>
    have nonempty : members ≠ [] := by
      rintro rfl
      simpa using ordered.several a [] isUnion
    obtain ⟨m, member⟩ := List.exists_mem_of_ne_nil members nonempty
    have before := ranked a m (mem_supers_of_member isUnion member)
    rcases ih m member notAny notUnion with rfl | further
    · exact .inr before
    · exact .inr (further.trans before)
  | toUnion isUnion => simp [isUnion] at notUnion
  | @parent a p b isParent _ ih =>
    have before := ranked a p (mem_supers_of_parent isParent)
    rcases ih notAny notUnion with rfl | further
    · exact .inr before
    · exact .inr (further.trans before)

theorem Casts.antisymm (sound : r.Sound) (ordered : r.Ordered) (notUnion : r.members? a = none)
    (notUnion' : r.members? b = none) (first : r.Casts a b) (second : r.Casts b a) : a = b := by
  by_cases isAny : b = any
  · subst isAny
    exact second.of_any sound rfl
  by_cases isAny' : a = any
  · subst isAny'
    exact (first.of_any sound rfl).symm
  obtain ⟨rank, ranked⟩ := ordered.ranked
  rcases first.rank_lt ordered ranked isAny notUnion' with same | up
  · exact same
  rcases second.rank_lt ordered ranked isAny' notUnion with same | down
  · exact same.symm
  · omega

/-- Casts stay when members stay and parents are added. -/
theorem Casts.mono (members : ∀ t ms, r.members? t = some ms → r'.members? t = some ms)
    (parents : ∀ t, ∀ p ∈ r.parents t, p ∈ r'.parents t) (casts : r.Casts a b) : r'.Casts a b := by
  induction casts with
  | toAny a => exact .toAny a
  | refl a => exact .refl a
  | ofUnion isUnion _ ih => exact .ofUnion (members _ _ isUnion) ih
  | toUnion isUnion member _ ih => exact .toUnion (members _ _ isUnion) member ih
  | parent isParent _ ih => exact .parent (parents _ _ isParent) ih

end AgentScript.Registry
