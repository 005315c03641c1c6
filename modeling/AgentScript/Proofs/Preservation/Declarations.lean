import AgentScript.Compile
import AgentScript.Proofs.Preservation.Types

/-! Declarations keep the types of numbers as they are: they rename, connect and extend types of agents
only, and give names to types that exist. -/
namespace AgentScript
variable {w : World}

/-- Kinds that differ in the names and parents of agents. -/
def Kind.Alike : Kind → Kind → Prop
  | .primitive _ parent, .primitive _ parent' => parent' = parent
  | .union members, .union members' => members' = members
  | .interface .., .interface .. => True
  | .classified .., .classified .. => True
  | _, _ => False

namespace Kind

theorem Alike.refl (k : Kind) : k.Alike k := by
  cases k <;> simp [Alike]

theorem rename_alike (name : String) (k : Kind) : k.Alike (k.rename name) := by
  cases k <;> simp [Alike, rename]

theorem addParent_alike (parent : TypeId) (k : Kind) : k.Alike (k.addParent parent) := by
  cases k <;> simp [Alike, addParent]

end Kind

namespace Registry
variable {name : String}

variable {r r' : Registry}

/-- An entry may change as long as its kind and its storage class stay alike. -/
theorem Sound.modify (sound : r.Sound) {f : TypeEntry → TypeEntry}
    (entries : r'.entries = r.entries.modify t f) (named : r'.named = r.named)
    (kept : ∀ e, (f e).major = e.major ∧ e.kind.Alike (f e).kind) : r'.Sound := by
  have length : r'.entries.length = r.entries.length := by rw [entries, List.length_modify]
  have entry (x : TypeId) : r'.entries[x]? = r.entries[x]?.map (if t = x then f else id) := by
    rw [entries, List.getElem?_modify]
    split <;> rfl
  have major (x : TypeId) : r'.major x = r.major x := by
    unfold Registry.major
    rw [entry]
    cases r.entries[x]? with
    | none => rfl
    | some e =>
      split
      · exact (kept e).1
      · rfl
  have kind (x : TypeId) : Option.Rel Kind.Alike (r.kind? x) (r'.kind? x) := by
    unfold kind?
    rw [entry]
    cases r.entries[x]? with
    | none => exact .none
    | some e =>
      refine .some ?_
      split
      · exact (kept e).2
      · exact .refl _
  have members (x : TypeId) : r'.members? x = r.members? x := by
    have alike := kind x
    unfold members?
    generalize r.kind? x = old, r'.kind? x = new at alike ⊢
    cases alike with
    | none => rfl
    | @some k k' alike => cases k <;> cases k' <;> simp_all [Kind.Alike]
  have primitive {x : TypeId} {parent : Option TypeId} {storage : Major}
      (old : r.Primitive x parent storage) : r'.Primitive x parent storage := by
    refine ⟨?_, (major x).trans old.major⟩
    obtain ⟨name, found⟩ := old.kind
    have alike := kind x
    rw [found] at alike
    generalize r'.kind? x = new at alike ⊢
    cases alike with
    | @some _ k' alike => cases k' <;> simp_all [Kind.Alike]
  refine ⟨primitive sound.anything, fun p member => primitive (sound.numbers p member),
    primitive sound.text, fun x ms isUnion => ?_, fun p member => ?_⟩
  · rw [members] at isUnion
    have union := sound.unions x ms isUnion
    refine ⟨?_, fun m member => ?_⟩
    · rw [major, union.major]
      exact congrArg _ (List.map_congr_left fun m _ => (major m).symm)
    · rw [length, members]
      exact union.members m member
  · rw [named] at member
    rw [length]
    exact sound.named p member

theorem Sound.same (sound : r.Sound) (entries : r'.entries = r.entries) (named : r'.named = r.named) :
    r'.Sound := by
  have added : r.entries <+: r'.entries := entries ▸ List.prefix_rfl
  refine sound.grown added (fun t ms outside isUnion => ?_) fun p member => ?_
  · exact absurd (members?_inside isUnion) (by rw [entries]; exact Nat.not_lt.mpr outside)
  · rw [named] at member
    exact entries ▸ sound.named p member

theorem Sound.bindName (sound : r.Sound) (name : String) (inside : t < r.entries.length) :
    (r.bindName name t).Sound := by
  have added : r.entries <+: (r.bindName name t).entries := List.prefix_rfl
  refine sound.grown added (fun t ms outside isUnion => ?_) fun p member => ?_
  · exact absurd (members?_inside isUnion) (Nat.not_lt.mpr outside)
  · rcases List.mem_cons.mp member with rfl | old
    · exact inside
    · exact sound.named p old

theorem recompute_keeps {P : Registry → Prop} (set : ∀ r t list, P r → P (setEffective r t list)) (holds : P r)
    (t : TypeId) : P (r.recompute t) := by
  unfold recompute
  split
  · exact set r t _ holds
  · exact holds

/-- Refreshing sets effective interfaces and does nothing else. -/
theorem refreshWithin_keeps {P : Registry → Prop} (set : ∀ r t list, P r → P (setEffective r t list))
    (holds : P r) (steps : Nat) (t : TypeId) : P (refreshWithin steps r t) := by
  induction steps generalizing r t with
  | zero => exact holds
  | succ steps ih =>
    have all {r : Registry} (holds : P r) (ts : List TypeId) :
        P (ts.foldl (fun r d => refreshWithin steps r d) r) := by
      induction ts generalizing r with
      | nil => exact holds
      | cons d rest next => exact next (ih holds d)
    exact all (recompute_keeps set holds t) _

theorem Sound.refreshWithin (sound : r.Sound) (steps : Nat) (t : TypeId) :
    (refreshWithin steps r t).Sound :=
  refreshWithin_keeps (fun _ _ _ sound => sound.modify rfl rfl fun _ => ⟨rfl, .refl _⟩) sound steps t

theorem Sound.rename (sound : r.Sound) (t : TypeId) (name : String) : (r.rename t name).Sound :=
  sound.modify rfl rfl fun e => ⟨rfl, Kind.rename_alike name e.kind⟩

theorem Sound.link (sound : r.Sound) (child parent : TypeId) : (r.link child parent).Sound :=
  sound.modify rfl rfl fun e => ⟨rfl, Kind.addParent_alike parent e.kind⟩

end Registry

/-- What each step keeps, whether it fails or not, all of them keep. -/
theorem attemptAll_keeps {P : World → Prop} {steps : List (String × WorldM α)}
    (each : ∀ x ∈ steps, ∀ w, P w → P (x.2.run w).2) (holds : P w) : P (attemptAll steps w).2.2 := by
  induction steps generalizing w with
  | nil => exact holds
  | cons x rest ih =>
    obtain ⟨here, others⟩ := List.forall_mem_cons.mp each
    have after : (attempt x.1 x.2 w).2.2 = (x.2.run w).2 := by
      unfold attempt
      split <;> simp_all
    have still : P (attempt x.1 x.2 w).2.2 := after ▸ here w holds
    exact ih others still

/-- The world that the scripts of a unit are resolved in. -/
def Document.declared (d : Document) : World := (attemptAll d.declarationSteps World.initial).2.2

end AgentScript
