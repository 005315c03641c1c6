import AgentScript.Proofs.Likeness.Trees

/-! What is asked of resolved scripts that are alike: how slots may be used, how sequences of slots are
put together and cut, and how slots are copied to fresh variables. -/
namespace AgentScript

section
variable {L : Likeness}

structure Access.Like (L : Likeness) (a b : Access) : Prop where
  read : Option.Rel L.types a.read b.read
  write : Option.Rel L.types a.write b.write
  label : b.label = a.label

theorem Access.Like.ofType (readable writable : Bool) {ty ty' : TypeId} (same : L.types ty ty')
    (label : String) :
    Access.Like L ⟨if readable then some ty else none, if writable then some ty else none, label⟩
      ⟨if readable then some ty' else none, if writable then some ty' else none, label⟩ := by
  refine ⟨?_, ?_, rfl⟩
  · cases readable
    · exact .none
    · exact .some same
  · cases writable
    · exact .none
    · exact .some same

theorem retyped_like {R : α → β → Prop} {a : Option α} {b : Option β} (same : Option.Rel R a b)
    {ty ty' : TypeId} (types : L.types ty ty') :
    Option.Rel L.types (a.map fun _ => ty) (b.map fun _ => ty') := by
  cases same with
  | none => exact .none
  | some _ => exact .some types

theorem forall₂_getElem? {R : α → β → Prop} {l : List α} {l' : List β} (same : List.Forall₂ R l l')
    (i : Nat) : Option.Rel R l[i]? l'[i]? := by
  induction same generalizing i with
  | nil => exact .none
  | cons first _ ih =>
    cases i with
    | zero => exact .some first
    | succ i => simpa using ih i

theorem Leaf.resultType_like {tail tail' : List Operand} (same : List.Forall₂ (Operand.Like L) tail tail')
    {ty ty' : TypeId} (first : L.types ty ty') :
    L.types (resultType ty tail) (resultType ty' tail') := by
  induction same generalizing ty ty' with
  | nil => exact first
  | cons here _ ih =>
    cases here with
    | mk _ _ after => exact ih after

mutual
theorem Leaf.accesses_like : {a b : Leaf} → a.Like L b →
    List.Forall₂ (Access.Like L) a.accesses b.accesses
  | .const _, _, .const ty | .isInstance .., _, .isInstance _ ty | .test _ _, _, .test _ ty
  | .inline _ _, _, .inline _ ty => .cons (.ofType true false ty _) .nil
  | .var _ _ writable, _, .var _ ty | .builtin _ _ writable _, _, .builtin ty =>
    .cons (.ofType true writable ty _) .nil
  | .sink _ len _, _, .sink _ ty => by
    rw [Leaf.accesses, Leaf.accesses]
    refine List.forall₂_of_length_eq_of_get (by simp) fun i _ _ => ?_
    simp only [List.get_eq_getElem, List.getElem_replicate]
    exact .ofType false true ty _
  | .field _ _, _, .field _ ty => .cons (.ofType true true ty _) .nil
  | .cast _ _, _, .cast base ty => by
    have first := forall₂_getElem? (accessesAll_like base) 0
    rw [Leaf.accesses, Leaf.accesses]
    generalize (accessesAll _)[0]? = a at first ⊢
    generalize (accessesAll _)[0]? = b at first ⊢
    cases first with
    | none => exact .cons ⟨.none, .none, rfl⟩ .nil
    | some here => exact .cons ⟨retyped_like here.read ty, retyped_like here.write ty, rfl⟩ .nil
  | .retype _ _, _, .retype target ty => by
    have first := forall₂_getElem? (accessesAll_like target) 0
    rw [Leaf.accesses, Leaf.accesses]
    generalize (accessesAll _)[0]? = a at first ⊢
    generalize (accessesAll _)[0]? = b at first ⊢
    cases first with
    | none => exact .cons ⟨.none, .none, rfl⟩ .nil
    | some here => exact .cons ⟨.none, here.write, rfl⟩ .nil
  | .chain .., _, .chain _ ty tail => .cons (.ofType true false (Leaf.resultType_like tail ty) _) .nil
  | .deferred .., _, .deferred _ _ params => by
    refine List.forall₂_map_left_iff.mpr (List.forall₂_map_right_iff.mpr (List.forall₂_same.mpr ?_))
    exact fun p member => .ofType p.2.reads p.2.writes (params p member) _
  | .call .., _, .call _ _ body =>
    List.rel_map (fun _ _ same => ⟨same.read, same.write, rfl⟩) (accessesAll_like body)
  | .seq .., _, .seq _ _ result =>
    List.rel_map (fun _ _ same => ⟨same.read, .none, rfl⟩) (accessesAll_like result)
termination_by structural a => a
theorem accessesAll_like : {e e' : List (Piece Leaf)} → List.Forall₂ (Piece.Match (Leaf.Like L)) e e' →
    List.Forall₂ (Access.Like L) (accessesAll e) (accessesAll e')
  | [], _, .nil => .nil
  | .whole _ :: _, _, .cons (.whole leaf) others =>
    List.rel_append (Leaf.accesses_like leaf) (accessesAll_like others)
  | .view _ base len :: _, _, .cons (.view leaf) others => by
    have part := List.forall₂_take len (List.forall₂_drop base (Leaf.accesses_like leaf))
    exact List.rel_append part (accessesAll_like others)
termination_by structural e => e
end

theorem Leaf.key_like {a b : Leaf} (like : a.Like L b) : Option.Rel L.keys a.key b.key := by
  cases like with
  | sink key _ | deferred key _ _ | call key _ _ | seq key _ _ => exact .some key
  | _ => exact .none

theorem Leaf.Like.respects (keyed : L.Keyed) : Slotted.Respects (Leaf.Like L) where
  count like := (Leaf.accesses_like like).length_eq
  same {a a' b b'} first second := by
    have one : Option.Rel _ (Slotted.key a) (Slotted.key a') := Leaf.key_like first
    have other : Option.Rel _ (Slotted.key b) (Slotted.key b') := Leaf.key_like second
    rw [sameLeaf, sameLeaf]
    generalize Slotted.key a = k at one ⊢
    generalize Slotted.key a' = k' at one ⊢
    generalize Slotted.key b = l at other ⊢
    generalize Slotted.key b' = l' at other ⊢
    cases one with
    | none => rfl
    | some one =>
      cases other with
      | none => rfl
      | some other => simpa using keyed one other

namespace Expr.Like
variable {e e' : Expr}

theorem leaf {l l' : Leaf} (like : l.Like L l') : Expr.Like L (Expr.leaf l) (Expr.leaf l') :=
  .cons (.whole like) .nil

theorem const {c : Constant} (ty : L.types c.ty c.ty) : Expr.Like L (Expr.const c) (Expr.const c) :=
  leaf (.const ty)

theorem len (keyed : L.Keyed) (like : Expr.Like L e e') : Slices.len e' = Slices.len e :=
  Slices.len_match (Leaf.Like.respects keyed) like

theorem group (keyed : L.Keyed) {parts parts' : List Expr}
    (each : List.Forall₂ (Expr.Like L) parts parts') :
    Expr.Like L (Slices.group parts) (Slices.group parts') :=
  Slices.group_match (Leaf.Like.respects keyed) each

theorem access (keyed : L.Keyed) (like : Expr.Like L e e') (i : Nat) :
    Paired (· = ·) (Access.Like L) (e.access i) (e'.access i) := by
  have found := Slices.locate?_match (Leaf.Like.respects keyed) like i
  unfold Expr.access
  rw [like.len keyed]
  generalize Slices.locate? e i = x at found ⊢
  generalize Slices.locate? e' i = y at found ⊢
  cases found with
  | none => exact .error rfl
  | @some owner owner' same =>
    obtain ⟨leaf, place⟩ := owner
    obtain ⟨leaf', place'⟩ := owner'
    obtain ⟨same, rfl⟩ : leaf.Like L leaf' ∧ place' = place := same
    have here := forall₂_getElem? (Leaf.accesses_like same) place'
    dsimp only
    generalize leaf.accesses[place']? = a at here ⊢
    generalize leaf'.accesses[place']? = b at here ⊢
    cases here with
    | none => exact .error rfl
    | some access => exact .ok access

theorem readType (keyed : L.Keyed) (like : Expr.Like L e e') (i : Nat) :
    Paired (· = ·) L.types (e.readType i) (e'.readType i) := by
  refine (like.access keyed i).bind fun {a b} same => ?_
  obtain ⟨read, write, label⟩ := a
  obtain ⟨read', write', label'⟩ := b
  obtain ⟨reads, _, rfl⟩ := same
  cases reads with
  | none => exact .error rfl
  | some ty => exact .ok ty

theorem writeType (keyed : L.Keyed) (like : Expr.Like L e e') (i : Nat) :
    Paired (· = ·) L.types (e.writeType i) (e'.writeType i) := by
  refine (like.access keyed i).bind fun {a b} same => ?_
  obtain ⟨read, write, label⟩ := a
  obtain ⟨read', write', label'⟩ := b
  obtain ⟨_, writes, rfl⟩ := same
  cases writes with
  | none => exact .error rfl
  | some ty => exact .ok ty

theorem singleReadType (keyed : L.Keyed) (like : Expr.Like L e e') :
    Paired (· = ·) L.types e.singleReadType e'.singleReadType := by
  unfold Expr.singleReadType
  rw [like.len keyed]
  split
  · exact like.readType keyed 0
  · exact .error rfl

end Expr.Like

/-- As many numbers were drawn from `next` up to `stop` as from `next'` on, with results that go
together. -/
def Drawn (C : Cause → Cause → Prop) (A : α → β → Prop) (next stop next' : Nat) (r : Except Cause α)
    (y : Except Cause β × Nat) : Prop :=
  ∃ n, stop = next + n ∧ y.2 = next' + n ∧ Paired C A r y.1

namespace Cache
variable {C : Cause → Cause → Prop} {label : Nat → String} {readType readType' : Nat → Except Cause TypeId}
  {next next' stop : Nat}

/-- The handles from `next` up to `stop` correspond to those from `next'` on. -/
def Handles (L : Likeness) (next stop next' : Nat) : Prop :=
  ∀ n, next + n < stop → L.handles (next + n) (next' + n)

theorem Handles.later (handles : Handles L next stop next') (n : Nat) :
    Handles L (next + n) stop (next' + n) := by
  intro k below
  rw [Nat.add_assoc] at below ⊢
  rw [Nat.add_assoc]
  exact handles (n + k) below

theorem Handles.mono (handles : Handles L next stop next') (le : m ≤ stop) : Handles L next m next' :=
  fun n below => handles n (by omega)

theorem freshVars_like (reads : ∀ i, Paired C L.types (readType i) (readType' i)) {places : List Nat}
    {r : Except Cause (List LocalVar)} (made : freshVars readType label places next = (r, stop))
    (handles : Handles L next stop next') :
    Drawn C (List.Forall₂ (LocalVar.Like L)) next stop next' r
      (freshVars readType' label places next') := by
  induction places generalizing next next' r with
  | nil =>
    cases made
    exact ⟨0, rfl, rfl, .ok .nil⟩
  | cons i rest ih =>
    have here := reads i
    unfold freshVars at made ⊢
    generalize readType i = x at here made
    generalize readType' i = y at here ⊢
    cases here with
    | error cause =>
      cases made
      exact ⟨0, rfl, rfl, .error cause⟩
    | ok types =>
      dsimp only at made ⊢
      rcases later : freshVars readType label rest (next + 1) with ⟨result, m⟩
      obtain rfl : m = stop := by
        rw [later] at made
        split at made <;> simp_all
      obtain ⟨n, below, after, others⟩ := ih later (handles.later 1)
      rw [later] at made
      generalize freshVars readType' label rest (next' + 1) = z at after others ⊢
      obtain ⟨result', m'⟩ := z
      dsimp only at after others
      refine ⟨n + 1, by omega, ?_⟩
      cases others with
      | error cause =>
        cases made
        exact ⟨after.trans (by omega), .error cause⟩
      | ok others =>
        cases made
        exact ⟨after.trans (by omega), .ok (.cons ⟨handles 0 (by omega), types, rfl⟩ others)⟩

section
variable {α : Type} [Slotted α] {M : α → α → Prop}

/-- Copies of sequences of related leaves to variables that correspond. -/
abbrev CopiesPair (L : Likeness) (M : α → α → Prop) :
    List (Slices α × List LocalVar) → List (Slices α × List LocalVar) → Prop :=
  List.Forall₂ fun a b =>
    List.Forall₂ (Piece.Match M) a.1 b.1 ∧ List.Forall₂ (LocalVar.Like L) a.2 b.2

/-- Sources of copies that go together. -/
structure Source.Match (L : Likeness) (C : Cause → Cause → Prop) (M : α → α → Prop) (s t : Source α) :
    Prop where
  input : List.Forall₂ (Piece.Match M) s.input t.input
  readType : ∀ i, Paired C L.types (s.readType i) (t.readType i)
  label : t.label = s.label
  leafOf : ∀ {v w}, v.Like L w → M (s.leafOf v) (t.leafOf w)

theorem pieces_like (respects : Slotted.Respects M) {s t : Source α} (sources : s.Match L C M t)
    {rs : List Run} {r : Except Cause (List (Slices α × List LocalVar) × List (Slices α))}
    (made : pieces s rs next = (r, stop)) (handles : Handles L next stop next') :
    Drawn C (fun a b => CopiesPair L M a.1 b.1 ∧
      List.Forall₂ (List.Forall₂ (Piece.Match M)) a.2 b.2) next stop next' r (pieces t rs next') := by
  induction rs generalizing next next' r with
  | nil =>
    cases made
    exact ⟨0, rfl, rfl, .ok ⟨.nil, .nil⟩⟩
  | cons run rest ih =>
    have cut := Slices.cutWithin_match respects sources.input run.start run.len
    unfold pieces at made ⊢
    dsimp only at made ⊢
    split at made
    · next copied =>
      rw [if_pos copied]
      rcases first : freshVars s.readType s.label (List.range' run.start run.len) next with ⟨_ | vars, m⟩
      · rw [first] at made
        cases made
        obtain ⟨n, below, after, vars⟩ := freshVars_like sources.readType first handles
        rw [sources.label]
        generalize freshVars t.readType s.label (List.range' run.start run.len) next' = z at after vars ⊢
        obtain ⟨result, m'⟩ := z
        cases vars with
        | error cause => exact ⟨n, below, after, .error cause⟩
      · rw [first] at made
        dsimp only at made
        rcases later : pieces s rest m with ⟨result, m'⟩
        obtain rfl : m' = stop := by
          rw [later] at made
          split at made <;> simp_all
        obtain ⟨n, below, after, vars⟩ :=
          freshVars_like sources.readType first (handles.mono (pieces_next later))
        subst below
        obtain ⟨k, below, final, others⟩ := ih later (handles.later n)
        rw [sources.label]
        generalize freshVars t.readType s.label (List.range' run.start run.len) next' = z at after vars ⊢
        obtain ⟨result', m'⟩ := z
        obtain rfl : m' = next' + n := after
        cases vars with
        | ok vars =>
          dsimp only
          generalize pieces t rest (next' + n) = z at final others ⊢
          obtain ⟨result', m'⟩ := z
          rw [later] at made
          refine ⟨n + k, by omega, ?_⟩
          cases others with
          | error cause =>
            cases made
            exact ⟨final.trans (Nat.add_assoc ..), .error cause⟩
          | ok others =>
            cases made
            have named : List.Forall₂ (Piece.Match M) _ _ :=
              List.rel_map (fun _ _ like => .whole (sources.leafOf like)) vars
            exact ⟨final.trans (Nat.add_assoc ..),
              .ok ⟨.cons ⟨cut, vars⟩ others.1, .cons named others.2⟩⟩
    · next kept =>
      rw [if_neg kept]
      rcases later : pieces s rest next with ⟨result, m⟩
      obtain rfl : m = stop := by
        rw [later] at made
        split at made <;> simp_all
      rw [later] at made
      obtain ⟨n, below, after, others⟩ := ih later handles
      generalize pieces t rest next' = z at after others ⊢
      obtain ⟨result', m'⟩ := z
      dsimp only at after others
      cases others with
      | error cause =>
        cases made
        exact ⟨n, below, after, .error cause⟩
      | ok others =>
        cases made
        exact ⟨n, below, after, .ok ⟨others.1, .cons cut others.2⟩⟩

/-- Copies are made of the same slots, and the variables for them correspond. -/
theorem make_like (respects : Slotted.Respects M) {s t : Source α} (sources : s.Match L C M t)
    {copied : Nat → Bool} {r : Except Cause (Result α)} (made : make s copied next = (r, stop))
    (handles : Handles L next stop next') :
    Drawn C (fun a b => CopiesPair L M a.copies b.copies ∧
      List.Forall₂ (Piece.Match M) a.output b.output) next stop next' r (make t copied next') := by
  unfold make at made ⊢
  rw [Slices.len_match respects sources.input]
  rcases found : pieces s (runs 0 ((List.range (Slices.len s.input)).map copied)) next with ⟨result, m⟩
  rw [found] at made
  obtain rfl : m = stop := by split at made <;> simp_all
  obtain ⟨n, below, after, same⟩ := pieces_like respects sources found handles
  generalize pieces t _ next' = z at after same ⊢
  obtain ⟨result', m'⟩ := z
  dsimp only at after same
  refine ⟨n, below, ?_⟩
  cases same with
  | error cause =>
    cases made
    exact ⟨after, .error cause⟩
  | ok same =>
    cases made
    exact ⟨after, .ok ⟨same.1, Slices.group_match respects same.2⟩⟩

end

end Cache

end

end AgentScript
