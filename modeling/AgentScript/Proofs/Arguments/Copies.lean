import AgentScript.Proofs.Arguments.Uses
import AgentScript.Proofs.Safety.Expression

/-! Copies and what they use. Text with expressions in it copies runs of slots that have no form of their
own. Where the evaluation of a piece uses the call none of its slots has such a form, so that the piece
lies in one run and is copied once. -/
namespace AgentScript

namespace Cache

theorem runs_head (start : Nat) (b : Bool) (rest : List Bool) :
    ∃ len more, runs start (b :: rest) = ⟨b, start, len⟩ :: more := by
  unfold runs
  split
  · exact ⟨_, _, rfl⟩
  · split <;> exact ⟨_, _, rfl⟩

theorem runs_sum (D : Nat → Nat) (start : Nat) (flags : List Bool) :
    (((runs start flags).filter (·.copied)).map fun r => ((List.range' r.start r.len).map D).sum).sum =
      ((flags.zipIdx start).map fun f => if f.1 then D f.2 else 0).sum := by
  induction flags generalizing start with
  | nil => rfl
  | cons b rest ih =>
    rw [List.zipIdx_cons, List.map_cons, List.sum_cons, ← ih (start + 1)]
    cases rest with
    | nil => cases b <;> simp [runs]
    | cons c rest =>
      obtain ⟨len, more, head⟩ := runs_head (start + 1) c rest
      rw [runs, head]
      dsimp only
      split
      · next same =>
        subst same
        cases c <;> simp [List.range'_succ, Nat.add_assoc]
      · cases b <;> simp

end Cache

/-- What the pieces of a sequence use, each noted at its first slot. -/
def share (n len : Nat) : List Nat := (n :: List.replicate len 0).take len

theorem share_length (n len : Nat) : (share n len).length = len := by simp [share]

theorem share_mem (member : k ∈ share n len) : k = n ∨ k = 0 := by
  rcases List.mem_cons.mp (List.mem_of_mem_take member) with same | zero
  · exact .inl same
  · exact .inr (List.eq_of_mem_replicate zero)

/-- A part that begins with the first slot, or of slots that are not noted. -/
theorem share_view (aligned : base = 0 ∨ n = 0) (some : 0 < m) (inside : base + m ≤ len) :
    (((share n len).drop base).take m).sum = n := by
  obtain ⟨k, rfl⟩ := Nat.exists_eq_succ_of_ne_zero (Nat.pos_iff_ne_zero.mp some)
  rcases aligned with rfl | rfl
  · rw [List.drop_zero, share, List.take_take, Nat.min_eq_left (by omega), List.take_succ_cons,
      List.sum_cons, List.take_replicate]
    simp
  · simp [share, ← List.replicate_succ]

theorem share_sum (n len : Nat) (some : n ≠ 0 → len ≠ 0) : (share n len).sum = n := by
  by_cases none : len = 0
  · subst none
    simpa [share, eq_comm] using some
  · have whole := share_view (n := n) (m := len) (.inl rfl) (by omega) (Nat.zero_add len).le
    rwa [List.drop_zero, List.take_of_length_le (Nat.le_of_eq (share_length n len))] at whole

section
variable {w : Watch} {cs : List (Nat × List Nat)} {e : Code} {flags : List Bool} {ns : List Nat}
  {copies : List (Code × List LocalVar)} {parts : List PartCode}

/-- A piece whose evaluation uses the call has slots, so that it is not left out of a copy. -/
def Piece.Filled (w : Watch) (c : Nat × List Nat) (p : Piece LeafCode) : Prop :=
  Piece.Uses w c p ∧ (c.1 ≠ 0 → p.len ≠ 0)

def heads : List (Nat × List Nat) → Code → List Nat
  | c :: cs, p :: e => share c.1 p.len ++ heads cs e
  | _, _ => []

theorem heads_length (filled : List.Forall₂ (Piece.Filled w) cs e) :
    (heads cs e).length = Slices.len e := by
  induction filled with
  | nil => rfl
  | cons _ _ ih => rw [heads, List.length_append, share_length, ih, Slices.len_cons]

theorem heads_sum (filled : List.Forall₂ (Piece.Filled w) cs e) : (heads cs e).sum = usesOf cs := by
  induction filled with
  | nil => rfl
  | cons first _ ih => rw [heads, List.sum_append, share_sum _ _ first.2, ih, usesOf_cons]

/-- Slot `i` is not in the middle of a piece whose evaluation uses the call. -/
def Aligned : List (Nat × List Nat) → Code → Nat → Prop
  | c :: cs, p :: e, i => if i < p.len then i = 0 ∨ c.1 = 0 else Aligned cs e (i - p.len)
  | _, _, _ => True

theorem Aligned.zero : (cs : List (Nat × List Nat)) → (e : Code) → Aligned cs e 0
  | [], _ | _ :: _, [] => by simp [Aligned]
  | c :: cs, p :: e => by
    rw [Aligned]
    split
    · exact .inl rfl
    · simpa using zero cs e

theorem cutWithin_uses (filled : List.Forall₂ (Piece.Filled w) cs e) {base n : Nat}
    (inside : base + n ≤ Slices.len e) (aligned : Aligned cs e base) :
    ∃ cs', Code.Uses w cs' (Slices.cutWithin e base n) ∧
      usesOf cs' = (viewOf base n (heads cs e)).sum := by
  induction filled generalizing base n with
  | nil => exact ⟨[], .nil, by simp [heads, viewOf]⟩
  | @cons c p cs e first others ih =>
    rw [Slices.len_cons] at inside
    rw [Aligned] at aligned
    unfold Slices.cutWithin
    split
    · next all =>
      obtain rfl : base = 0 := by omega
      refine ⟨c :: cs, .cons first.1 (others.imp fun _ _ q => q.1), ?_⟩
      have total : (heads (c :: cs) (p :: e)).length = n := by
        rw [heads_length (.cons first others), Slices.len_cons, all]
      rw [viewOf, List.drop_zero, List.take_of_length_le (Nat.le_of_eq total),
        heads_sum (.cons first others)]
    · split
      · next none => exact ⟨[], .nil, by simp [none, viewOf]⟩
      · split
        · next within =>
          obtain ⟨ms, cut⟩ := first.1.cut within
          refine ⟨[(c.1, ms)], .cons cut .nil, ?_⟩
          rw [if_pos (by omega)] at aligned
          rw [viewOf, heads, List.drop_append_of_le_length (by rw [share_length]; omega),
            List.take_append_of_le_length (by rw [List.length_drop, share_length]; omega)]
          rw [share_view aligned (by omega) within]
          simp
        · split
          · next past =>
            rw [if_neg (by omega)] at aligned
            obtain ⟨cs', uses, same⟩ := ih (n := n) (by omega) aligned
            refine ⟨cs', uses, same.trans ?_⟩
            have gone : (share c.1 p.len).drop base = [] :=
              List.drop_of_length_le (by rwa [share_length])
            rw [viewOf, viewOf, heads, List.drop_append, share_length, gone, List.nil_append]
          · next before =>
            rw [if_pos (by omega)] at aligned
            have ends : base + (p.len - base) ≤ p.len := by omega
            have rest : 0 + (n - (p.len - base)) ≤ Slices.len e := by omega
            obtain ⟨ms, cut⟩ := first.1.cut ends
            obtain ⟨cs', uses, same⟩ := ih rest (.zero ..)
            refine ⟨(c.1, ms) :: cs', by rw [Code.cons_eq]; exact .cons cut uses, ?_⟩
            have all {m : Nat} (enough : p.len - base ≤ m) :
                ((share c.1 p.len).drop base).take m = (share c.1 p.len).drop base :=
              List.take_of_length_le (by rwa [List.length_drop, share_length])
            have here := share_view aligned (by omega) ends
            rw [all (Nat.le_refl _)] at here
            rw [usesOf_cons, same, viewOf, viewOf, heads,
              List.drop_append_of_le_length (by rw [share_length]; omega), List.take_append, all (by omega),
              List.sum_append, here, List.length_drop, share_length, List.drop_zero]

theorem Aligned.idle : {cs : List (Nat × List Nat)} → (∀ c ∈ cs, c.1 = 0) → (e : Code) → (i : Nat) →
    Aligned cs e i
  | [], _, _, _ | _ :: _, _, [], _ => by simp [Aligned]
  | c :: cs, each, p :: e, i => by
    obtain ⟨here, others⟩ := List.forall_mem_cons.mp each
    rw [Aligned]
    split
    · exact .inr here
    · exact idle others e _

theorem Code.Uses.filled (uses : Code.Uses w cs e) (idle : ∀ c ∈ cs, c.1 = 0) :
    List.Forall₂ (Piece.Filled w) cs e := by
  induction uses with
  | nil => exact .nil
  | cons first _ ih =>
    obtain ⟨here, others⟩ := List.forall_mem_cons.mp idle
    exact .cons ⟨first, fun some => absurd here some⟩ (ih others)

/-- Pieces whose evaluation does not use the call are cut to pieces of the same kind. -/
theorem cutWithin_idle (uses : Code.Uses w cs e) (zero : usesOf cs = 0) {base n : Nat}
    (inside : base + n ≤ Slices.len e) :
    ∃ cs', Code.Uses w cs' (Slices.cutWithin e base n) ∧ usesOf cs' = 0 := by
  have idle : ∀ c ∈ cs, c.1 = 0 := fun c member =>
    List.sum_eq_zero_iff_forall_eq_nat.mp zero c.1 (List.mem_map.mpr ⟨c, member, rfl⟩)
  have filled := uses.filled idle
  obtain ⟨cs', cut, same⟩ := cutWithin_uses filled inside (.idle idle e base)
  refine ⟨cs', cut, same.trans (List.sum_eq_zero_iff_forall_eq_nat.mpr fun n member => ?_)⟩
  have total := (heads_sum filled).trans zero
  exact List.sum_eq_zero_iff_forall_eq_nat.mp total n (List.mem_of_mem_drop (List.mem_of_mem_take member))

/-- Flags of the slots of a sequence. A piece whose evaluation uses the call has all of its slots
flagged. -/
inductive Flagged : List (Nat × List Nat) → Code → List Bool → Prop where
  | nil : Flagged [] [] []
  | cons {c : Nat × List Nat} {cs : List (Nat × List Nat)} {p : Piece LeafCode} {e : Code}
      {here flags : List Bool} : here.length = p.len → (c.1 ≠ 0 → ∀ b ∈ here, b = true) →
      Flagged cs e flags → Flagged (c :: cs) (p :: e) (here ++ flags)

namespace Flagged
variable {cs : List (Nat × List Nat)} {e : Code} {flags : List Bool}

theorem length (flagged : Flagged cs e flags) : flags.length = Slices.len e := by
  induction flagged with
  | nil => rfl
  | cons here _ _ ih => rw [List.length_append, here, ih, Slices.len_cons]

theorem heads (flagged : Flagged cs e flags) :
    List.Forall₂ (fun n b => n ≠ 0 → b = true) (heads cs e) flags := by
  induction flagged with
  | nil => exact .nil
  | @cons c _ p _ here _ count all _ ih =>
    refine List.rel_append (List.forall₂_iff_get.mpr ⟨(share_length ..).trans count.symm, ?_⟩) ih
    intro i inside inside' some
    refine all (fun zero => some ?_) _ (List.get_mem here ⟨i, inside'⟩)
    exact (share_mem (List.get_mem (share c.1 p.len) ⟨i, inside⟩)).elim (·.trans zero) id

/-- A change of flags is not in the middle of a piece whose evaluation uses the call. -/
theorem aligned (flagged : Flagged cs e flags) {i : Nat} (change : flags[i - 1]? ≠ flags[i]?) :
    Aligned cs e i := by
  induction flagged generalizing i with
  | nil => simp [Aligned]
  | @cons c cs p e here flags count all _ ih =>
    rw [Aligned]
    split
    · next inside =>
      by_cases start : i = 0
      · exact .inl start
      · refine .inr (Classical.byContradiction fun some => change ?_)
        rw [List.getElem?_append_left (by omega), List.getElem?_append_left (by omega),
          List.getElem?_eq_getElem (by omega), List.getElem?_eq_getElem (by omega),
          all some _ (List.getElem_mem _), all some _ (List.getElem_mem _)]
    · next past =>
      by_cases start : i = p.len
      · rw [start, Nat.sub_self]
        exact .zero ..
      · refine ih ?_
        rw [List.getElem?_append_right (by omega), List.getElem?_append_right (by omega), count] at change
        rwa [show i - p.len - 1 = i - 1 - p.len by omega]

end Flagged

theorem Slot.needCode_bare {s : Ctx} {slots : List Slot} (asked : needCode s slots = .ok flags) :
    List.Forall₂ (fun b slot => slot.Bare → b = true) flags slots := by
  induction slots generalizing flags with
  | nil =>
    cases asked
    exact .nil
  | cons slot rest ih =>
    obtain ⟨form, found, asked⟩ := bind_ok asked
    obtain ⟨later, others, asked⟩ := bind_ok asked
    cases asked
    refine .cons (fun bare => ?_) (ih others)
    cases form with
    | none => rfl
    | some arg => exact absurd found (bare.2 false s arg)

theorem Flagged.ofSlots (uses : Code.Uses w cs e)
    (asked : List.Forall₂ (fun b slot => slot.Bare → b = true) flags e.slots) : Flagged cs e flags := by
  induction uses generalizing flags with
  | nil =>
    cases asked
    exact .nil
  | @cons c p cs e first _ ih =>
    have here := List.forall₂_take_append _ _ _ asked
    have later := List.forall₂_drop_append _ _ _ asked
    rw [← List.take_append_drop (Code.pieceSlots p).length flags]
    refine .cons (here.length_eq.trans first.length) (fun some b member => ?_) (ih later)
    obtain ⟨i, inside, rfl⟩ := List.getElem_of_mem member
    have slot := here.get inside (here.length_eq ▸ inside)
    exact slot (first.bare some _ (List.get_mem _ _))

/-- A copy whose source uses the call `n` times and whose variables are not those of the call. -/
def CopyUses (w : Watch) (n : Nat) (copy : Code × List LocalVar) : Prop :=
  (∃ cs, Code.Uses w cs copy.1 ∧ usesOf cs = n) ∧ ∀ v ∈ copy.2, v.handle ∉ w.handles

theorem bindVars_uses (env : Env) {vars : List LocalVar} (other : ∀ v ∈ vars, v.handle ∉ w.handles) :
    Emit.Uses w 0 (bindVars env vars) := by
  induction vars with
  | nil => exact .pure ()
  | cons v rest ih =>
    obtain ⟨here, others⟩ := List.forall_mem_cons.mp other
    refine (Emit.Uses.register here).before fun _ => Emit.Uses.before ?_ fun _ => ih others
    exact .ite (.comment _) (.pure ())

theorem Code.Uses.read_vars (uses : Code.Uses w cs e) (env : Env) (vars : List LocalVar) :
    Emit.Uses w (usesOf cs) (e.read (varSlots env vars)) := by
  simpa using uses.read (varSlots_uses env vars)

theorem writeCopies_uses (env : Env) (each : List.Forall₂ (CopyUses w) ns copies) :
    Emit.Uses w ns.sum (writeCopies env copies) := by
  induction each with
  | nil => exact .pure ()
  | @cons n copy ns copies first _ ih =>
    obtain ⟨source, vars⟩ := copy
    obtain ⟨⟨cs, uses, rfl⟩, other⟩ := first
    rw [List.sum_cons]
    exact (bindVars_uses env other).before fun _ => (uses.read_vars env vars).bind fun _ => ih

namespace Cache
variable {next next' : Nat}

theorem freshVars_handles {readType : Nat → Except Cause TypeId} {label : Nat → String}
    {places : List Nat} {vars : List LocalVar}
    (made : freshVars readType label places next = (.ok vars, next')) : ∀ v ∈ vars, next ≤ v.handle := by
  intro v isVar
  have handle : v.handle ∈ vars.map (·.handle) := List.mem_map_of_mem isVar
  rw [(freshVars_spec made).1] at handle
  exact (List.mem_range'_1.mp handle).1

/-- The copies use what the runs that they are made of do. -/
theorem Split.uses {s : Source LeafCode} (cost : Run → Nat) {rs : List Run}
    (each : ∀ r ∈ rs, r.copied → ∃ cs, Code.Uses w cs (Slices.cutWithin s.input r.start r.len) ∧
      usesOf cs = cost r) (new : ∀ h ∈ w.handles, h < next) {parts : List Code}
    (split : Split s rs next copies parts) :
    List.Forall₂ (CopyUses w) ((rs.filter (·.copied)).map cost) copies := by
  induction split with
  | nil => exact .nil
  | copied copied fresh _ ih =>
    obtain ⟨here, others⟩ := List.forall_mem_cons.mp each
    rw [List.filter_cons_of_pos copied, List.map_cons]
    refine .cons ⟨here copied, fun v member watched => ?_⟩
      (ih others fun h watched => Nat.lt_of_lt_of_le (new h watched) (freshVars_next fresh))
    exact absurd (new _ watched) (Nat.not_lt.mpr (freshVars_handles fresh v member))
  | kept kept _ ih =>
    rw [List.filter_cons_of_neg kept]
    exact ih (List.forall_mem_cons.mp each).2 new

/-- The number of uses in a part of a sequence, slot by slot. -/
theorem sum_view (d : List Nat) (base n : Nat) :
    (viewOf base n d).sum = ((List.range' base n).map fun i => d.getD i 0).sum := by
  induction n generalizing base with
  | zero => simp [viewOf]
  | succ n ih =>
    rw [List.range'_succ, List.map_cons, List.sum_cons, ← ih (base + 1)]
    by_cases inside : base < d.length
    · rw [viewOf, viewOf, List.drop_eq_getElem_cons inside, List.take_succ_cons, List.sum_cons]
      simp [List.getD_eq_getElem?_getD, inside]
    · rw [viewOf, viewOf, List.drop_of_length_le (by omega), List.drop_of_length_le (by omega)]
      simp [List.getD_eq_getElem?_getD, inside]

theorem sum_flagged {d : List Nat} (each : List.Forall₂ (fun n b => n ≠ 0 → b = true) d flags)
    (before : List Nat) :
    ((flags.zipIdx before.length).map fun f => if f.1 then (before ++ d).getD f.2 0 else 0).sum = d.sum := by
  induction each generalizing before with
  | nil => rfl
  | @cons n b d flags first _ ih =>
    have later := ih (before ++ [n])
    rw [List.length_append, List.length_singleton, List.append_assoc, List.singleton_append] at later
    rw [List.zipIdx_cons, List.map_cons, List.sum_cons, List.sum_cons, later]
    congr 1
    cases b with
    | true => simp [List.getD_eq_getElem?_getD]
    | false =>
      have zero : n = 0 := Classical.byContradiction fun some => Bool.false_ne_true (first some)
      simp [zero]

/-- All uses in a sequence are in the copies that are made of it. -/
theorem make_uses {s : Source LeafCode} (filled : List.Forall₂ (Piece.Filled w) cs s.input)
    (flagged : Flagged cs s.input flags) (new : ∀ h ∈ w.handles, h < next) {result : Result LeafCode}
    (made : make s (fun i => flags.getD i false) next = (.ok result, next')) :
    ∃ ns, List.Forall₂ (CopyUses w) ns result.copies ∧ ns.sum = usesOf cs := by
  have same : (List.range (Slices.len s.input)).map (fun i => flags.getD i false) = flags := by
    refine List.ext_getElem (by simp [flagged.length]) fun i _ inside => ?_
    simp [List.getD_eq_getElem?_getD, inside]
  obtain ⟨parts, split, _⟩ := make_split made
  rw [same] at split
  refine ⟨_, split.uses (fun r => (viewOf r.start r.len (heads cs s.input)).sum)
    (fun r member _ => ?_) new, ?_⟩
  · obtain ⟨some, inside, flag, _, change⟩ := (runs_covers [] flags).each r member
    refine cutWithin_uses filled (by simpa [flagged.length] using inside) ?_
    by_cases first : r.start = 0
    · rw [first]
      exact .zero ..
    · refine flagged.aligned fun same => change (Nat.pos_iff_ne_zero.mpr first) ?_
      exact same.trans (flag _ (Nat.le_refl _) (by omega))
  · simp only [sum_view]
    rw [runs_sum, ← heads_sum filled]
    simpa using sum_flagged flagged.heads []

end Cache

namespace PartCode

inductive Uses (w : Watch) : Nat → PartCode → Prop where
  | text (s : String) : Uses w 0 (.text s)
  | expr {cs : List (Nat × List Nat)} {readType : Nat → Except Cause TypeId} {e : Code} :
      List.Forall₂ (Piece.Filled w) cs e → Uses w (usesOf cs) (.expr readType e)

theorem exprText_uses (env : Env) (readType : Nat → Except Cause TypeId)
    (filled : List.Forall₂ (Piece.Filled w) cs e) :
    Emit.Uses w (usesOf cs) (exprText env readType e) := by
  unfold exprText cached
  simp only [Emit.bind_assoc]
  refine .inspect_bind fun _ flags _ asked => .current_bind fun s below => ?_
  have flagged := Flagged.ofSlots (filled.imp fun _ _ q => q.1) (Slot.needCode_bare asked)
  generalize made : Cache.make ⟨e, _, _, _⟩ _ s.nextHandle = found
  obtain ⟨c | result, next⟩ := found
  · exact (Emit.Uses.perform rfl (by simp [Op.marks])).before fun _ => .refuse c
  · refine (Emit.Uses.perform rfl (by simp [Op.marks])).before fun _ => ?_
    obtain ⟨ns, copies, total⟩ := Cache.make_uses filled flagged below made
    rw [← total]
    change Emit.Uses w ns.sum (writeCopies env result.copies >>= _)
    refine (writeCopies_uses env copies).after fun _ => (Emit.Uses.inspect _).before fun form => ?_
    cases form with
    | some args => exact .pure _
    | none => exact .refuse _

theorem render_uses (env : Env) (each : List.Forall₂ (Uses w) ns parts) :
    Emit.Uses w ns.sum (render env parts) := by
  induction each with
  | nil => exact .pure _
  | cons first _ ih =>
    rw [List.sum_cons]
    cases first with
    | text s =>
      rw [Nat.zero_add]
      exact ih.after fun _ => .pure _
    | expr filled => exact (exprText_uses env _ filled).bind fun _ => ih.after fun _ => .pure _

theorem inlineAll_bare {s : Ctx} {slots : List Slot} {slot : Slot} (member : slot ∈ slots)
    (bare : slot.Bare) (args : List Arg) : Slot.inlineAll s slots ≠ .ok (some args) := by
  induction slots generalizing args with
  | nil => cases member
  | cons first rest ih =>
    intro found
    obtain ⟨arg, here, found⟩ := bind_some found
    obtain ⟨more, others, found⟩ := bind_some found
    rcases List.mem_cons.mp member with rfl | inside
    · exact bare.2 false s arg here
    · exact ih inside more others

theorem slot_bare (filled : List.Forall₂ (Piece.Filled w) cs e) (some : usesOf cs ≠ 0) :
    ∃ slot ∈ e.slots, slot.Bare := by
  induction filled with
  | nil => exact absurd rfl some
  | @cons c p cs e first _ ih =>
    by_cases here : c.1 = 0
    · obtain ⟨slot, member, bare⟩ := ih (by rwa [usesOf_cons, here, Nat.zero_add] at some)
      exact ⟨slot, List.mem_append_right _ member, bare⟩
    · have count := first.1.length
      obtain ⟨slot, rest, slots⟩ := List.exists_cons_of_length_pos
        (l := Code.pieceSlots p) (by have := first.2 here; omega)
      have member : slot ∈ Code.pieceSlots p := slots ▸ List.mem_cons_self
      exact ⟨slot, List.mem_append_left _ member, first.1.bare here slot member⟩

theorem tryText_bare (each : List.Forall₂ (Uses w) ns parts) (used : ns.sum ≠ 0) (s : Ctx) (t : String) :
    tryText s parts ≠ .ok (some t) := by
  induction each generalizing t with
  | nil => exact absurd rfl used
  | cons first _ ih =>
    intro found
    rw [List.sum_cons] at used
    cases first with
    | text given =>
      obtain ⟨more, others, found⟩ := bind_some found
      exact ih (by simpa using used) more others
    | @expr cs readType e filled =>
      obtain ⟨args, here, found⟩ := bind_some found
      obtain ⟨more, others, found⟩ := bind_some found
      by_cases zero : usesOf cs = 0
      · exact ih (by simpa [zero] using used) more others
      · obtain ⟨slot, member, bare⟩ := slot_bare filled zero
        exact inlineAll_bare member bare args here

end PartCode

theorem inlineCode_uses (env : Env) (what : String) (each : List.Forall₂ (PartCode.Uses w) ns parts)
    (ty : TypeId) : (inlineCode env what parts ty).Uses w ns.sum [0] := by
  refine LeafCode.ofSlot_uses env ⟨Slot.noWrite_uses what, fun other => absurd rfl other⟩
    (fun some => ⟨rfl, fun forWrite s arg found => ?_⟩) fun out => ?_
  · dsimp only at found
    split at found
    · cases found
    · obtain ⟨text, asked, found⟩ := bind_some found
      exact PartCode.tryText_bare each some s text asked
  · exact .inScope ((PartCode.render_uses env each).bind fun _ => out.write _ _)

/-- Neither the evaluation of an expression nor writing its slots uses the call. -/
def Code.Idle (w : Watch) (e : Code) : Prop :=
  ∃ cs, Code.Uses w cs e ∧ usesOf cs = 0 ∧ ∀ n ∈ cs.flatMap Prod.snd, n = 0

theorem deferredCode_uses (what : String) {table : Placeholder} {id : Nat}
    (idle : ∀ e, table id = some e → e.Idle w) (perms : List Perm) :
    (deferredCode what table id perms).Uses w 0 (List.replicate perms.length 0) := by
  refine ⟨?_, fun other => absurd rfl other, fun {ms out} outs _ => ?_, fun {base len ms out} outs _ _ => ?_⟩
  · refine List.forall₂_of_length_eq_of_get (by simp [deferredCode]) fun i inside inside' => ?_
    simp only [List.get_eq_getElem, List.getElem_replicate, deferredCode, List.getElem_mapIdx]
    refine ⟨fun input exact => ?_, fun other => absurd rfl other⟩
    simp only [deferredSlot, Placeholder.get]
    refine .ite ?_ (.refuse _)
    cases found : table id with
    | none => exact .refuse _
    | some e =>
      obtain ⟨cs, uses, _, zero⟩ := idle e found
      change Emit.Uses w 0 (Slot.writeAt e.slots i input exact)
      unfold Slot.writeAt Slot.get
      have slots := uses.slots
      by_cases within : i < e.slots.length
      · rw [List.getElem?_eq_getElem within]
        have slot := slots.get (slots.length_eq ▸ within) within
        rw [zero _ (List.get_mem _ _)] at slot
        exact slot.write input exact
      · rw [List.getElem?_eq_none (by omega)]
        exact .refuse _
  · simp only [deferredCode, Placeholder.get]
    cases found : table id with
    | none => exact .refuse _
    | some e =>
      obtain ⟨cs, uses, zero, _⟩ := idle e found
      rw [← zero]
      exact uses.read outs
  · simp only [deferredCode, Placeholder.get]
    cases found : table id with
    | none => exact .refuse _
    | some e =>
      obtain ⟨cs, uses, zero, _⟩ := idle e found
      change Emit.Uses w _ (Emit.ofExcept (e.cut base len) >>= _)
      unfold Code.cut Slices.cut
      by_cases outside : Slices.len e < base + len
      · rw [if_pos outside]
        exact .refuse _
      · rw [if_neg outside]
        obtain ⟨cs', cut, zero'⟩ := cutWithin_idle uses zero (Nat.not_lt.mp outside)
        rw [← zero']
        exact cut.read outs

theorem callCode_uses (env : Env) (each : List.Forall₂ (CopyUses w) ns copies) {body : Code}
    (uses : Code.Uses w cs body) :
    (callCode env copies body).Uses w (ns.sum + usesOf cs) ((cs.flatMap Prod.snd).map (ns.sum + ·)) := by
  have copied := writeCopies_uses env each
  refine LeafCode.ofSlots_uses env ?_ (fun _ slot member => ?_) fun outs _ => ?_
  · refine List.rel_map (fun n slot here => ?_) uses.slots
    refine ⟨fun input exact => .outsideLoops (copied.bind fun _ => here.write input exact), fun _ => ?_⟩
    exact ⟨rfl, fun _ _ _ => by simp [Slot.noInline]⟩
  · obtain ⟨_, _, rfl⟩ := List.mem_map.mp member
    exact ⟨rfl, fun _ _ _ => by simp [Slot.noInline]⟩
  · rw [Nat.add_assoc]
    exact .outsideLoops (copied.bind fun _ => uses.read outs)

theorem seqCode_uses (env : Env) (what : String) {x : Emit Unit} (first : Emit.Uses w n x) {result : Code}
    (uses : Code.Uses w cs result) :
    (seqCode env what x result).Uses w (n + usesOf cs) (List.replicate result.slots.length 0) := by
  refine LeafCode.ofSlots_uses env ?_ (fun _ slot member => ?_) fun outs _ => ?_
  · refine List.forall₂_of_length_eq_of_get (by simp) fun i inside inside' => ?_
    simpa using Slot.computed_uses what
  · obtain ⟨_, _, rfl⟩ := List.mem_map.mp member
    exact Slot.computed_bare what
  · rw [Nat.add_assoc]
    exact .inScope (first.bind fun _ => uses.read outs)

end

end AgentScript
