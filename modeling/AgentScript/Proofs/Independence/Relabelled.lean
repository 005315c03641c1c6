import AgentScript.Proofs.Independence.Fork
import AgentScript.Proofs.Likeness.Generate

/-! Scripts that are alike have the same code, up to the numbers of labels. Variables have other numbers
in the two scripts, but the same registers, so that nothing but labels tells the codes apart. -/
namespace AgentScript

def Label.relabel (f : Nat → Nat) : Label → Label
  | numbered n => numbered (f n)
  | named text => named text

def Instr.relabel (f : Nat → Nat) : Instr → Instr
  | goto l => goto (l.relabel f)
  | subr l => subr (l.relabel f)
  | i => i

def Item.relabel (f : Nat → Nat) : Item Instr → Item Instr
  | code indent i => code indent (i.relabel f)
  | comment indent text => comment indent text
  | verbatim text => verbatim text

namespace Listing
variable {f : Nat → Nat}

def relabel (f : Nat → Nat) (l : Listing Instr) : Listing Instr :=
  { l with items := l.items.map (Item.relabel f) }

theorem relabel_empty : relabel f .empty = .empty := by
  simp [relabel, empty]

theorem relabel_queue (l : Listing Instr) (text : String) :
    (l.queue text).relabel f = (l.relabel f).queue text := rfl

theorem relabel_comment (l : Listing Instr) (text : String) :
    (l.comment text).relabel f = (l.relabel f).comment text := by
  simp [comment, relabel, Item.relabel]

theorem relabel_flush (l : Listing Instr) : l.flush.relabel f = (l.relabel f).flush := by
  unfold flush
  cases waiting : l.queued with
  | none => simp [relabel, waiting]
  | some text => simp [relabel, waiting, comment, Item.relabel]

theorem relabel_code (l : Listing Instr) (before : Int) (i : Instr) (after : Int) :
    (l.code before i after).relabel f = (l.relabel f).code before (i.relabel f) after := by
  have flushed := relabel_flush (f := f) { l with indent := shift l.indent before }
  have moved : { l with indent := shift l.indent before }.relabel f =
      { l.relabel f with indent := shift (l.relabel f).indent before } := rfl
  rw [moved] at flushed
  unfold code
  dsimp only
  rw [← flushed]
  simp [relabel, Item.relabel]

end Listing

variable {Q : Correspondence} {d : Nat → Nat → Prop} {f : Nat → Nat}

/-- What corresponds, with other placeholders. -/
def Correspondence.deferring (Q : Correspondence) (d : Nat → Nat → Prop) : Correspondence :=
  { Q with deferred := d }

theorem LoopTarget.like_deferring : LoopTarget.Like (Q.deferring d) = LoopTarget.Like Q := by
  funext a b
  exact propext ⟨fun ⟨label, flag, next⟩ => ⟨label, flag, next⟩, fun ⟨label, flag, next⟩ => ⟨label, flag, next⟩⟩

theorem Ctx.matches_deferring : Ctx.Matches (Q.deferring d) = Ctx.Matches Q := by
  funext s t
  refine propext ⟨fun ⟨bound, loop, labels, handles⟩ => ⟨bound, ?_, labels, handles⟩,
    fun ⟨bound, loop, labels, handles⟩ => ⟨bound, ?_, labels, handles⟩⟩
  · rwa [LoopTarget.like_deferring] at loop
  · rwa [LoopTarget.like_deferring]

section
variable {P : String → Prop} {R : Emit.Comparison}

theorem Asks.deferring_iff {A : α → Prop} {q q' : Ctx → Except Cause α} :
    Asks (Q.deferring d) A q q' ↔ Asks Q A q q' := by
  refine ⟨fun ⟨answers⟩ => ⟨fun matched => answers ?_⟩, fun ⟨answers⟩ => ⟨fun matched => answers ?_⟩⟩
  · rwa [Ctx.matches_deferring]
  · rwa [Ctx.matches_deferring] at matched

theorem Slot.alike_deferring : Slot.Alike (Q.deferring d) P R = Slot.Alike Q P R := by
  funext a b
  exact propext
    ⟨fun ⟨role, inline, write⟩ => ⟨role, fun forWrite => Asks.deferring_iff.mp (inline forWrite), write⟩,
    fun ⟨role, inline, write⟩ => ⟨role, fun forWrite => Asks.deferring_iff.mpr (inline forWrite), write⟩⟩

/-- Codes do not tell how their placeholders were found. -/
theorem LeafCode.alike_deferring : LeafCode.Alike (Q.deferring d) P R R = LeafCode.Alike Q P R R := by
  funext a b
  refine propext ⟨fun ⟨slots, read, readView⟩ => ?_, fun ⟨slots, read, readView⟩ => ?_⟩
  · rw [SlotsAlike, Slot.alike_deferring] at slots read readView
    exact ⟨slots, read, readView⟩
  · constructor <;> rw [SlotsAlike, Slot.alike_deferring]
    exacts [slots, read, readView]

end

/-- Contexts that match, with the same registers, in which the same was written up to labels. -/
structure Ctx.Written (Q : Correspondence) (f : Nat → Nat) (s t : Ctx) : Prop extends s.Matches Q t where
  pool : t.pool = s.pool
  listing : s.listing = t.listing.relabel f

namespace Emit

/-- Both runs have failed, or both have written the same up to labels, with the same answer. -/
inductive Ends (Q : Correspondence) (f : Nat → Nat) :
    Except Failure α × Ctx → Except Failure α × Ctx → Prop where
  | ok : s.Written Q f t → Ends Q f (.ok a, s) (.ok a, t)
  | error : Ends Q f (.error e, s) (.error e', t)

/-- From contexts that match, the same is written up to labels. -/
structure Relabels (Q : Correspondence) (f : Nat → Nat) (x y : Emit α) : Prop where
  ends : ∀ {s t}, s.Written Q f t → Ends Q f (x.run s) (y.run t)

/-- What makes the codes of two scripts the same up to labels. -/
structure Renaming (Q : Correspondence) (f : Nat → Nat) (env env' : Env) : Prop where
  major : Q.types a b → env'.types.major b = env.types.major a
  isString : Q.types a b →
    env'.types.canCast b Registry.string = env.types.canCast a Registry.string
  boolean : Q.types Registry.boolean Registry.boolean
  apart : Q.handles a a' → Q.handles b b' → (a = b ↔ a' = b')
  labels : Q.labels l l' → l = l'.relabel f
  causes : ∀ c d, Q.causes c d
  texts : ∀ a b, Q.texts a b
  config : env'.config = env.config
  quiet : env.config.varComments = false

namespace Relabels

theorem bind {x y : Emit α} {g h : α → Emit β} (first : Relabels Q f x y)
    (next : ∀ a, Relabels Q f (g a) (h a)) : Relabels Q f (x >>= g) (y >>= h) := by
  refine ⟨fun {s t} written => ?_⟩
  have here := first.ends written
  rw [run_bind, run_bind]
  generalize x.run s = ran at here ⊢
  generalize y.run t = ran' at here ⊢
  cases here with
  | error => exact .error
  | ok written => exact (next _).ends written

theorem perform {op op' : Op} (kept : ∀ {s t : Ctx}, s.Written Q f t →
    (op.perform s).Written Q f (op'.perform t)) : Relabels Q f (Emit.perform op) (Emit.perform op') :=
  ⟨fun written => .ok (kept written)⟩

theorem code (before : Int) {i j : Instr} (after : Int) (same : i = j.relabel f) :
    Relabels Q f (Emit.code before i after) (Emit.code before j after) := by
  refine perform fun written => { written with listing := ?_ }
  simp only [Op.perform, written.listing, same, Listing.relabel_code]

theorem plain (before : Int) (i : Instr) (after : Int) (same : i = i.relabel f) :
    Relabels Q f (Emit.code before i after) (Emit.code before i after) := code before after same

theorem comment (text : String) : Relabels Q f (Emit.comment text) (Emit.comment text) := by
  refine perform fun written => { written with listing := ?_ }
  simp only [Op.perform, written.listing, Listing.relabel_comment]

theorem queue (text : String) : Relabels Q f (Emit.queue text) (Emit.queue text) := by
  refine perform fun written => { written with listing := ?_ }
  simp only [Op.perform, written.listing, Listing.relabel_queue]

theorem located (pos : Position) {x y : Emit α} (inner : Relabels Q f x y) :
    Relabels Q f (x.located pos) (y.located pos) := by
  refine ⟨fun {s t} written => ?_⟩
  have here := inner.ends written
  rw [run_located, run_located]
  generalize x.run s = ran at here ⊢
  generalize y.run t = ran' at here ⊢
  cases here with
  | error => exact .error
  | ok written => exact .ok written

theorem within {loop loop' : Option LoopTarget → Option LoopTarget}
    (loops : ∀ {a b}, Option.Rel (LoopTarget.Like Q) a b → Option.Rel (LoopTarget.Like Q) (loop a) (loop' b))
    {x y : Emit Unit} (inner : Relabels Q f x y) :
    Relabels Q f (Emit.within loop x) (Emit.within loop' y) := by
  refine ⟨fun {s t} written => ?_⟩
  have entered : (s.enter loop).Written Q f (t.enter loop') :=
    ⟨⟨written.bound, loops written.loop, written.labels, written.handles⟩,
      by simp [Ctx.enter, written.pool], written.listing⟩
  have here := inner.ends entered
  rw [run_within, run_within]
  generalize x.run (s.enter loop) = ran at here ⊢
  generalize y.run (t.enter loop') = ran' at here ⊢
  cases here with
  | error => exact .error
  | ok after =>
    exact .ok ⟨⟨written.bound, written.loop, after.labels, after.handles⟩,
      by simp [Ctx.leave, after.pool], after.listing⟩

section
variable (apart : ∀ {a a' b b'}, Q.handles a a' → Q.handles b b' → (a = b ↔ a' = b'))
include apart

theorem handles {a b : Nat} (same : ∀ n, Q.handles (a + n) (b + n)) :
    Relabels Q f (Emit.perform (.handles a)) (Emit.perform (.handles b)) := by
  refine perform fun {s t} written => ⟨⟨written.bound, written.loop, written.labels, ?_⟩, written.pool,
    written.listing⟩
  simp only [Op.perform]
  rcases Nat.le_total a s.nextHandle with below | above
  · obtain ⟨k, here⟩ := Nat.exists_eq_add_of_le below
    have there := (apart (same k) (written.handles 0)).mp here.symm
    rw [Nat.max_eq_left below, Nat.max_eq_left (by omega)]
    exact written.handles
  · obtain ⟨k, here⟩ := Nat.exists_eq_add_of_le above
    have there := (apart (written.handles k) (same 0)).mp here.symm
    rw [Nat.max_eq_right above, Nat.max_eq_right (by omega)]
    exact same

theorem register {a b : Nat} (same : Q.handles a b) :
    Relabels Q f (Emit.bind a) (Emit.bind b) := by
  have others {bound bound' : List (Nat × Nat)}
      (each : List.Forall₂ (fun x y => Q.handles x.1 y.1 ∧ y.2 = x.2) bound bound') :
      List.Forall₂ (fun x y => Q.handles x.1 y.1 ∧ y.2 = x.2) (bound.filter (·.1 != a))
        (bound'.filter (·.1 != b)) := by
    induction each with
    | nil => exact .nil
    | @cons x y _ _ first _ ih =>
      have dropped : (y.1 != b) = (x.1 != a) := by
        rw [bne, bne, beq_eq_decide, beq_eq_decide]
        exact congrArg not (decide_eq_decide.mpr (apart first.1 same).symm)
      rw [List.filter_cons, List.filter_cons, dropped]
      split
      · exact .cons first ih
      · exact ih
  refine ⟨fun {s t} written => ?_⟩
  rw [run_register, run_register, written.pool]
  cases s.pool.allocate? with
  | none => exact .error
  | some taken =>
    exact .ok ⟨⟨.cons ⟨same, rfl⟩ (others written.bound), written.loop, written.labels, written.handles⟩,
      rfl, written.listing⟩

end

theorem law {env env' : Env} (renames : Renaming Q f env env') (d : Nat → Nat → Prop) :
    LoopLaw (Q.deferring d) env env' (fun _ => True) (Relabels Q f) where
  __ := renames
  named _ := ⟨trivial, trivial⟩
  sameCause _ := renames.causes ..
  anyCause c := renames.causes c c
  sameText text := renames.texts text text
  noted _ := renames.texts ..
  escaped _ := renames.causes ..
  unbound _ := renames.causes ..
  unstored _ := renames.causes ..
  oneLine _ := trivial
  append _ _ := trivial
  pure _ := ⟨.ok⟩
  refuse _ := ⟨fun _ => .error⟩
  bind := bind
  look next := ⟨fun {s t} written => (next s t (Ctx.matches_deferring ▸ written.toMatches)).ends written⟩
  label := perform fun written => ⟨⟨written.bound, written.loop, fun n => by
    have next := written.labels (1 + n)
    rwa [← Nat.add_assoc, ← Nat.add_assoc] at next, written.handles⟩, written.pool, written.listing⟩
  handles same := handles renames.apart same
  register same := register renames.apart same
  line {i} straight := plain 0 i 0 (by cases i <;> simp_all [Instr.isStraight, Instr.relabel])
  goto same := code 0 0 (congrArg Instr.goto (renames.labels same))
  subr same := code 0 0 (congrArg Instr.subr (renames.labels same))
  varNote _ := by
    rw [renames.config, renames.quiet]
    exact ⟨.ok⟩
  placeNote known text _ := by
    rw [renames.config]
    unfold shown
    split
    · exact queue text
    · exact ⟨.ok⟩
  located pos _ _ _ inner := inner.located pos
  inScope := within fun same => same
  within loops inner := within (LoopTarget.like_deferring ▸ loops) inner
  guarded test _ _ _ _ first second := by
    cases second with
    | none => exact (plain 0 _ 1 rfl).bind fun _ => first.bind fun _ => plain (-1) _ 0 rfl
    | some second =>
      exact (plain 0 _ 1 rfl).bind fun _ => first.bind fun _ => (plain (-1) _ 1 rfl).bind fun _ =>
        second.bind fun _ => plain (-1) _ 0 rfl
  enumerated text _ _ inner := (plain 0 _ 1 rfl).bind fun _ => inner.bind fun _ => plain (-1) _ 0 rfl
  repeated same inner := by
    have tops := renames.labels same
    exact (code 0 1 (congrArg Instr.subr tops)).bind fun _ => inner.bind fun _ =>
      code (-1) 0 (congrArg Instr.goto tops)

end Relabels

end Emit

section
variable {env env' : Env} {P : String → Prop} {R : Emit.Comparison}

/-- A placeholder stands for an expression over those before it, so that placeholders that correspond have
related codes, however many there are besides them. -/
theorem placeholders_alike (law : ∀ d, Emit.LoopLaw (Q.deferring d) env env' P R) (keyed : Q.Keyed)
    (any : ∀ text, P text) {deferred deferred' : List (Option Expr)}
    (ordered : ∀ {i i' j j'}, Q.deferred i i' → Q.deferred j j' → i < j → i' < j')
    (entries : ∀ {i i'}, Q.deferred i i' → Option.Rel (Option.Rel (Expr.Like (Q.toLikeness.below i)))
      deferred[i]? deferred'[i']?) {i i' rounds rounds' : Nat} (same : Q.deferred i i') (enough : i < rounds)
    (enough' : i' < rounds') : Option.Rel (Code.Alike Q P R R) (placeholders env deferred rounds i)
      (placeholders env' deferred' rounds' i') := by
  induction i using Nat.strongRecOn generalizing i' rounds rounds' with
  | ind i ih =>
    obtain ⟨m, rfl⟩ := Nat.exists_eq_succ_of_ne_zero (Nat.ne_of_gt (Nat.zero_lt_of_lt enough))
    obtain ⟨m', rfl⟩ := Nat.exists_eq_succ_of_ne_zero (Nat.ne_of_gt (Nat.zero_lt_of_lt enough'))
    have entry := entries same
    unfold placeholders
    generalize deferred[i]? = x at entry ⊢
    generalize deferred'[i']? = y at entry ⊢
    cases entry with
    | none => exact .none
    | some known =>
      cases known with
      | none => exact .none
      | @some e e' like =>
        have tables : Placeholder.Alike (Q.deferring (Q.toLikeness.below i).deferred) P R
            (placeholders env deferred m) (placeholders env' deferred' m') := by
          intro j j' earlier
          have before := ordered earlier.1 same earlier.2
          rw [Code.Alike, LeafCode.alike_deferring]
          exact ih j earlier.2 earlier.1 (Nat.lt_of_lt_of_le earlier.2 (Nat.le_of_lt_succ enough))
            (Nat.lt_of_lt_of_le before (Nat.le_of_lt_succ enough'))
        have codes := codeOf_alike (law (Q.toLikeness.below i).deferred) keyed tables e e' like
          fun text _ => any text
        rw [Code.Alike, LeafCode.alike_deferring] at codes
        exact .some codes

end

end AgentScript
