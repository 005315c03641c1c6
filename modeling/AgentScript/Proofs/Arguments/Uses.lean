import AgentScript.Proofs.Arguments.Marks
import Mathlib.Algebra.GroupWithZero.Nat

/-! How often code uses a macro call. Each use evaluates the arguments of the call and then does the work
of its body. The number of uses adds up along the code of a statement; the arms of a test have the same
number, since only one of them runs. -/
namespace AgentScript

/-- Code that control passes from its first line to its end, or to the loop around it: structured code,
however its labels are numbered. -/
inductive Woven : Option LoopTarget → List Instr → Prop where
  | nil : Woven around []
  | plain : i.isPlain = true → Woven around [i]
  | append : Woven around a → Woven around b → Woven around (a ++ b)
  | apart : Woven none code → Woven around code
  | leave : Woven (some target) [.goto target.label]
  | again : Woven (some target) [.goto target.continueLabel]
  | loop : Woven (some ⟨exit, none, top⟩) body →
      Woven around ([.goto top, .subr top] ++ body ++ [.goto top, .subr exit])
  | enumeration : Woven around head → Woven (some ⟨exit, some flag, exit⟩) body →
      Woven around (head ++ body ++ ([.endi] ++ [.goto exit, .subr exit] ++ [.next]))

theorem Structured.woven (code : Structured around m n lines) : Woven around lines := by
  induction code with
  | nil => exact .nil
  | plain plain => exact .plain plain
  | append _ _ first second => exact .append first second
  | apart _ ih => exact .apart ih
  | leave => exact .leave
  | again => exact .again
  | loop _ ih => exact .loop ih
  | enumeration _ _ starts ih => exact .enumeration starts ih

/-- A macro call to look out for: the variables of its arguments, and what the code that fills them and
the code of the body look like. -/
structure Watch where
  handles : List Nat
  arguments : List Mark → Prop
  body : List Mark → Prop

/-- The numbers that a script uses for intermediate values are not those of the call. -/
def Watch.Below (w : Watch) (s : Ctx) : Prop := ∀ h ∈ w.handles, h < s.nextHandle

/-- Each way through some code uses the call `n` times, and binds the variables of its arguments only
there. -/
inductive Path (w : Watch) (around : Option LoopTarget) : Nat → List Mark → Prop where
  | rest : Woven around (Mark.lines ms) → (∀ h ∈ w.handles, .bound h ∉ ms) → Path w around 0 ms
  | use : w.arguments args → w.body body → Path w around n body → Path w around (n + 1) (args ++ body)
  | append : Path w around m a → Path w around n b → Path w around (m + n) (a ++ b)
  | either : Path w around n yes → Path w around n no →
      Path w around n ([.line (.doif test)] ++ yes ++ [.line .otherwise] ++ no ++ [.line .endi])

namespace Path
variable {w : Watch} {around : Option LoopTarget}

theorem apart (path : Path w none n ms) : Path w around n ms := by
  induction path with
  | rest code free => exact .rest (.apart code) free
  | use args body _ ih => exact .use args body ih
  | append _ _ first second => exact .append first second
  | either _ _ yes no => exact .either yes no

theorem free (path : Path w around 0 ms) : ∀ h ∈ w.handles, .bound h ∉ ms := by
  generalize zero : 0 = n at path
  induction path with
  | rest _ free => exact free
  | use => cases zero
  | append _ _ first second =>
    intro h watched
    rw [List.mem_append, not_or]
    exact ⟨first (by omega) h watched, second (by omega) h watched⟩
  | either _ _ yes no =>
    intro h watched
    simp only [List.mem_append, List.mem_singleton, reduceCtorEq, or_false, false_or, not_or]
    exact ⟨yes zero h watched, no zero h watched⟩

end Path

namespace Emit

theorem Shaped.woven {x : Emit α} (shaped : Shaped x) (s : Ctx) :
    Emits s x fun _ _ code => Woven s.loop code :=
  (shaped s).mono fun _ _ _ here => here.2.woven

/-- Writes code that uses the call `n` times, if it does not fail. -/
structure Uses (w : Watch) (n : Nat) (x : Emit α) : Prop where
  path : ∀ s a t, w.Below s → x.run s = (.ok a, t) → Path w s.loop n (x.marks s)

namespace Uses
variable {w : Watch} {m n : Nat} {x : Emit α} {f : α → Emit β}

theorem bind (first : Uses w m x) (next : ∀ a, Uses w n (f a)) : Uses w (m + n) (x >>= f) := by
  refine ⟨fun s b u below ran => ?_⟩
  rw [run_bind] at ran
  split at ran
  · next a t ranFirst =>
    have later := x.later s
    rw [ranFirst] at later
    rw [marks_bind ranFirst]
    have there := (next a).path t b u (fun h watched => Nat.lt_of_lt_of_le (below h watched) later.handles) ran
    rw [show t.loop = s.loop from later.loop] at there
    exact .append (first.path s a t below ranFirst) there
  · cases ran

theorem before (first : Uses w 0 x) (next : ∀ a, Uses w n (f a)) : Uses w n (x >>= f) := by
  simpa using first.bind next

theorem after (first : Uses w n x) (next : ∀ a, Uses w 0 (f a)) : Uses w n (x >>= f) :=
  first.bind next

theorem refuse (c : Cause) : Uses w n (Emit.refuse c : Emit α) :=
  ⟨fun _ _ _ _ ran => by cases ran⟩

theorem pure (a : α) : Uses w 0 (Pure.pure a) :=
  ⟨fun s _ _ _ _ => .rest .nil (by simp [show (Pure.pure a : Emit α).marks s = [] from rfl])⟩

theorem look {f : Ctx → Emit α} (next : ∀ s, w.Below s → Uses w n (f s)) : Uses w n (.look f) :=
  ⟨fun s a t below ran => (next s below).path s a t below ran⟩

theorem current_bind {f : Ctx → Emit α} (next : ∀ s, w.Below s → Uses w n (f s)) :
    Uses w n (Emit.current >>= f) :=
  look next

theorem ofExcept (e : Except Cause α) : Uses w 0 (Emit.ofExcept e) := by
  cases e with
  | error c => exact refuse c
  | ok a => exact pure a

theorem inspect (question : Ctx → Except Cause α) : Uses w 0 (Emit.inspect question) :=
  look fun s _ => ofExcept (question s)

theorem inspect_bind {question : Ctx → Except Cause α}
    (next : ∀ s a, w.Below s → question s = .ok a → Uses w n (f a)) :
    Uses w n (Emit.inspect question >>= f) := by
  refine look fun s below => ?_
  change Uses w n (Emit.ofExcept (question s) >>= f)
  cases answer : question s with
  | error c => exact refuse c
  | ok a => exact next s a below answer

theorem ite {c : Prop} [Decidable c] {y : Emit α} (first : Uses w n x) (second : Uses w n y) :
    Uses w n (if c then x else y) := by
  split
  · exact first
  · exact second

theorem located (pos : Position) (uses : Uses w n x) : Uses w n (x.located pos) := by
  refine ⟨fun s a t below ran => ?_⟩
  rw [run_located] at ran
  rw [marks_located]
  rcases result : x.run s with ⟨f | b, u⟩
  · rw [result] at ran
    cases ran
  · exact uses.path s b u below result

theorem within {loop : Option LoopTarget → Option LoopTarget} {x : Emit Unit}
    (inner : ∀ {around k ms}, Path w (loop around) k ms → Path w around k ms) (uses : Uses w n x) :
    Uses w n (Emit.within loop x) := by
  refine ⟨fun s a t below ran => ?_⟩
  rw [run_within] at ran
  rw [marks_within]
  exact inner (uses.path (s.enter loop) a _ below (Prod.ext (Prod.mk.inj ran).1 rfl))

theorem inScope {x : Emit Unit} (uses : Uses w n x) : Uses w n x.inScope := within id uses

theorem outsideLoops {x : Emit Unit} (uses : Uses w n x) : Uses w n x.outsideLoops :=
  within .apart uses

theorem idle (woven : ∀ s, Emits s x fun _ _ code => Woven s.loop code)
    (free : ∀ s a t, w.Below s → x.run s = (.ok a, t) → ∀ h ∈ w.handles, .bound h ∉ x.marks s) :
    Uses w 0 x := by
  refine ⟨fun s a t below ran => ?_⟩
  obtain ⟨code, lines, here⟩ := (woven s).found a t ran
  have later := (x.later s).lines
  rw [ran, lines] at later
  rw [List.append_cancel_left later] at here
  exact .rest here (free s a t below ran)

/-- The variables of the call are not bound by code that does not use it. -/
theorem free (uses : Uses w 0 x) {s t : Ctx} {a : α} (below : w.Below s) (ran : x.run s = (.ok a, t)) :
    ∀ h ∈ w.handles, .bound h ∉ x.marks s :=
  (uses.path s a t below ran).free

theorem perform {op : Op} (plain : op.isPlain = true) (marks : ∀ h ∈ w.handles, .bound h ∉ op.marks) :
    Uses w 0 (Emit.perform op) := by
  refine idle (Shaped.perform plain).woven fun s _ _ _ _ h watched => ?_
  simpa [Emit.perform, Emit.marks] using marks h watched

theorem code (before : Int) {i : Instr} (plain : i.isPlain = true) (after : Int) :
    Uses w 0 (Emit.code before i after) :=
  perform plain (by simp [Op.marks])

theorem line {i : Instr} (plain : i.isPlain = true) : Uses w 0 (Emit.line i) := code 0 plain 0

theorem lines {is : List Instr} (plain : ∀ i ∈ is, i.isPlain = true) : Uses w 0 (Emit.lines is) := by
  induction is with
  | nil => exact pure ()
  | cons i rest ih =>
    obtain ⟨here, others⟩ := List.forall_mem_cons.mp plain
    exact (line here).before fun _ => ih others

theorem comment (text : String) : Uses w 0 (Emit.comment text) := perform rfl (by simp [Op.marks])

theorem register {handle : Nat} (other : handle ∉ w.handles) : Uses w 0 (Emit.bind handle) := by
  refine current_bind fun s _ => ?_
  split
  · exact refuse _
  · refine (perform rfl fun h watched bound => ?_).before fun _ => pure _
    cases List.mem_singleton.mp bound
    exact other watched

theorem temp : Uses w 0 Emit.temp := by
  change Uses w 0 (Emit.current >>= fun s => Emit.perform (.handles (s.nextHandle + 1)) >>= fun _ =>
    Emit.bind s.nextHandle)
  refine current_bind fun s below => ?_
  refine (perform rfl (by simp [Op.marks])).before fun _ => register fun watched => ?_
  exact Nat.lt_irrefl _ (below _ watched)

theorem store (env : Env) (exact : TypeId) (target input : Arg) :
    Uses w 0 (Emit.store env exact target input) := by
  unfold Emit.store
  cases made : storeInstr env.types exact target input with
  | ok i => exact line (storeInstr_plain made)
  | error c => exact refuse c

theorem either {yes no : Emit Unit} {test : Test} (first : Uses w n yes) (second : Uses w n no) :
    Uses w n (do
      Emit.code 0 (.doif test) 1
      yes
      Emit.code (-1) .otherwise 1
      no
      Emit.code (-1) .endi 0) := by
  refine ⟨fun s a u below ran => ?_⟩
  -- The context after the first arm is a later one of the context before the test.
  change (yes >>= _).run ((Op.code 0 (.doif test) 1).perform s) = _ at ran
  change Path w s.loop n ([.line (.doif test)] ++ (yes >>= _).marks ((Op.code 0 (.doif test) 1).perform s))
  rw [run_bind] at ran
  split at ran
  · next _ t ranYes =>
    rw [marks_bind ranYes]
    have here : Path w s.loop n _ := first.path ((Op.code 0 (.doif test) 1).perform s) _ t below ranYes
    have later := yes.later ((Op.code 0 (.doif test) 1).perform s)
    rw [ranYes] at later
    change (no >>= _).run ((Op.code (-1) .otherwise 1).perform t) = _ at ran
    change Path w s.loop n ([.line (.doif test)] ++ (_ ++ ([.line .otherwise] ++
      (no >>= _).marks ((Op.code (-1) .otherwise 1).perform t))))
    rw [run_bind] at ran
    split at ran
    · next _ v ranNo =>
      rw [marks_bind ranNo]
      have there := second.path ((Op.code (-1) .otherwise 1).perform t) _ v
        (fun h watched => Nat.lt_of_lt_of_le (below h watched) later.handles) ranNo
      rw [show ((Op.code (-1) .otherwise 1).perform t).loop = s.loop from later.loop] at there
      simpa [Emit.code, Emit.perform, Emit.marks, Op.marks] using Path.either here there
    · cases ran
  · cases ran

end Uses

end Emit

section
variable {w : Watch} {m n : Nat} {ns ms : List Nat} {out : List Slot}

/-- A slot that can only be evaluated. -/
def Slot.Bare (slot : Slot) : Prop :=
  slot.role.get = .plain ∧ ∀ forWrite s arg, slot.inline forWrite s ≠ .ok (some arg)

structure Slot.Uses (w : Watch) (n : Nat) (slot : Slot) : Prop where
  write : ∀ input exact, Emit.Uses w n (slot.write input exact)
  bare : n ≠ 0 → slot.Bare

/-- A leaf whose evaluation uses the call `n` times, and with it that of its slots when they are
written. -/
structure LeafCode.Uses (w : Watch) (n : Nat) (ns : List Nat) (leaf : LeafCode) : Prop where
  slots : List.Forall₂ (Slot.Uses w) ns leaf.slots
  bare : n ≠ 0 → ∀ slot ∈ leaf.slots, slot.Bare
  read : ∀ {ms out}, List.Forall₂ (Slot.Uses w) ms out → out.length = leaf.slots.length →
    Emit.Uses w (n + ms.sum) (leaf.read out)
  readView : ∀ {base len ms out}, List.Forall₂ (Slot.Uses w) ms out → out.length = len →
    base + len ≤ leaf.slots.length → Emit.Uses w (n + ms.sum) (leaf.readView base len out)

namespace Slot

theorem writeAt_uses {slots : List Slot} (uses : List.Forall₂ (Uses w) ns slots) (input : Arg)
    (exact : TypeId) : Emit.Uses w (ns.headD 0) (writeAt slots 0 input exact) := by
  cases uses with
  | nil => exact .refuse _
  | cons first _ => exact first.write input exact

theorem first_bare {slots : List Slot} (uses : List.Forall₂ (Uses w) ns slots) (some : ns.headD 0 ≠ 0) :
    ∃ slot rest, slots = slot :: rest ∧ slot.Bare := by
  cases uses with
  | nil => exact absurd rfl some
  | cons first _ => exact ⟨_, _, rfl, first.bare some⟩

theorem put_uses {slot : Slot} (uses : Uses w n slot) (input : Arg) (ty : TypeId) :
    Emit.Uses w n (put [slot] input ty) := by
  unfold put
  split
  · next dropped =>
    by_cases zero : n = 0
    · subst zero
      exact .pure ()
    · exact absurd ((uses.bare zero).1.symm.trans dropped) (by decide)
  · exact uses.write input ty

theorem noWrite_uses (what : String) (input : Arg) (exact : TypeId) :
    Emit.Uses w n (noWrite what input exact) := .refuse _

theorem computed_bare (what : String) : Bare (computed what) :=
  ⟨rfl, fun _ _ _ => by simp [computed, noInline]⟩

theorem computed_uses (what : String) : Uses w n (computed what) :=
  ⟨noWrite_uses what, fun _ => computed_bare what⟩

theorem register_uses (env : Env) (slot : Nat) : Uses w 0 (register env slot) :=
  ⟨fun _ _ => .store .., fun other => absurd rfl other⟩

theorem discard_uses (env : Env) : Uses w 0 (discard env) :=
  ⟨fun _ _ => Emit.Uses.temp.before fun _ => .store .., fun other => absurd rfl other⟩

theorem discards_uses (env : Env) (k : Nat) :
    List.Forall₂ (Uses w) (List.replicate k 0) (List.replicate k (discard env)) := by
  induction k with
  | zero => exact .nil
  | succ k ih => exact .cons (discard_uses env) ih

end Slot

namespace LeafCode

theorem ofSlots_uses (env : Env) {slots : List Slot} (each : List.Forall₂ (Slot.Uses w) ns slots)
    (bare : n ≠ 0 → ∀ slot ∈ slots, slot.Bare) {read : List Slot → Emit Unit}
    (reads : ∀ {ms out}, List.Forall₂ (Slot.Uses w) ms out → out.length = slots.length →
      Emit.Uses w (n + ms.sum) (read out)) : Uses w n ns (ofSlots env slots read) where
  slots := each
  bare := bare
  read := reads
  readView {base len ms out} outs count inside := by
    have padded := List.rel_append
      (List.rel_append (Slot.discards_uses (w := w) env base) outs)
      (Slot.discards_uses env (slots.length - base - len))
    have total : (List.replicate base (Slot.discard env) ++ out ++
        List.replicate (slots.length - base - len) (Slot.discard env)).length = slots.length := by
      have : base + len ≤ slots.length := inside
      simp only [List.length_append, List.length_replicate]
      omega
    change Emit.Uses w (n + ms.sum) (readPadded env slots.length read base len out)
    simpa [readPadded] using reads padded total

theorem ofSlot_uses (env : Env) {slot : Slot} (uses : Slot.Uses w m slot) (bare : n ≠ 0 → slot.Bare)
    {read : List Slot → Emit Unit}
    (reads : ∀ {k out}, Slot.Uses w k out → Emit.Uses w (n + k) (read [out])) :
    Uses w n [m] (ofSlot env slot read) := by
  refine ofSlots_uses env (.cons uses .nil) (fun some => by simpa using bare some) fun {ms out} outs count => ?_
  obtain ⟨single, rfl⟩ := List.length_eq_one_iff.mp count
  cases outs with
  | cons first none =>
    cases none
    simpa using reads first

end LeafCode

/-- What evaluating a piece and writing each of its slots uses. -/
inductive Piece.Uses (w : Watch) : Nat × List Nat → Piece LeafCode → Prop where
  | whole : LeafCode.Uses w k ks a → Uses w (k, ks) (.whole a)
  | view : LeafCode.Uses w k ks a → base + count ≤ a.slots.length →
      Uses w (k, viewOf base count ks) (.view a base count)

abbrev Code.Uses (w : Watch) : List (Nat × List Nat) → Code → Prop := List.Forall₂ (Piece.Uses w)

/-- What evaluating a sequence of pieces uses. -/
def usesOf (cs : List (Nat × List Nat)) : Nat := (cs.map Prod.fst).sum

@[simp] theorem usesOf_nil : usesOf [] = 0 := rfl

@[simp] theorem usesOf_cons (c : Nat × List Nat) (cs : List (Nat × List Nat)) :
    usesOf (c :: cs) = c.1 + usesOf cs := by
  simp [usesOf]

namespace Piece.Uses
variable {c : Nat × List Nat} {p : Piece LeafCode}

theorem slots (uses : Uses w c p) : List.Forall₂ (Slot.Uses w) c.2 (Code.pieceSlots p) := by
  cases uses with
  | whole leaf => exact leaf.slots
  | view leaf _ => exact List.forall₂_take _ (List.forall₂_drop _ leaf.slots)

theorem bare (uses : Uses w c p) (some : c.1 ≠ 0) : ∀ slot ∈ Code.pieceSlots p, slot.Bare := by
  cases uses with
  | whole leaf => exact leaf.bare some
  | view leaf _ =>
    exact fun slot member => leaf.bare some slot (List.mem_of_mem_drop (List.mem_of_mem_take member))

theorem length (uses : Uses w c p) : (Code.pieceSlots p).length = p.len := by
  cases uses with
  | whole leaf => rfl
  | view leaf inside =>
    simp only [Code.pieceSlots, viewOf, List.length_take, List.length_drop, Piece.len]
    omega

theorem read (uses : Uses w c p) (outs : List.Forall₂ (Slot.Uses w) ms out) (count : out.length = p.len) :
    Emit.Uses w (c.1 + ms.sum) (Code.readPiece p out) := by
  cases uses with
  | whole leaf => exact leaf.read outs count
  | view leaf inside => exact leaf.readView outs count inside

theorem run {leaf : LeafCode} (uses : LeafCode.Uses w n ns leaf) {base len : Nat}
    (inside : base + len ≤ leaf.slots.length) : ∃ ms, Uses w (n, ms) (Piece.run leaf base len) := by
  unfold Piece.run
  split
  · exact ⟨_, .whole uses⟩
  · exact ⟨_, .view uses inside⟩

theorem cut (uses : Uses w c p) {base len : Nat} (inside : base + len ≤ p.len) :
    ∃ ms, Uses w (c.1, ms) (p.cut base len) := by
  unfold Piece.cut
  split
  · exact ⟨_, uses⟩
  · cases uses with
    | whole leaf => exact run leaf inside
    | view leaf within => exact run leaf (by simp only [Piece.len] at inside; omega)

end Piece.Uses

namespace Code.Uses
variable {cs : List (Nat × List Nat)} {e : Code}

theorem slots (uses : Code.Uses w cs e) :
    List.Forall₂ (Slot.Uses w) (cs.flatMap Prod.snd) e.slots := by
  induction uses with
  | nil => exact .nil
  | cons first _ ih => exact List.rel_append first.slots ih

theorem readPieces (uses : Code.Uses w cs e) (outs : List.Forall₂ (Slot.Uses w) ms out)
    (count : out.length = Slices.len e) : Emit.Uses w (usesOf cs + ms.sum) (Code.readPieces e out) := by
  induction uses generalizing ms out with
  | nil =>
    cases outs with
    | nil => exact .pure ()
    | cons => cases count
  | @cons c p cs rest first _ ih =>
    rw [Slices.len_cons] at count
    have here := first.read (List.forall₂_take p.len outs) (by simp [count])
    have there := ih (List.forall₂_drop p.len outs) (by simp [count])
    have split : (ms.take p.len).sum + (ms.drop p.len).sum = ms.sum := by
      rw [← List.sum_append, List.take_append_drop]
    rw [usesOf_cons, show c.1 + usesOf cs + ms.sum =
      (c.1 + (ms.take p.len).sum) + (usesOf cs + (ms.drop p.len).sum) by omega]
    exact here.bind fun _ => there

theorem read (uses : Code.Uses w cs e) (outs : List.Forall₂ (Slot.Uses w) ms out) :
    Emit.Uses w (usesOf cs + ms.sum) (e.read out) := by
  unfold Code.read
  split
  · next count => exact uses.readPieces outs count
  · exact .refuse _

theorem read_register (uses : Code.Uses w cs e) (env : Env) (slot : Nat) :
    Emit.Uses w (usesOf cs) (e.read [Slot.register env slot]) := by
  simpa using uses.read (.cons (Slot.register_uses env slot) .nil)

theorem write (uses : Code.Uses w cs e) (input : Arg) (exact : TypeId) :
    Emit.Uses w ((cs.flatMap Prod.snd).headD 0) (e.write input exact) :=
  Slot.writeAt_uses uses.slots input exact

theorem toRegister (uses : Code.Uses w cs e) (env : Env) :
    Emit.Uses w (usesOf cs) (e.toRegister env) :=
  Emit.Uses.temp.before fun slot => (uses.read_register env slot).after fun _ => .pure _

end Code.Uses

/-- An expression that stands for one value. Where its evaluation uses the call, it has no other
form. -/
structure Code.Lone (w : Watch) (cs : List (Nat × List Nat)) (e : Code) : Prop where
  uses : Code.Uses w cs e
  bare : usesOf cs ≠ 0 → ∃ slot rest, e.slots = slot :: rest ∧ slot.Bare

namespace Code.Lone
variable {cs : List (Nat × List Nat)} {e : Code}

theorem inline_bind (single : e.Lone w cs) (forWrite : Bool) {f : Option Arg → Emit α}
    (form : ∀ arg, usesOf cs = 0 → Emit.Uses w n (f (some arg))) (none : Emit.Uses w n (f none)) :
    Emit.Uses w n (e.inline forWrite >>= f) := by
  refine .inspect_bind fun s found _ answer => ?_
  cases found with
  | none => exact none
  | some arg =>
    refine form arg (Classical.byContradiction fun some => ?_)
    obtain ⟨slot, rest, slots, bare⟩ := single.bare some
    rw [slots] at answer
    exact bare.2 forWrite s arg answer

theorem role (single : e.Lone w cs) (some : usesOf cs ≠ 0) : e.role = .plain := by
  obtain ⟨slot, rest, slots, bare⟩ := single.bare some
  unfold Code.role
  rw [slots]
  exact bare.1

theorem toArg (single : e.Lone w cs) (env : Env) : Emit.Uses w (usesOf cs) (e.toArg env) := by
  refine single.inline_bind false (fun arg zero => ?_) (single.uses.toRegister env)
  rw [zero]
  exact .pure _

end Code.Lone

theorem constCode_uses (env : Env) (what : String) (c : Constant) :
    (constCode env what c).Uses w 0 [0] :=
  LeafCode.ofSlot_uses env ⟨Slot.noWrite_uses what, fun other => absurd rfl other⟩
    (fun other => absurd rfl other) fun out => by
      simpa using Slot.put_uses out _ _

theorem varSlot_uses (env : Env) (handle : Nat) (writable : Bool) :
    (varSlot env handle writable).Uses w 0 :=
  ⟨fun _ _ => (Emit.Uses.inspect _).before fun _ => .store .., fun other => absurd rfl other⟩

theorem varSlots_uses (env : Env) (vars : List LocalVar) :
    List.Forall₂ (Slot.Uses w) (List.replicate vars.length 0) (varSlots env vars) := by
  induction vars with
  | nil => exact .nil
  | cons v rest ih => exact .cons (varSlot_uses env v.handle true) ih

theorem varCode_uses (env : Env) (handle : Nat) (ty : TypeId) (writable : Bool) :
    (varCode env handle ty writable).Uses w 0 [0] :=
  LeafCode.ofSlot_uses env (varSlot_uses env handle writable) (fun other => absurd rfl other)
    fun out => by
      simpa using (Emit.Uses.inspect _).before fun place => Slot.put_uses out place ty

theorem builtinSlot_uses (env : Env) (name : String) (writable : Bool) (role : Role) :
    (builtinSlot env name writable role).Uses w 0 :=
  ⟨fun _ _ => .ite (.store ..) (.refuse _), fun other => absurd rfl other⟩

theorem builtinCode_uses (env : Env) (name : String) (ty : TypeId) (writable : Bool) (role : Role) :
    (builtinCode env name ty writable role).Uses w 0 [0] :=
  LeafCode.ofSlot_uses env (builtinSlot_uses env name writable role) (fun other => absurd rfl other)
    fun out => by
      simpa using Slot.put_uses out _ _

theorem sinkCode_uses (env : Env) (what : String) (len : Nat) :
    (sinkCode env what len).Uses w 0 (List.replicate len 0) :=
  LeafCode.ofSlots_uses env (Slot.discards_uses env len) (fun other => absurd rfl other)
    fun _ _ => .refuse _

section
variable {cs : List (Nat × List Nat)} {base : Code}

theorem withTarget_uses (env : Env) (agent : Code.Uses w cs base) {x : Emit Unit}
    (inner : Emit.Uses w n x) : Emit.Uses w (usesOf cs + n) (withTarget env base x) := by
  refine .inScope (Emit.Uses.temp.before fun saved => (Emit.Uses.line rfl).before fun _ => ?_)
  have read := agent.read (.cons (builtinSlot_uses env "targ" true .target) .nil)
  refine Emit.Uses.bind (by simpa using read) fun _ => ?_
  exact inner.after fun _ => .line rfl

theorem onTarget_uses (env : Env) (agent : base.Lone w cs) {x : Emit Unit}
    (inner : Emit.Uses w n x) : Emit.Uses w (usesOf cs + n) (onTarget env base x) := by
  unfold onTarget
  split
  · next already =>
    have zero : usesOf cs = 0 := Classical.byContradiction fun some => by
      rw [agent.role some] at already
      cases already
    rwa [zero, Nat.zero_add]
  · exact withTarget_uses env agent.uses inner

theorem keepArg_uses (env : Env) (input : Arg) (exact : TypeId) :
    Emit.Uses w 0 (keepArg env input exact) :=
  .ite (.pure _) (Emit.Uses.temp.before fun _ => (Emit.Uses.store ..).before fun _ => .pure _)

theorem fieldReadName_none (agent : base.Lone w cs) (some : usesOf cs ≠ 0) (f : Field) :
    fieldReadName? base f = none := by
  unfold fieldReadName?
  rw [agent.role some]
  rfl

theorem fieldWriteName_none (agent : base.Lone w cs) (some : usesOf cs ≠ 0) (f : Field) :
    fieldWriteName? base f = none := by
  unfold fieldWriteName?
  rw [agent.role some]

theorem fieldWrite_uses (env : Env) (agent : base.Lone w cs) (f : Field) (input : Arg)
    (exact : TypeId) : Emit.Uses w (usesOf cs) (fieldWrite env base f input exact) := by
  unfold fieldWrite
  split
  · next place named =>
    have zero : usesOf cs = 0 := Classical.byContradiction fun some => by
      rw [fieldWriteName_none agent some] at named
      cases named
    rw [zero]
    exact .store ..
  · exact .inScope ((keepArg_uses ..).before fun _ => withTarget_uses env agent.uses (.store ..))

theorem fieldRead_uses (env : Env) (agent : base.Lone w cs) (f : Field) {out : Slot}
    (outs : out.Uses w n) : Emit.Uses w (usesOf cs + n) (fieldRead env base f [out]) := by
  unfold fieldRead
  split
  · next place named =>
    have zero : usesOf cs = 0 := Classical.byContradiction fun some => by
      rw [fieldReadName_none agent some] at named
      cases named
    rw [zero, Nat.zero_add]
    exact outs.write ..
  · refine .inScope (Emit.Uses.temp.before fun _ => Emit.Uses.bind ?_ fun _ => Slot.put_uses outs _ _)
    exact onTarget_uses env agent (.store ..)

theorem fieldCode_uses (env : Env) (agent : base.Lone w cs) (f : Field) :
    (fieldCode env base f).Uses w (usesOf cs) [usesOf cs] := by
  have bare (some : usesOf cs ≠ 0) : Slot.Bare ⟨.pure .plain, fun forWrite _ =>
      .ok (if forWrite then fieldWriteName? base f else fieldReadName? base f), fieldWrite env base f⟩ := by
    refine ⟨rfl, fun forWrite s arg => ?_⟩
    dsimp only
    rw [fieldReadName_none agent some, fieldWriteName_none agent some]
    simp
  exact LeafCode.ofSlot_uses env ⟨fieldWrite_uses env agent f, bare⟩ bare fun out =>
    fieldRead_uses env agent f out

theorem classCheck_uses (cls : Classifier) (nullable : Bool) (slot : Nat) :
    Emit.Uses w 0 (classCheck cls nullable slot) := by
  have check : Emit.Uses w 0 (do
      Emit.code 0 (.doif (classTest cls)) 1
      Emit.line (.store .value (.register slot) (.int 1))
      Emit.code (-1) .endi 0
      if nullable then Emit.code (-1) .endi 0 else pure ()) :=
    (Emit.Uses.code 0 rfl 1).before fun _ => (Emit.Uses.line rfl).before fun _ =>
      (Emit.Uses.code (-1) rfl 0).before fun _ => .ite (.code (-1) rfl 0) (.pure ())
  exact .ite ((Emit.Uses.code 0 rfl 1).before fun _ => check) check

theorem isInstanceCode_uses (env : Env) (what : String) (agent : base.Lone w cs) (cls : Classifier)
    (nullable : Bool) (ty : TypeId) :
    (isInstanceCode env what base cls nullable ty).Uses w (usesOf cs) [0] := by
  refine LeafCode.ofSlot_uses env (Slot.computed_uses what) (fun _ => Slot.computed_bare what) fun out => ?_
  refine .inScope (Emit.Uses.temp.before fun slot => (Emit.Uses.line rfl).before fun _ => ?_)
  exact Emit.Uses.bind (onTarget_uses env agent (classCheck_uses ..)) fun _ => Slot.put_uses out _ _

theorem retypeSlot_uses {slots : List Slot} (each : List.Forall₂ (Slot.Uses w) ns slots) (ty : TypeId) :
    (retypeSlot slots ty).Uses w (ns.headD 0) := by
  refine ⟨fun input _ => Slot.writeAt_uses each input ty, fun some => ?_⟩
  obtain ⟨slot, rest, rfl, bare⟩ := Slot.first_bare each some
  exact bare

theorem castCode_uses (env : Env) (agent : base.Lone w cs) (ty : TypeId) :
    (castCode env base ty).Uses w (usesOf cs) [(cs.flatMap Prod.snd).headD 0] := by
  have bare (found : ∃ slot rest, base.slots = slot :: rest ∧ slot.Bare) :
      Slot.Bare ⟨.mk fun _ => base.role, Slot.inlineAt base.slots 0, base.write⟩ := by
    obtain ⟨slot, rest, slots, bare⟩ := found
    simp only [Code.role, slots]
    exact bare
  refine LeafCode.ofSlot_uses env ⟨agent.uses.write, fun some => bare (Slot.first_bare agent.uses.slots some)⟩
    (fun some => bare (agent.bare some)) fun out => ?_
  · simpa using agent.uses.read (.cons (retypeSlot_uses (.cons out .nil) ty) .nil)

theorem retypeCode_uses (env : Env) (what : String) (target : Code.Uses w cs base) (ty : TypeId) :
    (retypeCode env what base ty).Uses w 0 [(cs.flatMap Prod.snd).headD 0] :=
  LeafCode.ofSlot_uses env (retypeSlot_uses target.slots ty) (fun other => absurd rfl other)
    fun _ => .refuse _

end

end

end AgentScript
