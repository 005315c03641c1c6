import AgentScript.Code.Generate
import AgentScript.Proofs.Discipline
import AgentScript.Proofs.Pieces

/-! Code that fails only for reasons that lie in the script. `Emit.Safe handles` says so of code that
starts where some handles are bound; for slots and leaves it is required in every context that binds
these handles and possibly more. -/
namespace AgentScript
variable {slot : Slot} {out : List Slot} {s : Ctx} {tail : List OperandCode}

/-- Causes that code generation has for what resolution should have excluded. -/
def Cause.isInternal : Cause → Bool
  | escapedHandle _ | unboundDeferred _ | slotOutOfRange _ _ | invalidSlice _ _ _ | arity _ _ => true
  | _ => false

/-- Does not fail for an internal cause. -/
def Regular (e : Except Cause α) : Prop := ∀ c, e = .error c → c.isInternal = false

namespace Regular

theorem ok (a : α) : Regular (.ok a) := nofun

theorem error (external : c.isInternal = false) : Regular (.error c : Except Cause α) := by
  rintro _ ⟨⟩
  exact external

theorem bind {x : Except Cause α} {f : α → Except Cause β} (first : Regular x)
    (next : ∀ a, x = .ok a → Regular (f a)) : Regular (x >>= f) := by
  cases x with
  | error c => exact error (first c rfl)
  | ok a => exact next a rfl

theorem map {x : Except Cause α} (regular : Regular x) (f : α → β) : Regular (x.map f) := by
  cases x with
  | error c => exact error (regular c rfl)
  | ok a => exact ok (f a)

end Regular

namespace Emit

/-- Code that does not fail for an internal cause where some handles are bound. -/
structure Safe (handles : List Nat) (x : Emit α) : Prop where
  external : ∀ s, s.Holds handles → ∀ f, (x.run s).1 = .error f → f.cause.isInternal = false

namespace Safe
variable {x : Emit α} {f : α → Emit β}

theorem mono (safe : Safe hs x) (more : hs ⊆ ks) : Safe ks x :=
  ⟨fun s held => safe.external s fun h member => held h (more member)⟩

theorem of_ok (ok : ∀ s, ∃ a, (x.run s).1 = .ok a) : Safe hs x := by
  refine ⟨fun s _ f failed => ?_⟩
  obtain ⟨a, ran⟩ := ok s
  rw [ran] at failed
  cases failed

theorem pure (a : α) : Safe hs (Pure.pure a) := of_ok fun _ => ⟨a, rfl⟩

theorem refuse (external : c.isInternal = false) : Safe hs (Emit.refuse c : Emit α) := by
  refine ⟨fun s _ f failed => ?_⟩
  cases failed
  exact external

theorem current : Safe hs Emit.current := of_ok fun s => ⟨s, rfl⟩

theorem perform (op : Op) : Safe hs (Emit.perform op) := of_ok fun _ => ⟨(), rfl⟩

theorem inspect_bind {question : Ctx → Except Cause α} (regular : ∀ s, s.Holds hs → Regular (question s))
    (next : ∀ s a, s.Holds hs → question s = .ok a → Safe hs (f a)) :
    Safe hs (Emit.inspect question >>= f) := by
  refine ⟨fun s held e failed => ?_⟩
  rw [run_bind, run_inspect] at failed
  cases answer : question s with
  | error c =>
    rw [answer] at failed
    cases failed
    exact regular s held c answer
  | ok a =>
    rw [answer] at failed
    exact (next s a held answer).external s held e failed

theorem ofExcept_bind {e : Except Cause α} (regular : Regular e) (next : ∀ a, e = .ok a → Safe hs (f a)) :
    Safe hs (Emit.ofExcept e >>= f) := by
  cases e with
  | error c => exact refuse (regular c rfl)
  | ok a => exact next a rfl

theorem bind_run (first : Safe hs x) (next : ∀ s a t, x.run s = (.ok a, t) → t.Holds hs →
      ∃ ks, t.Holds ks ∧ Safe ks (f a)) : Safe hs (x >>= f) := by
  refine ⟨fun s held e failed => ?_⟩
  have here := first.external s held
  have old : (x.run s).2.Holds hs := fun h member => x.run_bound (held h member)
  rw [run_bind] at failed
  rcases ran : x.run s with ⟨_ | a, t⟩ <;> simp only [ran] at here old failed
  · cases failed
    exact here e rfl
  · obtain ⟨ks, now, safe⟩ := next s a t ran old
    exact safe.external t now e failed

theorem bind_binds (first : Safe hs x) (binds : Binds ks x) (next : ∀ a, Safe (ks ++ hs) (f a)) :
    Safe hs (x >>= f) := by
  refine first.bind_run fun s a t ran old => ⟨ks ++ hs, List.forall_mem_append.mpr ⟨?_, old⟩, next a⟩
  have new := binds.bound s a (by rw [ran])
  rwa [ran] at new

theorem bind (first : Safe hs x) (next : ∀ a, Safe hs (f a)) : Safe hs (x >>= f) :=
  first.bind_binds (.nothing x) next

theorem bind_of (first : Safe hs x) (next : ∀ s a t, x.run s = (.ok a, t) → Safe hs (f a)) :
    Safe hs (x >>= f) :=
  first.bind_run fun s a t ran old => ⟨hs, old, next s a t ran⟩

theorem located (pos : Position) (safe : Safe hs x) : Safe hs (x.located pos) := by
  refine ⟨fun s held f failed => ?_⟩
  rw [run_located] at failed
  obtain ⟨e, ran, same⟩ := locate_error failed
  rw [same]
  exact safe.external s held e ran

theorem ite {c : Prop} [Decidable c] {y : Emit α} (first : Safe hs x) (second : Safe hs y) :
    Safe hs (if c then x else y) := by
  split
  · exact first
  · exact second

theorem code (before : Int) (i : Instr) (after : Int) : Safe hs (Emit.code before i after) :=
  perform _

theorem line (i : Instr) : Safe hs (Emit.line i) := code 0 i 0

theorem lines (is : List Instr) : Safe hs (Emit.lines is) := by
  induction is with
  | nil => exact pure ()
  | cons i rest ih => exact (line i).bind fun _ => ih

theorem comment (text : String) : Safe hs (Emit.comment text) := perform _

theorem queue (text : String) : Safe hs (Emit.queue text) := perform _

theorem freshLabel : Safe hs Emit.freshLabel :=
  current.bind fun _ => (perform _).bind fun _ => pure _

theorem freshHandle : Safe hs Emit.freshHandle :=
  current.bind fun _ => (perform _).bind fun _ => pure _

theorem register (handle : Nat) : Safe hs (Emit.bind handle) := by
  refine current.bind fun s => ?_
  split
  · exact refuse rfl
  · exact (perform _).bind fun _ => pure _

theorem temp : Safe hs Emit.temp := freshHandle.bind register

theorem within (loop : Option LoopTarget → Option LoopTarget) {x : Emit Unit} (safe : Safe hs x) :
    Safe hs (Emit.within loop x) := by
  refine ⟨fun s held f failed => ?_⟩
  rw [run_within] at failed
  exact safe.external (s.enter loop) held f failed

theorem inScope {x : Emit Unit} (safe : Safe hs x) : Safe hs x.inScope := safe.within id

theorem store (env : Env) (exact : TypeId) (target input : Arg) :
    Safe hs (Emit.store env exact target input) := by
  refine ofExcept_bind ?_ fun i _ => line i
  unfold storeInstr
  split
  · exact .ok _
  · exact .ok _
  · exact .ok _
  · exact .error rfl
  · exact .error rfl

end Safe

end Emit

structure Slot.Safe (handles : List Nat) (slot : Slot) : Prop where
  inline : ∀ forWrite s, s.Holds handles → Regular (slot.inline forWrite s)
  write : ∀ input exact, (slot.write input exact).Safe handles

theorem Slot.Safe.mono {slot : Slot} (safe : slot.Safe hs) (more : hs ⊆ ks) : slot.Safe ks where
  inline forWrite s held := safe.inline forWrite s fun h member => held h (more member)
  write input exact := (safe.write input exact).mono more

/-- Slots that are safe to use where some handles are bound. -/
def Slot.AllSafe (handles : List Nat) (slots : List Slot) : Prop := ∀ slot ∈ slots, slot.Safe handles

theorem Slot.AllSafe.mono (safe : AllSafe hs slots) (more : hs ⊆ ks) : AllSafe ks slots :=
  fun slot member => (safe slot member).mono more

/-- A leaf can be read into as many slots as it has, wherever its handles are bound. -/
structure LeafCode.Safe (handles : List Nat) (leaf : LeafCode) : Prop where
  slots : Slot.AllSafe handles leaf.slots
  read : ∀ {ks out}, handles ⊆ ks → Slot.AllSafe ks out → out.length = leaf.slots.length →
    (leaf.read out).Safe ks
  readView : ∀ {ks out base len}, handles ⊆ ks → Slot.AllSafe ks out → out.length = len →
    base + len ≤ leaf.slots.length → (leaf.readView base len out).Safe ks

theorem LeafCode.Safe.mono {leaf : LeafCode} (safe : leaf.Safe hs) (more : hs ⊆ ks) :
    leaf.Safe ks where
  slots := safe.slots.mono more
  read further := safe.read (List.Subset.trans more further)
  readView further := safe.readView (List.Subset.trans more further)

def Piece.Fits [Slotted α] : Piece α → Prop
  | .whole _ => True
  | .view leaf base len => base + len ≤ Slotted.count leaf

theorem Piece.run_fits [Slotted α] {leaf : α} (inside : base + n ≤ Slotted.count leaf) :
    (run leaf base n).Fits := by
  unfold run
  split
  · trivial
  · exact inside

theorem Piece.cut_fits [Slotted α] {p : Piece α} (fits : p.Fits) (inside : base + n ≤ p.len) :
    (p.cut base n).Fits := by
  unfold cut
  split
  · exact fits
  · cases p with
    | whole leaf => exact run_fits inside
    | view leaf start len =>
      have whole : start + len ≤ Slotted.count leaf := fits
      have part : base + n ≤ len := inside
      exact run_fits (by omega)

structure Code.PieceSafe (handles : List Nat) (p : Piece LeafCode) : Prop where
  leaf : p.leaf.Safe handles
  fits : p.Fits

def Code.Safe (handles : List Nat) (e : Code) : Prop := Slices.All (PieceSafe handles) e

theorem Code.pieceSafe_kept (handles : List Nat) : Piece.Kept (PieceSafe handles) where
  merge := by
    intro p q m first _ merged
    -- leaves of generated code have no keys
    obtain ⟨_, _, _, _, _, _, _, same, _⟩ := Piece.merge?_eq_some merged
    cases same
  cut {p base n} safe inside :=
    ⟨(Piece.leaf_kept (LeafCode.Safe handles)).cut safe.leaf inside, Piece.cut_fits safe.fits inside⟩

namespace Slot
variable {slots : List Slot}

theorem AllSafe.append (first : AllSafe hs a) (second : AllSafe hs b) : AllSafe hs (a ++ b) :=
  List.forall_mem_append.mpr ⟨first, second⟩

theorem AllSafe.single (safe : slot.Safe hs) : AllSafe hs [slot] :=
  List.forall_mem_singleton.mpr safe

theorem get_regular (inside : i < slots.length) : Regular (get slots i) := by
  unfold get
  rw [List.getElem?_eq_getElem inside]
  exact .ok _

theorem get_mem (found : get slots i = .ok slot) : slot ∈ slots := by
  unfold get at found
  split at found
  · next here =>
    cases found
    exact List.mem_of_getElem? here
  · cases found

theorem inlineAt_regular (safe : AllSafe hs slots) (inside : i < slots.length) (forWrite : Bool)
    (held : s.Holds hs) : Regular (inlineAt slots i forWrite s) :=
  (get_regular inside).bind fun slot found => (safe slot (get_mem found)).inline forWrite s held

theorem writeAt_safe (safe : AllSafe hs slots) (inside : i < slots.length) (input : Arg) (exact : TypeId) :
    (writeAt slots i input exact).Safe hs :=
  .ofExcept_bind (get_regular inside) fun slot found => (safe slot (get_mem found)).write input exact

theorem put_safe (safe : AllSafe hs out) (inside : 0 < out.length) (input : Arg) (ty : TypeId) :
    (put out input ty).Safe hs :=
  .ite (.pure ()) (writeAt_safe safe inside input ty)

theorem inlineAll_regular (safe : AllSafe hs slots) (held : s.Holds hs) :
    Regular (inlineAll s slots) := by
  induction slots with
  | nil => exact .ok _
  | cons slot rest ih =>
    obtain ⟨here, others⟩ := List.forall_mem_cons.mp safe
    refine (here.inline false s held).bind fun form _ => ?_
    cases form with
    | none => exact .ok _
    | some arg => exact (ih others).bind fun _ _ => .ok _

theorem needCode_regular (safe : AllSafe hs slots) (held : s.Holds hs) : Regular (needCode s slots) := by
  induction slots with
  | nil => exact .ok _
  | cons slot rest ih =>
    obtain ⟨here, others⟩ := List.forall_mem_cons.mp safe
    exact (here.inline false s held).bind fun _ _ => (ih others).bind fun _ _ => .ok _

theorem noWrite_safe (what : String) (input : Arg) (exact : TypeId) :
    (noWrite what input exact).Safe hs :=
  .refuse rfl

theorem computed_safe (what : String) : (computed what).Safe hs :=
  ⟨fun _ _ _ => .ok _, noWrite_safe what⟩

theorem register_safe (env : Env) (slot : Nat) : (register env slot).Safe hs :=
  ⟨fun _ _ _ => .ok _, fun _ _ => .store ..⟩

theorem register_alone (env : Env) (slot : Nat) : AllSafe hs [register env slot] :=
  .single (register_safe env slot)

theorem discard_safe (env : Env) : (discard env).Safe hs :=
  ⟨fun _ _ _ => .ok _, fun _ _ => Emit.Safe.temp.bind fun _ => .store ..⟩

theorem discards_safe (env : Env) (n : Nat) : AllSafe hs (List.replicate n (discard env)) := by
  intro slot member
  rw [List.eq_of_mem_replicate member]
  exact discard_safe env

end Slot

theorem LeafCode.ofSlots_safe (env : Env) {slots : List Slot} {read : List Slot → Emit Unit}
    (safe : Slot.AllSafe hs slots)
    (reads : ∀ {ks out}, hs ⊆ ks → Slot.AllSafe ks out → out.length = slots.length →
      (read out).Safe ks) :
    (ofSlots env slots read).Safe hs where
  slots := safe
  read := reads
  readView {ks out base len} more outs count inside := by
    have within : base + len ≤ slots.length := inside
    refine reads more (((Slot.discards_safe env _).append outs).append (Slot.discards_safe env _)) ?_
    simp only [List.length_append, List.length_replicate]
    omega

theorem LeafCode.ofSlot_safe (env : Env) {read : List Slot → Emit Unit} (safe : slot.Safe hs)
    (reads : ∀ {ks out}, hs ⊆ ks → Slot.AllSafe ks out → out.length = 1 → (read out).Safe ks) :
    (ofSlot env slot read).Safe hs :=
  ofSlots_safe env (.single safe) reads

namespace Code
variable {e : Code}

/-- Leaves of generated code have no keys, so that they are never joined. -/
theorem cons_eq (p : Piece LeafCode) (e : Code) : Slices.cons p e = p :: e := by
  cases e with
  | nil => rfl
  | cons q rest =>
    cases p <;> cases q <;> rfl

theorem Safe.mono (safe : e.Safe hs) (more : hs ⊆ ks) : e.Safe ks :=
  fun p member => ⟨(safe p member).leaf.mono more, (safe p member).fits⟩

theorem Safe.slots (safe : e.Safe hs) : Slot.AllSafe hs e.slots := by
  intro slot member
  obtain ⟨p, here, shown⟩ := List.mem_flatMap.mp member
  cases p with
  | whole leaf => exact (safe _ here).leaf.slots slot shown
  | view leaf base len =>
    exact (safe _ here).leaf.slots slot (List.mem_of_mem_drop (List.mem_of_mem_take shown))

theorem Safe.slots_length (safe : e.Safe hs) : e.slots.length = Slices.len e := by
  induction e with
  | nil => rfl
  | cons p rest ih =>
    obtain ⟨here, others⟩ := Slices.all_cons.mp safe
    have first : (pieceSlots p).length = p.len := by
      cases p with
      | whole leaf => rfl
      | view leaf base len =>
        have inside : base + len ≤ leaf.slots.length := here.fits
        simp only [pieceSlots, viewOf, List.length_take, List.length_drop, Piece.len]
        omega
    have whole : Code.slots (p :: rest) = pieceSlots p ++ Code.slots rest := List.flatMap_cons
    rw [whole, List.length_append, first, ih others, Slices.len_cons]

theorem readPieces_safe (safe : e.Safe hs) (more : hs ⊆ ks) (outs : Slot.AllSafe ks out)
    (count : out.length = Slices.len e) : (readPieces e out).Safe ks := by
  induction e generalizing out with
  | nil => exact .pure ()
  | cons p rest ih =>
    obtain ⟨here, others⟩ := Slices.all_cons.mp safe
    rw [Slices.len_cons] at count
    have first : (readPiece p (out.take p.len)).Safe ks := by
      have taken : Slot.AllSafe ks (out.take p.len) := fun slot member =>
        outs slot (List.mem_of_mem_take member)
      have takenLen : (out.take p.len).length = p.len := by
        rw [List.length_take]
        omega
      cases p with
      | whole leaf => exact here.leaf.read more taken takenLen
      | view leaf base len => exact here.leaf.readView more taken takenLen here.fits
    refine first.bind fun _ => ih others (fun slot member => outs slot (List.mem_of_mem_drop member)) ?_
    rw [List.length_drop]
    omega

theorem Safe.read (safe : e.Safe hs) (more : hs ⊆ ks) (outs : Slot.AllSafe ks out)
    (count : out.length = Slices.len e) : (e.read out).Safe ks := by
  unfold Code.read
  rw [if_pos count]
  exact readPieces_safe safe more outs count

theorem Safe.cut (safe : e.Safe hs) {base n : Nat} (inside : base + n ≤ Slices.len e) :
    ∃ part, e.cut base n = .ok part ∧ part.Safe hs ∧ Slices.len part = n := by
  refine ⟨Slices.cutWithin e base n, ?_, Slices.All.cutWithin (pieceSafe_kept hs) safe inside,
    Slices.len_cutWithin e inside⟩
  unfold Code.cut Slices.cut
  rw [if_neg (Nat.not_lt.mpr inside)]

end Code

structure Code.Single (handles : List Nat) (e : Code) : Prop where
  safe : e.Safe handles
  len : Slices.len e = 1

namespace Code.Single
variable {e : Code}

theorem mono (single : e.Single hs) (more : hs ⊆ ks) : e.Single ks :=
  ⟨single.safe.mono more, single.len⟩

theorem first (single : e.Single hs) : 0 < e.slots.length := by
  rw [single.safe.slots_length, single.len]
  exact Nat.one_pos

theorem inlineAt_regular (single : e.Single hs) (forWrite : Bool) (held : s.Holds hs) :
    Regular (Slot.inlineAt e.slots 0 forWrite s) :=
  Slot.inlineAt_regular single.safe.slots single.first forWrite held

theorem inline_bind (single : e.Single hs) (forWrite : Bool) {f : Option Arg → Emit α}
    (next : ∀ form, (f form).Safe hs) : (e.inline forWrite >>= f).Safe hs :=
  .inspect_bind (fun _ held => single.inlineAt_regular forWrite held) fun _ form _ _ => next form

theorem read (single : e.Single hs) (more : hs ⊆ ks) (safe : slot.Safe ks) : (e.read [slot]).Safe ks :=
  single.safe.read more (.single safe) single.len.symm

theorem write (single : e.Single hs) (input : Arg) (exact : TypeId) : (e.write input exact).Safe hs :=
  Slot.writeAt_safe single.safe.slots single.first input exact

theorem toRegister (env : Env) (single : e.Single hs) : (e.toRegister env).Safe hs :=
  Emit.Safe.temp.bind fun slot =>
    (single.read (List.Subset.refl hs) (Slot.register_safe env slot)).bind fun _ => .pure _

theorem toArg (env : Env) (single : e.Single hs) : (e.toArg env).Safe hs := by
  refine single.inline_bind false fun form => ?_
  cases form with
  | some arg => exact .pure _
  | none => exact single.toRegister env

end Code.Single

theorem constCode_safe (env : Env) (what : String) (c : Constant) : (constCode env what c).Safe hs := by
  refine LeafCode.ofSlot_safe env ⟨fun _ _ _ => .ok _, Slot.noWrite_safe what⟩ fun _ outs count => ?_
  exact Slot.put_safe outs (by omega) _ _

theorem handleArg_regular (held : s.Holds hs) (bound : handle ∈ hs) : Regular (handleArg handle s) := by
  unfold handleArg
  split
  · exact .ok _
  · next unbound =>
    have isBound := held handle bound
    rw [unbound] at isBound
    cases isBound

theorem varSlot_safe (env : Env) (bound : handle ∈ hs) (writable : Bool) :
    (varSlot env handle writable).Safe hs where
  inline forWrite s held := by
    dsimp only [varSlot]
    split
    · exact .ok _
    · exact (handleArg_regular held bound).map some
  write input exact :=
    .inspect_bind (fun _ held => handleArg_regular held bound) fun _ _ _ _ => .store ..

theorem varCode_safe (env : Env) (bound : handle ∈ hs) (ty : TypeId) (writable : Bool) :
    (varCode env handle ty writable).Safe hs := by
  refine LeafCode.ofSlot_safe env (varSlot_safe env bound writable) fun more outs count => ?_
  refine .inspect_bind (fun _ held => handleArg_regular held (more bound)) fun _ _ _ _ => ?_
  exact Slot.put_safe outs (by omega) _ _

theorem builtinSlot_safe (env : Env) (name : String) (writable : Bool) (role : Role) :
    (builtinSlot env name writable role).Safe hs :=
  ⟨fun _ _ _ => .ok _, fun _ _ => .ite (.store ..) (.refuse rfl)⟩

theorem builtinCode_safe (env : Env) (name : String) (ty : TypeId) (writable : Bool) (role : Role) :
    (builtinCode env name ty writable role).Safe hs := by
  refine LeafCode.ofSlot_safe env (builtinSlot_safe env name writable role) fun _ outs count => ?_
  exact Slot.put_safe outs (by omega) _ _

theorem sinkCode_safe (env : Env) (what : String) (len : Nat) : (sinkCode env what len).Safe hs :=
  LeafCode.ofSlots_safe env (Slot.discards_safe env len) fun _ _ _ => .refuse rfl

theorem withTarget_safe (env : Env) {agent : Code} (single : agent.Single hs) {x : Emit Unit}
    (inner : x.Safe hs) : (withTarget env agent x).Safe hs := by
  refine .inScope (Emit.Safe.temp.bind fun saved => (Emit.Safe.line _).bind fun _ => ?_)
  refine (single.read (List.Subset.refl hs) (builtinSlot_safe ..)).bind fun _ => ?_
  exact inner.bind fun _ => .line _

theorem onTarget_safe (env : Env) {agent : Code} (single : agent.Single hs) {x : Emit Unit}
    (inner : x.Safe hs) : (onTarget env agent x).Safe hs :=
  .ite inner (withTarget_safe env single inner)

theorem keepArg_safe (env : Env) (input : Arg) (exact : TypeId) : (keepArg env input exact).Safe hs :=
  .ite (.pure _) (Emit.Safe.temp.bind fun _ => (Emit.Safe.store ..).bind fun _ => .pure _)

theorem fieldWrite_safe (env : Env) {base : Code} (single : base.Single hs) (f : Field) (input : Arg)
    (exact : TypeId) : (fieldWrite env base f input exact).Safe hs := by
  unfold fieldWrite
  split
  · exact .store ..
  · exact .inScope ((keepArg_safe ..).bind fun _ => withTarget_safe env single (.store ..))

theorem fieldRead_safe (env : Env) {base : Code} (single : base.Single hs) (f : Field)
    {out : List Slot} (outs : Slot.AllSafe hs out) (inside : 0 < out.length) :
    (fieldRead env base f out).Safe hs := by
  unfold fieldRead
  split
  · exact Slot.writeAt_safe outs inside _ _
  · refine .inScope (Emit.Safe.temp.bind fun _ => ?_)
    exact (onTarget_safe env single (.store ..)).bind fun _ => Slot.put_safe outs inside _ _

theorem fieldCode_safe (env : Env) {base : Code} (single : base.Single hs) (f : Field) :
    (fieldCode env base f).Safe hs := by
  refine LeafCode.ofSlot_safe env ⟨fun _ _ _ => .ok _, fieldWrite_safe env single f⟩ ?_
  intro ks out more outs count
  exact fieldRead_safe env (single.mono more) f outs (by omega)

theorem classCheck_safe (cls : Classifier) (nullable : Bool) (slot : Nat) :
    (classCheck cls nullable slot).Safe hs := by
  have check : Emit.Safe hs _ := (Emit.Safe.code 0 (.doif (classTest cls)) 1).bind fun _ =>
    (Emit.Safe.line (.store .value (.register slot) (.int 1))).bind fun _ =>
      (Emit.Safe.code (-1) .endi 0).bind fun _ =>
        .ite (c := nullable) (.code (-1) .endi 0) (.pure ())
  exact .ite ((Emit.Safe.code ..).bind fun _ => check) check

theorem isInstanceCode_safe (env : Env) (what : String) {base : Code} (single : base.Single hs)
    (cls : Classifier) (nullable : Bool) (ty : TypeId) :
    (isInstanceCode env what base cls nullable ty).Safe hs := by
  refine LeafCode.ofSlot_safe env (Slot.computed_safe what) fun more outs count => ?_
  refine .inScope (Emit.Safe.temp.bind fun slot => (Emit.Safe.line _).bind fun _ => ?_)
  refine (onTarget_safe env (single.mono more) (classCheck_safe ..)).bind fun _ => ?_
  exact Slot.put_safe outs (by omega) _ _

theorem retypeSlot_safe {target : List Slot} (safe : Slot.AllSafe hs target)
    (inside : 0 < target.length) (ty : TypeId) : (retypeSlot target ty).Safe hs where
  inline forWrite _ held := Slot.inlineAt_regular safe inside forWrite held
  write input _ := Slot.writeAt_safe safe inside input ty

theorem castCode_safe (env : Env) {base : Code} (single : base.Single hs) (ty : TypeId) :
    (castCode env base ty).Safe hs := by
  refine LeafCode.ofSlot_safe env ⟨fun forWrite _ held => ?_, single.write⟩ fun more outs count => ?_
  · exact single.inlineAt_regular forWrite held
  · exact single.read more (retypeSlot_safe outs (by omega) ty)

def OperandCode.AllSafe (handles : List Nat) (tail : List OperandCode) : Prop :=
  ∀ o ∈ tail, o.expr.Single handles

theorem OperandCode.AllSafe.mono (safe : AllSafe hs tail) (more : hs ⊆ ks) : AllSafe ks tail :=
  fun o member => (safe o member).mono more

theorem leaveAlone_regular (target : Arg) (held : s.Holds hs) (safe : OperandCode.AllSafe hs tail) :
    Regular (leaveAlone target s tail) := by
  induction tail with
  | nil => exact .ok _
  | cons o rest ih =>
    obtain ⟨here, others⟩ := List.forall_mem_cons.mp safe
    refine (here.inlineAt_regular false held).bind fun form _ => ?_
    cases form with
    | none => exact .ok _
    | some arg =>
      dsimp only
      split
      · exact .ok _
      · exact ih others

theorem applyOperands_safe (env : Env) (op : ChainOp) (target : Arg) (before : TypeId)
    (scratch : Option Nat) (safe : OperandCode.AllSafe hs tail) :
    (applyOperands env op target before scratch tail).Safe hs := by
  induction tail generalizing before scratch with
  | nil => exact .pure ()
  | cons o rest ih =>
    obtain ⟨here, others⟩ := List.forall_mem_cons.mp safe
    have computed (slot : Nat) := (here.read (List.Subset.refl hs) (Slot.register_safe env slot)).bind fun _ =>
      (Emit.Safe.lines (op.lines env.types before o.ty target (.register slot))).bind fun _ =>
        ih o.after (some slot) others
    refine here.inline_bind false fun form => ?_
    cases form with
    | some arg => exact (Emit.Safe.lines _).bind fun _ => ih _ _ others
    | none =>
      cases scratch with
      | some slot => exact (Emit.Safe.pure slot).bind computed
      | none => exact Emit.Safe.temp.bind computed

theorem computeChain_safe (env : Env) (op : ChainOp) {head : Code} (single : head.Single hs)
    (headType : TypeId) (others : OperandCode.AllSafe hs tail) (outs : Slot.AllSafe hs out)
    (count : out.length = 1) (target : Arg) :
    (computeChain env op head headType tail out target).Safe hs := by
  have apply : Emit.Safe hs _ := applyOperands_safe env op target headType none others
  have read := single.safe.read (List.Subset.refl hs) outs (count.trans single.len.symm)
  exact single.inline_bind false fun _ => .ite (read.bind fun _ => apply) apply

theorem chainTarget_safe (others : OperandCode.AllSafe hs tail) (outs : Slot.AllSafe hs out)
    (inside : 0 < out.length) : (chainTarget? tail out).Safe hs := by
  refine .ite (.pure _) (.inspect_bind ?_ fun _ form _ _ => ?_)
  · exact fun _ held => Slot.inlineAt_regular outs inside true held
  · cases form with
    | none => exact .pure _
    | some target =>
      refine .inspect_bind (fun _ held => leaveAlone_regular target held others) fun _ _ _ _ => ?_
      exact .ite (.pure _) (.pure _)

theorem chainCode_safe (env : Env) (what : String) (op : ChainOp) {head : Code}
    (single : head.Single hs) (headType : TypeId) {tail : List OperandCode}
    (others : OperandCode.AllSafe hs tail) (ty : TypeId) :
    (chainCode env what op head headType tail ty).Safe hs := by
  refine LeafCode.ofSlot_safe env (Slot.computed_safe what) fun more outs count => ?_
  have head := single.mono more
  have tail := others.mono more
  refine (chainTarget_safe tail outs (by omega)).bind fun target => ?_
  cases target with
  | some target => exact .inScope (computeChain_safe env op head headType tail outs count target)
  | none =>
    refine .inScope (Emit.Safe.temp.bind fun slot => ?_)
    refine (computeChain_safe env op head headType tail (Slot.register_alone env slot) rfl _).bind
      fun _ => ?_
    exact Slot.put_safe outs (by omega) _ _

structure CondCode.Safe (handles : List Nat) (c : CondCode) : Prop where
  test : ∀ invert, (c.test invert).Safe handles

namespace CondCode
variable {c : CondCode}

theorem Safe.mono (safe : c.Safe hs) (more : hs ⊆ ks) : c.Safe ks :=
  ⟨fun invert => (safe.test invert).mono more⟩

theorem const_safe (b : Bool) : (const b).Safe hs := ⟨fun _ => .pure _⟩

theorem compare_safe (env : Env) (op : CompareOp) {left right : Code} (l : left.Single hs)
    (r : right.Single hs) : (compare env op left right).Safe hs :=
  ⟨fun _ => (l.toArg env).bind fun _ => (r.toArg env).bind fun _ => .pure _⟩

theorem not_safe (safe : c.Safe hs) : c.not.Safe hs := ⟨fun invert => safe.test !invert⟩

theorem writeValue_safe {c : CondCode} (safe : c.Safe hs) {out : List Slot}
    (outs : Slot.AllSafe hs out) (inside : 0 < out.length) (invert : Bool) :
    (c.writeValue out invert).Safe hs := by
  unfold writeValue
  split
  · exact Slot.writeAt_safe outs inside _ _
  · refine .inScope ((safe.test invert).bind fun _ => (Emit.Safe.code ..).bind fun _ => ?_)
    refine (Slot.writeAt_safe outs inside _ _).bind fun _ => (Emit.Safe.code ..).bind fun _ => ?_
    exact (Slot.writeAt_safe outs inside _ _).bind fun _ => .code ..

theorem clause_safe (env : Env) (parent : LogicOp) (safe : c.Safe hs) (invert : Bool) :
    (c.clause env parent invert).Safe hs := by
  refine .ite (safe.test invert) (Emit.Safe.temp.bind fun slot => ?_)
  exact (writeValue_safe safe (Slot.register_alone env slot) Nat.one_pos invert).bind fun _ => .pure _

theorem logic_safe (env : Env) (op : LogicOp) {left right : CondCode} (l : left.Safe hs)
    (r : right.Safe hs) : (logic env op left right).Safe hs :=
  ⟨fun invert => (clause_safe env _ l invert).bind fun _ =>
    (clause_safe env _ r invert).bind fun _ => .pure _⟩

end CondCode

theorem testCode_safe (env : Env) (what : String) {c : CondCode} (safe : c.Safe hs) :
    (testCode env what c).Safe hs := by
  refine LeafCode.ofSlot_safe env ⟨fun _ _ _ => .ok _, Slot.noWrite_safe what⟩ ?_
  intro ks out more outs count
  exact CondCode.writeValue_safe (safe.mono more) outs (by omega) false

end AgentScript
