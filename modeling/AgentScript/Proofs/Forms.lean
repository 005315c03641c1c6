import AgentScript.Proofs.Preservation.Emission
import AgentScript.Proofs.Safety.Expression

/-! Forms that need no code. Where an expression has one, reading it into a variable writes at most the
line that stores the form, so that nothing is lost where the form is used in place of the expression.
Members without slots are the exception: no form shows them, but reading runs their code. -/
namespace AgentScript
variable {parts : List PartCode} {e : Code}

/-- Code that stores an argument in a register with one line, or fails and writes nothing. -/
structure Emit.Copies (types : Registry) (r : Nat) (c : Arg) (s : Ctx) (x : Emit Unit) : Prop where
  written : ∀ t, x.run s = (.ok (), t) →
    ∃ ty i, storeInstr types ty (.register r) c = .ok i ∧ t.lines = s.lines ++ [i]
  refused : ∀ f t, x.run s = (.error f, t) → t.lines = s.lines

section
variable {types : Registry} {env : Env} {r : Nat} {c : Arg} {s t : Ctx} {x y : Emit Unit} {out : Slot}

namespace Emit.Copies

theorem of_run (same : x.run s = y.run s) (copies : y.Copies types r c s) : x.Copies types r c s :=
  ⟨fun t ran => copies.written t (same ▸ ran), fun f t ran => copies.refused f t (same ▸ ran)⟩

theorem refuse (cause : Cause) : (Emit.refuse cause).Copies types r c s := by
  refine ⟨fun t ran => ?_, fun f t ran => ?_⟩ <;> cases ran
  rfl

theorem store (ty : TypeId) : (Emit.store env ty (.register r) c).Copies env.types r c s := by
  cases found : storeInstr env.types ty (.register r) c with
  | error cause =>
    refine of_run (y := Emit.refuse cause) ?_ (.refuse cause)
    rw [Emit.store, found]
    rfl
  | ok i =>
    have ran : (Emit.store env ty (.register r) c).run s =
        (.ok (), { s with listing := s.listing.code 0 i 0 }) := by
      rw [Emit.store, found]
      rfl
    refine ⟨fun t isEnd => ⟨ty, i, found, ?_⟩, fun f t failed => ?_⟩
    · rw [ran] at isEnd
      cases isEnd
      exact Listing.lines_code ..
    · rw [ran] at failed
      cases failed

theorem inScope (copies : x.Copies types r c (s.enter id)) : x.inScope.Copies types r c s := by
  refine ⟨fun t ran => ?_, fun f t ran => ?_⟩ <;>
    rw [show x.inScope.run s = _ from run_within id x s] at ran <;>
    obtain ⟨result, rfl⟩ := Prod.mk.inj ran
  · exact copies.written (x.run (s.enter id)).2 (Prod.ext result rfl)
  · exact copies.refused f (x.run (s.enter id)).2 (Prod.ext result rfl)

end Emit.Copies

/-- A slot that stores what it is given in a register. -/
structure Slot.Fills (env : Env) (s : Ctx) (r : Nat) (out : Slot) : Prop where
  role : out.role.get ≠ .discard
  write : ∀ t, t.bound = s.bound → ∀ input exact,
    ∃ ty, (out.write input exact).run t = (Emit.store env ty (.register r) input).run t

theorem varSlot_fills {handle : Nat} (bound : s.registerOf? handle = some r) :
    (varSlot env handle true).Fills env s r := by
  refine ⟨nofun, fun t same input exact => ⟨exact, ?_⟩⟩
  have found : handleArg handle t = .ok (.register r) := by
    rw [handleArg, Ctx.registerOf?, same, show s.bound.lookup handle = some r from bound]
  simp [varSlot, Emit.run_bind, Emit.run_inspect, found, Except.mapError]

theorem retypeSlot_fills (fills : out.Fills env s r) (ty : TypeId) :
    (retypeSlot [out] ty).Fills env s r :=
  ⟨fills.role, fun t same input _ => fills.write t same input ty⟩

theorem writeAt_copies (fills : out.Fills env s r) (same : t.bound = s.bound) (ty : TypeId) :
    (Slot.writeAt [out] 0 c ty).Copies env.types r c t := by
  obtain ⟨ty', stores⟩ := fills.write t same c ty
  exact .of_run stores (.store ty')

theorem put_copies (fills : out.Fills env s r) (ty : TypeId) :
    (Slot.put [out] c ty).Copies env.types r c s := by
  have role : Slot.roleAt [out] 0 ≠ .discard := fills.role
  rw [Slot.put, if_neg role]
  exact writeAt_copies fills rfl ty

end

/-- The form of a slot depends on what is bound, and on nothing else. -/
def Slot.Settled (slot : Slot) : Prop :=
  ∀ forWrite s t, t.bound = s.bound → slot.inline forWrite t = slot.inline forWrite s

def Slot.AllSettled (slots : List Slot) : Prop := ∀ slot ∈ slots, slot.Settled

namespace Slot.AllSettled
variable {slots : List Slot} {s t : Ctx}

theorem append (first : AllSettled a) (second : AllSettled b) : AllSettled (a ++ b) :=
  List.forall_mem_append.mpr ⟨first, second⟩

theorem single {slot : Slot} (settled : slot.Settled) : AllSettled [slot] :=
  List.forall_mem_singleton.mpr settled

theorem inlineAt (settled : AllSettled slots) (i : Nat) (forWrite : Bool) (same : t.bound = s.bound) :
    Slot.inlineAt slots i forWrite t = Slot.inlineAt slots i forWrite s := by
  unfold Slot.inlineAt Slot.get
  split
  · next slot found => exact settled slot (List.mem_of_getElem? found) forWrite s t same
  · rfl

theorem inlineAll (settled : AllSettled slots) (same : t.bound = s.bound) :
    Slot.inlineAll t slots = Slot.inlineAll s slots := by
  induction slots with
  | nil => rfl
  | cons slot rest ih =>
    obtain ⟨here, others⟩ := List.forall_mem_cons.mp settled
    rw [Slot.inlineAll, Slot.inlineAll, here false s t same, ih others]

end Slot.AllSettled

def PartCode.Settled : PartCode → Prop
  | text _ => True
  | expr _ code => Slot.AllSettled code.slots

theorem PartCode.tryText_settled (settled : ∀ p ∈ parts, p.Settled) {s t : Ctx} (same : t.bound = s.bound) :
    tryText t parts = tryText s parts := by
  induction parts with
  | nil => rfl
  | cons p rest ih =>
    obtain ⟨here, others⟩ := List.forall_mem_cons.mp settled
    cases p with
    | text text => rw [tryText, tryText, ih others]
    | expr readType code =>
      rw [tryText, tryText, Slot.AllSettled.inlineAll here same, ih others]

def Placeholder.Each (P : Code → Prop) (table : Placeholder) : Prop := ∀ id e, table id = some e → P e

theorem placeholders_each {P : Code → Prop} {env : Env} {deferred : List (Option Expr)}
    (each : ∀ table : Placeholder, table.Each P → ∀ e, some e ∈ deferred → P (codeOf env table e))
    (rounds : Nat) : (placeholders env deferred rounds).Each P := by
  induction rounds with
  | zero => exact nofun
  | succ rounds ih =>
    intro id e found
    unfold placeholders at found
    split at found
    · next entry isEntry =>
      cases found
      exact each _ ih entry (List.mem_of_getElem? isEntry)
    · cases found

section
variable (env : Env) {table : Placeholder}

mutual
theorem Leaf.code_settled (known : table.Each fun e => Slot.AllSettled e.slots) :
    (leaf : Leaf) → Slot.AllSettled (leaf.code env table).slots
  | .const _ | .builtin .. | .field .. | .isInstance .. | .chain .. | .test .. => by
    exact .single fun _ _ _ _ => rfl
  | .var handle ty writable => by
    refine .single fun forWrite s t same => ?_
    simp only [varSlot, handleArg, Ctx.registerOf?, same]
  | .sink key len ty => by
    intro slot member
    cases List.eq_of_mem_replicate member
    exact fun _ _ _ _ => rfl
  | .cast base _ | .retype base _ => by
    exact .single fun forWrite s t same => (codeOf_settled known base).inlineAt 0 forWrite same
  | .inline parts ty => by
    refine .single fun forWrite s t same => ?_
    simp only [PartCode.tryText_settled (partCodes_settled known parts) same]
  | .deferred key id params => by
    intro slot member
    obtain ⟨i, _, rfl⟩ := List.mem_mapIdx.mp member
    intro forWrite s t same
    have asked : (do Slot.inlineAt (← table.get id).slots i forWrite t) =
        (do Slot.inlineAt (← table.get id).slots i forWrite s) := by
      unfold Placeholder.get
      split
      · next e found => exact (known id e found).inlineAt i forWrite same
      · rfl
    simp only [deferredSlot, asked]
  | .call .. | .seq .. => by
    intro slot member
    obtain ⟨_, _, rfl⟩ := List.mem_map.mp member
    exact fun _ _ _ _ => rfl
theorem codeOf_settled (known : table.Each fun e => Slot.AllSettled e.slots) :
    (e : List (Piece Leaf)) → Slot.AllSettled (codeOf env table e).slots
  | [] => List.forall_mem_nil _
  | .whole leaf :: rest => .append (Leaf.code_settled known leaf) (codeOf_settled known rest)
  | .view leaf base len :: rest => by
    refine .append (fun slot member => ?_) (codeOf_settled known rest)
    exact Leaf.code_settled known leaf slot (List.mem_of_mem_drop (List.mem_of_mem_take member))
theorem partCodes_settled (known : table.Each fun e => Slot.AllSettled e.slots) :
    (parts : List Part) → ∀ p ∈ partCodes env table parts, p.Settled
  | [] => List.forall_mem_nil _
  | .text _ :: rest => List.forall_mem_cons.mpr ⟨trivial, partCodes_settled known rest⟩
  | .expr e :: rest =>
    List.forall_mem_cons.mpr ⟨codeOf_settled known e, partCodes_settled known rest⟩
end

end

namespace Cache
variable {α : Type} [Slotted α]

theorem runs_uncopied (start n : Nat) :
    runs start (List.replicate (n + 1) false) = [⟨false, start, n + 1⟩] := by
  induction n generalizing start with
  | zero => rfl
  | succ n ih =>
    rw [List.replicate_succ, runs, ih (start + 1)]
    simp

/-- Where nothing is copied, a sequence that has slots stays what it is. -/
theorem make_uncopied (s : Source α) (next : Nat) : make s (fun _ => false) next =
    (.ok ⟨[], if Slices.len s.input = 0 then [] else s.input⟩, next) := by
  have flags : (List.range (Slices.len s.input)).map (fun _ => false) =
      List.replicate (Slices.len s.input) false := by simp
  rw [make, flags]
  cases count : Slices.len s.input with
  | zero => rfl
  | succ n =>
    have whole : Slices.cutWithin s.input 0 (n + 1) = s.input := by
      cases input : s.input with
      | nil => rfl
      | cons p rest =>
        rw [input, Slices.len] at count
        rw [Slices.cutWithin, if_pos count.symm]
    rw [runs_uncopied, pieces, pieces]
    simp [whole, Slices.group, Slices.concat]

end Cache

theorem Code.slots_of_len (none : Slices.len e = 0) : e.slots = [] := by
  refine List.flatMap_eq_nil_iff.mpr fun p member => ?_
  have empty : p.len = 0 := by
    induction e with
    | nil => cases member
    | cons q rest ih =>
      rw [Slices.len] at none
      rcases List.mem_cons.mp member with rfl | later
      · omega
      · exact ih (by omega) later
  cases p with
  | whole leaf => exact List.eq_nil_of_length_eq_zero empty
  | view leaf base len =>
    cases empty
    simp [pieceSlots, viewOf]

theorem Slot.needCode_of_inlineAll {s : Ctx} {slots : List Slot} {args : List Arg}
    (found : inlineAll s slots = .ok (some args)) :
    needCode s slots = .ok (List.replicate slots.length false) := by
  induction slots generalizing args with
  | nil => rfl
  | cons slot rest ih =>
    obtain ⟨arg, isForm, found⟩ := bind_some found
    obtain ⟨args, isRest, found⟩ := bind_some found
    simp [needCode, isForm, ih isRest, List.replicate_succ, bind, Except.bind, pure, Except.pure]

namespace PartCode
variable {s : Ctx}

/-- An expression whose slots all have forms is rendered without code. -/
theorem exprText_forms (env : Env) (readType : Nat → Except Cause TypeId) {code : Code}
    (settled : Slot.AllSettled code.slots) {args : List Arg}
    (found : Slot.inlineAll s code.slots = .ok (some args)) :
    ∃ t, (exprText env readType code).run s = (.ok (argsText args), t) ∧ t.bound = s.bound ∧
      t.lines = s.lines := by
  have flags : (fun i => (List.replicate code.slots.length false).getD i false) = fun _ => false := by
    funext i
    rw [List.getD_eq_getElem?_getD, List.getElem?_replicate]
    split <;> rfl
  have output : Slot.inlineAll (Op.perform s (.handles s.nextHandle))
      (Code.slots (if Slices.len code = 0 then [] else code)) = .ok (some args) := by
    split
    · next none =>
      rw [Code.slots_of_len none] at found
      exact found
    · exact (settled.inlineAll (s := s) (t := Op.perform s (.handles s.nextHandle)) rfl).trans found
  refine ⟨Op.perform s (.handles s.nextHandle), ?_, rfl, rfl⟩
  simp only [exprText, cached, Emit.run_bind, Emit.run_inspect, Slot.needCode_of_inlineAll found,
    Except.mapError, Emit.run_current, flags, Cache.make_uncopied, Emit.run_perform, Emit.run_ofExcept,
    writeCopies, output, Emit.run_pure]

/-- Text whose parts all have forms is rendered without code. -/
theorem render_forms (env : Env) (settled : ∀ p ∈ parts, p.Settled) {text : String}
    (found : tryText s parts = .ok (some text)) :
    ∃ t, (render env parts).run s = (.ok text, t) ∧ t.bound = s.bound ∧ t.lines = s.lines := by
  induction parts generalizing s text with
  | nil =>
    cases found
    exact ⟨s, rfl, rfl, rfl⟩
  | cons p rest ih =>
    obtain ⟨here, others⟩ := List.forall_mem_cons.mp settled
    cases p with
    | text first =>
      obtain ⟨more, isRest, found⟩ := bind_some found
      cases found
      obtain ⟨t, ran, bound, lines⟩ := ih others isRest
      exact ⟨t, by rw [render, Emit.run_bind, ran]; rfl, bound, lines⟩
    | expr readType code =>
      obtain ⟨args, isForms, found⟩ := bind_some found
      obtain ⟨more, isRest, found⟩ := bind_some found
      cases found
      obtain ⟨t, ran, bound, lines⟩ := exprText_forms env readType here isForms
      obtain ⟨u, ran', bound', lines'⟩ := ih others ((tryText_settled others bound).trans isRest)
      refine ⟨u, ?_, bound'.trans bound, lines'.trans lines⟩
      rw [render, Emit.run_bind, ran]
      dsimp only
      rw [Emit.run_bind, ran']
      rfl

end PartCode

/-- Wherever a slot of the leaf has a form, reading that slot alone stores the form. -/
structure LeafCode.Candid (env : Env) (s : Ctx) (leaf : LeafCode) : Prop where
  view : ∀ {i slot c r out}, leaf.slots[i]? = some slot → slot.inline false s = .ok (some c) →
    out.Fills env s r → (leaf.readView i 1 [out]).Copies env.types r c s
  whole : ∀ {slot c r out}, leaf.slots = [slot] → slot.inline false s = .ok (some c) →
    out.Fills env s r → (leaf.read [out]).Copies env.types r c s

section
variable {env : Env} {s : Ctx} {c : Arg} {r : Nat} {out : Slot} {i : Nat} {slot : Slot}

theorem LeafCode.Candid.of_slot {slot : Slot} {read : List Slot → Emit Unit}
    (copies : ∀ {c r out}, slot.inline false s = .ok (some c) → out.Fills env s r →
      (read [out]).Copies env.types r c s) : (LeafCode.ofSlot env slot read).Candid env s where
  view {i other c r out} found form fills := by
    cases i with
    | zero =>
      cases found
      exact copies form fills
    | succ i => cases found
  whole only form fills := by
    cases only
    exact copies form fills

theorem LeafCode.Candid.of_mute {leaf : LeafCode}
    (mute : ∀ slot ∈ leaf.slots, slot.inline false s = .ok none) : leaf.Candid env s where
  view found form _ := by
    rw [mute _ (List.mem_of_getElem? found)] at form
    cases form
  whole only form _ := by
    rw [mute _ (by rw [only]; exact List.mem_singleton_self _)] at form
    cases form

/-- A piece that has slots, all of them within a candid leaf. -/
structure Code.PieceCandid (env : Env) (s : Ctx) (p : Piece LeafCode) : Prop where
  filled : 0 < p.len
  fits : p.Fits
  leaf : p.leaf.Candid env s

theorem Slot.get_eq {slots : List Slot} (found : get slots i = .ok slot) : slots[i]? = some slot := by
  unfold get at found
  split at found <;> cases found
  assumption

namespace Code
variable {p : Piece LeafCode}

theorem run_read_piece (one : p.len = 1) (out : Slot) (s : Ctx) :
    (Code.read [p] [out]).run s = (readPiece p [out]).run s := by
  have count : [out].length = Slices.len [p] := by simp [Slices.len, one]
  rw [Code.read, if_pos count, readPieces, one]
  change (readPiece p [out] >>= fun _ => readPieces [] []).run s = _
  rw [Emit.run_bind]
  rcases (readPiece p [out]).run s with ⟨f | a, t⟩ <;> rfl

theorem PieceCandid.slots_length (candid : PieceCandid env s p) : (pieceSlots p).length = p.len := by
  cases p with
  | whole leaf => rfl
  | view leaf base len =>
    have inside : base + len ≤ leaf.slots.length := candid.fits
    simp only [pieceSlots, viewOf, List.length_take, List.length_drop, Piece.len]
    omega

theorem PieceCandid.cut (candid : PieceCandid env s p) (found : (pieceSlots p)[i]? = some slot)
    (form : slot.inline false s = .ok (some c)) (fills : out.Fills env s r) :
    (readPiece (p.cut i 1) [out]).Copies env.types r c s := by
  have inside : i < p.len := candid.slots_length ▸ (List.getElem?_eq_some_iff.mp found).1
  cases p with
  | whole leaf =>
    have inside : i < leaf.slots.length := inside
    by_cases one : leaf.slots.length = 1
    · have first : i = 0 := by omega
      subst first
      obtain ⟨only, isOnly⟩ := List.length_eq_one_iff.mp one
      rw [pieceSlots, isOnly] at found
      cases found
      have whole : (Piece.whole leaf).cut 0 1 = .whole leaf := if_pos one.symm
      rw [whole]
      exact candid.leaf.whole isOnly form fills
    · have several : 1 ≠ (Piece.whole leaf).len := Ne.symm one
      have view : (Piece.whole leaf).cut i 1 = .view leaf i 1 := by
        rw [Piece.cut, if_neg several, Piece.run, if_neg fun all => several all.2]
      rw [view]
      exact candid.leaf.view found form fills
  | view leaf base len =>
    have inside : i < len := inside
    have fits : base + len ≤ leaf.slots.length := candid.fits
    have shown : leaf.slots[base + i]? = some slot := by
      rw [pieceSlots, viewOf, List.getElem?_take_of_lt inside, List.getElem?_drop] at found
      exact found
    by_cases one : len = 1
    · have first : i = 0 := by omega
      subst first one
      rw [show (Piece.view leaf base 1).cut 0 1 = .view leaf base 1 from rfl]
      exact candid.leaf.view shown form fills
    · have several : 1 ≠ (Piece.view leaf base len).len := Ne.symm one
      have notAll : ¬ (base + i = 0 ∧ 1 = leaf.slots.length) := by omega
      have view : (Piece.view leaf base len).cut i 1 = .view leaf (base + i) 1 := by
        rw [Piece.cut, if_neg several]
        exact if_neg notAll
      rw [view]
      exact candid.leaf.view shown form fills

/-- One slot of a sequence without empty members is a slot of one piece. -/
theorem cutWithin_copies (candid : Slices.All (PieceCandid env s) e) (found : e.slots[i]? = some slot)
    (form : slot.inline false s = .ok (some c)) (fills : out.Fills env s r) :
    (Code.read (Slices.cutWithin e i 1) [out]).Copies env.types r c s := by
  induction e generalizing i with
  | nil => cases found
  | cons p rest ih =>
    obtain ⟨here, others⟩ := Slices.all_cons.mp candid
    have filled := here.filled
    have count := here.slots_length
    have first (inside : (pieceSlots p)[i]? = some slot) :
        (Code.read [p.cut i 1] [out]).Copies env.types r c s :=
      .of_run (run_read_piece (by simp) out s) (here.cut inside form fills)
    change (pieceSlots p ++ Code.slots rest)[i]? = some slot at found
    by_cases early : i < p.len
    · rw [List.getElem?_append_left (by omega)] at found
      unfold Slices.cutWithin
      split
      · next all =>
        have last : rest = [] := by
          cases rest with
          | nil => rfl
          | cons q rest =>
            have more := (Slices.all_cons.mp others).1.filled
            rw [Slices.len] at all
            omega
        subst last
        have one : p.len = 1 := by simpa [Slices.len] using all.symm
        have same : p.cut i 1 = p := if_pos one.symm
        exact same ▸ first found
      · rw [if_neg (by omega), if_pos (by omega)]
        exact first found
    · rw [List.getElem?_append_right (by omega), count] at found
      have more : 0 < Slices.len rest := by
        cases rest with
        | nil => cases found
        | cons q rest =>
          have filled := (Slices.all_cons.mp others).1.filled
          rw [Slices.len]
          omega
      have later : (Slices.cutWithin (p :: rest) i 1) = Slices.cutWithin rest (i - p.len) 1 := by
        rw [Slices.cutWithin, if_neg (by omega), if_neg (by omega), if_neg (by omega), if_pos (by omega)]
      rw [later]
      exact ih others found

theorem read_copies (candid : Slices.All (PieceCandid env s) e)
    (form : Slot.inlineAt e.slots 0 false s = .ok (some c)) (fills : out.Fills env s r) :
    (e.read [out]).Copies env.types r c s := by
  obtain ⟨slot, found, form⟩ := bind_ok form
  by_cases one : Slices.len e = 1
  · have whole : Slices.cutWithin e 0 1 = e := by
      cases e with
      | nil => rfl
      | cons p rest =>
        rw [Slices.len] at one
        rw [Slices.cutWithin, if_pos one.symm]
    have copies := cutWithin_copies candid (Slot.get_eq found) form fills
    rwa [whole] at copies
  · have several : [out].length ≠ Slices.len e := Ne.symm one
    rw [Code.read, if_neg several]
    exact .refuse _

end Code

end

mutual
/-- Whether all that is read along with a slot of the leaf has slots of its own. -/
def Leaf.dense : Leaf → Bool
  | .cast base _ => denseAll base
  | _ => true
def densePiece : Piece Leaf → Bool
  | .whole leaf => 0 < leaf.accesses.length && leaf.dense
  | .view leaf base len => 0 < len && base + len ≤ leaf.accesses.length && leaf.dense
def denseAll : List (Piece Leaf) → Bool
  | [] => true
  | p :: rest => densePiece p && denseAll rest
end

/-- No member is without slots, here and in what is cast, and views lie within their leaves. -/
def Expr.Dense (e : Expr) : Prop := denseAll e = true

/-- What placeholders stand for has forms that reading agrees with. -/
def Code.Candid (env : Env) (s : Ctx) (e : Code) : Prop :=
  Slot.AllSettled e.slots ∧ Slices.All (PieceCandid env s) e

section
variable {env : Env} {s : Ctx} {table : Placeholder}

theorem field_candid (base : Code) (f : Field) : (fieldCode env base f).Candid env s := by
  refine .of_slot fun {c r out} form fills => ?_
  have named : fieldReadName? base f = some c := Except.ok.inj form
  rw [fieldRead, named]
  exact writeAt_copies fills rfl f.ty

theorem test_candid (what : String) (cond : CondCode) : (testCode env what cond).Candid env s := by
  refine .of_slot fun {c r out} form fills => ?_
  rw [CondCode.writeValue]
  cases known : cond.constant with
  | none => simp [known] at form
  | some b =>
    obtain rfl : Arg.int (if b then 1 else 0) = c := by simpa [known] using form
    simp only [Bool.bne_false]
    exact writeAt_copies fills rfl Registry.boolean

theorem inline_candid (what : String) (settled : ∀ p ∈ parts, p.Settled) (ty : TypeId) :
    (inlineCode env what parts ty).Candid env s := by
  refine .of_slot fun {c r out} form fills => .inScope ?_
  obtain ⟨text, found, form⟩ := bind_some form
  cases form
  have inside : PartCode.tryText (s.enter id) parts = .ok (some text) :=
    (PartCode.tryText_settled settled (s := s) (t := s.enter id) rfl).trans found
  obtain ⟨t, ran, bound, lines⟩ := PartCode.render_forms env settled inside
  have last := writeAt_copies (c := .raw text) fills (t := t) bound ty
  have same : (do
      let text ← PartCode.render env parts
      Slot.writeAt [out] 0 (.raw text) ty).run (s.enter id) =
      (Slot.writeAt [out] 0 (.raw text) ty).run t := by
    rw [Emit.run_bind, ran]
  refine ⟨fun u isEnd => ?_, fun f u failed => ?_⟩
  · rw [same] at isEnd
    rw [← lines]
    exact last.written u isEnd
  · rw [same] at failed
    rw [← lines]
    exact last.refused f u failed

theorem deferred_candid (known : table.Each (Code.Candid env s)) (what : String) (id : Nat)
    (perms : List Perm) : (deferredCode what table id perms).Candid env s := by
  have entry {i : Nat} {slot : Slot} {c : Arg}
      (found : (deferredCode what table id perms).slots[i]? = some slot)
      (form : slot.inline false s = .ok (some c)) :
      ∃ e, table id = some e ∧ Slot.inlineAt e.slots i false s = .ok (some c) := by
    simp only [deferredCode, List.getElem?_mapIdx, Option.map_eq_some_iff] at found
    obtain ⟨perm, _, rfl⟩ := found
    simp only [deferredSlot, Bool.false_eq_true, ↓reduceIte] at form
    split at form
    · obtain ⟨e, isEntry, form⟩ := bind_ok form
      refine ⟨e, ?_, form⟩
      unfold Placeholder.get at isEntry
      split at isEntry <;> cases isEntry
      assumption
    · cases form
  refine ⟨fun {i slot c r out} found form fills => ?_, fun {slot c r out} only form fills => ?_⟩
  · obtain ⟨e, isEntry, form⟩ := entry found form
    obtain ⟨slot, found, form⟩ := bind_ok form
    have copies := Code.cutWithin_copies (known id e isEntry).2 (Slot.get_eq found) form fills
    have view : (deferredCode what table id perms).readView i 1 [out] =
        (do (← Emit.ofExcept (e.cut i 1)).read [out]) := by
      simp only [deferredCode, Placeholder.get, isEntry]
      rfl
    rw [view, Code.cut, Slices.cut]
    by_cases outside : Slices.len e < i + 1
    · rw [if_pos outside]
      exact .refuse _
    · rw [if_neg outside]
      exact copies
  · obtain ⟨e, isEntry, form⟩ := entry (i := 0) (by rw [only]; rfl) form
    refine .of_run ?_ (Code.read_copies (known id e isEntry).2 form fills)
    simp only [deferredCode, Placeholder.get, isEntry]
    rfl

mutual
theorem Leaf.code_candid (known : table.Each (Code.Candid env s)) :
    (leaf : Leaf) → leaf.dense = true → (leaf.code env table).Candid env s
  | .const c, _ => by
    refine .of_slot fun form fills => ?_
    cases form
    exact put_copies fills c.ty
  | .var handle ty writable, _ => by
    refine .of_slot fun {c r out} form fills => ?_
    have found : handleArg handle s = .ok c := by
      cases answer : handleArg handle s with
      | error cause => simp [varSlot, answer, Except.map] at form
      | ok place => simpa [varSlot, answer, Except.map] using form
    refine .of_run ?_ (put_copies fills ty)
    rw [Emit.run_bind, Emit.run_inspect, found]
    rfl
  | .builtin name ty writable role, _ => by
    refine .of_slot fun form fills => ?_
    cases form
    exact put_copies fills ty
  | .sink key len ty, _ => by
    refine .of_mute fun slot member => ?_
    cases List.eq_of_mem_replicate member
    rfl
  | .field .., _ => field_candid ..
  | .isInstance .., _ | .chain .., _ => .of_mute (List.forall_mem_singleton.mpr rfl)
  | .cast base ty, dense =>
    .of_slot fun form fills =>
      Code.read_copies (codeOf_candid known base dense) form (retypeSlot_fills fills ty)
  | .retype .., _ => .of_slot fun _ _ => .refuse _
  | .test .., _ => test_candid ..
  | .inline parts ty, _ =>
    inline_candid _ (partCodes_settled env (fun id e found => (known id e found).1) parts) ty
  | .deferred .., _ => deferred_candid known ..
  | .call .., _ | .seq .., _ => by
    refine .of_mute fun slot member => ?_
    obtain ⟨_, _, rfl⟩ := List.mem_map.mp member
    rfl
theorem codeOf_candid (known : table.Each (Code.Candid env s)) :
    (e : List (Piece Leaf)) → denseAll e = true →
      Slices.All (Code.PieceCandid env s) (codeOf env table e)
  | [], _ => Slices.all_nil
  | .whole leaf :: rest, dense => by
    simp only [denseAll, densePiece, Bool.and_eq_true, decide_eq_true_eq] at dense
    rw [codeOf, pieceCode]
    have filled : 0 < (leaf.code env table).slots.length := by
      rw [Leaf.code_count]
      exact dense.1.1
    exact Slices.all_cons.mpr ⟨⟨filled, trivial, Leaf.code_candid known leaf dense.1.2⟩,
      codeOf_candid known rest dense.2⟩
  | .view leaf base len :: rest, dense => by
    simp only [denseAll, densePiece, Bool.and_eq_true, decide_eq_true_eq] at dense
    rw [codeOf, pieceCode]
    have fits : base + len ≤ (leaf.code env table).slots.length := by
      rw [Leaf.code_count]
      exact dense.1.1.2
    exact Slices.all_cons.mpr ⟨⟨dense.1.1.1, fits, Leaf.code_candid known leaf dense.1.2⟩,
      codeOf_candid known rest dense.2⟩
end

end

/-- Where an expression has a form, reading it into a variable writes nothing but the line that stores
the form, and nothing at all if it fails, provided that no member of it is without slots. -/
theorem Expr.read_stores_form (env : Env) {deferred : List (Option Expr)}
    (dense : ∀ e, some e ∈ deferred → Expr.Dense e) {e : Expr} (filled : e.Dense) {s : Ctx}
    {out r : Nat} (isOut : s.registerOf? out = some r) {c : Arg} :
    let code := codeOf env (placeholderTable env deferred) e
    Slot.inlineAt code.slots 0 false s = .ok (some c) →
    (∀ t, (code.read [varSlot env out true]).run s = (.ok (), t) →
      ∃ ty i, storeInstr env.types ty (.register r) c = .ok i ∧ t.lines = s.lines ++ [i]) ∧
    ∀ f t, (code.read [varSlot env out true]).run s = (.error f, t) → t.lines = s.lines := by
  intro code form
  have known : (placeholderTable env deferred).Each (Code.Candid env s) := by
    refine placeholders_each (fun table each e member => ⟨?_, ?_⟩) _
    · exact codeOf_settled env (fun id e found => (each id e found).1) e
    · exact codeOf_candid each e (dense e member)
  have copies := Code.read_copies (codeOf_candid known e filled) form (varSlot_fills isOut)
  exact ⟨copies.written, copies.refused⟩

/-- A cast of the second argument of a macro, which is a field of the owner. -/
theorem Expr.read_stores_form_argument :
    let env : Env := ⟨.initial, .standard⟩
    let s := (Op.bind 0).perform (Ctx.start 0 1)
    let owner := Expr.leaf (.builtin "ownr" Registry.agent false .owner)
    let arguments := Slices.group [Expr.const ⟨.int 1, Registry.integer⟩,
      Expr.leaf (.field owner ⟨"count", Registry.integer, 3⟩)]
    let argument : Piece Leaf := .view (.deferred 0 0 [(Registry.integer, .r), (Registry.integer, .r)]) 1 1
    let e := Expr.leaf (.cast [argument] Registry.float)
    let code := codeOf env (placeholderTable env [some arguments]) e
    let x := code.read [varSlot env 0 true]
    Slot.inlineAt code.slots 0 false s = .ok (some (.ownField 3)) ∧ (x.run s).1 = .ok () ∧
      ∃ ty i, storeInstr env.types ty (.register 0) (.ownField 3) = .ok i ∧
        (x.run s).2.lines = s.lines ++ [i] := by
  intro env s owner arguments argument e code x
  have dense : ∀ e, some e ∈ [some arguments] → Expr.Dense e := by
    intro e member
    cases List.mem_singleton.mp member
    rfl
  have form : Slot.inlineAt code.slots 0 false s = .ok (some (.ownField 3)) := rfl
  have ran : x.run s = (.ok (), (x.run s).2) := rfl
  have isOut : s.registerOf? 0 = some 0 := rfl
  obtain ⟨written, _⟩ := Expr.read_stores_form env dense (e := e) rfl isOut form
  exact ⟨form, rfl, written _ ran⟩

/-- A member without slots is run where the group is read, and lost where its form is used. -/
theorem Expr.read_runs_slotless :
    let env : Env := ⟨.initial, .standard⟩
    let s := (Op.bind 1).perform ((Op.bind 0).perform (Ctx.start 0 2))
    let hit := Expr.leaf (.seq 0 [.mk .unknown (.inline [.text "outs \"hit\""])] [])
    let e := Slices.group [hit, Expr.leaf (.var 0 Registry.integer true)]
    let code := codeOf env (placeholderTable env []) e
    Slices.len e = 1 ∧ Slot.inlineAt code.slots 0 false s = .ok (some (.register 0)) ∧
      ∃ t, (code.read [varSlot env 1 true]).run s = (.ok (), t) ∧ t.lines = s.lines ++
        [.raw "outs \"hit\"", .store .value (.register 1) (.register 0)] :=
  ⟨rfl, rfl, _, rfl, rfl⟩

end AgentScript
