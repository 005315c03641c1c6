import AgentScript.Code.Slot
import AgentScript.Proofs.Preservation.Machine

/-! What a routine writes. `Emit.Emits` follows the lines that are added to a listing, and `Emit.Codes`
what they do to the registers. Handles below a bound are those of variables; handles of intermediate
values come after them, so that writing an expression leaves the registers of all variables alone. -/
namespace AgentScript
variable {s : Ctx}

def Item.line? : Item α → Option α
  | code _ line => some line
  | _ => none

def Listing.lines (l : Listing α) : List α := l.items.toList.filterMap Item.line?

namespace Listing

theorem lines_comment (l : Listing α) (text : String) : (l.comment text).lines = l.lines := by
  simp [lines, comment, Item.line?]

theorem lines_flush (l : Listing α) : l.flush.lines = l.lines := by
  unfold flush
  split
  · exact lines_comment l _
  · rfl

theorem lines_code (l : Listing α) (before : Int) (line : α) (after : Int) :
    (l.code before line after).lines = l.lines ++ [line] := by
  have flushed := lines_flush { l with indent := shift l.indent before }
  simp only [lines] at flushed ⊢
  simp [code, Item.line?, flushed]

end Listing

def Ctx.lines (s : Ctx) : List Instr := s.listing.lines

namespace Emit
variable {f : α → Emit β}

theorem bind_assoc (x : Emit α) (f : α → Emit β) (g : β → Emit γ) :
    x >>= f >>= g = x >>= fun a => f a >>= g := by
  change (x.andThen f).andThen g = x.andThen fun a => (f a).andThen g
  induction x with
  | pure a => rfl
  | fail f => rfl
  | look next ih => exact congrArg look (funext ih)
  | act op next ih => exact congrArg (act op) ih
  | scope loop body next ih => exact congrArg (scope loop body) ih

/-- What is known of a routine that succeeds: its answer, where it ends, and the lines it adds. -/
structure Emits (s : Ctx) (x : Emit α) (post : α → Ctx → List Instr → Prop) : Prop where
  found : ∀ a t, x.run s = (.ok a, t) → ∃ code, t.lines = s.lines ++ code ∧ post a t code

namespace Emits
variable {x : Emit α} {post : α → Ctx → List Instr → Prop}

theorem bind {P : α → Ctx → List Instr → Prop} {Q : β → Ctx → List Instr → Prop} (first : Emits s x P)
    (next : ∀ a t code, P a t code → Emits t (f a) fun b u more => Q b u (code ++ more)) :
    Emits s (x >>= f) Q := by
  refine ⟨fun b u ran => ?_⟩
  rw [run_bind] at ran
  split at ran
  · next a t ranFirst =>
    obtain ⟨code, lines, here⟩ := first.found a t ranFirst
    obtain ⟨more, lines', there⟩ := (next a t code here).found b u ran
    exact ⟨code ++ more, by rw [lines', lines, List.append_assoc], there⟩
  · cases ran

theorem mono {P Q : α → Ctx → List Instr → Prop} (emits : Emits s x P)
    (weaker : ∀ a t code, P a t code → Q a t code) : Emits s x Q := by
  refine ⟨fun a t ran => ?_⟩
  obtain ⟨code, lines, here⟩ := emits.found a t ran
  exact ⟨code, lines, weaker a t code here⟩

theorem pure (here : post a s []) : Emits s (Pure.pure a) post := by
  refine ⟨fun b t ran => ?_⟩
  cases ran
  exact ⟨[], (List.append_nil _).symm, here⟩

theorem refuse (c : Cause) : Emits s (Emit.refuse c) post := by
  refine ⟨fun a t ran => ?_⟩
  cases ran

theorem code (before : Int) (i : Instr) (after : Int) : Emits s (Emit.code before i after) fun _ t code =>
    code = [i] ∧ t = { s with listing := s.listing.code before i after } := by
  refine ⟨fun a t ran => ?_⟩
  cases ran
  exact ⟨[i], Listing.lines_code .., rfl, rfl⟩

theorem comment (text : String) : Emits s (Emit.comment text) fun _ t code =>
    code = [] ∧ t = { s with listing := s.listing.comment text } := by
  refine ⟨fun a t ran => ?_⟩
  cases ran
  exact ⟨[], (Listing.lines_comment ..).trans (List.append_nil _).symm, rfl, rfl⟩

theorem queue (text : String) : Emits s (Emit.queue text) fun _ t code =>
    code = [] ∧ t = { s with listing := s.listing.queue text } := by
  refine ⟨fun a t ran => ?_⟩
  cases ran
  exact ⟨[], (List.append_nil _).symm, rfl, rfl⟩

theorem located (pos : Position) (emits : Emits s x post) : Emits s (x.located pos) post := by
  refine ⟨fun a t ran => ?_⟩
  rw [run_located] at ran
  rcases result : x.run s with ⟨f | b, u⟩
  · rw [result] at ran
    cases ran
  · rw [result] at ran
    cases ran
    exact emits.found a u result

theorem within (loop : Option LoopTarget → Option LoopTarget) {x : Emit Unit}
    {post : Unit → Ctx → List Instr → Prop} (emits : Emits (s.enter loop) x post) :
    Emits s (Emit.within loop x) fun a t code => ∃ u, post a u code ∧ t = u.leave s.outside := by
  refine ⟨fun a t ran => ?_⟩
  rw [run_within] at ran
  obtain ⟨ok, rfl⟩ := Prod.mk.inj ran
  obtain ⟨code, lines, here⟩ := emits.found a _ (Prod.ext ok rfl)
  exact ⟨code, lines, _, here, rfl⟩

theorem inScope {x : Emit Unit} {post : Unit → Ctx → List Instr → Prop}
    (emits : Emits (s.enter id) x post) : Emits s x.inScope fun a t code =>
      ∃ u, post a u code ∧ t = u.leave s.outside :=
  within id emits

end Emits

def Codes (s : Ctx) (ρ : Registers) (x : Emit α) (post : α → Ctx → Registers → Prop) : Prop :=
  Emits s x fun a t code => ∃ ρ', Machine.Moves code ρ ρ' ∧ post a t ρ'

namespace Codes
variable {x : Emit α} {post : α → Ctx → Registers → Prop}

theorem bind {Q : β → Ctx → Registers → Prop} (first : Codes s ρ x post)
    (next : ∀ a t ρ', post a t ρ' → Codes t ρ' (f a) Q) : Codes s ρ (x >>= f) Q := by
  refine Emits.bind first fun a t code ⟨ρ', moves, here⟩ => ?_
  refine Emits.mono (next a t ρ' here) fun b u more ⟨ρ'', moves', there⟩ => ?_
  exact ⟨ρ'', moves.append moves', there⟩

theorem mono {Q : α → Ctx → Registers → Prop} (codes : Codes s ρ x post)
    (weaker : ∀ a t ρ', post a t ρ' → Q a t ρ') : Codes s ρ x Q :=
  Emits.mono codes fun a t _ ⟨ρ', moves, here⟩ => ⟨ρ', moves, weaker a t ρ' here⟩

theorem pure (here : post a s ρ) : Codes s ρ (Pure.pure a) post := Emits.pure ⟨ρ, .nil ρ, here⟩

theorem located (pos : Position) (codes : Codes s ρ x post) : Codes s ρ (x.located pos) post :=
  Emits.located pos codes

end Codes

end Emit

def Ctx.Alike (s t : Ctx) : Prop := t = { s with listing := t.listing }

theorem Emit.Codes.comment (text : String) :
    Codes s ρ (Emit.comment text) fun _ t ρ' => ρ' = ρ ∧ s.Alike t :=
  Emits.mono (.comment text) fun _ _ _ ⟨noLine, after⟩ => ⟨ρ, noLine ▸ .nil ρ, rfl, after ▸ rfl⟩

theorem Emit.Codes.queue (text : String) : Codes s ρ (Emit.queue text) fun _ t ρ' => ρ' = ρ ∧ s.Alike t :=
  Emits.mono (.queue text) fun _ _ _ ⟨noLine, after⟩ => ⟨ρ, noLine ▸ .nil ρ, rfl, after ▸ rfl⟩

theorem Emit.Codes.branch {test : Test} {b : Bool} (found : test.holds? ρ = some b) {x y : Emit Unit}
    {P Q : Ctx → Registers → Prop} {before after before' after' : Int}
    (yes : ∀ t, s.Alike t → Codes t ρ x fun _ u ρ₁ => P u ρ₁)
    (no : ∀ u ρ₁, P u ρ₁ → ∀ t, u.Alike t → Codes t ρ y fun _ w ρ₂ => Q w (if b then ρ₁ else ρ₂)) :
    Codes s ρ (do
      Emit.code 0 (.doif test) 1
      x
      Emit.code before .otherwise after
      y
      Emit.code before' .endi after') fun _ w ρ' => ∃ u, Q u ρ' ∧ u.Alike w := by
  refine Emits.bind (.code 0 (.doif test) 1) fun _ t₁ _ ⟨isLine, here⟩ => ?_
  refine Emits.bind (yes t₁ (here ▸ rfl)) fun _ t₂ first ⟨ρ₁, moves, afterYes⟩ => ?_
  refine Emits.bind (.code before .otherwise after) fun _ t₃ _ ⟨isLine₂, there⟩ => ?_
  refine Emits.bind (no t₂ ρ₁ afterYes t₃ (there ▸ rfl)) fun _ t₄ second ⟨ρ₂, moves', afterNo⟩ => ?_
  refine Emits.mono (.code before' .endi after') fun _ t₅ _ ⟨isLine₃, last⟩ => ?_
  subst isLine isLine₂ isLine₃
  exact ⟨_, .branch found moves moves', t₄, afterNo, last ▸ rfl⟩

theorem Emit.Codes.branchOnly {test : Test} {b : Bool} (found : test.holds? ρ = some b) {x : Emit Unit}
    {P : Ctx → Registers → Prop} {before after : Int}
    (yes : ∀ t, s.Alike t → Codes t ρ x fun _ u ρ₁ => P u (if b then ρ₁ else ρ)) :
    Codes s ρ (do
      Emit.code 0 (.doif test) 1
      x
      Emit.code before .endi after) fun _ w ρ' => ∃ u, P u ρ' ∧ u.Alike w := by
  refine Emits.bind (.code 0 (.doif test) 1) fun _ t₁ _ ⟨isLine, here⟩ => ?_
  refine Emits.bind (yes t₁ (here ▸ rfl)) fun _ t₂ first ⟨ρ₁, moves, afterYes⟩ => ?_
  refine Emits.mono (.code before .endi after) fun _ t₃ _ ⟨isLine₂, last⟩ => ?_
  subst isLine isLine₂
  exact ⟨_, .branchOnly found moves, t₂, afterYes, last ▸ rfl⟩

section
variable {limit : Nat} {t : Ctx}

/-- Handles have registers of their own, and new handles come after those of variables. -/
structure Ctx.Tidy (limit : Nat) (s : Ctx) : Prop where
  registered : ∃ l, s.pool.Balanced l ∧ Point.Registered s.bound l
  handles : limit ≤ s.nextHandle

namespace Ctx.Tidy

theorem disciplined (tidy : s.Tidy limit) : Point.Disciplined s := by
  obtain ⟨l, balanced, distinct, held⟩ := tidy.registered
  refine ⟨fun first second => ?_, fun isBound => ?_⟩
  · exact (Prod.mk.inj (List.inj_on_of_nodup_map distinct (Point.mem_bound first)
      (Point.mem_bound second) rfl)).1
  · exact (balanced.live_iff _).mpr (held _ (Point.mem_bound isBound))

/-- A context with the same pool and the same bindings. -/
theorem alike (tidy : s.Tidy limit) (pool : t.pool = s.pool) (bound : t.bound = s.bound)
    (handles : s.nextHandle ≤ t.nextHandle) : t.Tidy limit :=
  ⟨by rw [pool, bound]; exact tidy.registered, Nat.le_trans tidy.handles handles⟩

theorem enter (tidy : s.Tidy limit) (loop : Option LoopTarget → Option LoopTarget) :
    (s.enter loop).Tidy limit := by
  obtain ⟨l, balanced, registered⟩ := tidy.registered
  exact ⟨⟨[] :: l, balanced.openScope, registered⟩, tidy.handles⟩

theorem restored (tidy : s.Tidy limit) (back : s.Restored t) (handles : limit ≤ t.nextHandle) :
    t.Tidy limit := by
  obtain ⟨l, balanced, registered⟩ := tidy.registered
  refine ⟨⟨l, back.balance balanced, ?_⟩, handles⟩
  rw [back.bound]
  exact registered

end Ctx.Tidy

theorem Pool.openScope_live (p : Pool) (id : Nat) : p.openScope.Live id ↔ p.Live id := by
  simp [Pool.Live, Pool.openScope]

/-- A context inside a statement: variables keep their registers, and none is given back. -/
structure Ctx.Inside (limit : Nat) (s t : Ctx) : Prop where
  tidy : t.Tidy limit
  registers : ∀ h < limit, t.registerOf? h = s.registerOf? h
  live : ∀ r, s.pool.Live r → t.pool.Live r

namespace Ctx.Inside

theorem refl (tidy : s.Tidy limit) : s.Inside limit s := ⟨tidy, fun _ _ => rfl, fun _ => id⟩

theorem trans {u : Ctx} (first : s.Inside limit t) (second : t.Inside limit u) : s.Inside limit u :=
  ⟨second.tidy, fun h small => (second.registers h small).trans (first.registers h small),
    fun r live => second.live r (first.live r live)⟩

theorem alike (tidy : s.Tidy limit) (pool : t.pool = s.pool) (bound : t.bound = s.bound)
    (handles : s.nextHandle ≤ t.nextHandle) : s.Inside limit t :=
  ⟨tidy.alike pool bound handles, fun h _ => congrArg (List.lookup h) bound,
    fun _ live => pool ▸ live⟩

theorem of_alike (tidy : s.Tidy limit) (same : s.Alike t) : s.Inside limit t := by
  rw [Ctx.Alike] at same
  rw [same]
  exact alike tidy rfl rfl (Nat.le_refl _)

theorem enter (tidy : s.Tidy limit) (loop : Option LoopTarget → Option LoopTarget) :
    s.Inside limit (s.enter loop) :=
  ⟨tidy.enter loop, fun _ _ => rfl, fun r live => (Pool.openScope_live s.pool r).mpr live⟩

theorem restored (tidy : s.Tidy limit) (back : s.Restored t) (handles : limit ≤ t.nextHandle) :
    s.Inside limit t := by
  obtain ⟨l, balanced, _⟩ := tidy.registered
  refine ⟨tidy.restored back handles, fun h _ => congrArg (List.lookup h) back.bound, fun r live => ?_⟩
  exact ((back.balance balanced).live_iff r).mpr ((balanced.live_iff r).mp live)

end Ctx.Inside

abbrev Store := Nat → Int32

/-- The values that the variables have in their registers. -/
def Ctx.store (limit : Nat) (s : Ctx) (ρ : Registers) : Store := fun h =>
  if h < limit then (s.registerOf? h).elim 0 ρ else 0

theorem Ctx.Inside.store (inside : s.Inside limit t)
    (kept : ∀ h r, s.registerOf? h = some r → h < limit → ρ' r = ρ r) :
    t.store limit ρ' = s.store limit ρ := by
  funext h
  unfold Ctx.store
  split
  · next small =>
    rw [inside.registers h small]
    cases bound : s.registerOf? h with
    | none => rfl
    | some r => exact kept h r bound small
  · rfl

namespace Emit

theorem Emits.register (tidy : s.Tidy limit) (handle : Nat) :
    Emits s (Emit.bind handle) fun slot t code => code = [] ∧ t.Tidy limit ∧
      (∀ h, t.registerOf? h = if h = handle then some slot else s.registerOf? h) ∧
      (∀ r, s.pool.Live r → t.pool.Live r) ∧ t.pool.Live slot ∧ ¬ s.pool.Live slot := by
  obtain ⟨l, balanced, registered⟩ := tidy.registered
  obtain ⟨ids, rest, rfl⟩ := balanced.ledger_cases
  refine ⟨fun slot t ran => ?_⟩
  unfold Emit.bind at ran
  rw [run_bind, run_current] at ran
  dsimp only at ran
  split at ran
  · cases ran
  · next slot' pool allocated =>
    have after : slot' = slot ∧ s.bindTo handle slot' pool = t := by
      simpa [run_bind, Op.perform, allocated] using ran
    obtain ⟨rfl, rfl⟩ := after
    have next := balanced.allocate allocated
    refine ⟨[], (List.append_nil _).symm, rfl, ?_, s.registerOf_bindTo handle slot' pool, ?_, ?_, ?_⟩
    · exact ⟨⟨_, next, registered.bindTo balanced handle allocated⟩, tidy.handles⟩
    · intro r live
      exact (next.live_iff r).mpr (List.mem_cons_of_mem _ ((balanced.live_iff r).mp live))
    · exact (next.live_iff slot').mpr List.mem_cons_self
    · rw [balanced.live_iff]
      exact (balanced.allocate_fresh allocated).2

/-- A register for an intermediate value is one that was free. -/
theorem Emits.temp (tidy : s.Tidy limit) : Emits s Emit.temp fun slot t code =>
    code = [] ∧ s.Inside limit t ∧ t.pool.Live slot ∧ ¬ s.pool.Live slot := by
  refine ⟨fun slot t ran => ?_⟩
  have here : ({ s with nextHandle := max s.nextHandle (s.nextHandle + 1) } : Ctx).Tidy limit :=
    tidy.alike rfl rfl (Nat.le_max_left _ _)
  obtain ⟨code, lines, rfl, next, registers, live, held, fresh⟩ :=
    (Emits.register here s.nextHandle).found slot t ran
  refine ⟨[], lines, rfl, ⟨next, fun h small => ?_, live⟩, held, fresh⟩
  have other : h ≠ s.nextHandle := Nat.ne_of_lt (Nat.lt_of_lt_of_le small tidy.handles)
  rw [registers, if_neg other]
  rfl

theorem Codes.inside {s : Ctx} (tidy : s.Tidy limit) {x : Emit Unit} {post : Ctx → Registers → Prop}
    (codes : Codes (s.enter id) ρ x fun _ u ρ' => u.Tidy limit ∧ post u ρ') :
    Codes s ρ x.inScope fun _ t ρ' => s.Inside limit t ∧ t.bound = s.bound ∧ ∃ u, post u ρ' := by
  refine ⟨fun a t ran => ?_⟩
  have back : s.Restored t := by
    have restored := within_restored id x s
    rwa [show (within id x).run s = (.ok a, t) from ran] at restored
  obtain ⟨code, lines, u, ⟨ρ', moves, inner, here⟩, rfl⟩ := (Emits.inScope codes).found a t ran
  exact ⟨code, lines, ρ', moves, .restored tidy back inner.handles, rfl, u, here⟩

end Emit

end

end AgentScript
