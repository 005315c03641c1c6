import AgentScript.Proofs.Arguments.Calls
import AgentScript.Proofs.Safety.Resolution

/-! Macro arguments in the code of a script. An argument for value parameters is copied as a part of one
run of slots. Each use of the call runs the code of all runs, in order and before the body; a statement
that reads the call uses it once, one that assigns to it once for each slot, and an update twice. -/
namespace AgentScript

def Copy.source : Copy → Expr
  | mk source _ => source

namespace Cache

theorem Split.copies_cut {s : Source Leaf} {rs : List Run} {copies : List (Expr × List LocalVar)}
    {parts : List Expr} (split : Split s rs next copies parts) :
    copies.map Prod.fst = (rs.filter (·.copied)).map fun r => Slices.cutWithin s.input r.start r.len := by
  induction split with
  | nil => rfl
  | copied copied _ _ ih => rw [List.filter_cons_of_pos copied, List.map_cons, List.map_cons, ih]
  | kept kept _ ih => rw [List.filter_cons_of_neg kept, ih]

end Cache

namespace Macro

def valueRuns (m : Macro) (args : Expr) : List Cache.Run :=
  (Cache.runs 0 ((List.range (Slices.len args)).map m.isValue)).filter (·.copied)

theorem valueRuns_ordered (m : Macro) (args : Expr) :
    (m.valueRuns args).Pairwise fun r later => r.start + r.len ≤ later.start :=
  (Cache.runs_covers [] _).pairwise.1.filter _

/-- Slots that are all for value parameters are copied together. -/
theorem valueRuns_cover (m : Macro) (args : Expr) {base n : Nat} (some : 0 < n)
    (inside : base + n ≤ Slices.len args) (values : ∀ i, base ≤ i → i < base + n → m.isValue i = true) :
    ∃ r ∈ m.valueRuns args, r.start ≤ base ∧ base + n ≤ r.start + r.len := by
  have flag (i : Nat) (low : base ≤ i) (high : i < base + n) :
      ((List.range (Slices.len args)).map m.isValue)[i]? = Option.some true := by
    simp [List.getElem?_range (show i < Slices.len args by omega), values i low high]
  obtain ⟨r, member, copied, first, here, last⟩ := (Cache.runs_covers []
    ((List.range (Slices.len args)).map m.isValue)).mem (Nat.zero_le base) (flag base (Nat.le_refl _) (by omega))
  refine ⟨r, List.mem_filter.mpr ⟨member, copied⟩, first, Nat.not_lt.mp fun short => ?_⟩
  exact last (flag _ (Nat.le_of_lt here) short)

theorem expandBody_copies {nested : Nested} {m : Macro} {args body : Expr}
    {copies : List (Expr × List LocalVar)} {s t : Resolving}
    (ran : (m.expandBody nested args).run s = (.ok (body, copies), t)) :
    copies.map Prod.fst = (m.valueRuns args).map fun r => Slices.cutWithin args r.start r.len := by
  obtain ⟨_, copied, next, next', _, made, rfl, _⟩ := run_expandBody ran
  obtain ⟨_, split, _⟩ := Cache.make_split made
  exact split.copies_cut

end Macro

/-- Placeholders that stand for expressions without the call. -/
def Call.Unused (c : Call) (deferred : List (Option Expr)) (free : Nat → Prop) : Prop :=
  ∀ id e, free id → deferred[id]? = some (some e) →
    exprDirect c False free e ∧ usesOf (exprCosts c.key e) = 0 ∧
      ∀ n ∈ (exprCosts c.key e).flatMap Prod.snd, n = 0

section
variable (env : Env) {deferred : List (Option Expr)} {c : Call} {free : Nat → Prop}

theorem placeholders_shaped (deferred : List (Option Expr)) (rounds : Nat) (a : Action) :
    (a.run env (placeholders env deferred rounds)).Shaped :=
  Action.run_match env Emit.Shaped.law (placeholders_match (p := .anywhere) env Emit.Shaped.law
    (fun e (_ : some e ∈ deferred) => exprFits_wider (J := fun _ _ => true) e (.inl rfl)) rounds)
    none a (Action.fits_wider (J := fun _ _ => true) _ (.inl rfl))

theorem placeholders_idle {w : Watch} (handles : w.handles = c.handles) (unused : c.Unused deferred free)
    (rounds : Nat) : ∀ id, free id → ∀ e, placeholders env deferred rounds id = some e → e.Idle w := by
  induction rounds with
  | zero => exact fun _ _ _ found => by cases found
  | succ rounds ih =>
    intro id isFree code found
    unfold placeholders at found
    split at found
    · next e entry =>
      cases found
      obtain ⟨direct, zero, writes⟩ := unused id e isFree entry
      exact ⟨_, codeOf_uses ⟨handles, placeholders_shaped env deferred rounds, ih, False.elim, False.elim⟩
        e direct, zero, writes⟩
    · cases found

theorem Call.watching (unused : c.Unused deferred free) :
    Watching env (placeholderTable env deferred) (c.watch env (placeholderTable env deferred)) c True free where
  handles := rfl
  shaped := placeholders_shaped env deferred _
  tables := placeholders_idle env rfl unused _
  arguments _ parts each := ⟨parts, rfl, each⟩
  work _ _ here := here

end

mutual
theorem Leaf.writes_length (key : Nat) : (leaf : Leaf) →
    (leaf.writes key).length = leaf.accesses.length
  | .const _ | .var .. | .builtin .. | .field .. | .isInstance .. | .cast .. | .retype .. | .chain ..
  | .test .. | .inline .. => rfl
  | .sink k len ty => by
    rw [Leaf.writes, Leaf.accesses, List.length_replicate, List.length_replicate]
  | .deferred k id params => by
    rw [Leaf.writes, Leaf.accesses, List.length_replicate, List.length_map]
  | .call k copies body => by
    rw [Leaf.writes, Leaf.accesses, List.length_map, List.length_map, exprCosts_length key body]
  | .seq k body result => by
    rw [Leaf.writes, Leaf.accesses, List.length_map, List.length_map, exprCosts_length key result]
theorem pieceCost_length (key : Nat) : (p : Piece Leaf) →
    (pieceCost key p).2.length = (accessesPiece p).length
  | .whole leaf => Leaf.writes_length key leaf
  | .view leaf base len => by simp [pieceCost, accessesPiece, viewOf, Leaf.writes_length key leaf]
theorem exprCosts_length (key : Nat) : (e : List (Piece Leaf)) →
    ((exprCosts key e).flatMap Prod.snd).length = (accessesAll e).length
  | [] => rfl
  | p :: rest => by
    rw [exprCosts, accessesAll, List.flatMap_cons, List.length_append, List.length_append,
      pieceCost_length key p, exprCosts_length key rest]
end

def Call.expr (c : Call) : Expr := Expr.leaf (.call c.key c.copies c.body)

/-- The call does not occur in its own body. -/
def Call.Fresh (c : Call) : Prop :=
  usesOf (exprCosts c.key c.body) = 0 ∧ ∀ n ∈ (exprCosts c.key c.body).flatMap Prod.snd, n = 0

/-- Reading the call uses it once, and so does writing one of its slots. -/
theorem Call.Fresh.costs {c : Call} (fresh : c.Fresh) :
    exprCosts c.key c.expr = [(1, List.replicate c.body.accesses.length 1)] := by
  have writes : (exprCosts c.key c.body).flatMap Prod.snd = List.replicate c.body.accesses.length 0 :=
    List.eq_replicate_iff.mpr ⟨exprCosts_length c.key c.body, fresh.2⟩
  unfold Call.expr Expr.leaf
  rw [exprCosts, exprCosts, pieceCost, Leaf.uses, Leaf.writes, if_pos rfl, fresh.1, writes,
    List.map_replicate]

/-- Arguments are evaluated once for each use of their call, in order and before its body. The slots for
value parameters are copied in runs, and those of one argument are in one of them. How often a statement
uses the call is the same whichever way control takes: once where its result is read, once for each
slot that is assigned to, and twice where it is updated. -/
theorem Call.arguments_evaluated (env : Env) (deferred : List (Option Expr)) (c : Call)
    (free : Nat → Prop) (unused : c.Unused deferred free) (a : Action) (direct : a.Direct c True free) :
    let table := placeholderTable env deferred
    (∀ (nested : Nested) (m : Macro) (args : Expr) (copies : List (Expr × List LocalVar)) (s t : Resolving),
      (m.expandBody nested args).run s = (.ok (c.body, copies), t) →
      c.copies = copies.map (fun copy => .mk copy.1 copy.2) →
      c.copies.map Copy.source = (m.valueRuns args).map (fun r => Slices.cutWithin args r.start r.len) ∧
      (m.valueRuns args).Pairwise (fun r later => r.start + r.len ≤ later.start) ∧
      ∀ base n, 0 < n → base + n ≤ Slices.len args → (∀ i, base ≤ i → i < base + n → m.isValue i = true) →
        ∃ r ∈ m.valueRuns args, r.start ≤ base ∧ base + n ≤ r.start + r.len) ∧
    (∀ s t, (∀ h ∈ c.handles, h < s.nextHandle) → (a.run env table).run s = (.ok (), t) →
      Path (c.watch env table) s.loop (a.uses c.key) ((a.run env table).marks s) ∧
      t.lines = s.lines ++ Mark.lines ((a.run env table).marks s)) ∧
    (c.Fresh → ∀ source, usesOf (exprCosts c.key source) = 0 →
      (∀ vars, (ActionKind.declare vars (some c.expr)).uses c.key = 1) ∧
      (ActionKind.assign c.expr source).uses c.key = c.body.accesses.length ∧
      (c.body.accesses.length = 1 → ∀ op before operand after,
        (ActionKind.update op c.expr source before operand after).uses c.key = 2)) := by
  intro table
  refine ⟨?_, fun s t below ran => ⟨?_, ?_⟩, fun fresh source none => ⟨fun vars => ?_, ?_, ?_⟩⟩
  · intro nested m args copies s t ran same
    refine ⟨?_, m.valueRuns_ordered args, fun base n some inside values =>
      m.valueRuns_cover args some inside values⟩
    rw [same, List.map_map, ← m.expandBody_copies ran]
    rfl
  · exact (a.run_uses (Call.watching env unused) direct).path s () t below ran
  · have later := ((a.run env table).later s).lines
    rwa [ran] at later
  · rw [ActionKind.uses, initUses, fresh.costs]
    rfl
  · rw [ActionKind.uses, fresh.costs, none]
    simp
  · intro single op before operand after
    rw [ActionKind.uses, fresh.costs, none, single]
    rfl

/-- A unit that updates a call of a macro, whose argument is evaluated twice. -/
theorem Call.arguments_evaluated_update :
    let hit : Statement := .mk .unknown (.inline [.text "outs \"hit\""])
    let keep : MacroDef := ⟨"keep", [⟨"value", .named "integer", none⟩], .id "value", .unknown⟩
    let target : Term := .call "keep" [.seq [hit] (.int 2)]
    let d : Document :=
      { Document.empty with macros := [keep], install := some (.mk .unknown (.update .add target (.int 1))) }
    let integer (n : Int32) : Piece Leaf := .whole (.const ⟨.int n, Registry.integer⟩)
    let argument : Leaf := .seq 1 [.mk .unknown (.inline [.text "outs \"hit\""])] [integer 2]
    let call : Call := ⟨3, [.mk [.whole argument] [⟨0, Registry.integer, "value"⟩]],
      [.whole (.deferred 2 0 [(Registry.integer, .rw)])]⟩
    let a : Action := .mk .unknown
      (.update .add call.expr [integer 1] Registry.integer Registry.integer Registry.integer)
    let env : Env := ⟨d.scripts.2.types, .standard⟩
    let x := a.run env (placeholderTable env d.scripts.2.deferred)
    (∃ script, .ok script ∈ d.scripts.1 ∧ script.body = a) ∧
      call.Unused d.scripts.2.deferred (fun _ => True) ∧ a.Direct call True (fun _ => True) ∧
      ∃ t, x.run (Ctx.start 0 d.scripts.2.nextHandle) = (.ok (), t) ∧
        Path (call.watch env (placeholderTable env d.scripts.2.deferred)) none 2
          (x.marks (Ctx.start 0 d.scripts.2.nextHandle)) := by
  intro hit keep target d integer argument call a env x
  have bound : d.scripts.2.deferred = [some [.whole (.var 0 Registry.integer true)]] := rfl
  have unused : call.Unused d.scripts.2.deferred (fun _ => True) := by
    intro id e _ found
    rw [bound] at found
    cases id with
    | zero =>
      cases found
      simp [exprDirect, pieceDirect, Leaf.Direct, exprCosts, pieceCost, Leaf.uses, Leaf.writes]
    | succ id => cases found
  have direct : a.Direct call True (fun _ => True) := by
    simp [a, call, argument, integer, Call.expr, Expr.leaf, Action.Direct, ActionKind.Direct, exprDirect,
      pieceDirect, Leaf.Direct, Leads, exprCosts, pieceCost, Leaf.uses, Piece.len, Slotted.count,
      Leaf.accesses, accessesAll, accessesPiece]
  have counted := (Call.arguments_evaluated env d.scripts.2.deferred call _ unused a direct).2.1
    (Ctx.start 0 d.scripts.2.nextHandle)
  have succeeds : (x.run (Ctx.start 0 d.scripts.2.nextHandle)).1.isOk = true := by decide +kernel
  have scripts : d.scripts.1 = [.ok ⟨.install, a, "install script"⟩] := rfl
  have twice : a.uses call.key = 2 := by decide +kernel
  have below : ∀ h ∈ call.handles, h < d.scripts.2.nextHandle := by decide +kernel
  rw [twice] at counted
  refine ⟨⟨_, scripts ▸ List.mem_singleton_self _, rfl⟩, unused, direct, ?_⟩
  rcases result : x.run (Ctx.start 0 d.scripts.2.nextHandle) with ⟨_ | _, t⟩
  · rw [result] at succeeds
    cases succeeds
  · exact ⟨t, rfl, (counted t below result).1⟩

/-- In an update the code of the argument is written twice, for the value before and for storing the one
after. -/
theorem Document.arguments_twice :
    let hit : Statement := .mk .unknown (.inline [.text "outs \"hit\""])
    let count : MacroDef :=
      ⟨"count", [⟨"who", .named "Counter", none⟩], .field (.id "who") "count", .unknown⟩
    let target : Term := .call "count" [.seq [hit] (.id "ownr")]
    let d : Document :=
      { Document.empty with
        declarations := [.cls "Counter" ⟨2, 1, 5⟩, .field (.named "Counter") "count" (.named "integer") 3]
        macros := [count]
        events := [⟨.unknown, ⟨2, 1, 5⟩, .number 9, .mk .unknown (.update .add target (.int 1))⟩] }
    (succeeded (d.items .standard)).map (fun items => (Item.lines items).map (Instr.text "")) =
      [["scrp 2 1 5 9", "outs \"hit\"", "seta va01 ownr", "seta va03 targ", "seta targ va01",
        "setv va02 ov03", "seta targ va03", "setv va00 va02", "addv va00 1", "outs \"hit\"",
        "seta va01 ownr", "seta va02 targ", "seta targ va01", "setv ov03 va00", "seta targ va02",
        "endm"]] := by
  decide +kernel

end AgentScript
