import AgentScript.Proofs.Layout.Law

/-! Blocks in the code of statements. Each test has one end and at most one alternative, each
enumeration has one end, blocks are nested, and what stands in a block is indented more than its first
and last line; after a statement the indentation is what it was before. -/
namespace AgentScript

/-- The operations that a routine performs, up to where it ends or fails. -/
def Routine.ops : Routine → Ctx → List Op
  | done, _ => []
  | fail _, _ => []
  | look next, s => (next s).ops s
  | act op next, s => op :: next.ops (op.perform s)
  | scope loop body next, s =>
    body.ops (s.enter loop) ++
      match body.run (s.enter loop) with
      | (.ok (), t) => next.ops (t.leave s.outside)
      | (.error _, _) => []

def Emit.ops (x : Emit α) (s : Ctx) : List Op := x.routine.ops s

theorem Routine.ops_located (pos : Position) (r : Routine) (s : Ctx) :
    (r.located pos).ops s = r.ops s := by
  induction r generalizing s with
  | done => rfl
  | fail f => rfl
  | look next ih => exact ih s s
  | act op next ih => simp only [located, ops, ih]
  | scope loop body next inner ih =>
    simp only [located, ops, inner, run_located]
    rcases body.run (s.enter loop) with ⟨_ | _, t⟩
    · rfl
    · simp only [Except.mapError, ih]

namespace Emit

theorem routine_located (pos : Position) (x : Emit α) :
    (x.located pos).routine = x.routine.located pos := by
  induction x with
  | pure a => rfl
  | fail f => rfl
  | look next ih | act op next ih | scope loop body next ih => simp only [located, routine, Routine.located, ih]

theorem ops_bind (x : Emit α) (f : α → Emit β) (s : Ctx) :
    (x >>= f).ops s = x.ops s ++ match x.run s with
      | (.ok a, t) => (f a).ops t
      | (.error _, _) => [] := by
  change (x.andThen f).routine.ops s = x.routine.ops s ++ _
  induction x generalizing s with
  | pure a => rfl
  | fail e => rfl
  | look next ih => exact ih s s
  | act op next ih => simp only [andThen, routine, Routine.ops, run, ih, List.cons_append]
  | scope loop body next ih =>
    simp only [andThen, routine, Routine.ops, run]
    rcases body.run (s.enter loop) with ⟨_ | _, t⟩
    · simp
    · simp only [ih, List.append_assoc]

theorem ops_within (loop : Option LoopTarget → Option LoopTarget) (x : Emit Unit) (s : Ctx) :
    (within loop x).ops s = x.ops (s.enter loop) := by
  simp only [ops, within, routine, Routine.ops]
  split <;> simp

end Emit

def Op.isCode : Op → Bool
  | code .. => true
  | _ => false

/-- Lines in blocks, with the changes of indentation that go with them. -/
inductive BlockOps : List Op → Prop where
  | nil : BlockOps []
  | other : op.isCode = false → BlockOps [op]
  | line : i.isSimple = true → BlockOps [.code 0 i 0]
  | append : BlockOps a → BlockOps b → BlockOps (a ++ b)
  | test : BlockOps body → BlockOps (.code 0 (.doif t) 1 :: body ++ [.code (-1) .endi 0])
  | choice : BlockOps yes → BlockOps no →
      BlockOps (.code 0 (.doif t) 1 :: yes ++ .code (-1) .otherwise 1 :: no ++ [.code (-1) .endi 0])
  | enumeration : BlockOps body → BlockOps (.code 0 (.enumerate text) 1 :: body ++ [.code (-1) .next 0])
  | loop : BlockOps body → BlockOps (.code 0 (.subr l) 1 :: body ++ [.code (-1) (.goto l) 0])

def Emit.Nests (x : Emit α) : Prop := ∀ s a t, x.run s = (.ok a, t) → BlockOps (x.ops s)

namespace Emit.Nests

theorem bind {x : Emit α} {f : α → Emit β} (first : x.Nests) (next : ∀ a, (f a).Nests) :
    (x >>= f).Nests := by
  intro s b u ran
  rw [run_bind] at ran
  rw [ops_bind]
  rcases here : x.run s with ⟨_ | a, t⟩
  · rw [here] at ran
    cases ran
  · rw [here] at ran
    exact .append (first s a t here) (next a t b u ran)

theorem remark {x : Emit Unit} (remark : Remark P x) : x.Nests := by
  induction remark with
  | nothing => exact fun _ _ _ _ => .nil
  | comment | queue => exact fun _ _ _ _ => .other rfl
  | @asked _ _ q f told _ _ ih =>
    intro s a t ran
    change (ofExcept (q s) >>= f).run s = _ at ran
    change BlockOps ((ofExcept (q s) >>= f).ops s)
    cases answer : q s with
    | error c =>
      rw [answer] at ran
      cases ran
    | ok a' =>
      rw [answer] at ran
      exact ih a' (told answer) s a t ran

theorem within {x : Emit Unit} (inner : x.Nests) : (Emit.within loop x).Nests := by
  intro s a t ran
  rw [run_within] at ran
  rw [ops_within]
  rcases here : x.run (s.enter loop) with ⟨_ | _, t⟩
  · rw [here] at ran
    cases ran
  · exact inner (s.enter loop) () t here

end Emit.Nests

theorem Emit.ops_after {x : Emit Unit} {y : Emit α} {s t : Ctx} {b : α}
    (ran : (do code before i after; x; y).run s = (.ok b, t)) :
    ∃ s' m, x.run s' = (.ok (), m) ∧ y.run m = (.ok b, t) ∧
      (do code before i after; x; y).ops s = .code before i after :: x.ops s' ++ y.ops m := by
  change (x >>= fun _ => y).run ((Op.code before i after).perform s) = _ at ran
  refine ⟨(Op.code before i after).perform s, ?_⟩
  change ∃ m, _ ∧ _ ∧ _ :: (x >>= fun _ => y).ops _ = _
  rw [run_bind] at ran
  rw [ops_bind]
  generalize (Op.code before i after).perform s = s' at ran ⊢
  rcases here : x.run s' with ⟨_ | _, m⟩
  · rw [here] at ran
    cases ran
  · rw [here] at ran
    exact ⟨m, rfl, ran, rfl⟩

namespace Emit.Nests

theorem guarded (test : Test) {yes : Emit Unit} {no : Option (Emit Unit)} (first : yes.Nests)
    (second : ∀ x ∈ no, x.Nests) : (Emit.guarded test yes no).Nests := by
  intro s a t ran
  cases no with
  | none =>
    obtain ⟨s', m, here, last, ops⟩ := ops_after ran
    rw [Emit.guarded, ops]
    exact .test (first s' () m here)
  | some x =>
    obtain ⟨s', m, here, rest, ops⟩ := ops_after ran
    obtain ⟨s'', m', there, last, ops'⟩ := ops_after rest
    have choice := BlockOps.choice (t := test) (first s' () m here) (second x rfl s'' () m' there)
    rw [List.append_assoc, List.cons_append] at choice
    rw [Emit.guarded, ops, ops']
    exact choice

theorem enumerated (text : String) {body : Emit Unit} (inner : body.Nests) :
    (Emit.enumerated text body).Nests := by
  intro s a t ran
  obtain ⟨s', m, here, last, ops⟩ := ops_after ran
  rw [Emit.enumerated, ops]
  exact .enumeration (inner s' () m here)

theorem repeated (top : Label) {body : Emit Unit} (inner : body.Nests) :
    (Emit.repeated top body).Nests := by
  intro s a t ran
  obtain ⟨s', m, here, last, ops⟩ := ops_after ran
  rw [Emit.repeated, ops]
  exact .loop (inner s' () m here)

theorem law (env : Env) : LayoutLaw env env (fun _ => True) fun x _ => x.Nests where
  types := rfl
  named _ := trivial
  oneLine _ := trivial
  append _ _ := trivial
  pure _ _ _ _ _ := .nil
  refuse _ _ _ _ ran := by cases ran
  bind := bind
  look next s a t ran := next s s (.refl s) s a t ran
  aside {op} isAside _ _ _ _ := .other (by cases op <;> first | rfl | cases isAside)
  line simple _ _ _ _ := .line simple
  remark first _ := remark first
  located pos kind table _ inner s a t ran := by
    rw [run_located] at ran
    rw [ops, routine_located, Routine.ops_located]
    rcases here : (kind.run env table).run s with ⟨_ | a', t'⟩
    · rw [here] at ran
      cases ran
    · exact inner s a' t' here
  within := within
  guarded test {_ _ _ _} first second := guarded test first fun x isSome => by
    cases isSome
    cases second with
    | some inner => exact inner
  enumerated text {_ _} := enumerated text
  repeated top {_ _} := repeated top

end Emit.Nests

theorem Action.run_nests (env : Env) (deferred : List (Option Expr)) (a : Action) :
    (a.run env (placeholderTable env deferred)).Nests :=
  (Emit.Nests.law env).run (fun _ _ _ _ => trivial) a fun _ _ => trivial

def Op.write (l : Listing Instr) : Op → Listing Instr
  | code before i after => l.code before i after
  | comment text => l.comment text
  | queue text => l.queue text
  | _ => l

theorem Op.perform_listing (op : Op) (s : Ctx) : (op.perform s).listing = op.write s.listing := by
  cases op with
  | bind handle =>
    simp only [perform, write]
    split <;> rfl
  | _ => rfl

theorem Routine.run_listing (r : Routine) (s : Ctx) :
    (r.run s).2.listing = (r.ops s).foldl Op.write s.listing := by
  induction r generalizing s with
  | done => rfl
  | fail f => rfl
  | look next ih => exact ih s s
  | act op next ih => simp only [run, ops, ih, List.foldl_cons, op.perform_listing]
  | scope loop body next inner ih =>
    have inside := inner (s.enter loop)
    simp only [run, ops, List.foldl_append]
    rcases ran : body.run (s.enter loop) with ⟨_ | _, t⟩
    · rw [ran] at inside
      exact inside
    · rw [ran] at inside
      exact (ih _).trans (congrArg (List.foldl Op.write · _) inside)

namespace Listing

def added (l : Listing Instr) : Op → List (Item Instr)
  | .code before i _ =>
    (l.queued.map (Item.comment (shift l.indent before))).toList ++ [.code (shift l.indent before) i]
  | .comment text => [.comment l.indent text]
  | _ => []

def addedBy : Listing Instr → List Op → List (Item Instr)
  | _, [] => []
  | l, op :: rest => l.added op ++ (op.write l).addedBy rest

/-- The changes of indentation that operations ask for, each with the indentation before it. -/
def shifts : Listing Instr → List Op → List (Nat × Int)
  | _, [] => []
  | l, .code before i after :: rest =>
    (l.indent, before) :: (shift l.indent before, after) :: (l.code before i after).shifts rest
  | l, op :: rest => (op.write l).shifts rest

theorem foldl_items (l : Listing Instr) (ops : List Op) :
    (ops.foldl Op.write l).items.toList = l.items.toList ++ l.addedBy ops := by
  induction ops generalizing l with
  | nil => simp [addedBy]
  | cons op rest ih =>
    have first : (op.write l).items.toList = l.items.toList ++ l.added op := by
      cases op with
      | code before i after =>
        simp only [Op.write, code, flush, added]
        cases l.queued <;> simp [comment]
      | comment text => simp [Op.write, comment, added]
      | _ => simp [Op.write, added, queue]
    rw [List.foldl_cons, ih, first, addedBy, List.append_assoc]

theorem addedBy_append (l : Listing Instr) (a b : List Op) :
    l.addedBy (a ++ b) = l.addedBy a ++ (a.foldl Op.write l).addedBy b := by
  induction a generalizing l with
  | nil => rfl
  | cons op rest ih => simp [addedBy, ih]

theorem shifts_append (l : Listing Instr) (a b : List Op) :
    l.shifts (a ++ b) = l.shifts a ++ (a.foldl Op.write l).shifts b := by
  induction a generalizing l with
  | nil => rfl
  | cons op rest ih => cases op <;> simp [shifts, ih, Op.write]

end Listing

/-- The indentation of a line or comment. Text that was rendered elsewhere has none. -/
def Item.indent : Item α → Nat
  | code n _ | comment n _ => n
  | verbatim _ => 0

def Item.placed? : Item α → Option (Nat × α)
  | code n line => some (n, line)
  | _ => none

/-- Lines in blocks. The first and last line of a block have the indentation of what is around it, and
those between them one step more. -/
inductive Bracketed : Nat → List (Nat × Instr) → Prop where
  | nil : Bracketed n []
  | line : i.isSimple = true → Bracketed n [(n, i)]
  | append : Bracketed n a → Bracketed n b → Bracketed n (a ++ b)
  | test : Bracketed (n + 1) body → Bracketed n ((n, .doif t) :: body ++ [(n, .endi)])
  | choice : Bracketed (n + 1) yes → Bracketed (n + 1) no →
      Bracketed n ((n, .doif t) :: yes ++ (n, .otherwise) :: no ++ [(n, .endi)])
  | enumeration : Bracketed (n + 1) body →
      Bracketed n ((n, .enumerate text) :: body ++ [(n, .next)])
  | loop : Bracketed (n + 1) body → Bracketed n ((n, .subr l) :: body ++ [(n, .goto l)])

namespace Listing

def maxIndent : Nat := UInt64.size - 1

/-- No line stands as far in as is possible, so that there was always room for a further step. -/
def Roomy (items : List (Item Instr)) : Prop := ∀ n i, .code n i ∈ items → n < maxIndent

theorem Roomy.append {l : Listing Instr} {a b : List Op} (room : Roomy (l.addedBy (a ++ b))) :
    Roomy (l.addedBy a) ∧ Roomy ((a.foldl Op.write l).addedBy b) := by
  rw [addedBy_append] at room
  exact ⟨fun n i member => room n i (List.mem_append_left _ member),
    fun n i member => room n i (List.mem_append_right _ member)⟩

theorem shift_eq {n m : Nat} {steps : Int} (sum : n + steps = m) (room : m ≤ maxIndent) :
    shift n steps = m := by
  simp only [shift, maxIndent] at room ⊢
  omega

/-- Operations that write some lines, none of them further out than `low`, and end at indentation
`stop`; no change of indentation is cut short. -/
structure Lays (l : Listing Instr) (low : Nat) (ops : List Op) (stop : Nat)
    (lines : List (Nat × Instr)) : Prop where
  indent : (ops.foldl Op.write l).indent = stop
  deep : ∀ item ∈ l.addedBy ops, low ≤ item.indent
  placed : (l.addedBy ops).filterMap Item.placed? = lines
  exact : ∀ c ∈ l.shifts ops, (shift c.1 c.2 : Int) = c.1 + c.2

namespace Lays
variable {l : Listing Instr}

theorem append (first : Lays l low a middle x) (second : Lays (a.foldl Op.write l) low b stop y) :
    Lays l low (a ++ b) stop (x ++ y) where
  indent := by rw [List.foldl_append, second.indent]
  deep := by
    rw [addedBy_append]
    exact List.forall_mem_append.mpr ⟨first.deep, second.deep⟩
  placed := by rw [addedBy_append, List.filterMap_append, first.placed, second.placed]
  exact := by
    rw [shifts_append]
    exact List.forall_mem_append.mpr ⟨first.exact, second.exact⟩

theorem lower {lines : List (Nat × Instr)} (lays : Lays l low ops stop lines) (le : low' ≤ low) :
    Lays l low' ops stop lines :=
  ⟨lays.indent, fun item member => Nat.le_trans le (lays.deep item member), lays.placed, lays.exact⟩

theorem code {before after : Int} {n stop : Nat} (i : Instr) (here : l.indent + before = n)
    (next : n + after = stop)
    (room : n ≤ maxIndent) (room' : stop ≤ maxIndent) :
    Lays l n [.code before i after] stop [(n, i)] := by
  have first := shift_eq here room
  have second := shift_eq next room'
  refine ⟨?_, ?_, ?_, ?_⟩
  · change (l.code before i after).indent = stop
    simp only [Listing.code, flush, first]
    split <;> exact second
  · cases queued : l.queued <;> simp [addedBy, added, queued, first, Item.indent]
  · cases queued : l.queued <;> simp [addedBy, added, queued, first, Item.placed?, List.filterMap_cons]
  · simp [shifts, first, second, here, next]

theorem other (silent : op.isCode = false) : Lays l l.indent [op] l.indent [] := by
  cases op with
  | code before i after => cases silent
  | comment text => exact ⟨rfl, by simp [addedBy, added, Item.indent], rfl, by simp [shifts]⟩
  | _ => exact ⟨rfl, by simp [addedBy, added], rfl, by simp [shifts]⟩

/-- A line that leads to the lines of a block, one step further in. -/
theorem inside {before : Int} {n : Nat} (i : Instr) (here : l.indent + before = n)
    (few : n < maxIndent) (room : Roomy (l.addedBy (.code before i 1 :: body)))
    (inner : ∀ l' : Listing Instr, Roomy (l'.addedBy body) →
      ∃ lines, Lays l' l'.indent body l'.indent lines ∧ Bracketed l'.indent lines) :
    ∃ lines, Lays l n (.code before i 1 :: body) (n + 1) ((n, i) :: lines) ∧ Bracketed (n + 1) lines := by
  have first : Lays l n [.code before i 1] (n + 1) [(n, i)] := code i here rfl (by omega) (by omega)
  obtain ⟨lines, second, blocks⟩ := inner _ (Roomy.append (a := [.code before i 1]) room).2
  rw [first.indent] at second blocks
  exact ⟨lines, first.append (second.lower (by omega)), blocks⟩

theorem closed {n : Nat} (j : Instr) (first : Lays l n ops (n + 1) x) (few : n < maxIndent) :
    Lays l n (ops ++ [.code (-1) j 0]) n (x ++ [(n, j)]) :=
  first.append (code j (by rw [first.indent]; omega) (by omega) (by omega) (by omega))

end Lays

theorem first_room {l : Listing Instr} (room : Roomy (l.addedBy (.code 0 i after :: rest))) :
    l.indent < maxIndent := by
  have here := room (shift l.indent 0) i (by simp [addedBy, added])
  simp only [shift, maxIndent] at here ⊢
  omega

end Listing

open Listing

/-- Blocks are written at the indentation that they start with. -/
theorem BlockOps.lays (nested : BlockOps ops) (l : Listing Instr) (room : Roomy (l.addedBy ops)) :
    ∃ lines, Lays l l.indent ops l.indent lines ∧ Bracketed l.indent lines := by
  induction nested generalizing l with
  | nil => exact ⟨[], ⟨rfl, by simp [addedBy], rfl, by simp [shifts]⟩, .nil⟩
  | other silent => exact ⟨[], .other silent, .nil⟩
  | @line i simple =>
    have few := first_room room
    exact ⟨_, .code i (by omega) (by omega) (by omega) (by omega), .line simple⟩
  | append _ _ first second =>
    obtain ⟨here, there⟩ := room.append
    obtain ⟨x, lays, blocks⟩ := first l here
    obtain ⟨y, lays', blocks'⟩ := second _ there
    rw [lays.indent] at lays' blocks'
    exact ⟨x ++ y, lays.append lays', blocks.append blocks'⟩
  | test _ inner =>
    have few := first_room room
    obtain ⟨x, lays, blocks⟩ := Lays.inside _ (by omega) few room.append.1 inner
    exact ⟨_, lays.closed .endi few, .test blocks⟩
  | @choice yes no t _ _ first second =>
    have few := first_room room
    obtain ⟨front, _⟩ := room.append
    obtain ⟨here, there⟩ := front.append
    obtain ⟨x, lays, blocks⟩ := Lays.inside _ (by omega) few here first
    obtain ⟨y, lays', blocks'⟩ := Lays.inside _ (by rw [lays.indent]; omega) few there second
    exact ⟨_, (lays.append lays').closed .endi few, .choice blocks blocks'⟩
  | enumeration _ inner =>
    have few := first_room room
    obtain ⟨x, lays, blocks⟩ := Lays.inside _ (by omega) few room.append.1 inner
    exact ⟨_, lays.closed .next few, .enumeration blocks⟩
  | @loop body l' _ inner =>
    have few := first_room room
    obtain ⟨x, lays, blocks⟩ := Lays.inside _ (by omega) few room.append.1 inner
    exact ⟨_, lays.closed (.goto l') few, .loop blocks⟩

/-- A statement that can be written in some context is written in blocks. If the indentation does not
reach its upper end, it is in the end what it was before, no line of the statement stands further out,
blocks end at the indentation at which they start, and no step out is cut short at the margin. -/
theorem Action.run_bracketed (env : Env) (deferred : List (Option Expr)) (a : Action) {s t : Ctx}
    (written : (a.run env (placeholderTable env deferred)).run s = (.ok (), t)) :
    ∃ items, t.listing.items.toList = s.listing.items.toList ++ items ∧
      BlockOps ((a.run env (placeholderTable env deferred)).ops s) ∧
      (Roomy items → t.listing.indent = s.listing.indent ∧
        (∀ item ∈ items, s.listing.indent ≤ item.indent) ∧
        Bracketed s.listing.indent (items.filterMap Item.placed?) ∧
        ∀ c ∈ s.listing.shifts ((a.run env (placeholderTable env deferred)).ops s),
          (shift c.1 c.2 : Int) = c.1 + c.2) := by
  have nested := a.run_nests env deferred s () t written
  have whole := Routine.run_listing (a.run env (placeholderTable env deferred)).routine s
  rw [Emit.run_routine_snd, written] at whole
  change t.listing = ((a.run env (placeholderTable env deferred)).ops s).foldl Op.write s.listing at whole
  refine ⟨_, by rw [whole, foldl_items], nested, fun room => ?_⟩
  obtain ⟨lines, lays, blocks⟩ := nested.lays s.listing room
  rw [← lays.placed] at blocks
  exact ⟨by rw [whole, lays.indent], lays.deep, blocks, lays.exact⟩

/-- A loop in the second arm of a test, written where the indentation is two. -/
theorem Action.run_bracketed_loop :
    let one : Expr := .const ⟨.int 1, Registry.integer⟩
    let act (kind : ActionKind) : Action := .mk .unknown kind
    let a := act (.branch (.compare .eq one one) (act (.inline [.text "outs"]))
      (some (act (.loop (act .breakLoop)))))
    let env : Env := ⟨.initial, .standard⟩
    let s : Ctx := { Ctx.start 0 0 with listing := { Listing.empty with indent := 2 } }
    ∃ t, (a.run env (placeholderTable env [])).run s = (.ok (), t) ∧ t.listing.indent = 2 ∧
      t.listing.render (Instr.text "L") =
        "\t\tdoif 1 eq 1\n\t\t\touts\n\t\telse\n\t\t\tgoto L0\n\t\t\tsubr L0\n" ++
        "\t\t\t\tgoto L1\n\t\t\tgoto L0\n\t\t\tsubr L1\n\t\tendi\n" ∧
      Bracketed 2 (t.listing.items.toList.filterMap Item.placed?) := by
  intro one act a env s
  obtain ⟨t, written⟩ : ∃ t, (a.run env (placeholderTable env [])).run s = (.ok (), t) := ⟨_, rfl⟩
  have isEnd : t = ((a.run env (placeholderTable env [])).run s).2 := by rw [written]
  have narrow : t.listing.items.toList.all (fun item => item.indent < maxIndent) = true := by
    rw [isEnd]
    decide +kernel
  obtain ⟨items, added, _, laid⟩ := Action.run_bracketed env [] a written
  rw [added] at narrow
  obtain ⟨indent, _, blocks, _⟩ := laid fun n i member =>
    of_decide_eq_true (List.all_eq_true.mp narrow _ (List.mem_append_right _ member))
  refine ⟨t, written, indent, ?_, by rw [added]; exact blocks⟩
  rw [isEnd]
  decide +kernel

end AgentScript
