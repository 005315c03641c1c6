import AgentScript.Proofs.Jumps.Placed
import AgentScript.Proofs.Layout.Law
import AgentScript.Proofs.Layout.Words
import AgentScript.Proofs.Safety.Script
import AgentScript.Proofs.ScriptText

/-! Comments are all that the settings for comments change. The runs of a script under two settings write
the same lines of code and fail alike; the texts differ in lines that begin with a star. -/
namespace AgentScript
variable {script : Script}

open Text

/-- A comment on a line of its own. -/
def Item.isRemark : Item α → Bool
  | comment _ text => OneLine text
  | _ => false

/-- A line of code or a comment, which ends where a line does. -/
def Item.isLine : Item α → Bool
  | verbatim _ => false
  | _ => true

/-- Listings that differ in comments only, each of one line, whether written or queued. -/
structure Listing.Same (l m : Listing α) : Prop where
  items : m.items.toList.filter (!·.isRemark) = l.items.toList.filter (!·.isRemark)
  indent : m.indent = l.indent
  queued : ∀ text ∈ l.queued, OneLine text
  queued' : ∀ text ∈ m.queued, OneLine text
  lines : ∀ item ∈ l.items.toList, item.isLine = true
  lines' : ∀ item ∈ m.items.toList, item.isLine = true

namespace Listing.Same
variable {l m k : Listing α}

theorem symm (same : l.Same m) : m.Same l :=
  ⟨same.items.symm, same.indent.symm, same.queued', same.queued, same.lines', same.lines⟩

theorem trans (first : l.Same m) (second : m.Same k) : l.Same k :=
  ⟨second.items.trans first.items, second.indent.trans first.indent, first.queued, second.queued',
    first.lines, second.lines'⟩

theorem comment (same : l.Same m) (line : OneLine text) : l.Same (m.comment text) where
  __ := same
  items := by
    have passed : (Item.comment (α := α) m.indent text).isRemark = true := decide_eq_true line
    simp [Listing.comment, passed, same.items]
  lines' := by
    simp only [Listing.comment, Array.toList_push, List.forall_mem_append, List.forall_mem_singleton]
    exact ⟨same.lines', rfl⟩

theorem queue (same : l.Same m) (line : OneLine text) : l.Same (m.queue text) where
  __ := same
  queued' := by
    rintro _ ⟨⟩
    exact line

theorem flush (same : l.Same m) : l.flush.Same m.flush := by
  have right {l m : Listing α} (same : l.Same m) : l.Same m.flush := by
    unfold Listing.flush
    cases waiting : m.queued with
    | none => exact same
    | some text =>
      have noted := same.comment (same.queued' text waiting)
      exact { noted with queued' := nofun }
  exact (right (right same).symm).symm

/-- The same line, or a comment of any text, on both sides. -/
theorem push (same : l.Same m) (item : Item α) (isLine : item.isLine = true) :
    Listing.Same { l with items := l.items.push item } { m with items := m.items.push item } where
  __ := same
  items := by simp [List.filter_append, same.items]
  lines := by
    simp only [Array.toList_push, List.forall_mem_append, List.forall_mem_singleton]
    exact ⟨same.lines, isLine⟩
  lines' := by
    simp only [Array.toList_push, List.forall_mem_append, List.forall_mem_singleton]
    exact ⟨same.lines', isLine⟩

theorem comment_both (same : l.Same m) (text : String) : (l.comment text).Same (m.comment text) := by
  obtain ⟨items, indent, queued⟩ := m
  obtain rfl : indent = l.indent := same.indent
  exact same.push (.comment l.indent text) rfl

theorem reindent (same : l.Same m) (indent : Nat) :
    Listing.Same { l with indent } { m with indent } :=
  { same with indent := rfl }

theorem code (same : l.Same m) (before : Int) (line : α) (after : Int) :
    (l.code before line after).Same (m.code before line after) := by
  unfold Listing.code
  rw [same.indent]
  have flushed := (same.reindent (shift l.indent before)).flush
  dsimp only
  rw [flushed.indent]
  exact (flushed.push (.code _ line) rfl).reindent _

end Listing.Same

/-- Contexts in which the same can happen, after the same code has been written. -/
structure Ctx.SameCode (s t : Ctx) : Prop where
  like : s.Like t
  listing : s.listing.Same t.listing

namespace Ctx

theorem Like.symm {s t : Ctx} (like : s.Like t) : t.Like s :=
  ⟨like.pool.symm, like.bound.symm, like.loop.symm, like.nextLabel.symm, like.nextHandle.symm⟩

theorem Like.trans {s t u : Ctx} (first : s.Like t) (second : t.Like u) : s.Like u :=
  ⟨second.pool.trans first.pool, second.bound.trans first.bound, second.loop.trans first.loop,
    second.nextLabel.trans first.nextLabel, second.nextHandle.trans first.nextHandle⟩

namespace SameCode
variable {s t u : Ctx}

theorem symm (alike : s.SameCode t) : t.SameCode s := ⟨alike.like.symm, alike.listing.symm⟩

theorem trans (first : s.SameCode t) (second : t.SameCode u) : s.SameCode u :=
  ⟨first.like.trans second.like, first.listing.trans second.listing⟩

theorem start (firstLabel firstHandle : Nat) :
    (Ctx.start firstLabel firstHandle).SameCode (Ctx.start firstLabel firstHandle) :=
  ⟨.refl _, ⟨rfl, rfl, nofun, nofun, List.forall_mem_nil _, List.forall_mem_nil _⟩⟩

theorem enter (alike : s.SameCode t) (loop : Option LoopTarget → Option LoopTarget) :
    (s.enter loop).SameCode (t.enter loop) := by
  obtain ⟨⟨pool, bound, target, label, handle⟩, listing⟩ := alike
  exact ⟨⟨by simp [Ctx.enter, pool], bound, by simp [Ctx.enter, target], label, handle⟩, listing⟩

theorem leave (alike : s.SameCode t) (outside : u.SameCode v) :
    (s.leave u.outside).SameCode (t.leave v.outside) := by
  obtain ⟨⟨pool, _, _, label, handle⟩, listing⟩ := alike
  exact ⟨⟨by simp [Ctx.leave, pool], outside.like.bound, outside.like.loop, label, handle⟩, listing⟩

end SameCode

end Ctx

namespace Emit
variable {x : Emit α}

/-- Whether a run fails for a cause that no script should be the first to meet. -/
def Broken (x : Emit α) (s : Ctx) : Prop := ∃ f, (x.run s).1 = .error f ∧ f.cause.isInternal = true

/-- Runs from contexts that are alike have one result and lead to such contexts. -/
structure Agrees (x y : Emit α) : Prop where
  agree : ∀ {s t : Ctx}, s.SameCode t → ¬ x.Broken s → ¬ y.Broken t →
    (y.run t).1 = (x.run s).1 ∧ (x.run s).2.SameCode (y.run t).2

theorem Broken.bind (f : α → Emit β) (broken : x.Broken s) : (x >>= f).Broken s := by
  obtain ⟨failure, failed, internal⟩ := broken
  refine ⟨failure, ?_, internal⟩
  rw [run_bind]
  rcases ran : x.run s with ⟨e | a, t⟩
  · rw [ran] at failed
    cases failed
    rfl
  · rw [ran] at failed
    cases failed

/-- At most a comment is written, unless something internal fails. -/
theorem Remark.run {x : Emit Unit} (remark : Remark OneLine x) {s : Ctx} (alike : s.SameCode s) :
    x.Broken s ∨ (x.run s).1 = .ok () ∧ s.SameCode (x.run s).2 := by
  induction remark with
  | nothing => exact .inr ⟨rfl, alike⟩
  | comment line =>
    exact .inr ⟨rfl, ⟨⟨rfl, rfl, rfl, rfl, rfl⟩, alike.listing.comment line⟩⟩
  | queue line => exact .inr ⟨rfl, ⟨⟨rfl, rfl, rfl, rfl, rfl⟩, alike.listing.queue line⟩⟩
  | @asked _ A q f told internal _ ih =>
    cases answer : q s with
    | error c =>
      refine .inl (.bind f ⟨.of c, ?_, internal answer⟩)
      rw [run_inspect, answer]
      rfl
    | ok a =>
      have continued : (inspect q >>= f).run s = (f a).run s := by
        rw [run_bind, run_inspect, answer]
        rfl
      rw [Broken, continued]
      exact ih a (told answer)

namespace Agrees

theorem bind {y : Emit α} {f g : α → Emit β} (first : Agrees x y) (next : ∀ a, Agrees (f a) (g a)) :
    Agrees (x >>= f) (y >>= g) := by
  refine ⟨fun {s t} alike whole whole' => ?_⟩
  have here := first.agree alike (fun broken => whole (broken.bind f)) fun broken => whole' (broken.bind g)
  simp only [Broken, run_bind] at whole whole' ⊢
  generalize x.run s = ran at here whole ⊢
  generalize y.run t = ran' at here whole' ⊢
  obtain ⟨result, s'⟩ := ran
  obtain ⟨result', t'⟩ := ran'
  obtain rfl : result' = result := here.1
  cases result' with
  | error e => exact ⟨rfl, here.2⟩
  | ok a => exact (next a).agree here.2 whole whole'

theorem perform {op : Op} (kept : ∀ {s t : Ctx}, s.SameCode t → (op.perform s).SameCode (op.perform t)) :
    Agrees (Emit.perform op) (Emit.perform op) :=
  ⟨fun alike _ _ => ⟨rfl, kept alike⟩⟩

theorem aside {op : Op} (isAside : op.isAside = true) :
    Agrees (Emit.perform op) (Emit.perform op) := by
  refine perform fun {s t} alike => ?_
  obtain ⟨⟨pool, bound, loop, label, handle⟩, listing⟩ := alike
  cases op with
  | code | comment | queue => cases isAside
  | label => exact ⟨⟨pool, bound, loop, by simp [Op.perform, label], handle⟩, listing⟩
  | handles next => exact ⟨⟨pool, bound, loop, label, by simp [Op.perform, handle]⟩, listing⟩
  | bind h =>
    simp only [Op.perform, pool]
    split
    · exact ⟨⟨rfl, by simp [Ctx.bindTo, bound], loop, label, handle⟩, listing⟩
    · exact ⟨⟨pool, bound, loop, label, handle⟩, listing⟩

theorem code (before : Int) (i : Instr) (after : Int) :
    Agrees (Emit.code before i after) (Emit.code before i after) :=
  perform fun alike => ⟨{ alike.like with }, alike.listing.code before i after⟩

theorem comment (text : String) : Agrees (Emit.comment text) (Emit.comment text) :=
  perform fun alike => ⟨{ alike.like with }, alike.listing.comment_both text⟩

theorem remark {x y : Emit Unit} (first : Remark OneLine x) (second : Remark OneLine y) :
    Agrees x y := by
  refine ⟨fun {s t} alike whole whole' => ?_⟩
  have left := (first.run (alike.trans alike.symm)).resolve_left whole
  have right := (second.run (alike.symm.trans alike)).resolve_left whole'
  exact ⟨right.1.trans left.1.symm, left.2.symm.trans (alike.trans right.2)⟩

theorem located (pos : Position) {y : Emit α} (inner : Agrees x y) :
    Agrees (x.located pos) (y.located pos) := by
  have broken {z : Emit α} {s : Ctx} (whole : ¬ (z.located pos).Broken s) : ¬ z.Broken s := by
    rintro ⟨f, failed, internal⟩
    refine whole ⟨f.locate pos, ?_, ?_⟩
    · rw [run_located, failed]
      rfl
    · rw [Failure.locate_cause]
      exact internal
  refine ⟨fun {s t} alike whole whole' => ?_⟩
  have here := inner.agree alike (broken whole) (broken whole')
  rw [run_located, run_located]
  exact ⟨congrArg (Except.mapError (·.locate pos)) here.1, here.2⟩

theorem within {x y : Emit Unit} (inner : Agrees x y) :
    Agrees (Emit.within loop x) (Emit.within loop y) := by
  refine ⟨fun {s t} alike whole whole' => ?_⟩
  simp only [Broken, run_within] at whole whole' ⊢
  have here := inner.agree (alike.enter loop) whole whole'
  exact ⟨here.1, here.2.leave alike⟩

theorem law (types : Registry) (named : ∀ ty, OneLine (types.name ty)) (config config' : Config) :
    LayoutLaw ⟨types, config⟩ ⟨types, config'⟩ OneLine Agrees where
  types := rfl
  named := named
  oneLine line := line
  append first second := OneLine.append_iff.mpr ⟨first, second⟩
  pure _ := ⟨fun alike _ _ => ⟨rfl, alike⟩⟩
  refuse _ := ⟨fun alike _ _ => ⟨rfl, alike⟩⟩
  bind first next := first.bind next
  look next := ⟨fun {s t} alike whole whole' => (next s t alike.like).agree alike whole whole'⟩
  aside := aside
  line _ := code ..
  remark := remark
  located pos _ _ _ inner := inner.located pos
  within := within
  guarded test _ _ _ _ first second := by
    cases second with
    | none => exact (code ..).bind fun _ => first.bind fun _ => code ..
    | some second =>
      exact (code ..).bind fun _ => first.bind fun _ => (code ..).bind fun _ => second.bind fun _ => code ..
  enumerated text _ _ inner := (code ..).bind fun _ => inner.bind fun _ => code ..
  repeated top _ _ inner := (code ..).bind fun _ => inner.bind fun _ => code ..

end Agrees

end Emit

theorem Script.emit_agrees {types : Registry} (tidy : types.Tidy) {deferred : List (Option Expr)}
    (worded : ∀ e, some e ∈ deferred → OneLines (exprStrings e)) (lines : OneLines script.body.strings)
    (config config' : Config) :
    (script.emit ⟨types, config⟩ (placeholderTable ⟨types, config⟩ deferred)).Agrees
      (script.emit ⟨types, config'⟩ (placeholderTable ⟨types, config'⟩ deferred)) := by
  have law := Emit.Agrees.law types tidy.name config config'
  have body := law.run worded script.body lines
  unfold Script.emit
  split
  · exact body
  · exact (Emit.Agrees.comment _).bind fun _ => (Emit.Agrees.code ..).bind fun _ =>
      body.bind fun _ => .code ..
  · exact (Emit.Agrees.code ..).bind fun _ => body

namespace Text

/-- The lines of a text, each with the break that ends it. -/
def lines : List Char → List (List Char)
  | [] => []
  | c :: rest =>
    if c = '\n' then [c] :: lines rest
    else match lines rest with
      | [] => [[c]]
      | line :: more => (c :: line) :: more

/-- Whether the first character after leading tabs is a star. -/
def isRemark (line : List Char) : Bool := (line.dropWhile (· = '\t')).head? = some '*'

/-- The text without the lines that are comments. -/
def withoutRemarks (text : String) : String :=
  String.ofList ((lines text.toList).filter (!isRemark ·)).flatten

theorem lines_append_break (cs rest : List Char) :
    lines (cs ++ '\n' :: rest) = lines (cs ++ ['\n']) ++ lines rest := by
  induction cs with
  | nil => simp [lines]
  | cons c cs ih =>
    have some : lines (cs ++ ['\n']) ≠ [] := by
      cases cs with
      | nil => simp [lines]
      | cons c cs =>
        rw [List.cons_append, lines]
        split
        · exact List.cons_ne_nil _ _
        · split <;> exact List.cons_ne_nil _ _
    simp only [List.cons_append, lines, ih]
    split
    · rfl
    · cases found : lines (cs ++ ['\n']) with
      | nil => exact absurd found some
      | cons line more => rfl

theorem lines_oneLine {cs : List Char} (line : '\n' ∉ cs) : lines (cs ++ ['\n']) = [cs ++ ['\n']] := by
  induction cs with
  | nil => rfl
  | cons c cs ih =>
    rw [List.mem_cons, not_or] at line
    rw [List.cons_append, lines, if_neg (Ne.symm line.1), ih line.2]

theorem withoutRemarks_append {text : String} (ends : text.toList = cs ++ ['\n']) (rest : String) :
    withoutRemarks (text ++ rest) = withoutRemarks text ++ withoutRemarks rest := by
  have split : lines (text ++ rest).toList = lines text.toList ++ lines rest.toList := by
    rw [String.toList_append, ends, List.append_assoc, List.singleton_append, lines_append_break]
  rw [withoutRemarks, split]
  simp [withoutRemarks, String.ofList_append]

end Text

namespace Item

theorem indented_toList (indent : Nat) (text : String) :
    (indented indent text).toList = (List.replicate indent '\t' ++ text.toList) ++ ['\n'] := by
  simp [indented]

theorem render_ends (head : String) {item : Item Instr} (isLine : item.isLine = true) :
    ∃ cs, (item.render (Instr.text head)).toList = cs ++ ['\n'] := by
  cases item with
  | code | comment => exact ⟨_, indented_toList _ _⟩
  | verbatim text => cases isLine

theorem withoutRemarks_remark (head : String) {item : Item Instr} (isRemark : item.isRemark = true) :
    withoutRemarks (item.render (Instr.text head)) = "" := by
  cases item with
  | code | verbatim => cases isRemark
  | comment indent text =>
    have line : '\n' ∉ text.toList := of_decide_eq_true isRemark
    have star : Text.isRemark (List.replicate indent '\t' ++ ("* " ++ text).toList ++ ['\n']) = true := by
      simp [Text.isRemark, List.dropWhile_append_of_pos]
    have single : Text.lines (List.replicate indent '\t' ++ ("* " ++ text).toList ++ ['\n']) =
        [List.replicate indent '\t' ++ ("* " ++ text).toList ++ ['\n']] :=
      Text.lines_oneLine (by simp [line])
    rw [render, withoutRemarks, indented_toList, single, List.filter_cons_of_neg (by rw [star]; decide)]
    rfl

theorem withoutRemarks_items (head : String) {items : List (Item Instr)}
    (isLine : ∀ item ∈ items, item.isLine = true) (rest : String) :
    withoutRemarks (renderAll head items ++ rest) =
      String.join ((items.filter (!·.isRemark)).map fun item =>
        withoutRemarks (item.render (Instr.text head))) ++ withoutRemarks rest := by
  induction items with
  | nil => simp [renderAll]
  | cons item items ih =>
    obtain ⟨here, others⟩ := List.forall_mem_cons.mp isLine
    obtain ⟨cs, ends⟩ := render_ends head here
    have whole : renderAll head (item :: items) ++ rest =
        item.render (Instr.text head) ++ (renderAll head items ++ rest) := by
      simp [renderAll, String.append_assoc]
    rw [whole, withoutRemarks_append ends, ih others]
    by_cases isRemark : item.isRemark = true
    · simp [isRemark, withoutRemarks_remark head isRemark]
    · simp [isRemark, String.append_assoc]

end Item

/-- A script that agrees under two settings fails for one reason under both, or has texts that differ in
comments. -/
theorem Script.write_agrees {env env' : Env} {table table' : Placeholder}
    (labels : env'.config.labelPrefix = env.config.labelPrefix)
    (agrees : (script.emit env table).Agrees (script.emit env' table'))
    (whole : ¬ (script.emit env table).Broken (.start firstLabel firstHandle))
    (whole' : ¬ (script.emit env' table').Broken (.start firstLabel firstHandle)) :
    ∃ next,
      (∃ f, script.write env table firstLabel firstHandle = (.error f, next) ∧
        script.write env' table' firstLabel firstHandle = (.error f, next)) ∨
      ∃ code code', script.write env table firstLabel firstHandle = (.ok code, next) ∧
        script.write env' table' firstLabel firstHandle = (.ok code', next) ∧
        ∀ rest rest', withoutRemarks rest' = withoutRemarks rest →
          withoutRemarks (code' ++ rest') = withoutRemarks (code ++ rest) := by
  obtain ⟨same, after⟩ := agrees.agree (.start firstLabel firstHandle) whole whole'
  simp only [Script.write]
  generalize (script.emit env table).run (.start firstLabel firstHandle) = run at same after ⊢
  generalize (script.emit env' table').run (.start firstLabel firstHandle) = run' at same after ⊢
  obtain ⟨result, s⟩ := run
  obtain ⟨result', t⟩ := run'
  obtain rfl : result' = result := same
  refine ⟨s.nextLabel, ?_⟩
  dsimp only
  rw [show t.nextLabel = s.nextLabel from after.like.nextLabel]
  cases result' with
  | error f => exact .inl ⟨f, rfl, rfl⟩
  | ok _ =>
    refine .inr ⟨_, _, rfl, rfl, fun rest rest' others => ?_⟩
    have first := Item.withoutRemarks_items env.config.labelPrefix after.listing.lines rest
    have second := Item.withoutRemarks_items env'.config.labelPrefix after.listing.lines' rest'
    rw [labels, after.listing.items, others, ← first] at second
    rw [labels]
    exact second

/-- Scripts that agree under two settings are reported alike and have the same code. -/
theorem writeScripts_agree {env env' : Env} {table table' : Placeholder} {scripts : List Script}
    (labels : env'.config.labelPrefix = env.config.labelPrefix)
    (each : ∀ script ∈ scripts, (script.emit env table).Agrees (script.emit env' table'))
    (whole : ∀ script ∈ scripts, ∀ firstLabel firstHandle,
      ¬ (script.emit env table).Broken (.start firstLabel firstHandle) ∧
        ¬ (script.emit env' table').Broken (.start firstLabel firstHandle))
    (firstHandle firstLabel : Nat) :
    (writeScripts env' table' firstHandle firstLabel scripts).diagnostics =
        (writeScripts env table firstHandle firstLabel scripts).diagnostics ∧
      withoutRemarks (writeScripts env' table' firstHandle firstLabel scripts).code =
        withoutRemarks (writeScripts env table firstHandle firstLabel scripts).code := by
  induction scripts generalizing firstLabel with
  | nil => exact ⟨rfl, rfl⟩
  | cons script rest ih =>
    obtain ⟨here, others⟩ := List.forall_mem_cons.mp each
    obtain ⟨unbroken, later⟩ := List.forall_mem_cons.mp whole
    obtain ⟨fine, fine'⟩ := unbroken firstLabel firstHandle
    obtain ⟨next, ⟨f, ran, ran'⟩ | ⟨code, code', ran, ran', texts⟩⟩ :=
      Script.write_agrees labels here fine fine'
    · obtain ⟨reports, codes⟩ := ih others later next
      rw [writeScripts, writeScripts, ran, ran']
      exact ⟨congrArg (_ :: ·) reports, codes⟩
    · obtain ⟨reports, codes⟩ := ih others later next
      rw [writeScripts, writeScripts, ran, ran']
      exact ⟨reports, texts _ _ codes⟩

/-- The settings for comments change neither what is reported nor the code of a unit whose texts are of
one line: without the lines that begin with a star, the texts are equal. -/
theorem Document.compile_withoutRemarks (d : Document) {config config' : Config}
    (labels : config'.labelPrefix = config.labelPrefix) (lines : OneLines d.strings) :
    (d.compile config').diagnostics = (d.compile config).diagnostics ∧
      withoutRemarks (d.compile config').code = withoutRemarks (d.compile config).code := by
  obtain ⟨tidy, bodies⟩ := d.resolve_tidy lines
  have agree : ∀ script ∈ d.resolve.1, _ := fun script isResolved =>
    Script.emit_agrees tidy.types.tidy tidy.deferred (bodies script isResolved) config config'
  have whole (config : Config) (script : Script) (isResolved : script ∈ d.resolve.1)
      (firstLabel firstHandle : Nat) :
      ¬ Emit.Broken (script.emit ⟨d.resolve.2.2.types, config⟩
        (placeholderTable ⟨d.resolve.2.2.types, config⟩ d.resolve.2.2.deferred))
        (.start firstLabel firstHandle) := by
    rintro ⟨f, failed, internal⟩
    have external := (Document.emit_safe isResolved config).external
      (.start firstLabel firstHandle) (List.forall_mem_nil _) f failed
    rw [external] at internal
    cases internal
  have written := writeScripts_agree labels agree
    (fun script isResolved firstLabel firstHandle =>
      ⟨whole config script isResolved firstLabel firstHandle,
        whole config' script isResolved firstLabel firstHandle⟩) d.resolve.2.2.nextHandle 0
  exact ⟨congrArg (d.resolve.2.1 ++ ·) written.1, written.2⟩

/-- A variable, a name for it and a loop over agents, with and without comments. -/
theorem Document.compile_withoutRemarks_loop :
    let stmt (line : UInt32) (kind : StatementKind) : Statement := .mk ⟨"unit", line, 1⟩ kind
    let d : Document := { Document.empty with install := some (stmt 1 (.block [
      stmt 2 (.declare ["count"] [] (some (.int 0))),
      stmt 3 (.synonym "total" (.id "count")),
      stmt 4 (.enumerate .enum (.named "Agent") []
        (stmt 5 (.update .add (.id "total") (.int 1))))] true)) }
    let plain := d.compile ⟨false, false, "_RAL_"⟩
    let commented := d.compile ⟨true, true, "_RAL_"⟩
    OneLines d.strings ∧ commented.code ≠ plain.code ∧
      commented.diagnostics = plain.diagnostics ∧
        withoutRemarks commented.code = withoutRemarks plain.code := by
  intro stmt d plain commented
  have lines : OneLines d.strings := by decide +kernel
  exact ⟨lines, by decide +kernel, d.compile_withoutRemarks rfl lines⟩

end AgentScript
