import AgentScript.Proofs.Jumps.Structure
import AgentScript.Proofs.ScriptText

/-! Labels in the text of a unit. All scripts of a unit draw labels from one supply, also those that fail
after having drawn some, so that no label is defined twice; the jumps of a script stay inside it. -/
namespace AgentScript

theorem Op.perform_labels (op : Op) (s : Ctx) : s.nextLabel ≤ (op.perform s).nextLabel := by
  cases op with
  | label => exact Nat.le_succ _
  | bind handle =>
    simp only [perform]
    split <;> exact Nat.le_refl _
  | _ => exact Nat.le_refl _

theorem Routine.run_labels (r : Routine) (s : Ctx) : s.nextLabel ≤ (r.run s).2.nextLabel := by
  induction r generalizing s with
  | done | fail => exact Nat.le_refl _
  | look next ih => exact ih s s
  | act op next ih => exact Nat.le_trans (op.perform_labels s) (ih _)
  | scope loop body next inner ih =>
    have inside := inner (s.enter loop)
    simp only [run]
    split
    · next t ran =>
      rw [ran] at inside
      exact Nat.le_trans inside (ih (t.leave s.outside))
    · next ran =>
      rw [ran] at inside
      exact inside

theorem Emit.run_labels (x : Emit α) (s : Ctx) : s.nextLabel ≤ (x.run s).2.nextLabel := by
  rw [← run_routine_snd]
  exact x.routine.run_labels s

structure LabelsFrom (n : Nat) (labels : List Label) : Prop where
  nodup : labels.Nodup
  numbered : ∀ l ∈ labels, ∃ k, n ≤ k ∧ l = .numbered k

namespace LabelsFrom

theorem nil (n : Nat) : LabelsFrom n [] := ⟨List.nodup_nil, by simp⟩

theorem mono (labels : LabelsFrom n ls) (le : m ≤ n) : LabelsFrom m ls where
  nodup := labels.nodup
  numbered l member := by
    obtain ⟨k, large, same⟩ := labels.numbered l member
    exact ⟨k, Nat.le_trans le large, same⟩

/-- The labels of some code come before those of code that is written later. -/
theorem append (code : Structured around m n lines) (later : LabelsFrom n ls) :
    LabelsFrom m (lines.filterMap Instr.defined? ++ ls) := by
  have defined := code.defined
  have below {l : Label} (member : l ∈ lines.filterMap Instr.defined?) :
      ∃ k, m ≤ k ∧ k < n ∧ l = .numbered k := by
    obtain ⟨k, inside, rfl⟩ := List.mem_map.mp (defined.mem_iff.mp member)
    have le := code.le
    have range := List.mem_range'_1.mp inside
    exact ⟨k, range.1, by omega, rfl⟩
  refine ⟨List.nodup_append'.mpr ⟨?_, later.nodup, ?_⟩, fun l member => ?_⟩
  · rw [defined.nodup_iff]
    exact (List.nodup_map_iff fun _ _ => Label.numbered.inj).mpr List.nodup_range'
  · intro l first second
    obtain ⟨k, _, small, rfl⟩ := below first
    obtain ⟨j, large, same⟩ := later.numbered _ second
    cases same
    omega
  · rcases List.mem_append.mp member with first | second
    · obtain ⟨k, large, _, same⟩ := below first
      exact ⟨k, large, same⟩
    · exact (later.mono code.le).numbered l second

theorem texts_nodup (labels : LabelsFrom n ls) (head : String) : (ls.map (Label.text head)).Nodup := by
  refine List.Nodup.map_on (fun l first k second same => ?_) labels.nodup
  obtain ⟨i, _, rfl⟩ := labels.numbered l first
  obtain ⟨j, _, rfl⟩ := labels.numbered k second
  simp only [Label.text, Text.nat, Nat.repr_eq_ofList_toDigits] at same
  have digits : Nat.toDigits 10 i = Nat.toDigits 10 j := by
    simpa using congrArg String.toList same
  have value := congrArg (Nat.ofDigitChars 10 · 0) digits
  simp only [Nat.ofDigitChars_ten_toDigits] at value
  rw [value]

end LabelsFrom

theorem Script.emit_shaped (env : Env) (deferred : List (Option Expr)) (script : Script) :
    (script.emit env (placeholderTable env deferred)).Shaped := by
  have law := Emit.Shaped.law
  have tables := placeholders_match (p := .anywhere) env law
    (fun e (_ : some e ∈ deferred) => exprFits_wider (J := fun _ _ => true) e (.inl rfl)) deferred.length
  have body : (script.body.run env (placeholderTable env deferred)).Shaped :=
    Action.run_match env law tables none script.body (Action.fits_wider (J := fun _ _ => true) _ (.inl rfl))
  have plain {before after : Int} {i : Instr} (isPlain : i.isPlain = true) :
      (Emit.code before i after).Shaped :=
    Emit.Shaped.perform isPlain
  unfold Script.emit
  cases script.kind with
  | install => exact body
  | event comment header =>
    exact (Emit.Shaped.perform rfl).bind fun _ => (plain rfl).bind fun _ => body.bind fun _ => plain rfl
  | remove => exact (plain rfl).bind fun _ => body

theorem itemsEach_structured (env : Env) (deferred : List (Option Expr)) (firstHandle firstLabel : Nat)
    (scripts : List (Except Failure Script)) :
    let codes := (succeeded (itemsEach env (placeholderTable env deferred) firstHandle firstLabel
      scripts)).map Item.lines
    (∀ code ∈ codes, ∃ m n, Structured none m n code) ∧
      LabelsFrom firstLabel (codes.flatten.filterMap Instr.defined?) := by
  intro codes
  induction scripts generalizing firstLabel with
  | nil => exact ⟨List.forall_mem_nil _, .nil _⟩
  | cons script rest ih =>
    cases script with
    | error f => exact ih firstLabel
    | ok script =>
      have drawn : firstLabel ≤ _ := (script.emit env (placeholderTable env deferred)).run_labels
        (Ctx.start firstLabel firstHandle)
      have shaped := (script.emit_shaped env deferred (Ctx.start firstLabel firstHandle)).found
      simp only [codes, itemsEach, Script.items]
      rcases ran : (script.emit env (placeholderTable env deferred)).run
        (Ctx.start firstLabel firstHandle) with ⟨_ | _, s⟩
      · rw [ran] at drawn
        obtain ⟨each, labels⟩ := ih s.nextLabel
        exact ⟨each, labels.mono drawn⟩
      · obtain ⟨code, lines, _, structured⟩ := shaped _ _ ran
        obtain ⟨each, labels⟩ := ih s.nextLabel
        have whole : Item.lines s.listing.items.toList = code := by
          simpa [Ctx.lines, Listing.lines, Ctx.start, Listing.empty, Item.lines] using lines
        have first : Structured none firstLabel s.nextLabel code := structured
        refine ⟨?_, ?_⟩
        · simpa [Except.map, whole] using ⟨⟨_, _, first⟩, by simpa using each⟩
        · simpa [Except.map, whole] using LabelsFrom.append first (by simpa using labels)

/-- In the text of a unit every label that a line of code mentions is defined by exactly one line of
the whole text, jumps stay within the text of their script, and the line of code before the definition
of a label is a jump. -/
theorem Document.jumps_structured (config : Config) (d : Document) :
    let codes := (succeeded (d.items config)).map Item.lines
    (d.compile config).code =
      String.join ((succeeded (d.items config)).map (Item.renderAll config.labelPrefix)) ∧
    (∀ i ∈ codes.flatten, ∀ l ∈ i.labels,
      ((codes.flatten.filterMap Instr.defined?).map (Label.text config.labelPrefix)).count
        (l.text config.labelPrefix) = 1) ∧
    (∀ code ∈ codes, ∀ l, .goto l ∈ code → .subr l ∈ code) ∧
    ∀ code ∈ codes, Guarded code := by
  intro codes
  have structured := itemsEach_structured ⟨d.scripts.2.types, config⟩ d.scripts.2.deferred
    d.scripts.2.nextHandle 0 d.scripts.1
  obtain ⟨each, labels⟩ : (∀ code ∈ codes, ∃ m n, Structured none m n code) ∧
    LabelsFrom 0 (codes.flatten.filterMap Instr.defined?) := structured
  have inside (code : List Instr) (member : code ∈ codes) (l : Label) (jump : .goto l ∈ code) :
      .subr l ∈ code := by
    obtain ⟨m, n, structured⟩ := each code member
    rcases structured.jumps jump with defined | ⟨_, none, _⟩
    · exact defined
    · cases none
  refine ⟨d.compile_code config, fun i member l mentioned => ?_, inside, fun code member => ?_⟩
  · obtain ⟨code, isCode, isLine⟩ := List.mem_flatten.mp member
    have defined : Instr.subr l ∈ code := by
      cases i with
      | goto k =>
        cases List.mem_singleton.mp mentioned
        exact inside code isCode l isLine
      | subr k =>
        cases List.mem_singleton.mp mentioned
        exact isLine
      | _ => cases mentioned
    refine List.count_eq_one_of_mem (labels.texts_nodup _) (List.mem_map_of_mem ?_)
    exact List.mem_filterMap.mpr ⟨_, List.mem_flatten.mpr ⟨code, isCode, defined⟩, rfl⟩
  · obtain ⟨m, n, structured⟩ := each code member
    exact structured.guarded

end AgentScript
