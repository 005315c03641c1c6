import AgentScript.Proofs.Jumps.Generate

/-! The shape of generated code. Labels are made for loops only: each is defined once, behind a jump,
and jumps lead to the loop whose lines they stand between. `Structured` is the grammar of such code. -/
namespace AgentScript

namespace Instr

def defined? : Instr → Option Label
  | subr label => some label
  | _ => none

/-- The labels in a line. Text that the script itself gives is not looked into. -/
def labels : Instr → List Label
  | goto label | subr label => [label]
  | _ => []

theorem defined?_plain {i : Instr} (plain : i.isPlain = true) : i.defined? = none := by
  cases i <;> first | rfl | cases plain

end Instr

/-- Code that control cannot fall into a label of: the line before each label is a jump. -/
def Guarded (code : List Instr) : Prop :=
  ∀ before l after, code = before ++ .subr l :: after → ∃ front k, before = front ++ [.goto k]

namespace Guarded

theorem nil : Guarded [] := by
  intro before l after same
  simp at same

theorem plain {i : Instr} (plain : i.isPlain = true) : Guarded [i] := by
  intro before l after same
  cases before with
  | nil =>
    cases same
    cases plain
  | cons j rest =>
    have := congrArg List.length same
    simp at this

theorem goto (l : Label) : Guarded [.goto l] := by
  intro before k after same
  cases before with
  | nil => cases same
  | cons j rest =>
    have := congrArg List.length same
    simp at this

theorem pair (k l : Label) : Guarded [.goto k, .subr l] := by
  intro before m after same
  match before, same with
  | [], same => cases same
  | [i], same =>
    cases same
    exact ⟨[], k, rfl⟩
  | i :: j :: rest, same =>
    have := congrArg List.length same
    simp at this

theorem append (first : Guarded a) (second : Guarded b) : Guarded (a ++ b) := by
  intro before l after same
  rcases List.append_eq_append_iff.mp same with ⟨middle, rfl, rest⟩ | ⟨middle, rfl, rest⟩
  · obtain ⟨front, k, rfl⟩ := second middle l after rest
    exact ⟨a ++ front, k, by rw [List.append_assoc]⟩
  · cases middle with
    | nil =>
      obtain ⟨front, k, same⟩ := second [] l after rest.symm
      simp at same
    | cons i middle =>
      cases rest
      exact first before l middle rfl

end Guarded

/-- Code whose jumps lead to the loop around it or stay inside, with the labels from the first number
up to the second. -/
inductive Structured : Option LoopTarget → Nat → Nat → List Instr → Prop where
  | nil : Structured around n n []
  | plain : i.isPlain = true → Structured around n n [i]
  | append : Structured around l m a → Structured around m n b → Structured around l n (a ++ b)
  | apart : Structured none m n code → Structured around m n code
  | leave : Structured (some target) n n [.goto target.label]
  | again : Structured (some target) n n [.goto target.continueLabel]
  | loop : Structured (some ⟨.numbered (n + 1), none, .numbered n⟩) (n + 2) m body →
      Structured around n m ([.goto (.numbered n), .subr (.numbered n)] ++ body ++
        [.goto (.numbered n), .subr (.numbered (n + 1))])
  | enumeration : Structured around (n + 1) l head →
      Structured (some ⟨.numbered n, some flag, .numbered n⟩) l m body →
      Structured around n m (head ++ body ++
        ([.endi] ++ [.goto (.numbered n), .subr (.numbered n)] ++ [.next]))

namespace Structured

theorem le (code : Structured around m n lines) : m ≤ n := by
  induction code with
  | nil | plain | leave | again => exact Nat.le_refl _
  | append _ _ first second => exact Nat.le_trans first second
  | apart _ ih => exact ih
  | loop _ ih => omega
  | enumeration _ _ first second => omega

theorem defined (code : Structured around m n lines) :
    (lines.filterMap Instr.defined?).Perm ((List.range' m (n - m)).map .numbered) := by
  induction code with
  | nil => simp
  | plain plain => simp [Instr.defined?_plain plain]
  | leave | again => simp [Instr.defined?]
  | @append around l m a n b one two first second =>
    have le₁ := one.le
    have le₂ := two.le
    rw [List.filterMap_append, show n - l = (m - l) + (n - m) by omega, ← List.range'_append_1,
      List.map_append, show l + (m - l) = m by omega]
    exact first.append second
  | apart _ ih => exact ih
  | @loop n m body around inside ih =>
    have le := inside.le
    rw [show m - n = (m - (n + 2)) + 1 + 1 by omega, List.range'_succ, List.range'_succ]
    simp only [List.filterMap_append, List.map_cons]
    simp only [Instr.defined?, List.filterMap_cons, List.filterMap_nil, List.cons_append,
      List.nil_append]
    refine .cons _ (List.perm_append_comm.trans (.cons _ ih))
  | @enumeration around n l head flag m body first inside starts ih =>
    have le₁ := first.le
    have le₂ := inside.le
    rw [show m - n = (l - (n + 1)) + (m - l) + 1 by omega, List.range'_succ, ← List.range'_append_1,
      show n + 1 + (l - (n + 1)) = l by omega]
    simp only [List.filterMap_append, List.map_cons, List.map_append]
    simp only [Instr.defined?, List.filterMap_cons, List.filterMap_nil, List.nil_append,
      List.append_nil]
    exact List.perm_append_comm.trans (.cons _ (starts.append ih))

/-- A jump leads to a label of the code, or to the loop around it. -/
theorem jumps (code : Structured around m n lines) {l : Label} (jump : .goto l ∈ lines) :
    .subr l ∈ lines ∨ ∃ target, around = some target ∧ (l = target.label ∨ l = target.continueLabel) := by
  induction code with
  | nil => cases jump
  | plain plain =>
    cases List.mem_singleton.mp jump
    cases plain
  | leave =>
    cases List.mem_singleton.mp jump
    exact .inr ⟨_, rfl, .inl rfl⟩
  | again =>
    cases List.mem_singleton.mp jump
    exact .inr ⟨_, rfl, .inr rfl⟩
  | append _ _ first second =>
    rcases List.mem_append.mp jump with here | there
    · exact (first here).imp_left (List.mem_append_left _)
    · exact (second there).imp_left (List.mem_append_right _)
  | apart _ ih =>
    rcases ih jump with inside | ⟨target, none, _⟩
    · exact .inl inside
    · cases none
  | loop _ ih =>
    simp only [List.mem_append, List.mem_cons, List.not_mem_nil, or_false, Instr.goto.injEq,
      reduceCtorEq, false_or, Instr.subr.injEq] at jump ⊢
    rcases jump with (top | inside) | top
    · exact .inl (.inl (.inl top))
    · rcases ih inside with inside | ⟨target, same, leads⟩
      · exact .inl (.inl (.inr inside))
      · cases same
        rcases leads with rfl | rfl
        · exact .inl (.inr rfl)
        · exact .inl (.inl (.inl rfl))
    · exact .inl (.inl (.inl top))
  | enumeration _ _ starts ih =>
    simp only [List.mem_append, List.mem_cons, List.not_mem_nil, or_false, Instr.goto.injEq,
      reduceCtorEq, false_or, Instr.subr.injEq] at jump ⊢
    rcases jump with (start | inside) | exit
    · exact (starts start).imp_left fun here => .inl (.inl here)
    · rcases ih inside with inside | ⟨target, same, leads⟩
      · exact .inl (.inl (.inr inside))
      · cases same
        rcases leads with rfl | rfl
        · exact .inl (.inr rfl)
        · exact .inl (.inr rfl)
    · exact .inl (.inr exit)

theorem guarded (code : Structured around m n lines) : Guarded lines := by
  induction code with
  | nil => exact .nil
  | plain plain => exact .plain plain
  | leave | again => exact .goto _
  | append _ _ first second => exact first.append second
  | apart _ ih => exact ih
  | loop _ ih => exact ((Guarded.pair _ _).append ih).append (.pair _ _)
  | enumeration _ _ starts ih =>
    exact (starts.append ih).append (((Guarded.plain rfl).append (.pair _ _)).append (.plain rfl))

end Structured

namespace Emit

def Shaped (x : Emit α) : Prop :=
  ∀ s, Emits s x fun _ t code => t.loop = s.loop ∧ Structured s.loop s.nextLabel t.nextLabel code

namespace Shaped
variable {x : Emit Unit} {s : Ctx}

theorem bind {x : Emit α} {f : α → Emit β} (first : Shaped x) (next : ∀ a, Shaped (f a)) :
    Shaped (x >>= f) := fun s =>
  (first s).bind fun a t _ ⟨same, here⟩ => (next a t).mono fun _ _ _ ⟨same', there⟩ =>
    ⟨same'.trans same, here.append (same ▸ there)⟩

theorem pure (a : α) : Shaped (Pure.pure a) := fun _ => .pure ⟨rfl, .nil⟩

theorem look {f : Ctx → Emit α} (next : ∀ s, Shaped (f s)) : Shaped (.look f) := fun s =>
  ⟨(next s s).found⟩

theorem perform {op : Op} (plain : op.isPlain = true) : Shaped (Emit.perform op) := by
  intro s
  cases op with
  | code before i after =>
    exact (Emits.code before i after).mono fun _ t code ⟨line, after⟩ => by
      subst line after
      exact ⟨rfl, .plain plain⟩
  | comment text =>
    exact (Emits.comment text).mono fun _ t code ⟨noLine, after⟩ => by
      subst noLine after
      exact ⟨rfl, .nil⟩
  | queue text =>
    exact (Emits.queue text).mono fun _ t code ⟨noLine, after⟩ => by
      subst noLine after
      exact ⟨rfl, .nil⟩
  | label => cases plain
  | handles next =>
    refine ⟨fun a t ran => ?_⟩
    cases ran
    exact ⟨[], (List.append_nil _).symm, rfl, .nil⟩
  | bind handle =>
    refine ⟨fun a t ran => ?_⟩
    cases ran
    simp only [Op.perform]
    split <;> exact ⟨[], (List.append_nil _).symm, rfl, .nil⟩

theorem within {loop : Option LoopTarget → Option LoopTarget} (shaped : Shaped x)
    (inner : ∀ {around m n code}, Structured (loop around) m n code → Structured around m n code) :
    Shaped (Emit.within loop x) := fun s =>
  (Emits.within loop (shaped (s.enter loop))).mono fun _ t code ⟨u, ⟨_, here⟩, after⟩ => by
    subst after
    exact ⟨rfl, inner here⟩

theorem inScope (shaped : Shaped x) : Shaped x.inScope := within shaped id

theorem freshLabel_bind {f : Label → Emit Unit} {post : Unit → Ctx → List Instr → Prop}
    (next : Emits { s with nextLabel := s.nextLabel + 1 } (f (.numbered s.nextLabel)) post) :
    Emits s (Emit.freshLabel >>= f) post :=
  ⟨fun a t ran => next.found a t ran⟩

theorem loop (shaped : Shaped x) : Shaped (Action.loop x) := by
  intro s
  refine freshLabel_bind (freshLabel_bind ?_)
  refine Emits.bind (.code 0 _ 0) fun _ t₁ _ ⟨enter, first⟩ => ?_
  refine Emits.bind (.code 0 _ 1) fun _ t₂ _ ⟨top, second⟩ => ?_
  refine Emits.bind (.within _ (shaped _)) fun _ t₃ body ⟨u, ⟨_, inside⟩, third⟩ => ?_
  refine Emits.bind (.code (-1) _ 0) fun _ t₄ _ ⟨again, fourth⟩ => ?_
  refine Emits.mono (.code 0 _ 0) fun _ t₅ _ ⟨exit, fifth⟩ => ?_
  subst enter top again exit first second third fourth fifth
  have whole : Structured s.loop _ _ _ := .loop inside
  exact ⟨rfl, by simpa [Ctx.leave] using whole⟩

theorem temp : Shaped Emit.temp := by
  have handle : Shaped Emit.freshHandle := look fun _ => (perform rfl).bind fun _ => pure _
  refine handle.bind fun _ => look fun s => ?_
  dsimp only [Emit.andThen]
  split
  · exact fun _ => .refuse _
  · exact (perform rfl).bind fun _ => pure _

/-- The lines of an enumeration once its label is made: those before the body, and the body. -/
theorem enumerate_lines {env : Env} {starter : List PartCode}
    (parts : Shaped (PartCode.render env starter)) (shaped : Shaped x) (n slot : Nat) (s : Ctx) :
    Emits s (Action.enumeration env starter (.numbered n) slot x) fun _ t code => t.loop = s.loop ∧ ∃ l head body,
        Structured s.loop s.nextLabel l head ∧
        Structured (some ⟨.numbered n, some (.register slot), .numbered n⟩) l t.nextLabel body ∧
        code = head ++ body ++ ([.endi] ++ [.goto (.numbered n), .subr (.numbered n)] ++ [.next]) := by
  refine Emits.bind (.code 0 _ 0) fun _ t₁ _ ⟨store, first⟩ => ?_
  refine Emits.bind (parts t₁) fun text t₂ starts ⟨around, before⟩ => ?_
  refine Emits.bind (.code 0 _ 1) fun _ t₃ _ ⟨opening, third⟩ => ?_
  refine Emits.bind (.code 0 _ 1) fun _ t₄ _ ⟨check, fourth⟩ => ?_
  refine Emits.bind (.within _ (shaped _)) fun _ t₅ body ⟨u, ⟨_, inside⟩, fifth⟩ => ?_
  refine Emits.bind (.code (-1) _ 0) fun _ t₆ _ ⟨last, sixth⟩ => ?_
  refine Emits.bind (.code 0 _ 0) fun _ t₇ _ ⟨jump, seventh⟩ => ?_
  refine Emits.bind (.code 0 _ 0) fun _ t₈ _ ⟨exit, eighth⟩ => ?_
  refine Emits.mono (.code (-1) _ 0) fun _ t₉ _ ⟨closing, ninth⟩ => ?_
  subst store opening check last jump exit closing first third fourth fifth sixth seventh eighth ninth
  have head : Structured s.loop s.nextLabel t₂.nextLabel ([.store .value (.register slot) (.int 0)] ++
      (starts ++ ([.enumerate text] ++ [.doif (.atom (.register slot) .eq (.int 0))]))) :=
    .append (.plain rfl) (before.append (.append (.plain rfl) (.plain rfl)))
  exact ⟨around, _, _, body, head, inside, by simp⟩

theorem enumerate {env : Env} {starter : List PartCode} (parts : Shaped (PartCode.render env starter))
    (shaped : Shaped x) : Shaped (Action.enumerate env starter x) := by
  refine inScope fun s => freshLabel_bind (.bind (temp _) fun slot t taken ⟨around, before⟩ => ?_)
  have lines (u : Ctx) (same : u.loop = s.loop) (labels : u.nextLabel = t.nextLabel) :=
    (enumerate_lines parts shaped s.nextLabel slot u).mono fun _ v code ⟨kept, l, head, body, here, inside, whole⟩ => by
      rw [same, labels] at here
      exact (⟨kept.trans same, by simpa [whole] using Structured.enumeration (before.append here) inside⟩ :
        v.loop = s.loop ∧ Structured s.loop s.nextLabel v.nextLabel (taken ++ code))
  split
  · refine Emits.bind (.comment _) fun _ u _ ⟨noLine, after⟩ => ?_
    subst noLine after
    exact lines _ around rfl
  · exact lines t around rfl

theorem breakTo (target : Option LoopTarget) (around : s.loop = target) :
    Emits s (Action.breakTo target) fun _ t code =>
      t.loop = s.loop ∧ Structured s.loop s.nextLabel t.nextLabel code := by
  cases target with
  | none => exact .refuse _
  | some target =>
    obtain ⟨label, flag, continueLabel⟩ := target
    have jump (u : Ctx) (same : u.loop = some ⟨label, flag, continueLabel⟩) :
        Emits u (Emit.line (.goto label)) fun _ t code =>
          t.loop = u.loop ∧ Structured u.loop u.nextLabel t.nextLabel code :=
      (Emits.code 0 _ 0).mono fun _ t code ⟨line, after⟩ => by
        subst line after
        exact ⟨rfl, same ▸ .leave⟩
    cases flag with
    | none => exact jump s around
    | some flag =>
      refine Emits.bind (.code 0 _ 0) fun _ t _ ⟨line, after⟩ => ?_
      subst line after
      refine Emits.mono (jump _ ?_) ?_
      · exact around
      · exact fun _ _ _ ⟨same, here⟩ => ⟨same, .append (.plain rfl) here⟩

theorem continueTo (target : Option LoopTarget) (around : s.loop = target) :
    Emits s (Action.continueTo target) fun _ t code =>
      t.loop = s.loop ∧ Structured s.loop s.nextLabel t.nextLabel code := by
  cases target with
  | none => exact .refuse _
  | some target =>
    refine (Emits.code 0 _ 0).mono fun _ t code ⟨line, after⟩ => ?_
    subst line after
    exact ⟨rfl, around ▸ .again⟩

theorem law : JumpLaw fun _ _ _ x _ => Shaped x where
  pure := pure
  refuse _ _ := .refuse _
  bind := bind
  look := look
  perform := perform
  located shaped s := (shaped s).located _
  inScope := inScope
  outsideLoops shaped := within shaped .apart
  apart := id
  breakLoop _ := by
    rw [Action.breakLoop_eq]
    exact fun s => ⟨(breakTo s.loop rfl).found⟩
  continueLoop _ := by
    rw [Action.continueLoop_eq]
    exact fun s => ⟨(continueTo s.loop rfl).found⟩
  loop shaped := loop (shaped ⟨.numbered 0, none, .numbered 0⟩)
  enumerate parts shaped := enumerate parts (shaped ⟨.numbered 0, none, .numbered 0⟩)

end Shaped

end Emit

end AgentScript
