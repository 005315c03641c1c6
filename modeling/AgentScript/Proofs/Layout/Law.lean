import AgentScript.Proofs.Likeness.Generate

/-! Relations between the runs of one script under two settings that ask for different comments: a script
is like itself, so that every law for scripts that are alike applies. -/
namespace AgentScript

/-- Contexts that differ at most in what has been written. -/
structure Ctx.Like (s t : Ctx) : Prop where
  pool : t.pool = s.pool
  bound : t.bound = s.bound
  loop : t.loop = s.loop
  nextLabel : t.nextLabel = s.nextLabel
  nextHandle : t.nextHandle = s.nextHandle

namespace Ctx

theorem Like.refl (s : Ctx) : s.Like s := ⟨rfl, rfl, rfl, rfl, rfl⟩

theorem loops_same {a b : Option LoopTarget} : Option.Rel (LoopTarget.Like .same) a b ↔ b = a := by
  constructor
  · intro same
    cases same with
    | none => rfl
    | @some a b like =>
      obtain ⟨label, flag, again⟩ := like
      cases a
      cases b
      cases label
      cases flag
      cases again
      rfl
  · rintro rfl
    cases b with
    | none => exact .none
    | some target => exact .some ⟨rfl, rfl, rfl⟩

theorem matches_same {s t : Ctx} (bound : t.bound = s.bound) (loop : t.loop = s.loop)
    (nextLabel : t.nextLabel = s.nextLabel) (nextHandle : t.nextHandle = s.nextHandle) :
    s.Matches .same t := by
  refine ⟨?_, loops_same.mpr loop, fun n => ?_, fun n => ?_⟩
  · rw [bound]
    exact List.forall₂_same.mpr fun a _ => ⟨rfl, rfl⟩
  · rw [nextLabel]
    exact rfl
  · rw [nextHandle]
    exact rfl

theorem Like.matches {s t : Ctx} (like : s.Like t) : s.Matches .same t :=
  matches_same like.bound like.loop like.nextLabel like.nextHandle

end Ctx

def Op.isAside : Op → Bool
  | label | handles _ | bind _ => true
  | _ => false

namespace Emit

/-- At most a comment, with a text of a kind. -/
inductive Remark (P : String → Prop) : Emit Unit → Prop where
  | nothing : Remark P (Pure.pure ())
  | comment : P text → Remark P (Emit.comment text)
  | queue : P text → Remark P (Emit.queue text)
  | asked {A : α → Prop} {q : Ctx → Except Cause α} {f : α → Emit Unit} :
      (∀ {s a}, q s = .ok a → A a) → (∀ {s c}, q s = .error c → c.isInternal = true) →
      (∀ a, A a → Remark P (f a)) → Remark P (Emit.inspect q >>= f)

theorem Remarks.both {x y : Emit Unit} (remarks : Remarks .same P x y) : Remark P x ∧ Remark P y := by
  induction remarks with
  | comment first second _ => exact ⟨.comment first, .comment second⟩
  | @asked _ A q q' f g asks _ ih =>
    have answers (s : Ctx) := asks.answers (Ctx.Like.refl s).matches
    constructor
    · refine .asked (fun {s a} told => ?_) (fun {s c} failed => ?_) fun a holds => (ih a holds).1
      · have here := answers s
        rw [told] at here
        generalize q' s = z at here
        cases here with
        | ok same => exact same.2
      · have here := answers s
        rw [failed] at here
        generalize q' s = z at here
        cases here with
        | error cause => exact cause.2
    · refine .asked (fun {s a} told => ?_) (fun {s c} failed => ?_) fun a holds => (ih a holds).2
      · have here := answers s
        rw [told] at here
        generalize q s = z at here
        cases here with
        | ok same => exact same.1 ▸ same.2
      · have here := answers s
        rw [failed] at here
        generalize q s = z at here
        cases here with
        | error cause => exact cause.1 ▸ cause.2

theorem Remark.shown {x : Emit Unit} (remark : Remark P x) (asked : Bool) : Remark P (shown asked x) := by
  cases asked with
  | true => exact remark
  | false => exact .nothing

/-- What a relation respects that holds between the codes of a script under two settings, where the
comments have texts of a kind. -/
structure LayoutLaw (env env' : Env) (P : String → Prop) (R : Comparison) : Prop where
  types : env'.types = env.types
  named : ∀ ty, P (env.types.name ty)
  /-- Texts of one line are of this kind, and it is closed under joining. -/
  oneLine : ∀ {text}, Text.OneLine text → P text
  append : ∀ {a b : String}, P a → P b → P (a ++ b)
  pure : ∀ {α} (a : α), R (Pure.pure a) (Pure.pure a)
  refuse : ∀ {α} (c : Cause), R (Emit.refuse c : Emit α) (Emit.refuse c)
  bind : ∀ {α β} {x y : Emit α} {f g : α → Emit β}, R x y → (∀ a, R (f a) (g a)) →
    R (x >>= f) (y >>= g)
  look : ∀ {α} {f g : Ctx → Emit α}, (∀ s t, s.Like t → R (f s) (g t)) → R (.look f) (.look g)
  aside : ∀ {op : Op}, op.isAside = true → R (perform op) (perform op)
  line : ∀ {i : Instr}, i.isSimple = true → R (Emit.line i) (Emit.line i)
  remark : ∀ {x y}, Remark P x → Remark P y → R x y
  located : ∀ (pos) (kind : ActionKind) (table : Placeholder) {y}, R (kind.run env table) y →
    R ((kind.run env table).located pos) (y.located pos)
  within : ∀ {loop x y}, R x y → R (Emit.within loop x) (Emit.within loop y)
  guarded : ∀ (test) {yes yes' no no'}, R yes yes' → Option.Rel R no no' →
    R (Emit.guarded test yes no) (Emit.guarded test yes' no')
  enumerated : ∀ (text) {x y}, R x y → R (Emit.enumerated text x) (Emit.enumerated text y)
  repeated : ∀ (top) {x y}, R x y → R (Emit.repeated top x) (Emit.repeated top y)

namespace LayoutLaw
variable {env env' : Env} {P : String → Prop} {R : Comparison}

theorem law (layout : LayoutLaw env env' P R) : LoopLaw .same env env' P R where
  __ := layout
  toSuits := .ofSame layout.types layout.named layout.oneLine layout.append fun _ => rfl
  anyCause _ := rfl
  refuse := by
    rintro _ _ _ rfl
    exact layout.refuse _
  look next := layout.look fun s t like => next s t like.matches
  label := layout.aside rfl
  handles := by
    intro a b same
    obtain rfl : a = b := same 0
    exact layout.aside rfl
  register := by
    rintro a _ rfl
    refine layout.look fun s t like => ?_
    dsimp only [Emit.andThen]
    rw [like.pool]
    split
    · exact layout.refuse _
    · exact layout.bind (layout.aside rfl) fun _ => layout.pure _
  line straight := layout.line (Instr.isSimple_of_straight straight)
  goto := by
    rintro _ _ rfl
    exact layout.line rfl
  subr := by
    rintro _ _ rfl
    exact layout.line rfl
  varNote remarks := layout.remark (remarks.both.1.shown _) (remarks.both.2.shown _)
  placeNote _ _ worded := layout.remark ((Remark.queue worded).shown _) ((Remark.queue worded).shown _)
  inScope := layout.within
  within := by
    intro loop loop' x y same inner
    obtain rfl : loop = loop' := funext fun a => (Ctx.loops_same.mp (same (Ctx.loops_same.mpr rfl))).symm
    exact layout.within inner
  repeated := by
    rintro _ _ _ _ rfl inner
    exact layout.repeated _ inner

end LayoutLaw

/-- What a property of routines respects that the code of every script has. -/
structure OwnLaw (env : Env) (U : {α : Type} → Emit α → Prop) : Prop where
  pure : ∀ {α} (a : α), U (Pure.pure a)
  refuse : ∀ {α} (c : Cause), U (Emit.refuse c : Emit α)
  bind : ∀ {α β} {x : Emit α} {f : α → Emit β}, U x → (∀ a, U (f a)) → U (x >>= f)
  /-- What has been written and which registers are free makes no difference. -/
  look : ∀ {α} {f : Ctx → Emit α}, (∀ s, U (f s)) → (∀ {s t}, s.Matches .same t → f t = f s) → U (.look f)
  perform : ∀ {op : Op}, (∀ handle, op ≠ .bind handle) → U (perform op)
  register : ∀ handle, U (Emit.bind handle)
  located : ∀ (pos) (kind : ActionKind) (table : Placeholder), U (kind.run env table) →
    U ((kind.run env table).located pos)
  within : ∀ (loop) {x}, U x → U (Emit.within loop x)

/-- Code that is the same, and that has a property. -/
def Own (U : {α : Type} → Emit α → Prop) : Comparison := fun x y => y = x ∧ U x

namespace OwnLaw
variable {env : Env} {U : {α : Type} → Emit α → Prop} (own : OwnLaw env U)
include own

theorem code (before : Int) (i : Instr) (after : Int) : U (Emit.code before i after) := own.perform nofun

/-- A question whose answer registers have no part in, and code that depends on it. -/
theorem asked {A : α → Prop} {q q' : Ctx → Except Cause α} (asks : Asks .same A q q')
    {f g : α → Emit β} (next : ∀ a, A a → g a = f a ∧ U (f a)) {s t : Ctx} (matched : s.Matches .same t) :
    Emit.ofExcept (q' t) >>= g = Emit.ofExcept (q s) >>= f ∧ U (Emit.ofExcept (q s) >>= f) := by
  have answers := asks.answers matched
  generalize q s = answer, q' t = answer' at answers
  cases answers with
  | error cause =>
    cases cause.1
    exact ⟨rfl, own.refuse _⟩
  | ok known =>
    cases known.1
    exact next _ known.2

theorem remarks {x y : Emit Unit} (both : Remarks .same P x y) : y = x ∧ U x := by
  induction both with
  | comment _ _ same =>
    cases same
    exact ⟨rfl, own.perform nofun⟩
  | asked asks _ ih =>
    have self (s : Ctx) : s.Matches .same s := (Ctx.Like.refl s).matches
    refine ⟨congrArg Emit.look (funext fun s => (own.asked asks ih (self s)).1), ?_⟩
    refine own.look (fun s => (own.asked asks ih (self s)).2) fun {s t} matched => ?_
    exact (own.asked asks ih (self t)).1.symm.trans (own.asked asks ih matched).1

theorem shown {x : Emit Unit} (holds : U x) (asked : Bool) : U (shown asked x) := by
  cases asked with
  | true => exact holds
  | false => exact own.pure ()

theorem law : LoopLaw .same env env (fun _ => True) (Own U) where
  toSuits := .ofSame rfl (fun _ => trivial) (fun _ => trivial) (fun _ _ => trivial) fun _ => rfl
  anyCause _ := rfl
  pure a := ⟨rfl, own.pure a⟩
  refuse := by
    rintro _ _ _ rfl
    exact ⟨rfl, own.refuse _⟩
  bind := by
    rintro _ _ _ _ f g ⟨rfl, first⟩ next
    obtain rfl : g = f := funext fun a => (next a).1
    exact ⟨rfl, own.bind first fun a => (next a).2⟩
  look {_ f g} each := by
    obtain rfl : g = f := funext fun s => (each s s (Ctx.Like.refl s).matches).1
    refine ⟨rfl, own.look (fun s => (each s s (Ctx.Like.refl s).matches).2) fun matched => ?_⟩
    exact (each _ _ matched).1
  label := ⟨rfl, own.perform nofun⟩
  handles := by
    intro a b same
    obtain rfl : a = b := same 0
    exact ⟨rfl, own.perform nofun⟩
  register := by
    rintro a _ rfl
    exact ⟨rfl, own.register a⟩
  line _ := ⟨rfl, own.code ..⟩
  goto := by
    rintro _ _ rfl
    exact ⟨rfl, own.code ..⟩
  subr := by
    rintro _ _ rfl
    exact ⟨rfl, own.code ..⟩
  varNote both := by
    obtain ⟨rfl, holds⟩ := own.remarks both
    exact ⟨rfl, own.shown holds _⟩
  placeNote _ _ _ := by
    refine ⟨rfl, own.shown ?_ _⟩
    exact own.perform nofun
  located := by
    rintro pos kind table _ ⟨rfl, inner⟩
    exact ⟨rfl, own.located pos kind table inner⟩
  inScope := by
    rintro _ _ ⟨rfl, inner⟩
    exact ⟨rfl, own.within id inner⟩
  within := by
    rintro loop loop' _ _ same ⟨rfl, inner⟩
    obtain rfl : loop = loop' := funext fun a => (Ctx.loops_same.mp (same (Ctx.loops_same.mpr rfl))).symm
    exact ⟨rfl, own.within loop inner⟩
  guarded := by
    rintro test _ _ _ _ ⟨rfl, yes⟩ no
    cases no with
    | none => exact ⟨rfl, own.bind (own.code ..) fun _ => own.bind yes fun _ => own.code ..⟩
    | some no =>
      obtain ⟨rfl, no⟩ := no
      exact ⟨rfl, own.bind (own.code ..) fun _ => own.bind yes fun _ => own.bind (own.code ..) fun _ =>
        own.bind no fun _ => own.code ..⟩
  enumerated := by
    rintro text _ _ ⟨rfl, inner⟩
    exact ⟨rfl, own.bind (own.code ..) fun _ => own.bind inner fun _ => own.code ..⟩
  repeated := by
    rintro _ _ _ _ rfl ⟨rfl, inner⟩
    exact ⟨rfl, own.bind (own.code ..) fun _ => own.bind inner fun _ => own.code ..⟩

end OwnLaw

namespace LoopLaw
variable {env env' : Env} {P : String → Prop} {R : Comparison} {deferred : List (Option Expr)}

/-- Placeholders stand for related codes of the same expression. -/
theorem tables (law : LoopLaw .same env env' P R)
    (worded : ∀ e, some e ∈ deferred → ∀ s ∈ exprStrings e, P s) (rounds : Nat) :
    Placeholder.Alike .same P R (placeholders env deferred rounds)
      (placeholders env' deferred rounds) := by
  induction rounds with
  | zero => exact fun _ _ _ => .none
  | succ rounds ih =>
    rintro n _ rfl
    unfold placeholders
    cases found : deferred[n]? with
    | none => exact .none
    | some entry =>
      cases entry with
      | none => exact .none
      | some e =>
        exact .some (codeOf_alike law Likeness.same_keyed ih e _ (expr_like_same e)
          (worded e (List.mem_of_getElem? found)))

end LoopLaw

theorem LayoutLaw.run {env env' : Env} {P : String → Prop} {R : Comparison}
    (layout : LayoutLaw env env' P R) {deferred : List (Option Expr)}
    (worded : ∀ e, some e ∈ deferred → ∀ s ∈ exprStrings e, P s) (a : Action)
    (lines : ∀ s ∈ a.strings, P s) :
    R (a.run env (placeholderTable env deferred)) (a.run env' (placeholderTable env' deferred)) :=
  Action.run_alike layout.law Likeness.same_keyed (layout.law.tables worded _) a _ a.like_same lines

end Emit

end AgentScript
