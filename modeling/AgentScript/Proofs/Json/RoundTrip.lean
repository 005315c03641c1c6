import AgentScript.Proofs.Json.Floatless
import AgentScript.Tree.Read

/-! The text of a unit reads back as the unit. Main statement: this holds of every unit without a number
that is not whole whose text has no more brackets open at once than a reader takes. A reader with `k`
levels left reads everything back that takes no more than `k` brackets; this is shown by induction on
`k`, one step of which goes through the kinds of term and statement once. -/
namespace AgentScript

open Json

theorem ne_null_of_depth {j : Json} (deep : 0 < j.depth) : j ≠ .null := by
  rintro rfl
  simp [depth] at deep

namespace Reader
variable {k : Nat}

theorem chainOp_reads (op : ChainOp) : Reads k chainOp (text op.word) op :=
  .oneOf (by cases op <;> rfl)

theorem compareOp_reads (op : CompareOp) : Reads k compareOp (text op.name) op :=
  .oneOf (by cases op <;> rfl)

theorem logicOp_reads (op : LogicOp) : Reads k logicOp (text op.name) op :=
  .oneOf (by cases op <;> rfl)

theorem enumKind_reads (kind : EnumKind) : Reads k enumKind (text kind.name) kind :=
  .oneOf (by cases kind <;> rfl)

theorem perm_reads (perm : Perm) : Reads k Reader.perm (text perm.word) perm :=
  .oneOf (by cases perm <;> rfl)

theorem bytes_reads (bs : List UInt8) : Reads k (list asUInt8) (bytesJson bs) bs :=
  .list fun b _ => .uint8 b

theorem classifier_reads (c : Classifier) : Reads k classifier c.json c :=
  Fields.Reads.record (.required (.uint8 c.family) <|
    .required (.uint8 c.genus) <| .required (.uint16 c.species) .done)

theorem position_reads (pos : Position) : Reads k position pos.json pos :=
  Fields.Reads.record (.withDefault (.text pos.file) <|
    .required (.uint32 pos.line) <| .withDefault (.uint32 pos.column) .done)

end Reader

theorem TypeRef.json_depth (t : TypeRef) : 0 < t.json.depth := by
  cases t <;> simp [TypeRef.json, depth_tagged]

namespace Reader
variable {k : Nat}

theorem typeRefStep_reads {reader : Reader TypeRef} (reads : ∀ t : TypeRef, Reads k reader t.json t)
    (t : TypeRef) : Reads (k + 1) (typeRefStep reader) t.json t := by
  cases t with
  | named name => exact .tagged (.text name)
  | classifier c => exact .tagged (classifier_reads c)
  | nullable t => exact .tagged (reads t)
  | union members =>
    rw [TypeRef.json, typeRefsJson_eq]
    exact .tagged (.list fun t _ => reads t)

theorem typeRefWithin_reads (k : Nat) (t : TypeRef) : Reads k (typeRefWithin k) t.json t := by
  induction k generalizing t with
  | zero => exact .zero t.json_depth
  | succ k ih => exact typeRefStep_reads ih t

theorem typeRef_reads (enough : k ≤ maxDepth) (t : TypeRef) : Reads k typeRef t.json t :=
  (typeRefWithin_reads maxDepth t).mono enough

end Reader

theorem Term.json_depth (t : Term) : 0 < t.json.depth := by
  cases t <;> simp [Term.json, depth_tagged]

theorem Statement.json_depth (s : Statement) : 0 < s.json.depth := by
  cases s
  exact depth_fields_pos _

namespace Reader.Nested
variable {k : Nat} {n : Nested}

/-- What takes no more than `k` brackets reads back. -/
structure Faithful (k : Nat) (n : Nested) : Prop where
  term : ∀ t : Term, t.floatless = true → Reads k n.term t.json t
  statement : ∀ s : Statement, s.floatless = true → Reads k n.statement s.json s

namespace Faithful
variable (faithful : n.Faithful k)
include faithful

theorem terms {ts : List Term} (floatless : termsFloatless ts = true) :
    Reads k (list n.term) (.array (termsJson ts)) ts := by
  rw [termsJson_eq]
  exact .list fun t member => faithful.term t (termsFloatless_iff.mp floatless t member)

theorem statements {body : List Statement}
    (floatless : statementsFloatless body = true) :
    Reads k (list n.statement) (.array (statementsJson body)) body := by
  rw [statementsJson_eq]
  exact .list fun s member => faithful.statement s (statementsFloatless_iff.mp floatless s member)

theorem term? {t : Option Term} (floatless : term?Floatless t = true) :
    Reads k (nullable n.term) (optionTermJson t) t := by
  rw [optionTermJson_eq]
  exact .orNull (fun u member => faithful.term u (term?Floatless_iff.mp floatless u member))
    fun u => ne_null_of_depth u.json_depth

theorem statement? {s : Option Statement}
    (floatless : statement?Floatless s = true) :
    Reads k (nullable n.statement) (optionStatementJson s) s := by
  rw [optionStatementJson_eq]
  exact .orNull (fun u member => faithful.statement u (statement?Floatless_iff.mp floatless u member))
    fun u => ne_null_of_depth u.json_depth

theorem fragment (f : Fragment) (floatless : f.floatless = true) :
    Reads k n.fragment f.json f := by
  refine Reads.mono (k := k + 1) ?_ (Nat.le_succ k)
  cases f with
  | text s => exact .tagged (.text s)
  | term t => exact .tagged (faithful.term t floatless)

theorem fragments {parts : List Fragment}
    (floatless : fragmentsFloatless parts = true) :
    Reads k (list n.fragment) (.array (fragmentsJson parts)) parts := by
  rw [fragmentsJson_eq]
  exact .list fun f member => faithful.fragment f (fragmentsFloatless_iff.mp floatless f member)

theorem selector {s : Selector} (floatless : s.floatless = true) :
    Reads k n.selector s.json s := by
  refine Reads.mono (k := k + 1) ?_ (Nat.le_succ k)
  cases s with
  | name name => exact .tagged (.text name)
  | number t => exact .tagged (faithful.term t floatless)

end Faithful

theorem termStep_reads (faithful : n.Faithful k) (enough : k ≤ maxDepth) (t : Term)
    (floatless : t.floatless = true) : Reads (k + 1) n.termStep t.json t := by
  have type (ty : TypeRef) := typeRef_reads enough ty
  cases t with
  | float v => cases floatless
  | int v => exact .tagged (.int32 v)
  | str s => exact .tagged (.text s)
  | bytes bs => exact .tagged (bytes_reads bs)
  | id name => exact .tagged (.text name)
  | group items => exact .tagged (faithful.terms floatless)
  | chain op operands =>
    exact Fields.Reads.tagged (.required (chainOp_reads op) <| .required (faithful.terms floatless) .done)
  | call name args =>
    exact Fields.Reads.tagged (.required (.text name) <| .withDefault (faithful.terms floatless) .done)
  | field base name =>
    exact Fields.Reads.tagged (.required (faithful.term base floatless) <| .required (.text name) .done)
  | cast base ty =>
    exact Fields.Reads.tagged (.required (faithful.term base floatless) <| .required (type ty) .done)
  | denull base => exact .tagged (faithful.term base floatless)
  | compare op left right =>
    rw [Term.floatless, Bool.and_eq_true] at floatless
    exact Fields.Reads.tagged (.required (compareOp_reads op) <| .required (faithful.term left floatless.1) <|
        .required (faithful.term right floatless.2) .done)
  | logic op left right =>
    rw [Term.floatless, Bool.and_eq_true] at floatless
    exact Fields.Reads.tagged (.required (logicOp_reads op) <| .required (faithful.term left floatless.1) <|
        .required (faithful.term right floatless.2) .done)
  | not t => exact .tagged (faithful.term t floatless)
  | inline parts ty =>
    exact Fields.Reads.tagged (.required (faithful.fragments floatless) <| .required (type ty) .done)
  | messageId ty name script =>
    exact Fields.Reads.tagged (.required (type ty) <| .required (.text name) <| .withDefault (.bool script) .done)
  | isInstance base cls =>
    exact Fields.Reads.tagged (.required (faithful.term base floatless) <| .required (classifier_reads cls) .done)
  | seq body result =>
    rw [Term.floatless, Bool.and_eq_true] at floatless
    exact Fields.Reads.tagged (.required (faithful.statements floatless.1) <|
        .required (faithful.term result floatless.2) .done)

theorem statementFields_nodup (tag : String) : ("pos" :: "stmt" :: statementFields tag).Nodup := by
  unfold statementFields
  split <;> decide

theorem taggedKind_reads {kind : StatementKind} {fs : List (String × Json)}
    (same : fs.map (·.1) = statementFields tag) (reads : Fields.Reads k fs (n.statementKind tag) kind) :
    Reads (k + 1) n.taggedKind (fields (("stmt", text tag) :: fs)) kind := by
  refine .taken ⟨.fields (List.forall_mem_cons.mpr ⟨fun _ => .text, reads.plain⟩), fun p small deep => ?_⟩
  have nodup := (List.nodup_cons.mp (statementFields_nodup tag)).2
  obtain ⟨head, read, mark, rest, given⟩ := Fields.read?_kind same nodup small deep
  have named : head.required "stmt" statementTag = some tag := by
    simp [Fields.required, (mark.each _ List.mem_cons_self).1, statementTag, text]
  simp only [fields] at read
  simp only [fields, read, named, rest, reads.read _ given, Option.bind_eq_bind, Option.bind_some]

/-- The position of a statement stands among the fields of its kind. -/
theorem statementStep_reads_of (pos : Position) {kind : StatementKind} {fs : List (String × Json)}
    (reads : Fields.Reads k fs (n.statementKind tag) kind)
    (written : kind.jsonFields = ("stmt", text tag) :: fs := by rfl)
    (same : fs.map (·.1) = statementFields tag := by rfl) :
    Reads (k + 1) n.statementStep (Statement.mk pos kind).json (.mk pos kind) := by
  rw [Statement.json, written]
  have kindReads := taggedKind_reads same reads
  have shallower : (fields (("stmt", text tag) :: fs)).depth ≤
      (fields (("pos", pos.json) :: ("stmt", text tag) :: fs)).depth := by
    simp [fields, depth, fieldsDepth]
  refine ⟨.fields ?_, fun p small deep => ?_⟩
  · exact List.forall_mem_cons.mpr ⟨(position_reads pos).plain,
      List.forall_mem_cons.mpr ⟨fun _ => .text, reads.plain⟩⟩
  have names : (("stmt", text tag) :: fs).map (·.1) = "stmt" :: statementFields tag := by
    rw [List.map_cons, same]
  have nodup := statementFields_nodup tag
  obtain ⟨head, read, mark, _⟩ := Fields.read?_kind names nodup small deep
  have others : (((("pos", pos.json) :: ("stmt", text tag) :: fs).map fun f =>
      ((some f.1, f.2) : Option String × Json)).filter fun f => f.1 != some "pos") =
      (("stmt", text tag) :: fs).map fun f => (some f.1, f.2) := by
    rw [List.map_cons, List.filter_cons_of_neg (by simp), List.filter_eq_self]
    refine List.forall_mem_map.mpr fun f member => ?_
    have other : f.1 ≠ "pos" := fun same =>
      (List.nodup_cons.mp nodup).1 (names ▸ same ▸ List.mem_map_of_mem member)
    simpa using other
  have kindRead := kindReads.read p small (Nat.le_trans shallower deep)
  have posRead : head.withDefault "pos" position .unknown = some pos := by
    obtain ⟨found, room⟩ := mark.each _ List.mem_cons_self
    rw [Fields.withDefault, found]
    exact (position_reads pos).read _ mark.small room
  simp only [fields] at read kindRead
  simp only [statementStep, fields, read, others, kindRead, posRead, Option.bind_eq_bind,
    Option.bind_some, Option.pure_def]

theorem statementStep_reads (faithful : n.Faithful k) (enough : k ≤ maxDepth) (s : Statement)
    (floatless : s.floatless = true) : Reads (k + 1) n.statementStep s.json s := by
  obtain ⟨pos, kind⟩ := s
  rw [Statement.floatless] at floatless
  have type (ty : TypeRef) := typeRef_reads enough ty
  cases kind with
  | block body closed =>
    exact statementStep_reads_of pos (.required (faithful.statements floatless) <| .withDefault (.bool closed) .done)
  | declare names types init =>
    exact statementStep_reads_of pos (.required (.list fun name _ => .text name) <|
        .withDefault (.list fun t _ => .orNull (fun u _ => type u) fun u => ne_null_of_depth u.json_depth) <|
        .nullable (faithful.term? floatless) .done)
  | assign targets source =>
    rw [StatementKind.floatless, Bool.and_eq_true] at floatless
    exact statementStep_reads_of pos (.nullable (faithful.term? floatless.1) <| .required (faithful.term source floatless.2) .done)
  | update op target source =>
    rw [StatementKind.floatless, Bool.and_eq_true] at floatless
    exact statementStep_reads_of pos (.required (chainOp_reads op) <| .required (faithful.term target floatless.1) <|
        .required (faithful.term source floatless.2) .done)
  | synonym name target =>
    exact statementStep_reads_of pos (.required (.text name) <| .required (faithful.term target floatless) .done)
  | branch cond yes no =>
    rw [StatementKind.floatless, Bool.and_eq_true, Bool.and_eq_true] at floatless
    exact statementStep_reads_of pos (.required (faithful.term cond floatless.1.1) <|
        .required (faithful.statement yes floatless.1.2) <|
        .nullable (faithful.statement? floatless.2) .done)
  | loop body =>
    exact statementStep_reads_of pos (.required (faithful.statement body floatless) .done)
  | breakLoop | continueLoop => exact statementStep_reads_of pos .done
  | enumerate kind agent params body =>
    rw [StatementKind.floatless, Bool.and_eq_true] at floatless
    exact statementStep_reads_of pos (.required (enumKind_reads kind) <| .required (type agent) <|
        .withDefault (faithful.terms floatless.1) <|
        .required (faithful.statement body floatless.2) .done)
  | inline parts =>
    exact statementStep_reads_of pos (.required (faithful.fragments floatless) .done)
  | send agent message params delay =>
    simp only [StatementKind.floatless, Bool.and_eq_true] at floatless
    obtain ⟨⟨⟨first, second⟩, third⟩, fourth⟩ := floatless
    exact statementStep_reads_of pos (.required (faithful.term agent first) <| .required (faithful.selector second) <|
        .withDefault (faithful.terms third) <| .nullable (faithful.term? fourth) .done)
  | call script params =>
    rw [StatementKind.floatless, Bool.and_eq_true] at floatless
    exact statementStep_reads_of pos (.required (faithful.selector floatless.1) <| .withDefault (faithful.terms floatless.2) .done)

theorem within_faithful (enough : k ≤ maxDepth) : (within k).Faithful k := by
  induction k with
  | zero => exact ⟨fun t _ => .zero t.json_depth, fun s _ => .zero s.json_depth⟩
  | succ k ih =>
    have inner := ih (Nat.le_of_succ_le enough)
    exact ⟨termStep_reads inner (Nat.le_of_succ_le enough),
      statementStep_reads inner (Nat.le_of_succ_le enough)⟩

end Reader.Nested

namespace Reader

theorem term_reads (t : Term) (floatless : t.floatless = true) : Reads maxDepth term t.json t :=
  (Nested.within_faithful (Nat.le_refl _)).term t floatless

theorem statement_reads (s : Statement) (floatless : s.floatless = true) :
    Reads maxDepth statement s.json s :=
  (Nested.within_faithful (Nat.le_refl _)).statement s floatless

theorem declarationFields_nodup (tag : String) : ("decl" :: declarationFields tag).Nodup := by
  unfold declarationFields
  split <;> decide

theorem declaration_reads_of {d : Declaration} {fs : List (String × Json)}
    (reads : Fields.Reads maxDepth fs (declarationKind tag) d)
    (written : d.jsonFields = ("decl", text tag) :: fs := by rfl)
    (same : fs.map (·.1) = declarationFields tag := by rfl) : Reads maxDepth declaration d.json d := by
  rw [Declaration.json, written]
  refine .mono (.taken ⟨.fields (List.forall_mem_cons.mpr ⟨fun _ => .text, reads.plain⟩),
    fun p small deep => ?_⟩) (Nat.le_succ maxDepth)
  obtain ⟨head, read, mark, rest, given⟩ :=
    Fields.read?_kind same (declarationFields_nodup tag) small deep
  have named : head.required "decl" asText = some tag := by
    simp [Fields.required, (mark.each _ List.mem_cons_self).1, asText, text]
  simp only [fields] at read
  simp only [fields, read, named, rest, reads.read _ given, Option.bind_eq_bind, Option.bind_some]

theorem declaration_reads (d : Declaration) (floatless : d.floatless = true) :
    Reads maxDepth declaration d.json d := by
  have type (t : TypeRef) : Reads maxDepth typeRef t.json t := typeRef_reads (Nat.le_refl _) t
  cases d with
  | cls name c =>
    exact declaration_reads_of (.required (.text name) <|
      .required (classifier_reads c) .done)
  | interface name =>
    exact declaration_reads_of (.required (.text name) .done)
  | implements ty i =>
    exact declaration_reads_of (.required (type ty) <| .required (type i) .done)
  | field owner name ty slot =>
    exact declaration_reads_of (.required (type owner) <| .required (.text name) <|
      .required (type ty) <| .required (.uint8 slot) .done)
  | message owner name number | script owner name number =>
    exact declaration_reads_of (.required (type owner) <| .required (.text name) <|
      .required (.uint16 number) .done)
  | const name value =>
    exact declaration_reads_of (.required (.text name) <|
      .required (term_reads value floatless) .done)
  | typedef name ty =>
    exact declaration_reads_of (.required (.text name) <| .required (type ty) .done)

theorem paramDef_reads (param : ParamDef) : Reads maxDepth paramDef param.json param :=
  Fields.Reads.record (.required (.text param.name) <|
    .required (typeRef_reads (Nat.le_refl _) param.ty) <|
    .nullable (.orNull (fun perm _ => perm_reads perm) nofun) .done)

theorem macroDef_reads (m : MacroDef) (floatless : m.body.floatless = true) :
    Reads maxDepth macroDef m.json m :=
  Fields.Reads.record (.required (.text m.name) <|
    .withDefault (.list fun p _ => paramDef_reads p) <|
    .required (term_reads m.body floatless) <| .withDefault (position_reads m.pos) .done)

theorem scriptRef_reads (r : ScriptRef) : Reads k scriptRef r.json r := by
  cases r with
  | number n =>
    refine .taken ⟨(Reads.uint16 n).plain, fun p small deep => ?_⟩
    rw [ScriptRef.json, (Reads.uint16 n).read p small deep]
  | name s => exact .taken ⟨fun _ => .text, fun _ _ _ => rfl⟩

theorem eventScript_reads (e : EventScript) (floatless : e.body.floatless = true) :
    Reads maxDepth eventScript e.json e :=
  Fields.Reads.record (.withDefault (position_reads e.pos) <|
    .required (classifier_reads e.classifier) <| .required (scriptRef_reads e.script) <|
    .required (statement_reads e.body floatless) .done)

theorem document_reads (d : Document) (floatless : d.floatless = true) :
    Reads maxDepth document d.json d := by
  simp only [Document.floatless, Bool.and_eq_true, List.all_eq_true, Option.all_eq_true] at floatless
  obtain ⟨⟨⟨⟨declarations, macros⟩, install⟩, events⟩, remove⟩ := floatless
  have script {o : Option Statement} (each : ∀ s, o = some s → s.floatless = true) :
      Reads maxDepth (nullable statement) (orNull Statement.json o) o :=
    .orNull (fun s member => statement_reads s (each s member)) fun s => ne_null_of_depth s.json_depth
  exact Fields.Reads.record
    (.withDefault (.list fun x member => declaration_reads x (declarations x member)) <|
      .withDefault (.list fun m member => macroDef_reads m (macros m member)) <|
      .nullable (script install) <|
      .withDefault (.list fun e member => eventScript_reads e (events e member)) <|
      .nullable (script remove) .done)

end Reader

/-- The text of a unit reads back as the unit, if no number in it is not whole and its text has no more
than `maxLevels` brackets open at once. -/
theorem Document.parse?_text (d : Document) (floatless : d.floatless = true)
    (shallow : d.json.depth ≤ maxLevels) : Document.parse? d.text = some d := by
  have reads := Reader.document_reads d floatless
  have plain := reads.plain (Nat.le_succ_of_le shallow)
  rw [Document.parse?, Document.text, Json.parse?_pretty plain, Option.bind_some]
  exact reads.read .start (Nat.le_succ _) shallow

/-- As many brackets are open at once as can be read. -/
theorem Document.parse?_text_deepest :
    let stmt (kind : StatementKind) : Statement := .mk ⟨"a.ral", 4294967295, 0⟩ kind
    let d : Document := {
      declarations :=
        [.cls "Ball" ⟨2, 21, 65535⟩, .implements (.named "Ball") (.union [.nullable (.named "Toy")]),
          .const "größe" (.str "\"\t\u0001😀"), .field (.classifier ⟨2, 0, 0⟩) "\\" (.named "integer") 255]
      macros := [⟨"keep", [⟨"v", .named "integer", none⟩, ⟨"w", .named "any", some .rw⟩], .id "v", .unknown⟩]
      install := some (stmt (.assign none (Nat.repeat .denull 124 (.int (-2147483648)))))
      events :=
        [⟨.unknown, ⟨2, 21, 1⟩, .number 9, stmt (.branch (.id "x")
            (stmt (.declare ["a", "b"] [none, some (.named "integer")] none)) none)⟩,
          ⟨.unknown, ⟨2, 21, 1⟩, .name "9", stmt (.block [stmt .breakLoop] false)⟩]
      remove := none }
    d.floatless = true ∧ d.json.depth = maxLevels ∧ Document.parse? d.text = some d := by
  intro stmt d
  have floatless : d.floatless = true := by decide +kernel
  have depth : d.json.depth = maxLevels := by decide +kernel
  exact ⟨floatless, depth, Document.parse?_text d floatless (Nat.le_of_eq depth)⟩

end AgentScript
