import AgentScript.Proofs.Resolution.Law

/-! A lawful reading holds of every source tree, by recursion on it. -/
namespace AgentScript

section
variable {V : Reading ι κ} {nested nested' : Nested} (law : V.Lawful nested nested')
include law

mutual
theorem Term.meaning_reads : (t : Term) → {i : ι} → V.node i (.term t) →
    (t.meaning nested).Reads V i (t.meaning nested')
  | .int _, _, _ | .float _, _, _ | .str _, _, _ | .bytes _, _, _ => Meaning.literal_reads law.toSteps _
  | .id name, _, _ => Meaning.name_reads law.toSteps name
  | .group items, _, node => Meaning.group_reads law.toSteps (meanings_reads items (law.inner node .items))
  | .chain op items, _, node =>
    Meaning.chain_reads law.toSteps op (meanings_reads items (law.inner node .operands))
  | .call _ args, _, node =>
    Meaning.ofValue_reads law.toSteps (law.calls node (meanings_reads args (law.inner node .args)))
  | .field base name, _, node =>
    Meaning.field_reads law.toSteps (Term.meaning_reads base (law.inner node .field)) name
  | .cast base ty, _, node =>
    Meaning.cast_reads law.toSteps (Term.meaning_reads base (law.inner node .cast)) ty
  | .denull base, _, node =>
    Meaning.denull_reads law.toSteps (Term.meaning_reads base (law.inner node .denull))
  | .compare op left right, _, node =>
    Meaning.compare_reads law.toSteps op (Term.meaning_reads left (law.inner node .compareLeft))
      (Term.meaning_reads right (law.inner node .compareRight))
  | .logic op left right, _, node =>
    Meaning.logic_reads law.toSteps op (Term.meaning_reads left (law.inner node .logicLeft))
      (Term.meaning_reads right (law.inner node .logicRight))
  | .not t, _, node => Meaning.not_reads law.toSteps (Term.meaning_reads t (law.inner node .not))
  | .inline parts ty, _, node =>
    Meaning.inline_reads law.toSteps (resolveParts_reads parts (law.inner node .inline)) ty
  | .messageId ty name script, _, _ => Meaning.messageId_reads law.toSteps ty name script
  | .isInstance base cls, _, node =>
    Meaning.isInstance_reads law.toSteps (Term.meaning_reads base (law.inner node .isInstance)) cls
  | .seq body result, _, node =>
    Meaning.seq_reads law.toSteps (resolveBody_reads body (law.inner node .seqBody))
      (Term.meaning_reads result (law.inner node .seqResult))
theorem meanings_reads : (items : List Term) → {i : ι} → V.node i (.terms items) →
    List.Forall₂ (Meaning.Reads V i) (meanings nested items) (meanings nested' items)
  | [], _, _ => .nil
  | t :: rest, _, node =>
    .cons (Term.meaning_reads t (law.inner node .first)) (meanings_reads rest (law.inner node .others))
theorem meaning?_reads : (t : Option Term) → {i : ι} → V.node i (.term? t) →
    Option.Rel (Meaning.Reads V i) (meaning? nested t) (meaning? nested' t)
  | none, _, _ => .none
  | some t, _, node => .some (Term.meaning_reads t (law.inner node .given))
theorem Fragment.resolve_reads : (f : Fragment) → {i : ι} → {k : κ} → V.node i (.fragments (f :: fs)) →
    V.Step false i k (fun k p p' => ∀ {k' ps ps'}, V.grows false k k' → V.parts i k' ps ps' →
      V.parts i k' (p :: ps) (p' :: ps')) (f.resolve nested) (f.resolve nested')
  | .text _, _, _, node => law.pure fun _ others => law.fragment node others
  | .term t, _, _, node =>
    law.bind (Term.meaning_reads t (law.inner node .fragment)).value fun _ known =>
      law.pure fun grown others => law.exprPart (law.exprLater grown known) others
theorem resolveParts_reads : (parts : List Fragment) → {i : ι} → {k : κ} → V.node i (.fragments parts) →
    V.Step false i k (V.parts i) (resolveParts nested parts) (resolveParts nested' parts)
  | [], i, k, _ => law.pure (law.noParts i k)
  | f :: rest, _, _, node =>
    law.bind (Fragment.resolve_reads f node) fun _ first =>
      law.bind (resolveParts_reads rest (law.inner node .fragments)) fun grown others =>
        law.pure (first grown others)
theorem Selector.meaning_reads : (s : Selector) → {i : ι} → V.node i (.selector s) →
    (s.meaning nested).Reads V i (s.meaning nested')
  | .name name, _, _ => .name name
  | .number t, _, node => .value (Term.meaning_reads t (law.inner node .number))
theorem Statement.resolve_reads : (s : Statement) → {i : ι} → {k : κ} → V.node i (.statement s) →
    V.Step true i k (V.action i k) (s.resolve nested) (s.resolve nested')
  | .mk _ kind, _, _, node => law.statement node (StatementKind.resolve_reads kind (law.inner node .kind))
theorem resolveBody_reads : (body : List Statement) → {i : ι} → {k : κ} → V.node i (.body body) →
    V.Step true i k (V.actions i k) (resolveBody nested body) (resolveBody nested' body)
  | [], i, k, _ => law.pure (law.noActions i k)
  | s :: rest, i, _, node =>
    law.andThen ((Statement.resolve_reads s (law.inner node .statement)).site (law.meetsAlone i).symm)
      fun _ first => law.andThen (resolveBody_reads rest (law.inner node .rest)) fun grown others =>
        law.pure (law.consActions first grown others)
theorem resolve?_reads : (s : Option Statement) → {i : ι} → V.node i (.statement? s) →
    Option.Rel (fun x x' => ∀ {k}, V.Step true i k (V.action i k) x x') (resolve? nested s) (resolve? nested' s)
  | none, _, _ => .none
  | some s, _, node => .some (Statement.resolve_reads s (law.inner node .otherwise))
theorem StatementKind.resolve_reads : (kind : StatementKind) → {i : ι} → {k : κ} → V.node i (.kind kind) →
    V.Step true i k (V.kind i k) (kind.resolve nested) (kind.resolve nested')
  | .block body true, i, k, node =>
    law.bind (P := fun k' as as' => V.kind i k k' (.block as true) (.block as' true))
      (law.inFrame (law.innerFrame i) (resolveBody_reads body (law.inner node .block)) law.block)
      fun _ known => law.pure known
  | .block body false, _, _, node =>
    law.andThen (resolveBody_reads body (law.inner node .openBlock)) fun _ known => law.pure (law.openBlock known)
  | .declare _ _ init, _, _, node =>
    Statement.declare_reads law.toSteps node (meaning?_reads init (law.inner node .init))
  | .assign targets source, _, _, node =>
    Statement.assign_reads law.toSteps (meaning?_reads targets (law.inner node .targets))
      (Term.meaning_reads source (law.inner node .source))
  | .update op target source, _, _, node =>
    Statement.update_reads law.toSteps op (Term.meaning_reads target (law.inner node .target))
      (Term.meaning_reads source (law.inner node .operand))
  | .synonym _ target, _, _, node =>
    Statement.synonym_reads law.toSteps node (Term.meaning_reads target (law.inner node .synonym))
  | .branch cond yes no, _, _, node =>
    Statement.branch_reads law.toSteps (Term.meaning_reads cond (law.inner node .condition))
      (Statement.resolve_reads yes (law.inner node .yes)) (resolve?_reads no (law.inner node .no))
  | .loop body, _, _, node =>
    Statement.loop_reads law.toSteps (Statement.resolve_reads body (law.inner node .loop))
  | .breakLoop, _, _, node => law.breakLoop node
  | .continueLoop, _, _, node => law.continueLoop node
  | .enumerate _ _ params body, _, _, node =>
    Statement.enumerate_reads law.toSteps node (meanings_reads params (law.inner node .params))
      (Statement.resolve_reads body (law.inner node .enumerated))
  | .inline parts, _, _, node =>
    law.bind (resolveParts_reads parts (law.inner node .written)) fun grown known =>
      law.pure (law.since grown (law.write known))
  | .send agent message params delay, _, _, node =>
    Statement.send_reads law.toSteps (Term.meaning_reads agent (law.inner node .agent))
      (Selector.meaning_reads message (law.inner node .message))
      (meanings_reads params (law.inner node .sent)) (meaning?_reads delay (law.inner node .delay))
  | .call script params, _, _, node =>
    Statement.call_reads law.toSteps (Selector.meaning_reads script (law.inner node .script))
      (meanings_reads params (law.inner node .passed))
end

end

end AgentScript
