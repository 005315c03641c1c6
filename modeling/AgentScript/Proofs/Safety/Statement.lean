import AgentScript.Proofs.Safety.Value

/-! Texts, calls and statements that fail only for reasons that lie in the script. -/
namespace AgentScript
variable {vars : List LocalVar} {parts : List PartCode} {body : Emit Unit}

theorem registerNote_safe (env : Env) (slot : Nat) (ty : TypeId) (label : String) :
    (registerNote env slot ty label).Safe hs :=
  .ite (.comment _) (.pure ())

theorem bindVars_safe (env : Env) (vars : List LocalVar) : (bindVars env vars).Safe hs := by
  induction vars with
  | nil => exact .pure ()
  | cons v rest ih =>
    exact (Emit.Safe.register v.handle).bind fun _ => (registerNote_safe ..).bind fun _ => ih

theorem varSlots_safe (env : Env) (bound : vars.map (·.handle) ⊆ hs) :
    Slot.AllSafe hs (varSlots env vars) := by
  intro slot member
  obtain ⟨v, isVar, rfl⟩ := List.mem_map.mp member
  exact varSlot_safe env (bound (List.mem_map_of_mem isVar)) true

/-- Expressions with a variable for each of their slots. -/
def CopiesSafe (handles : List Nat) (copies : List (Code × List LocalVar)) : Prop :=
  ∀ c ∈ copies, c.1.Safe handles ∧ c.2.length = Slices.len c.1

theorem CopiesSafe.mono (safe : CopiesSafe hs copies) (more : hs ⊆ ks) : CopiesSafe ks copies :=
  fun c member => ⟨(safe c member).1.mono more, (safe c member).2⟩

/-- The handles of the variables that copies are made to. -/
def copyHandles (copies : List (α × List LocalVar)) : List Nat :=
  copies.flatMap fun c => c.2.map (·.handle)

theorem copyHandles_subset {copies : List (α × List LocalVar)} (member : c ∈ copies) :
    c.2.map (·.handle) ⊆ copyHandles copies :=
  fun _ isVar => List.mem_flatMap.mpr ⟨c, member, isVar⟩

theorem readCopy_safe (env : Env) {source : Code} (safe : source.Safe hs)
    (count : vars.length = Slices.len source) :
    (source.read (varSlots env vars)).Safe (vars.map (·.handle) ++ hs) := by
  refine safe.read (List.subset_append_right _ _) (varSlots_safe env (List.subset_append_left _ _)) ?_
  rw [varSlots, List.length_map, count]

theorem writeCopies_safe (env : Env) {copies : List (Code × List LocalVar)}
    (safe : CopiesSafe hs copies) : (writeCopies env copies).Safe hs := by
  induction copies with
  | nil => exact .pure ()
  | cons c rest ih =>
    obtain ⟨source, vars⟩ := c
    obtain ⟨⟨here, count⟩, others⟩ := List.forall_mem_cons.mp safe
    have bound := (bindVars_declares env vars).binds
    refine (bindVars_safe env vars).bind_binds bound fun _ => ?_
    exact (readCopy_safe env here count).bind fun _ => (ih others).mono (List.subset_append_right _ _)

theorem writeCopies_binds (env : Env) (copies : List (Code × List LocalVar)) :
    (writeCopies env copies).Binds (copyHandles copies) := by
  induction copies with
  | nil => exact .nothing _
  | cons c rest ih =>
    refine (bindVars_declares env c.2).binds.bind fun _ => ?_
    exact (Emit.Binds.nothing _).bind fun _ => ih

/-- The slots of an expression in a text have types, as far as they can be read. -/
def PartCode.Safe (handles : List Nat) : PartCode → Prop
  | .text _ => True
  | .expr readType code => code.Safe handles ∧ ∀ i < Slices.len code, Regular (readType i)

theorem PartCode.Safe.mono {p : PartCode} (safe : p.Safe hs) (more : hs ⊆ ks) : p.Safe ks := by
  cases p with
  | text t => trivial
  | expr readType code => exact ⟨safe.1.mono more, safe.2⟩

theorem Cache.make_regular [Slotted α] (s : Source α) (copied : Nat → Bool)
    (regular : ∀ i < Slices.len s.input, Regular (s.readType i)) (next : Nat) :
    Regular (make s copied next).1 := by
  intro c failed
  obtain ⟨i, inside, _, isError⟩ := make_error failed
  exact regular i inside c isError

namespace PartCode

/-- Where the copies of an expression in a text come from. -/
def source (env : Env) (readType : Nat → Except Cause TypeId) (code : Code) : Cache.Source LeafCode :=
  ⟨code, readType, fun i => "inline #" ++ Text.nat i, fun v => varCode env v.handle v.ty true⟩

theorem run_cached (env : Env) (readType : Nat → Except Cause TypeId) (code : Code) (s : Ctx) :
    (cached env readType code).run s = match Slot.needCode s code.slots with
      | .error c => (.error (.of c), s)
      | .ok copied =>
        let made := Cache.make (source env readType code) (fun i => copied.getD i false) s.nextHandle
        (made.1.mapError .of, (Op.handles made.2).perform s) := by
  unfold cached
  rw [Emit.run_bind, Emit.run_inspect]
  cases Slot.needCode s code.slots with
  | error c => rfl
  | ok copied =>
    change (Emit.ofExcept _).run _ = _
    rw [Emit.run_ofExcept]
    rfl

theorem cached_safe (env : Env) {readType : Nat → Except Cause TypeId} {code : Code}
    (safe : code.Safe hs) (regular : ∀ i < Slices.len code, Regular (readType i)) :
    (cached env readType code).Safe hs := by
  refine ⟨fun s held f failed => ?_⟩
  rw [run_cached] at failed
  split at failed
  · next c refused =>
    cases failed
    exact Slot.needCode_regular safe.slots held c refused
  · next copied _ =>
    have made := Cache.make_regular (source env readType code) (fun i => copied.getD i false) regular
      s.nextHandle
    dsimp only at failed
    cases answer : (Cache.make (source env readType code) (fun i => copied.getD i false)
        s.nextHandle).1 with
    | ok result =>
      rw [answer] at failed
      cases failed
    | error c =>
      rw [answer] at failed
      cases failed
      exact made c answer

theorem cached_make {env : Env} {readType : Nat → Except Cause TypeId} {code : Code} {s t : Ctx}
    {result : Cache.Result LeafCode} (ran : (cached env readType code).run s = (.ok result, t)) :
    ∃ copied next next', Cache.make (source env readType code) copied next = (.ok result, next') := by
  rw [run_cached] at ran
  split at ran
  · cases ran
  · next copied _ =>
    refine ⟨fun i => copied.getD i false, s.nextHandle, ?_⟩
    rcases made : Cache.make (source env readType code) (fun i => copied.getD i false) s.nextHandle
      with ⟨_ | _, next⟩
    · rw [made] at ran
      cases ran
    · rw [made] at ran
      cases ran
      exact ⟨next, rfl⟩

theorem exprText_safe (env : Env) {readType : Nat → Except Cause TypeId} {code : Code}
    (safe : code.Safe hs) (regular : ∀ i < Slices.len code, Regular (readType i)) :
    (exprText env readType code).Safe hs := by
  refine (cached_safe env safe regular).bind_of fun _ result _ ran => ?_
  obtain ⟨_, _, _, made⟩ := cached_make ran
  have input : Slices.All (Code.PieceSafe hs) (source env readType code).input := safe
  obtain ⟨sources, outputs, _⟩ := Cache.make_parts (Code.pieceSafe_kept hs) input made
  refine (writeCopies_safe env sources).bind_binds (writeCopies_binds env _) fun _ => ?_
  have output : Code.Safe (copyHandles result.copies ++ hs) result.output := by
    refine outputs (Code.pieceSafe_kept _) (fun p here => ?_) fun c member v isVar => ?_
    · exact ⟨here.leaf.mono (List.subset_append_right _ _), here.fits⟩
    · have bound := copyHandles_subset member (List.mem_map_of_mem isVar)
      exact ⟨varCode_safe env (List.mem_append_left _ bound) v.ty true, trivial⟩
  refine .inspect_bind (fun _ held => Slot.inlineAll_regular output.slots held) fun _ form _ _ => ?_
  cases form with
  | some args => exact .pure _
  | none => exact .refuse rfl

theorem render_safe (env : Env) (safe : ∀ p ∈ parts, p.Safe hs) : (render env parts).Safe hs := by
  induction parts with
  | nil => exact .pure _
  | cons p rest ih =>
    obtain ⟨here, others⟩ := List.forall_mem_cons.mp safe
    cases p with
    | text t => exact (ih others).bind fun _ => .pure _
    | expr readType code =>
      exact (exprText_safe env here.1 here.2).bind fun _ => (ih others).bind fun _ => .pure _

theorem tryText_regular (safe : ∀ p ∈ parts, p.Safe hs) {s : Ctx} (held : s.Holds hs) :
    Regular (tryText s parts) := by
  induction parts with
  | nil => exact .ok _
  | cons p rest ih =>
    obtain ⟨here, others⟩ := List.forall_mem_cons.mp safe
    cases p with
    | text t => exact (ih others).bind fun _ _ => .ok _
    | expr readType code =>
      refine (Slot.inlineAll_regular here.1.slots held).bind fun form _ => ?_
      cases form with
      | none => exact .ok _
      | some args => exact (ih others).bind fun _ _ => .ok _

end PartCode

theorem inlineCode_safe (env : Env) (what : String) (safe : ∀ p ∈ parts, p.Safe hs) (ty : TypeId) :
    (inlineCode env what parts ty).Safe hs := by
  refine LeafCode.ofSlot_safe env ⟨fun forWrite s held => ?_, Slot.noWrite_safe what⟩ ?_
  · dsimp only
    split
    · exact .ok _
    · exact (PartCode.tryText_regular safe held).bind fun _ _ => .ok _
  · intro ks out more outs count
    have parts : ∀ p ∈ parts, p.Safe ks := fun p member => (safe p member).mono more
    exact .inScope ((PartCode.render_safe env parts).bind fun _ =>
      Slot.writeAt_safe outs (by omega) _ _)

theorem Placeholder.get_found {table : Placeholder} {id : Nat} (found : table id = some e) :
    table.get id = .ok e := by
  rw [Placeholder.get, found]

theorem deferredSlot_safe (what : String) {table : Placeholder} {id : Nat} (found : table id = some e)
    (safe : e.Safe hs) (inside : i < Slices.len e) (perm : Perm) :
    (deferredSlot what table id i perm).Safe hs := by
  rw [← safe.slots_length] at inside
  refine ⟨fun forWrite s held => ?_, fun input exact => ?_⟩
  · simp only [deferredSlot, Placeholder.get_found found]
    generalize (if forWrite = true then perm.writes else perm.reads) = permitted
    cases permitted with
    | true => exact Slot.inlineAt_regular safe.slots inside forWrite held
    | false => exact .ok _
  · simp only [deferredSlot, Placeholder.get_found found]
    exact .ite (Slot.writeAt_safe safe.slots inside _ _) (.refuse rfl)

theorem deferredCode_safe (what : String) {table : Placeholder} {id : Nat} {perms : List Perm}
    (found : table id = some e) (safe : e.Safe hs) (count : Slices.len e = perms.length) :
    (deferredCode what table id perms).Safe hs where
  slots := by
    intro slot member
    obtain ⟨i, inside, rfl⟩ := List.mem_mapIdx.mp member
    exact deferredSlot_safe what found safe (by omega) _
  read {ks out} more outs lengths := by
    change Emit.Safe ks (Emit.ofExcept (table.get id) >>= fun e => e.read out)
    rw [Placeholder.get_found found]
    refine safe.read more outs (lengths.trans ?_)
    rw [count]
    exact List.length_mapIdx
  readView {ks out base len} more outs lengths inside := by
    have within : base + len ≤ Slices.len e := by
      rw [count]
      simpa [deferredCode] using inside
    obtain ⟨part, isCut, partSafe, partLen⟩ := safe.cut within
    change Emit.Safe ks (Emit.ofExcept (table.get id) >>= fun e =>
      Emit.ofExcept (e.cut base len) >>= fun part => part.read out)
    rw [Placeholder.get_found found]
    change Emit.Safe ks (Emit.ofExcept (e.cut base len) >>= fun part => part.read out)
    rw [isCut]
    exact partSafe.read more outs (lengths.trans partLen.symm)

theorem append_subset_of {first : List Nat} (more : hs ⊆ ks) : first ++ hs ⊆ first ++ ks :=
  List.append_subset.mpr
    ⟨List.subset_append_left _ _, List.Subset.trans more (List.subset_append_right _ _)⟩

theorem callCode_safe (env : Env) {copies : List (Code × List LocalVar)}
    (sources : CopiesSafe hs copies) {body : Code} (safe : body.Safe (copyHandles copies ++ hs)) :
    (callCode env copies body).Safe hs := by
  have binds := writeCopies_binds env copies
  refine LeafCode.ofSlots_safe env ?_ fun more outs count => ?_
  · intro slot member
    obtain ⟨inner, here, rfl⟩ := List.mem_map.mp member
    refine ⟨fun _ _ _ => .ok _, fun input exact => ?_⟩
    exact .within _ ((writeCopies_safe env sources).bind_binds binds fun _ =>
      (safe.slots inner here).write input exact)
  · rw [List.length_map, safe.slots_length] at count
    refine .within _ ((writeCopies_safe env (sources.mono more)).bind_binds binds fun _ => ?_)
    exact safe.read (append_subset_of more) (outs.mono (List.subset_append_right _ _)) count

theorem seqCode_safe (env : Env) (what : String) (first : body.Safe hs) (binds : body.Binds ks)
    {result : Code} (safe : result.Safe (ks ++ hs)) : (seqCode env what body result).Safe hs := by
  refine LeafCode.ofSlots_safe env ?_ fun more outs count => ?_
  · intro slot member
    obtain ⟨_, _, rfl⟩ := List.mem_map.mp member
    exact Slot.computed_safe what
  · rw [List.length_map, safe.slots_length] at count
    refine .inScope ((first.mono more).bind_binds binds fun _ => ?_)
    exact safe.read (append_subset_of more) (outs.mono (List.subset_append_right _ _)) count

namespace Action

theorem located_safe (env : Env) (pos : Position) {x : Emit Unit} (safe : x.Safe hs) :
    (located env pos x).Safe hs :=
  .ite ((Emit.Safe.queue _).bind fun _ => safe.located pos) (safe.located pos)

theorem declare_safe (env : Env) {init : Option Code}
    (safe : ∀ e ∈ init, e.Safe hs ∧ vars.length = Slices.len e) : (declare env vars init).Safe hs := by
  have bound := (bindVars_declares env vars).binds
  refine (bindVars_safe env vars).bind_binds bound fun _ => ?_
  cases init with
  | some e => exact .inScope (readCopy_safe env (safe e rfl).1 (safe e rfl).2)
  | none => exact .pure ()

theorem assign_safe {targets source : Code} (t : targets.Safe hs) (s : source.Safe hs)
    (count : Slices.len targets = Slices.len source) : (assign targets source).Safe hs :=
  .inScope (s.read (List.Subset.refl hs) t.slots (t.slots_length.trans count))

theorem update_safe (env : Env) (op : ChainOp) {target source : Code} (t : target.Single hs)
    (s : source.Single hs) (before operand after : TypeId) :
    (update env op target source before operand after).Safe hs := by
  refine .inScope (t.inline_bind true fun form => ?_)
  cases form with
  | some place => exact (s.toArg env).bind fun _ => .lines _
  | none =>
    exact (t.toRegister env).bind fun _ => (s.toArg env).bind fun _ =>
      (Emit.Safe.lines _).bind fun _ => t.write _ _

theorem synonym_safe (env : Env) (name : String) {target : Code} (safe : target.Safe hs) :
    (synonym env name target).Safe hs := by
  refine .ite (.inspect_bind ?_ fun _ form _ _ => ?_) (.pure ())
  · exact fun _ held => Slot.inlineAll_regular safe.slots held
  · cases form with
    | some | none => exact .comment _

theorem branch_safe {cond : CondCode} (test : cond.Safe hs) {yes : Emit Unit} (first : yes.Safe hs)
    {no : Option (Emit Unit)} (second : ∀ x ∈ no, x.Safe hs) : (branch cond yes no).Safe hs := by
  refine .inScope ((test.test false).bind fun _ => (Emit.Safe.code ..).bind fun _ => ?_)
  refine first.inScope.bind fun _ => ?_
  cases no with
  | some x =>
    exact (Emit.Safe.code ..).bind fun _ => (second x rfl).inScope.bind fun _ => .code ..
  | none => exact .code ..

theorem loop_safe (safe : body.Safe hs) : (loop body).Safe hs := by
  refine Emit.Safe.freshLabel.bind fun top => Emit.Safe.freshLabel.bind fun exit => ?_
  refine (Emit.Safe.line _).bind fun _ => (Emit.Safe.code ..).bind fun _ => ?_
  exact (safe.within _).bind fun _ => (Emit.Safe.code ..).bind fun _ => .line _

theorem breakLoop_safe : breakLoop.Safe hs := by
  refine Emit.Safe.current.bind fun s => ?_
  cases s.loop with
  | none => exact .refuse rfl
  | some target =>
    dsimp only
    cases target.flag with
    | some flag => exact (Emit.Safe.line _).bind fun _ => .line _
    | none => exact .line _

theorem continueLoop_safe : continueLoop.Safe hs := by
  refine Emit.Safe.current.bind fun s => ?_
  cases s.loop with
  | none => exact .refuse rfl
  | some target => exact .line _

theorem enumerate_safe (env : Env) {starter : List PartCode} (parts : ∀ p ∈ starter, p.Safe hs)
    (safe : body.Safe hs) : (enumerate env starter body).Safe hs := by
  refine .inScope (Emit.Safe.freshLabel.bind fun exit => Emit.Safe.temp.bind fun slot => ?_)
  have rest : Emit.Safe hs (enumeration env starter exit slot body) := by
    refine (Emit.Safe.line _).bind fun _ => (PartCode.render_safe env parts).bind fun _ => ?_
    refine (Emit.Safe.code ..).bind fun _ => (Emit.Safe.code ..).bind fun _ => ?_
    refine (safe.within _).bind fun _ => (Emit.Safe.code ..).bind fun _ => ?_
    exact (Emit.Safe.line _).bind fun _ => (Emit.Safe.line _).bind fun _ => .code ..
  exact .ite ((Emit.Safe.comment _).bind fun _ => rest) rest

theorem inline_safe (env : Env) (safe : ∀ p ∈ parts, p.Safe hs) : (inline env parts).Safe hs :=
  .inScope ((PartCode.render_safe env safe).bind fun _ => .line _)

end Action

end AgentScript
