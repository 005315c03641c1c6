import AgentScript.Code.Emit
import AgentScript.Proofs.Pool
import Mathlib.Data.List.Nodup
import Mathlib.Logic.Relation

/-! What routines do to a context: they keep the place that `break` leads to, leave bound handles
bound, and hand out registers of the innermost scope only. `Point` adds the frames that are open
around a context; at every point that operations lead to, different handles have different registers,
all of them handed out. -/
namespace AgentScript

theorem Failure.locate_cause (f : Failure) (pos : Position) : (f.locate pos).cause = f.cause := by
  unfold locate
  split
  · rfl
  · split <;> rfl

theorem mapError_ok {e : Except ε α} {f : ε → ε'} (ok : e.mapError f = .ok a) : e = .ok a := by
  cases e <;> cases ok
  rfl

theorem locate_error {e : Except Failure α} (failed : e.mapError (·.locate pos) = .error f) :
    ∃ g, e = .error g ∧ f.cause = g.cause := by
  cases e <;> cases failed
  exact ⟨_, rfl, Failure.locate_cause ..⟩

namespace Emit

theorem run_bind (x : Emit α) (f : α → Emit β) (s : Ctx) :
    (x >>= f).run s = match x.run s with
      | (.ok a, t) => (f a).run t
      | (.error e, t) => (.error e, t) := by
  change (x.andThen f).run s = _
  induction x generalizing s with
  | pure a => rfl
  | fail e => rfl
  | look next ih => exact ih s s
  | act op next ih => exact ih (op.perform s)
  | scope loop body next ih =>
    simp only [andThen, run]
    rcases body.run (s.enter loop) with ⟨_ | _, t⟩
    · rfl
    · exact ih (t.leave s.outside)

@[simp] theorem run_pure (a : α) (s : Ctx) : (Pure.pure a : Emit α).run s = (.ok a, s) := rfl

@[simp] theorem run_current (s : Ctx) : current.run s = (.ok s, s) := rfl

@[simp] theorem run_perform (op : Op) (s : Ctx) : (perform op).run s = (.ok (), op.perform s) := rfl

theorem run_ofExcept (e : Except Cause α) (s : Ctx) :
    (ofExcept e).run s = (e.mapError .of, s) := by
  cases e <;> rfl

theorem run_inspect (question : Ctx → Except Cause α) (s : Ctx) :
    (inspect question).run s = ((question s).mapError .of, s) :=
  run_ofExcept (question s) s

theorem run_routine (x : Emit α) (s : Ctx) :
    x.routine.run s = ((x.run s).1.map fun _ => (), (x.run s).2) := by
  induction x generalizing s with
  | pure a => rfl
  | fail f => rfl
  | look next ih => exact ih s s
  | act op next ih => exact ih (op.perform s)
  | scope loop body next ih =>
    simp only [routine, Routine.run, run]
    rcases body.run (s.enter loop) with ⟨_ | _, t⟩
    · rfl
    · exact ih (t.leave s.outside)

theorem run_within (loop : Option LoopTarget → Option LoopTarget) (x : Emit Unit) (s : Ctx) :
    (within loop x).run s =
      ((x.run (s.enter loop)).1, (x.run (s.enter loop)).2.leave s.outside) := by
  simp only [within, run, run_routine]
  rcases x.run (s.enter loop) with ⟨_ | _, t⟩ <;> rfl

end Emit

theorem Routine.run_located (pos : Position) (r : Routine) (s : Ctx) :
    (r.located pos).run s = ((r.run s).1.mapError (·.locate pos), (r.run s).2) := by
  induction r generalizing s with
  | done => rfl
  | fail f => rfl
  | look next ih => exact ih s s
  | act op next ih => exact ih (op.perform s)
  | scope loop body next inner ih =>
    simp only [located, run, inner]
    rcases body.run (s.enter loop) with ⟨_ | _, t⟩
    · rfl
    · exact ih (t.leave s.outside)

theorem Emit.run_located (pos : Position) (x : Emit α) (s : Ctx) :
    (x.located pos).run s = ((x.run s).1.mapError (·.locate pos), (x.run s).2) := by
  induction x generalizing s with
  | pure a => rfl
  | fail f => rfl
  | look next ih => exact ih s s
  | act op next ih => exact ih (op.perform s)
  | scope loop body next ih =>
    simp only [located, run, Routine.run_located]
    rcases body.run (s.enter loop) with ⟨_ | _, t⟩
    · rfl
    · exact ih (t.leave s.outside)

theorem lookup_filter_ne (bound : List (Nat × Nat)) (other : h ≠ handle) :
    (bound.filter (·.1 != handle)).lookup h = bound.lookup h := by
  induction bound with
  | nil => rfl
  | cons b rest ih =>
    obtain ⟨key, _⟩ := b
    by_cases dropped : key = handle
    · simp [List.lookup_cons, dropped, beq_false_of_ne other, ih]
    · simp [List.lookup_cons, dropped, ih]

theorem Ctx.registerOf_bindTo (s : Ctx) (handle slot : Nat) (pool : Pool) (h : Nat) :
    (s.bindTo handle slot pool).registerOf? h = if h = handle then some slot else s.registerOf? h := by
  simp only [registerOf?, bindTo, List.lookup_cons]
  by_cases same : h = handle
  · simp [same]
  · simp [same, beq_false_of_ne same, lookup_filter_ne s.bound same]

namespace Op

theorem perform_loop (op : Op) (s : Ctx) : (op.perform s).loop = s.loop := by
  cases op with
  | bind handle =>
    simp only [perform]
    split <;> rfl
  | _ => rfl

theorem perform_bound (op : Op) {s : Ctx} (bound : (s.registerOf? h).isSome) :
    ((op.perform s).registerOf? h).isSome := by
  cases op with
  | bind handle =>
    simp only [perform]
    split
    · rw [Ctx.registerOf_bindTo]
      split
      · rfl
      · exact bound
    · exact bound
  | _ => exact bound

theorem perform_balance (op : Op) {s : Ctx} (balanced : s.pool.Balanced (ids :: rest)) :
    ∃ more, (op.perform s).pool.Balanced ((more ++ ids) :: rest) := by
  cases op with
  | bind handle =>
    simp only [perform]
    split
    · next slot pool allocated => exact ⟨[slot], balanced.allocate allocated⟩
    · exact ⟨[], balanced⟩
  | _ => exact ⟨[], balanced⟩

end Op

namespace Routine

theorem run_loop (r : Routine) (s : Ctx) : (r.run s).2.loop = s.loop := by
  induction r generalizing s with
  | done => rfl
  | fail f => rfl
  | look next ih => exact ih s s
  | act op next ih => exact (ih _).trans (op.perform_loop s)
  | scope loop body next _ ih =>
    simp only [run]
    split
    · exact ih _
    · rfl

theorem run_bound (r : Routine) {s : Ctx} (bound : (s.registerOf? h).isSome) :
    ((r.run s).2.registerOf? h).isSome := by
  induction r generalizing s with
  | done => exact bound
  | fail f => exact bound
  | look next ih => exact ih s bound
  | act op next ih => exact ih (op.perform_bound bound)
  | scope loop body next _ ih =>
    simp only [run]
    split
    · exact ih bound
    · exact bound

/-- Registers are handed out in the innermost scope only. -/
theorem run_balance (r : Routine) {s : Ctx} (balanced : s.pool.Balanced (ids :: rest)) :
    ∃ more, (r.run s).2.pool.Balanced ((more ++ ids) :: rest) := by
  induction r generalizing s ids rest with
  | done | fail => exact ⟨[], balanced⟩
  | look next ih => exact ih s balanced
  | act op next ih =>
    obtain ⟨more, balanced⟩ := op.perform_balance balanced
    obtain ⟨further, balanced⟩ := ih balanced
    exact ⟨further ++ more, by simpa [run] using balanced⟩
  | scope loop body next inner ih =>
    obtain ⟨_, inside⟩ := inner (s := s.enter loop) balanced.openScope
    have left : ((body.run (s.enter loop)).2.leave s.outside).pool.Balanced (ids :: rest) :=
      inside.closeScope
    simp only [run]
    split
    · next ran =>
      rw [ran] at left
      exact ih left
    · next ran =>
      rw [ran] at left
      exact ⟨[], left⟩

end Routine

/-- What a scope must give back was given back. -/
structure Ctx.Restored (s t : Ctx) : Prop where
  bound : t.bound = s.bound
  loop : t.loop = s.loop
  balance : ∀ {l : Pool.Ledger}, s.pool.Balanced l → t.pool.Balanced l

namespace Ctx.Restored

theorem refl (s : Ctx) : Restored s s := ⟨rfl, rfl, id⟩

theorem trans (first : Restored s t) (second : Restored t u) : Restored s u :=
  ⟨second.bound.trans first.bound, second.loop.trans first.loop,
    fun balanced => second.balance (first.balance balanced)⟩

end Ctx.Restored

theorem Routine.leave_restored (r : Routine) (loop : Option LoopTarget → Option LoopTarget) (s : Ctx) :
    Ctx.Restored s ((r.run (s.enter loop)).2.leave s.outside) := by
  refine ⟨rfl, rfl, fun balanced => ?_⟩
  obtain ⟨ids, rest, rfl⟩ := balanced.ledger_cases
  obtain ⟨_, inside⟩ := r.run_balance (s := s.enter loop) balanced.openScope
  exact inside.closeScope

namespace Emit

theorem run_routine_snd (x : Emit α) (s : Ctx) : (x.routine.run s).2 = (x.run s).2 := by
  rw [run_routine]

theorem run_loop (x : Emit α) (s : Ctx) : (x.run s).2.loop = s.loop := by
  rw [← run_routine_snd]
  exact x.routine.run_loop s

theorem run_bound (x : Emit α) {s : Ctx} (bound : (s.registerOf? h).isSome) :
    ((x.run s).2.registerOf? h).isSome := by
  rw [← run_routine_snd]
  exact x.routine.run_bound bound

theorem run_balance (x : Emit α) {s : Ctx} (balanced : s.pool.Balanced (ids :: rest)) :
    ∃ more, (x.run s).2.pool.Balanced ((more ++ ids) :: rest) := by
  rw [← run_routine_snd]
  exact x.routine.run_balance balanced

theorem within_restored (loop : Option LoopTarget → Option LoopTarget) (x : Emit Unit) (s : Ctx) :
    Ctx.Restored s ((within loop x).run s).2 := by
  rw [run_within, ← run_routine_snd]
  exact x.routine.leave_restored loop s

end Emit

/-- A context with the frames around it. A frame of its own keeps what was outside; a shared one
belongs to the frame that it was opened in and keeps nothing. -/
structure Point where
  ctx : Ctx
  frames : List (Option Ctx.Outside)

/-- The points that a routine passes, up to where it ends or fails. -/
def Routine.points : Routine → List (Option Ctx.Outside) → Ctx → List Point
  | done, _, _ => []
  | fail _, _, _ => []
  | look next, k, s => (next s).points k s
  | act op next, k, s => ⟨op.perform s, k⟩ :: next.points k (op.perform s)
  | scope loop body next, k, s =>
    let inside := some s.outside :: k
    ⟨s.enter loop, inside⟩ :: body.points inside (s.enter loop) ++
      match body.run (s.enter loop) with
      | (.ok (), t) => ⟨t.leave s.outside, k⟩ :: next.points k (t.leave s.outside)
      | (.error _, t) => [⟨t.leave s.outside, k⟩]

namespace Point

def start (firstLabel firstHandle : Nat) : Point := ⟨.start firstLabel firstHandle, []⟩

inductive Step : Point → Point → Prop where
  | act (op : Op) : Step ⟨s, k⟩ ⟨op.perform s, k⟩
  | enter (loop : Option LoopTarget → Option LoopTarget) :
      Step ⟨s, k⟩ ⟨s.enter loop, some s.outside :: k⟩
  | leave : Step ⟨s, some o :: k⟩ ⟨s.leave o, k⟩
  | share : Step ⟨s, k⟩ ⟨s, none :: k⟩
  | unshare : Step ⟨s, none :: k⟩ ⟨s, k⟩

/-- Steps through some points to the last of them. -/
inductive Path : Point → List Point → Point → Prop where
  | done (p : Point) : Path p [] p
  | step : Step p q → Path q visited r → Path p (q :: visited) r

theorem Path.append (first : Path p visited q) (second : Path q visited' r) :
    Path p (visited ++ visited') r := by
  induction first with
  | done => exact second
  | step move _ ih => exact .step move (ih second)

theorem Step.path (move : Step p q) : Path p [q] q := .step move (.done q)

/-- A point that some steps lead to from the start of a script. -/
def Reachable (p : Point) : Prop :=
  ∃ firstLabel firstHandle, Relation.ReflTransGen Step (start firstLabel firstHandle) p

theorem Reachable.path (reachable : Reachable p) (path : Path p visited q) :
    ∀ r ∈ visited, Reachable r := by
  induction path with
  | done => simp
  | step move _ ih =>
    obtain ⟨firstLabel, firstHandle, steps⟩ := reachable
    have next : Reachable _ := ⟨firstLabel, firstHandle, steps.tail move⟩
    rintro r (_ | ⟨_, later⟩)
    · exact next
    · exact ih next r later

/-- Different registers, all of them handed out. -/
def Registered (bound : List (Nat × Nat)) (l : Pool.Ledger) : Prop :=
  (bound.map (·.2)).Nodup ∧ ∀ b ∈ bound, b.2 ∈ l.live

/-- What a frame of its own keeps was handed out before the scope of the frame was opened. -/
def Framed : List (Option Ctx.Outside) → Pool.Ledger → Prop
  | [], l => l.length = 1
  | none :: k, l => Framed k l
  | some o :: k, l => ∃ ids rest, l = ids :: rest ∧ Registered o.bound rest ∧ Framed k rest

theorem Framed.cases (framed : Framed k l) : ∃ ids rest, l = ids :: rest := by
  induction k with
  | nil => exact List.exists_cons_of_length_eq_add_one framed
  | cons o k ih =>
    cases o with
    | none => exact ih framed
    | some o =>
      obtain ⟨ids, rest, same, _⟩ := framed
      exact ⟨ids, rest, same⟩

theorem Framed.top (framed : Framed k (ids :: rest)) (ids' : List Nat) :
    Framed k (ids' :: rest) := by
  induction k with
  | nil => exact framed
  | cons o k ih =>
    cases o with
    | none => exact ih framed
    | some o =>
      obtain ⟨_, _, same, kept, around⟩ := framed
      cases same
      exact ⟨ids', rest, rfl, kept, around⟩

structure Sound (p : Point) (l : Pool.Ledger) : Prop where
  balanced : p.ctx.pool.Balanced l
  registered : Registered p.ctx.bound l
  framed : Framed p.frames l

theorem start_sound (firstLabel firstHandle : Nat) : (start firstLabel firstHandle).Sound [[]] :=
  ⟨Pool.initial_balanced, ⟨List.nodup_nil, by simp [start, Ctx.start]⟩, rfl⟩

theorem Registered.bindTo {s : Ctx} {ids : List Nat} {rest : Pool.Ledger}
    (balanced : s.pool.Balanced (ids :: rest)) (registered : Registered s.bound (ids :: rest))
    (handle : Nat) (allocated : s.pool.allocate? = some (slot, pool)) :
    Registered (s.bindTo handle slot pool).bound ((slot :: ids) :: rest) := by
  obtain ⟨distinct, held⟩ := registered
  have fresh := (balanced.allocate_fresh allocated).2
  constructor
  · simp only [Ctx.bindTo, List.map_cons, List.nodup_cons]
    constructor
    · intro again
      obtain ⟨b, among, rfl⟩ := List.mem_map.mp again
      exact fresh (held b (List.mem_filter.mp among).1)
    · exact (List.filter_sublist.map _).nodup distinct
  · rintro b (_ | ⟨_, among⟩)
    · exact List.mem_cons_self
    · exact List.mem_cons_of_mem _ (held b (List.mem_filter.mp among).1)

theorem bind_sound (sound : Sound ⟨s, k⟩ l) (handle : Nat)
    (allocated : s.pool.allocate? = some (slot, pool)) :
    ∃ l', Sound ⟨s.bindTo handle slot pool, k⟩ l' := by
  obtain ⟨balanced, registered, framed⟩ := sound
  obtain ⟨ids, rest, rfl⟩ := balanced.ledger_cases
  exact ⟨(slot :: ids) :: rest, balanced.allocate allocated,
    registered.bindTo balanced handle allocated, framed.top _⟩

theorem act_sound (sound : Sound ⟨s, k⟩ l) (op : Op) : ∃ l', Sound ⟨op.perform s, k⟩ l' := by
  cases op with
  | bind handle =>
    simp only [Op.perform]
    split
    · next allocated => exact bind_sound sound handle allocated
    · exact ⟨l, sound⟩
  | _ => exact ⟨l, sound.balanced, sound.registered, sound.framed⟩

theorem leave_sound (sound : Sound ⟨s, some o :: k⟩ l) : ∃ l', Sound ⟨s.leave o, k⟩ l' := by
  obtain ⟨balanced, _, ids, rest, rfl, kept, framed⟩ := sound
  obtain ⟨outer, rest, rfl⟩ := framed.cases
  exact ⟨outer :: rest, balanced.closeScope, kept, framed⟩

theorem step_sound (move : Step p q) (sound : Sound p l) : ∃ l', Sound q l' := by
  cases move with
  | act op => exact act_sound sound op
  | enter loop =>
    exact ⟨[] :: l, sound.balanced.openScope, sound.registered, [], l, rfl, sound.registered,
      sound.framed⟩
  | leave => exact leave_sound sound
  | share | unshare => exact ⟨l, sound.balanced, sound.registered, sound.framed⟩

theorem reachable_sound (reachable : Reachable p) : ∃ l, Sound p l := by
  obtain ⟨firstLabel, firstHandle, steps⟩ := reachable
  induction steps with
  | refl => exact ⟨_, start_sound firstLabel firstHandle⟩
  | tail _ move ih =>
    obtain ⟨l, sound⟩ := ih
    exact step_sound move sound

/-- Bound handles have registers of their own, which are handed out. -/
structure Disciplined (s : Ctx) : Prop where
  injective : ∀ {h h' r}, s.registerOf? h = some r → s.registerOf? h' = some r → h = h'
  live : ∀ {h r}, s.registerOf? h = some r → s.pool.Live r

theorem mem_bound {s : Ctx} (isBound : s.registerOf? h = some r) : (h, r) ∈ s.bound := by
  obtain ⟨before, after, same, _⟩ := List.lookup_eq_some_iff.mp isBound
  simp [same]

theorem Sound.disciplined (sound : Sound p l) : Disciplined p.ctx where
  injective := by
    intro h h' r first second
    have same := List.inj_on_of_nodup_map sound.registered.1 (mem_bound first) (mem_bound second) rfl
    exact (Prod.mk.inj same).1
  live := fun isBound =>
    (sound.balanced.live_iff _).mpr (sound.registered.2 _ (mem_bound isBound))

theorem Reachable.disciplined (reachable : Reachable p) : Disciplined p.ctx := by
  obtain ⟨l, sound⟩ := reachable_sound reachable
  exact sound.disciplined

end Point

end AgentScript
