import AgentScript.Code.Pool
import Mathlib.Data.List.Perm.Basic

/-! Conservation of registers. A ledger records what a history of operations has handed out, scope by
scope. `Partition` says that every register is in exactly one place, held in an entry of the ledger or
free in one scope; each operation on a pool keeps it. -/
namespace AgentScript.Pool

inductive Op where
  | allocate
  | release (id : Nat)
  | openScope
  | closeScope

def perform (p : Pool) : Op → Option Nat × Pool
  | .allocate => match p.allocate? with
    | some (id, q) => (some id, q)
    | none => (none, p)
  | .release id => (none, p.release id)
  | .openScope => (none, p.openScope)
  | .closeScope => (none, p.closeScope)

/-- The registers that are handed out, by the scope that was innermost then. -/
abbrev Ledger := List (List Nat)

namespace Ledger

def live (l : Ledger) : List Nat := l.flatten

/-- What was handed out since the innermost scope was opened, and is not returned. -/
def latest : Ledger → List Nat
  | [] => []
  | ids :: _ => ids

def record (l : Ledger) : Op → (answer : Option Nat) → Ledger
  | .allocate, some id => match l with
    | ids :: rest => (id :: ids) :: rest
    | [] => []
  | .allocate, none => l
  | .release id, _ => l.map (·.erase id)
  | .openScope, _ => [] :: l
  | .closeScope, _ => match l with
    | _ :: outer :: rest => outer :: rest
    | l => l

end Ledger

def Op.Permitted (l : Ledger) : Op → Prop
  | release id => id ∈ l.live
  | _ => True

instance (l : Ledger) : (op : Op) → Decidable (op.Permitted l)
  | .release id => inferInstanceAs (Decidable (id ∈ l.live))
  | .allocate | .openScope | .closeScope => .isTrue trivial

/-- A pool with the ledger of its history. -/
structure Account where
  pool : Pool
  ledger : Ledger

namespace Account

def start : Account := ⟨initial, [[]]⟩

def step (a : Account) (op : Op) : Account :=
  let (answer, p) := a.pool.perform op
  ⟨p, a.ledger.record op answer⟩

def run (a : Account) : List Op → Account
  | [] => a
  | op :: rest => (a.step op).run rest

/-- Only registers that are handed out at that moment are released. -/
def Lawful (a : Account) : List Op → Prop
  | [] => True
  | op :: rest => op.Permitted a.ledger ∧ (a.step op).Lawful rest

instance decideLawful : (a : Account) → (ops : List Op) → Decidable (a.Lawful ops)
  | _, [] => .isTrue trivial
  | a, op :: rest =>
    have := decideLawful (a.step op) rest
    inferInstanceAs (Decidable (op.Permitted a.ledger ∧ (a.step op).Lawful rest))

end Account

def allocations (p : Pool) : (times : Nat) → List (Option Nat)
  | 0 => []
  | times + 1 => (p.perform .allocate).1 :: allocations (p.perform .allocate).2 times

/-- A register that no scope can hand out. -/
def Live (p : Pool) (id : Nat) : Prop := id < registerCount ∧ ∀ s ∈ p.scopes, id ∉ s.free

/-- Every register that a scope took is handed out there, free there, or was taken by the scope inside
it, whose registers are `inner`; what the outermost scope took is all there is. -/
def Partition : (inner : List Nat) → List Scope → Ledger → Prop
  | inner, [], ledger => ledger = [] ∧ inner.Perm (List.range registerCount)
  | inner, s :: outer, ledger => ∃ ids rest, ledger = ids :: rest ∧
      s.all.Perm (ids ++ (s.free ++ inner)) ∧ Partition s.all outer rest

namespace Partition

variable {inner : List Nat} {s : Scope} {outer scopes : List Scope} {ids : List Nat}
  {rest ledger : Ledger}

theorem cons_iff : Partition inner (s :: outer) (ids :: rest) ↔
    s.all.Perm (ids ++ (s.free ++ inner)) ∧ Partition s.all outer rest := by
  constructor
  · rintro ⟨_, _, same, parts, more⟩
    cases same
    exact ⟨parts, more⟩
  · exact fun ⟨parts, more⟩ => ⟨ids, rest, rfl, parts, more⟩

theorem perm {inner' : List Nat} (same : inner.Perm inner') (parts : Partition inner scopes ledger) :
    Partition inner' scopes ledger := by
  cases scopes with
  | nil => exact ⟨parts.1, same.symm.trans parts.2⟩
  | cons s outer =>
    obtain ⟨ids, rest, rfl, first, more⟩ := parts
    exact ⟨ids, rest, rfl, first.trans ((same.append_left _).append_left _), more⟩

/-- Registers taken by scopes inside are as good as handed out. -/
theorem hand_out (id : Nat) : Partition (id :: inner) (s :: outer) (ids :: rest) ↔
    Partition inner (s :: outer) ((id :: ids) :: rest) := by
  rw [cons_iff, cons_iff]
  have moved : (ids ++ (s.free ++ id :: inner)).Perm (id :: ids ++ (s.free ++ inner)) := by
    have out : (s.free ++ id :: inner).Perm (id :: (s.free ++ inner)) := List.perm_middle
    exact (out.append_left ids).trans List.perm_middle
  constructor
  · exact fun ⟨parts, more⟩ => ⟨parts.trans moved, more⟩
  · exact fun ⟨parts, more⟩ => ⟨parts.trans moved.symm, more⟩

theorem length (parts : Partition inner scopes ledger) : ledger.length = scopes.length := by
  induction scopes generalizing inner ledger with
  | nil => rw [parts.1]; rfl
  | cons s outer ih =>
    obtain ⟨ids, rest, rfl, _, more⟩ := parts
    simp [ih more]

/-- All registers there are: those taken inside, those free and those handed out. -/
theorem everything (parts : Partition inner scopes ledger) :
    (inner ++ (scopes.flatMap Scope.free ++ ledger.live)).Perm (List.range registerCount) := by
  induction scopes generalizing inner ledger with
  | nil =>
    obtain ⟨rfl, all⟩ := parts
    simpa [Ledger.live] using all
  | cons s outer ih =>
    obtain ⟨ids, rest, rfl, first, more⟩ := parts
    refine List.Perm.trans ?_ ((first.symm.append_right _).trans (ih more))
    simp only [List.flatMap_cons, Ledger.live, List.flatten_cons]
    rw [List.perm_iff_count]
    intro id
    simp only [List.count_append]
    omega

theorem nodup (parts : Partition inner scopes ledger) :
    (inner ++ (scopes.flatMap Scope.free ++ ledger.live)).Nodup :=
  parts.everything.nodup_iff.mpr List.nodup_range

theorem live_nodup (parts : Partition inner scopes ledger) : ledger.live.Nodup :=
  (List.nodup_append.mp (List.nodup_append.mp parts.nodup).2.1).2.1

theorem mem_iff (parts : Partition inner scopes ledger) (id : Nat) :
    id < registerCount ↔ id ∈ inner ∨ (∃ s ∈ scopes, id ∈ s.free) ∨ id ∈ ledger.live := by
  rw [← List.mem_range, ← parts.everything.mem_iff]
  simp only [List.mem_append, List.mem_flatMap]

/-- Taking a register moves it from a free list to the scopes inside. -/
theorem take {id : Nat} {scopes' : List Scope} (taken : takeFrom? scopes = some (id, scopes'))
    (parts : Partition inner scopes ledger) : Partition (id :: inner) scopes' ledger := by
  induction scopes generalizing inner ledger scopes' with
  | nil => simp [takeFrom?] at taken
  | cons s outer ih =>
    obtain ⟨ids, rest, rfl, first, more⟩ := parts
    rw [takeFrom?] at taken
    split at taken
    · rename_i next free isFree
      obtain ⟨rfl, rfl⟩ := Prod.mk.inj (Option.some.inj taken)
      refine cons_iff.mpr ⟨first.trans (List.Perm.append_left _ ?_), more⟩
      rw [isFree]
      exact List.perm_middle.symm
    · rename_i noneFree
      split at taken
      · rename_i next outer' fromOuter
        obtain ⟨rfl, rfl⟩ := Prod.mk.inj (Option.some.inj taken)
        refine cons_iff.mpr ⟨?_, (ih fromOuter more).perm (List.perm_append_singleton ..).symm⟩
        have borrowed := (first.append_right [next]).trans (List.perm_append_singleton ..)
        rw [noneFree, List.nil_append] at borrowed
        simpa only [noneFree, List.nil_append] using borrowed.trans List.perm_middle.symm
      · simp at taken

theorem take_none : takeFrom? scopes = none ↔ scopes.flatMap Scope.free = [] := by
  induction scopes with
  | nil => simp [takeFrom?]
  | cons s outer ih =>
    rw [takeFrom?, List.flatMap_cons]
    cases isFree : s.free with
    | cons id free => simp
    | nil =>
      rw [List.nil_append, ← ih]
      cases takeFrom? outer <;> simp

/-- A register that is handed out goes back to the scope that is innermost among those that took it,
which is the one it was handed out in. -/
theorem give_back {id : Nat} (held : id ∈ ledger.live) (outside : id ∉ inner)
    (parts : Partition inner scopes ledger) :
    ∃ scopes', releaseIn? id scopes = some scopes' ∧
      Partition inner scopes' (ledger.map (·.erase id)) := by
  induction scopes generalizing inner ledger with
  | nil =>
    obtain ⟨rfl, _⟩ := parts
    simp [Ledger.live] at held
  | cons s outer ih =>
    have distinct := parts.nodup
    obtain ⟨ids, rest, rfl, first, more⟩ := parts
    simp only [Ledger.live, List.flatten_cons, List.mem_append] at held
    simp only [List.flatMap_cons, Ledger.live, List.flatten_cons, List.nodup_append,
      List.mem_append] at distinct
    by_cases took : id ∈ s.all
    · have member : id ∈ ids := by
        rcases held with here | further
        · exact here
        · have candidates := first.mem_iff.mp took
          simp only [List.mem_append] at candidates
          rcases candidates with here | isFree | inside
          · exact here
          · exact absurd rfl (distinct.2.1.2.2 id (.inl isFree) id (.inr further))
          · exact absurd inside outside
      have elsewhere : ∀ ids' ∈ rest, ids'.erase id = ids' := by
        intro ids' among
        apply List.erase_of_not_mem
        intro again
        exact distinct.2.1.2.1.2.2 id member id (List.mem_flatten.mpr ⟨ids', among, again⟩) rfl
      refine ⟨_, by rw [releaseIn?, if_pos took], ?_⟩
      rw [List.map_cons, List.map_congr_left elsewhere, List.map_id', cons_iff]
      refine ⟨first.trans ?_, more⟩
      have moved := ((List.perm_cons_erase member).append_right (s.free ++ inner))
      refine moved.trans (List.perm_middle.symm.trans (List.Perm.append_left _ ?_))
      rw [List.append_assoc, List.singleton_append]
      exact List.perm_middle.symm
    · have absent : id ∉ ids := fun here => took (first.mem_iff.mpr (List.mem_append_left _ here))
      obtain ⟨outer', released, parts'⟩ := ih (held.resolve_left absent) took more
      refine ⟨s :: outer', by rw [releaseIn?, if_neg took, released, Option.map_some], ?_⟩
      rw [List.map_cons, List.erase_of_not_mem absent, cons_iff]
      exact ⟨first, parts'⟩

end Partition

/-- The ledger accounts for every register that the pool cannot hand out. -/
def Balanced (p : Pool) (l : Ledger) : Prop := Partition [] p.scopes l

theorem initial_balanced : initial.Balanced [[]] :=
  Partition.cons_iff.mpr ⟨by simp, rfl, .refl _⟩

namespace Balanced

variable {p q : Pool} {l : Ledger} {id : Nat}

section
variable (balanced : p.Balanced l)
include balanced

theorem depth : l.length = p.depth := Partition.length balanced

theorem ledger_cases : ∃ ids rest, l = ids :: rest := by
  rw [Balanced] at balanced
  cases same : p.scopes with
  | nil =>
    rw [same] at balanced
    exact absurd balanced.2.length_eq (by decide)
  | cons s outer =>
    rw [same] at balanced
    obtain ⟨ids, rest, split, _⟩ := balanced
    exact ⟨ids, rest, split⟩

theorem live_iff (id : Nat) : p.Live id ↔ id ∈ l.live := by
  have everywhere := Partition.mem_iff balanced id
  have apart := (List.nodup_append.mp (List.nodup_append.mp (Partition.nodup balanced)).2.1).2.2
  constructor
  · rintro ⟨exists_, notFree⟩
    rcases everywhere.mp exists_ with inside | ⟨s, among, isFree⟩ | held
    · simp at inside
    · exact absurd isFree (notFree s among)
    · exact held
  · intro held
    refine ⟨everywhere.mpr (.inr (.inr held)), fun s among isFree => ?_⟩
    exact apart id (List.mem_flatMap.mpr ⟨s, among, isFree⟩) id held rfl

theorem count : p.freeCount + l.live.length = registerCount := by
  have all := (Partition.everything balanced).length_eq
  simpa [freeCount] using all

theorem liveCount : p.liveCount = l.live.length := by
  have := balanced.count
  rw [Pool.liveCount]
  omega

theorem allocate_none : p.allocate? = none ↔ l.live.length = registerCount := by
  have nothing : p.allocate? = none ↔ p.freeCount = 0 := by
    rw [allocate?, Option.map_eq_none_iff, Partition.take_none, ← List.length_eq_zero_iff,
      freeCount]
  have := balanced.count
  rw [nothing]
  omega

theorem allocate_partition (allocated : p.allocate? = some (id, q)) :
    Partition [id] q.scopes l := by
  obtain ⟨⟨taken, scopes⟩, from_, same⟩ := Option.map_eq_some_iff.mp allocated
  cases same
  exact Partition.take from_ balanced

theorem allocate_fresh (allocated : p.allocate? = some (id, q)) :
    id < registerCount ∧ id ∉ l.live := by
  have parts := balanced.allocate_partition allocated
  refine ⟨(parts.mem_iff id).mpr (.inl (List.mem_singleton_self id)), fun held => ?_⟩
  exact (List.nodup_append.mp parts.nodup).2.2 id (List.mem_singleton_self id) id
    (List.mem_append_right _ held) rfl

theorem release (held : id ∈ l.live) :
    (p.release id).Balanced (l.map (·.erase id)) := by
  obtain ⟨scopes, released, parts⟩ := Partition.give_back held (by simp) balanced
  simp only [Pool.release, released]
  exact parts

theorem openScope : p.openScope.Balanced ([] :: l) :=
  Partition.cons_iff.mpr ⟨.refl _, balanced⟩

end

theorem allocate {ids : List Nat} {rest : Ledger} (balanced : p.Balanced (ids :: rest))
    (allocated : p.allocate? = some (id, q)) : q.Balanced ((id :: ids) :: rest) := by
  have parts := balanced.allocate_partition allocated
  rw [Balanced]
  cases same : q.scopes with
  | nil =>
    rw [same] at parts
    exact absurd parts.1 (by simp)
  | cons s outer =>
    rw [same] at parts
    exact (Partition.hand_out id).mp parts

theorem closeScope {ids outer : List Nat} {rest : Ledger}
    (balanced : p.Balanced (ids :: outer :: rest)) : p.closeScope.Balanced (outer :: rest) := by
  obtain ⟨scopes⟩ := p
  match scopes with
  | [] | [_] => exact absurd (Partition.length balanced) (by simp)
  | s :: t :: further =>
    obtain ⟨_, more⟩ := Partition.cons_iff.mp balanced
    obtain ⟨parts, others⟩ := Partition.cons_iff.mp more
    exact Partition.cons_iff.mpr ⟨by simpa using parts, others⟩

end Balanced

theorem closeScope_outermost {p : Pool} (outermost : p.depth = 1) : p.closeScope = p := by
  obtain ⟨scopes⟩ := p
  match scopes with
  | [] => simp [depth] at outermost
  | [s] => rfl
  | s :: t :: further => simp [depth] at outermost

namespace Account

def Balanced (a : Account) : Prop := a.pool.Balanced a.ledger

theorem step_balanced {a : Account} {op : Op} (permitted : op.Permitted a.ledger)
    (balanced : a.Balanced) : (a.step op).Balanced := by
  obtain ⟨p, l⟩ := a
  obtain ⟨ids, rest, rfl⟩ := Pool.Balanced.ledger_cases balanced
  cases op with
  | allocate =>
    cases allocated : p.allocate? with
    | none => simpa [Balanced, step, perform, allocated, Ledger.record] using balanced
    | some taken =>
      simpa [Balanced, step, perform, allocated, Ledger.record] using
        Pool.Balanced.allocate balanced allocated
  | release id => exact Pool.Balanced.release balanced permitted
  | openScope => exact Pool.Balanced.openScope balanced
  | closeScope =>
    cases rest with
    | nil =>
      have outermost : p.depth = 1 := (Pool.Balanced.depth balanced).symm
      simpa [Balanced, step, perform, closeScope_outermost outermost, Ledger.record] using balanced
    | cons outer rest => exact Pool.Balanced.closeScope balanced

theorem run_balanced {a : Account} {ops : List Op} (lawful : a.Lawful ops) (balanced : a.Balanced) :
    (a.run ops).Balanced := by
  induction ops generalizing a with
  | nil => exact balanced
  | cons op rest ih => exact ih lawful.2 (step_balanced lawful.1 balanced)

end Account

/-- Allocations in a row answer registers that are all different, as long as some are free. -/
theorem allocations_distinct {p : Pool} {l : Ledger} (balanced : p.Balanced l) (times : Nat)
    (enough : l.live.length + times ≤ registerCount) :
    ∃ ids : List Nat, p.allocations times = ids.map some ∧ ids.length = times ∧
      (ids ++ l.live).Nodup ∧ ∀ id ∈ ids, id < registerCount := by
  induction times generalizing p l with
  | zero => exact ⟨[], rfl, rfl, Partition.live_nodup balanced, by simp⟩
  | succ times ih =>
    obtain ⟨top, rest, rfl⟩ := balanced.ledger_cases
    cases allocated : p.allocate? with
    | none =>
      have full := balanced.allocate_none.mp allocated
      omega
    | some taken =>
      obtain ⟨id, q⟩ := taken
      have longer : Ledger.live ((id :: top) :: rest) = id :: Ledger.live (top :: rest) := rfl
      obtain ⟨ids, answers, length, distinct, bounded⟩ :=
        ih (balanced.allocate allocated) (by rw [longer, List.length_cons]; omega)
      refine ⟨id :: ids, ?_, by rw [List.length_cons, length], ?_, ?_⟩
      · simp [allocations, perform, allocated, answers]
      · rw [longer] at distinct
        exact (List.perm_middle.nodup_iff.mp distinct)
      · rintro x (_ | ⟨_, among⟩)
        · exact (balanced.allocate_fresh allocated).1
        · exact bounded x among

theorem allocations_all {p : Pool} {l : Ledger} (balanced : p.Balanced l) (nothing : l.live = []) :
    ∃ ids : List Nat, p.allocations registerCount = ids.map some ∧
      ids.Perm (List.range registerCount) := by
  obtain ⟨ids, answers, length, distinct, bounded⟩ :=
    allocations_distinct balanced registerCount (by simp [nothing])
  rw [nothing, List.append_nil] at distinct
  have within : ids ⊆ List.range registerCount := fun id among => List.mem_range.mpr (bounded id among)
  refine ⟨ids, answers, (List.subperm_of_subset distinct within).perm_of_length_le ?_⟩
  simp [length]

/-- Registers are conserved along every history: what is handed out is below the bound and was not
out, allocation fails exactly when all registers are out and then changes nothing, a scope that is
closed returns what was handed out since it was opened and nothing else, and the outermost scope
is not closed. Once all scopes are closed and all registers are back, all can be handed out again. -/
theorem history_conserves (ops : List Op) (lawful : Account.start.Lawful ops) :
    let a := Account.start.run ops
    a.ledger.live.Nodup ∧ (∀ id, a.pool.Live id ↔ id ∈ a.ledger.live) ∧
    a.pool.liveCount = a.ledger.live.length ∧
    (∀ id q, a.pool.allocate? = some (id, q) → id < registerCount ∧ ¬ a.pool.Live id) ∧
    (a.pool.allocate? = none ↔ a.ledger.live.length = registerCount) ∧
    (a.pool.allocate? = none → a.step .allocate = a) ∧
    (1 < a.pool.depth → ∀ id, a.pool.closeScope.Live id ↔ a.pool.Live id ∧ id ∉ a.ledger.latest) ∧
    (a.pool.depth = 1 → a.step .closeScope = a) ∧
    (a.pool.depth = 1 → a.ledger.latest = [] → ∃ ids : List Nat,
      a.pool.allocations registerCount = ids.map some ∧ ids.Perm (List.range registerCount)) := by
  intro a
  have balanced : a.Balanced := Account.run_balanced lawful initial_balanced
  obtain ⟨p, l⟩ := a
  obtain ⟨ids, rest, rfl⟩ := Pool.Balanced.ledger_cases balanced
  have depth := Pool.Balanced.depth balanced
  refine ⟨Partition.live_nodup balanced, Pool.Balanced.live_iff balanced,
    Pool.Balanced.liveCount balanced, ?_, Pool.Balanced.allocate_none balanced, ?_, ?_, ?_, ?_⟩
  · intro id q allocated
    rw [Pool.Balanced.live_iff balanced]
    exact Pool.Balanced.allocate_fresh balanced allocated
  · intro exhausted
    simp [Account.step, perform, exhausted, Ledger.record]
  · intro (nested : 1 < p.depth) id
    cases rest with
    | nil => simp only [List.length_singleton] at depth; omega
    | cons outer rest =>
      rw [Pool.Balanced.live_iff (Pool.Balanced.closeScope balanced), Pool.Balanced.live_iff balanced]
      have distinct := List.nodup_append.mp (Partition.live_nodup balanced)
      simp only [Ledger.live, Ledger.latest, List.flatten_cons (l := ids), List.mem_append]
      constructor
      · exact fun held => ⟨.inr held, fun again => distinct.2.2 id again id held rfl⟩
      · exact fun ⟨held, other⟩ => held.resolve_left other
  · intro outermost
    have single : rest = [] := by
      rw [outermost, List.length_cons] at depth
      exact List.length_eq_zero_iff.mp (by omega)
    simp [Account.step, perform, closeScope_outermost outermost, single, Ledger.record]
  · intro outermost returned
    have single : rest = [] := by
      rw [outermost, List.length_cons] at depth
      exact List.length_eq_zero_iff.mp (by omega)
    exact allocations_all balanced (by simpa [Ledger.live, Ledger.latest, single] using returned)

/-- A register of the outer scope is given back while the inner one is open, and taken again there. -/
theorem history_conserves_borrowed :
    let ops := [.allocate, .openScope, .allocate, .release 0] ++ List.replicate 99 .allocate
    Account.start.Lawful ops ∧ (Account.start.run ops).pool.allocate? = none ∧
      ∀ id, (Account.start.run ops).pool.closeScope.Live id ↔
        (Account.start.run ops).pool.Live id ∧ id ∉ (Account.start.run ops).ledger.latest := by
  intro ops
  have lawful : Account.start.Lawful ops := by decide +kernel
  have conserved := history_conserves ops lawful
  refine ⟨lawful, conserved.2.2.2.2.1.mpr (by decide +kernel), ?_⟩
  exact conserved.2.2.2.2.2.2.1 (by decide +kernel)

end AgentScript.Pool
