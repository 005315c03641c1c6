import AgentScript.Proofs.Forms

/-! Casts to an expression's own type. The store instruction follows a cast, so that a cast to the own
type can be left out where reading the expression stores nothing of another storage class. Two
expressions store other types than their own: a placeholder stores what it stands for, and a chain that
is computed in its output begins with its head. -/
namespace AgentScript

/-- Types that one instruction stores. -/
structure Registry.StoresAs (r : Registry) (t u : TypeId) : Prop where
  major : r.major t = r.major u
  name : r.major u = .unknown → r.name t = r.name u

theorem Registry.StoresAs.refl (r : Registry) (t : TypeId) : r.StoresAs t t := ⟨rfl, fun _ => rfl⟩

section
variable {env : Env} {t u : TypeId}

theorem Registry.StoresAs.store (same : env.types.StoresAs t u) (target input : Arg) :
    Emit.store env t target input = Emit.store env u target input := by
  have instr : storeInstr env.types t target input = storeInstr env.types u target input := by
    unfold storeInstr
    rw [same.major]
    cases known : env.types.major u <;> simp [same.name, known]
  rw [Emit.store, Emit.store, instr]

/-- A slot that the type of a value matters to only for the instruction. -/
def Slot.Uniform (env : Env) (slot : Slot) : Prop :=
  ∀ input t u, env.types.StoresAs t u → slot.write input t = slot.write input u

def Slot.AllUniform (env : Env) (slots : List Slot) : Prop := ∀ slot ∈ slots, slot.Uniform env

theorem Slot.AllUniform.single {slot : Slot} (uniform : slot.Uniform env) : AllUniform env [slot] :=
  List.forall_mem_singleton.mpr uniform

theorem Slot.AllUniform.writeAt {slots : List Slot} (uniform : AllUniform env slots) (i : Nat) (input : Arg)
    (same : env.types.StoresAs t u) : Slot.writeAt slots i input t = Slot.writeAt slots i input u := by
  unfold Slot.writeAt Slot.get
  split
  · next slot found => exact uniform slot (List.mem_of_getElem? found) input t u same
  · rfl

theorem fieldWrite_uniform (base : Code) (f : Field) (input : Arg) (same : env.types.StoresAs t u) :
    fieldWrite env base f input t = fieldWrite env base f input u := by
  have kept : keepArg env input t = keepArg env input u := by
    unfold keepArg
    simp only [same.store]
  unfold fieldWrite
  simp only [same.store, kept]

section
variable {table : Placeholder}

mutual
theorem Leaf.code_uniform (known : table.Each fun e => Slot.AllUniform env e.slots) :
    (leaf : Leaf) → Slot.AllUniform env (leaf.code env table).slots
  | .const _ | .isInstance .. | .retype .. | .chain .. | .test .. | .inline .. =>
    .single fun _ _ _ _ => rfl
  | .var handle ty writable => by
    refine .single fun input t u same => ?_
    simp only [varSlot, same.store]
  | .builtin name ty writable role => by
    refine .single fun input t u same => ?_
    simp only [builtinSlot, same.store]
  | .sink key len ty => by
    intro slot member
    cases List.eq_of_mem_replicate member
    intro input t u same
    simp only [Slot.discard, same.store]
  | .field base f => by
    refine .single fun input t u same => ?_
    exact fieldWrite_uniform _ f input same
  | .cast base ty => by
    refine .single fun input t u same => ?_
    exact (codeOf_uniform known base).writeAt 0 input same
  | .deferred key id params => by
    intro slot member
    obtain ⟨i, _, rfl⟩ := List.mem_mapIdx.mp member
    intro input t u same
    simp only [deferredSlot, Placeholder.get]
    cases found : table id with
    | none => rfl
    | some e =>
      show ite _ (Slot.writeAt e.slots i input t) _ = ite _ (Slot.writeAt e.slots i input u) _
      rw [(known id e found).writeAt i input same]
  | .call key copies body => by
    intro slot member
    obtain ⟨inner, isInner, rfl⟩ := List.mem_map.mp member
    intro input t u same
    simp only [codeOf_uniform known body inner isInner input t u same]
  | .seq .. => by
    intro slot member
    obtain ⟨_, _, rfl⟩ := List.mem_map.mp member
    exact fun _ _ _ _ => rfl
theorem codeOf_uniform (known : table.Each fun e => Slot.AllUniform env e.slots) :
    (e : List (Piece Leaf)) → Slot.AllUniform env (codeOf env table e).slots
  | [] => List.forall_mem_nil _
  | .whole leaf :: rest =>
    List.forall_mem_append.mpr ⟨Leaf.code_uniform known leaf, codeOf_uniform known rest⟩
  | .view leaf base len :: rest => by
    refine List.forall_mem_append.mpr ⟨fun slot member => ?_, codeOf_uniform known rest⟩
    exact Leaf.code_uniform known leaf slot (List.mem_of_mem_drop (List.mem_of_mem_take member))
end

end
end

/-- The types that values are stored with, for a slot and for whether the output is a register. -/
abbrev StoreTypes := Nat → Bool → List TypeId

mutual
/-- The types that reading a leaf stores in its output. A chain is computed in its output where that is
a register, beginning with its head. -/
def Leaf.stores (table : Nat → StoreTypes) : Leaf → StoreTypes
  | .const c => fun _ _ => [c.ty]
  | .var _ ty _ | .builtin _ ty _ _ | .isInstance _ _ _ ty | .cast _ ty | .inline _ ty => fun _ _ => [ty]
  | .field _ f => fun _ _ => [f.ty]
  | .sink .. | .retype .. => fun _ _ => []
  | .chain _ head headType tail => fun i register =>
    Leaf.resultType headType tail :: if i = 0 ∧ ¬ register then [] else storesAll table head i register
  | .test .. => fun _ _ => [Registry.boolean]
  | .deferred _ id _ => table id
  | .call _ _ body => storesAll table body
  | .seq _ _ result => storesAll table result
def storesPiece (table : Nat → StoreTypes) : Piece Leaf → StoreTypes
  | .whole leaf => leaf.stores table
  | .view leaf base _ => fun i => leaf.stores table (base + i)
def storesAll (table : Nat → StoreTypes) : List (Piece Leaf) → StoreTypes
  | [] => fun _ _ => []
  | p :: rest => fun i =>
    if i < p.len then storesPiece table p i else storesAll table rest (i - p.len)
end

theorem storesAll_here {table : Nat → StoreTypes} {p : Piece Leaf} {rest : List (Piece Leaf)} {i : Nat}
    (inside : i < p.len) : storesAll table (p :: rest) i = storesPiece table p i := by
  simp [storesAll, inside]

theorem storesAll_later {table : Nat → StoreTypes} {p : Piece Leaf} {rest : List (Piece Leaf)} {i : Nat} :
    storesAll table (p :: rest) (p.len + i) = storesAll table rest i := by
  have outside : ¬ p.len + i < p.len := by omega
  simp [storesAll, outside]

/-- A placeholder stores what the expression that it stands for stores. -/
def storeTable (deferred : List (Option Expr)) : (rounds : Nat) → Nat → StoreTypes
  | 0, _ => fun _ _ => []
  | rounds + 1, id => match deferred[id]? with
    | some (some e) => storesAll (storeTable deferred rounds) e
    | _ => fun _ _ => []

/-- Outputs that take the same values of some types. -/
structure Slot.Agree (types : List TypeId) (a b : Slot) : Prop where
  role : b.role.get = a.role.get
  inline : b.inline = a.inline
  write : ∀ input, ∀ t ∈ types, b.write input t = a.write input t

def Slot.isRegister (slot : Slot) : Bool := slot.role.get = .register

structure Slot.AgreeAll (stores : StoreTypes) (out out' : List Slot) : Prop where
  length : out'.length = out.length
  each : ∀ (i : Nat) (a b : Slot), out[i]? = some a → out'[i]? = some b →
    a.Agree (stores i a.isRegister) b

namespace Slot.AgreeAll
variable {stores : StoreTypes} {out out' a a' : List Slot}

theorem refl (stores : StoreTypes) (out : List Slot) : AgreeAll stores out out := by
  refine ⟨rfl, ?_⟩
  intro i a b isFirst isSecond
  obtain rfl := Option.some.inj (isFirst.symm.trans isSecond)
  exact ⟨rfl, rfl, fun _ _ _ => rfl⟩

theorem single {o o' : Slot} (same : o.Agree (stores 0 o.isRegister) o') : AgreeAll stores [o] [o'] := by
  refine ⟨rfl, ?_⟩
  intro i a b isFirst isSecond
  cases i with
  | zero =>
    cases isFirst
    cases isSecond
    exact same
  | succ i => cases isFirst

/-- Only what is stored at places that the outputs have matters. -/
theorem imp {others : StoreTypes} (agree : AgreeAll stores out out')
    (fewer : ∀ i < out.length, ∀ register, others i register ⊆ stores i register) :
    AgreeAll others out out' := by
  refine ⟨agree.length, ?_⟩
  intro i a b isFirst isSecond
  have same := agree.each i a b isFirst isSecond
  have inside := (List.getElem?_eq_some_iff.mp isFirst).1
  exact ⟨same.role, same.inline, fun input t stored => same.write input t (fewer i inside _ stored)⟩

theorem append (first : AgreeAll stores a a')
    (second : AgreeAll (fun i => stores (a.length + i)) out out') :
    AgreeAll stores (a ++ out) (a' ++ out') := by
  refine ⟨by simp [first.length, second.length], ?_⟩
  intro i x y isFirst isSecond
  by_cases inside : i < a.length
  · rw [List.getElem?_append_left inside] at isFirst
    rw [List.getElem?_append_left (first.length ▸ inside)] at isSecond
    exact first.each i x y isFirst isSecond
  · rw [List.getElem?_append_right (by omega)] at isFirst
    rw [List.getElem?_append_right (by have := first.length; omega), first.length] at isSecond
    have same := second.each _ x y isFirst isSecond
    rwa [Nat.add_sub_cancel' (by omega)] at same

variable (agree : AgreeAll stores out out')
include agree

theorem take (n : Nat) : AgreeAll stores (out.take n) (out'.take n) := by
  refine ⟨by simp [agree.length], ?_⟩
  intro i x y isFirst isSecond
  rw [List.getElem?_take] at isFirst isSecond
  split at isFirst
  · simp_all
    exact agree.each i x y isFirst isSecond
  · cases isFirst

theorem drop (n : Nat) :
    AgreeAll (fun i => stores (n + i)) (out.drop n) (out'.drop n) := by
  refine ⟨by simp [agree.length], ?_⟩
  intro i x y isFirst isSecond
  rw [List.getElem?_drop] at isFirst isSecond
  exact agree.each (n + i) x y isFirst isSecond

theorem cases (i : Nat) :
    out[i]? = none ∧ out'[i]? = none ∨
      ∃ a b, out[i]? = some a ∧ out'[i]? = some b ∧ a.Agree (stores i a.isRegister) b := by
  have length := agree.length
  by_cases inside : i < out.length
  · have first := List.getElem?_eq_getElem inside
    have second := List.getElem?_eq_getElem (length ▸ inside)
    exact .inr ⟨_, _, first, second, agree.each i _ _ first second⟩
  · exact .inl ⟨List.getElem?_eq_none (by omega), List.getElem?_eq_none (by omega)⟩

theorem roleAt (i : Nat) : Slot.roleAt out' i = Slot.roleAt out i := by
  rcases agree.cases i with ⟨first, second⟩ | ⟨a, b, first, second, same⟩
  · simp [Slot.roleAt, first, second]
  · simp [Slot.roleAt, first, second, same.role]

theorem inlineAt (i : Nat) :
    Slot.inlineAt out' i = Slot.inlineAt out i := by
  funext forWrite s
  rcases agree.cases i with ⟨first, second⟩ | ⟨a, b, first, second, same⟩
  · simp [Slot.inlineAt, Slot.get, first, second, agree.length]
  · simp only [Slot.inlineAt, Slot.get, first, second]
    exact congrFun (congrFun same.inline forWrite) s

theorem writeAt (i : Nat) (input : Arg) (ty : TypeId)
    (stored : ∀ register, ty ∈ stores i register) :
    Slot.writeAt out' i input ty = Slot.writeAt out i input ty := by
  rcases agree.cases i with ⟨first, second⟩ | ⟨a, b, first, second, same⟩
  · simp [Slot.writeAt, Slot.get, first, second, agree.length]
  · have writes := same.write input ty (stored _)
    simp only [Slot.writeAt, Slot.get, first, second]
    exact writes

theorem put (input : Arg) (ty : TypeId)
    (stored : ∀ register, ty ∈ stores 0 register) : Slot.put out' input ty = Slot.put out input ty := by
  rw [Slot.put, Slot.put, agree.roleAt, agree.writeAt 0 input ty stored]

end Slot.AgreeAll

/-- Reading depends on an output only for what it stores there. -/
structure LeafCode.Stores (leaf : LeafCode) (stores : StoreTypes) : Prop where
  read : ∀ out out', Slot.AgreeAll stores out out' → leaf.read out' = leaf.read out
  view : ∀ base len out out', Slot.AgreeAll (fun i => stores (base + i)) out out' →
    leaf.readView base len out' = leaf.readView base len out

theorem LeafCode.Stores.of_slots {env : Env} {slots : List Slot} {read : List Slot → Emit Unit}
    {stores : StoreTypes} (reads : ∀ out out', Slot.AgreeAll stores out out' → read out' = read out) :
    (LeafCode.ofSlots env slots read).Stores stores where
  read := reads
  view := by
    intro base len out out' agree
    apply reads
    have before := Slot.AgreeAll.refl stores (List.replicate base (Slot.discard env))
    refine (before.append ?_).append (.refl _ _)
    simpa using agree

/-- The place in its leaf that a piece begins at. -/
def Piece.start {α : Type} : Piece α → Nat
  | whole _ => 0
  | view _ base _ => base

namespace Code
variable {stores : StoreTypes} {out out' : List Slot} {p : Piece LeafCode} {e : Code}

def PieceStores (p : Piece LeafCode) (stores : StoreTypes) : Prop :=
  ∃ all, p.leaf.Stores all ∧ ∀ i < p.len, stores i = all (p.start + i)

theorem PieceStores.read (piece : PieceStores p stores) (short : out.length ≤ p.len)
    (agree : Slot.AgreeAll stores out out') : readPiece p out' = readPiece p out := by
  obtain ⟨all, leaf, same⟩ := piece
  have agree : Slot.AgreeAll (fun i => all (p.start + i)) out out' := by
    apply agree.imp
    intro i inside register
    rw [same i (by omega)]
    exact List.Subset.refl _
  cases p with
  | whole l => exact leaf.read out out' (by simpa [Piece.start] using agree)
  | view l base len => exact leaf.view base len out out' agree

theorem PieceStores.run {leaf : LeafCode} {all : StoreTypes} {base n : Nat} (stored : leaf.Stores all)
    (same : ∀ i < n, stores i = all (base + i)) : PieceStores (Piece.run leaf base n) stores := by
  refine ⟨all, by rwa [Piece.run_leaf], ?_⟩
  intro i inside
  rw [Piece.run_len] at inside
  have start : (Piece.run leaf base n).start = base := by
    unfold Piece.run
    split
    · next all => exact all.1.symm
    · rfl
  rw [start, same i inside]

theorem PieceStores.cut (piece : PieceStores p stores) {base n : Nat} (within : base + n ≤ p.len) :
    PieceStores (p.cut base n) fun i => stores (base + i) := by
  obtain ⟨all, leaf, same⟩ := piece
  unfold Piece.cut
  split
  · next whole =>
    obtain rfl : base = 0 := by omega
    exact ⟨all, leaf, by simpa using same⟩
  · split
    · exact .run leaf fun i inside => by simpa [Piece.start] using same (base + i) (by omega)
    · refine .run leaf fun i inside => ?_
      simpa [Piece.start, Nat.add_assoc] using same (base + i) (by omega)

def Stores : Code → StoreTypes → Prop
  | [], _ => True
  | p :: rest, stores => PieceStores p stores ∧ Stores rest fun i => stores (p.len + i)

theorem Stores.readPieces (stored : Stores e stores) (agree : Slot.AgreeAll stores out out') :
    readPieces e out' = readPieces e out := by
  induction e generalizing stores out out' with
  | nil => rfl
  | cons p rest ih =>
    rw [Code.readPieces, Code.readPieces, stored.1.read (List.length_take_le ..) (agree.take p.len),
      ih stored.2 (agree.drop p.len)]

theorem Stores.read (stored : Stores e stores) (agree : Slot.AgreeAll stores out out') :
    e.read out' = e.read out := by
  rw [Code.read, Code.read, agree.length, stored.readPieces agree]

theorem Stores.cutWithin (stored : Stores e stores) {base n : Nat} (within : base + n ≤ Slices.len e) :
    Stores (Slices.cutWithin e base n) fun i => stores (base + i) := by
  induction e generalizing stores base n with
  | nil => trivial
  | cons p rest ih =>
    rw [Slices.len_cons] at within
    unfold Slices.cutWithin
    split
    · obtain rfl : base = 0 := by omega
      simpa using stored
    · split
      · trivial
      · split
        · next inside => exact ⟨stored.1.cut inside, trivial⟩
        · split
          · have later : Stores (Slices.cutWithin rest (base - p.len) n) _ := ih stored.2 (by omega)
            have same (i : Nat) : p.len + (base - p.len + i) = base + i := by omega
            simpa only [same] using later
          · rw [cons_eq]
            refine ⟨stored.1.cut (by omega), ?_⟩
            have later : Stores (Slices.cutWithin rest 0 (n - (p.len - base))) _ :=
              ih stored.2 (by omega)
            rw [Piece.cut_len]
            have same (i : Nat) : base + (p.len - base + i) = p.len + (0 + i) := by omega
            simpa only [same] using later

theorem Stores.cut (stored : Stores e stores) {part : Code} {base n : Nat}
    (isCut : e.cut base n = .ok part) : part.Stores fun i => stores (base + i) := by
  rw [Code.cut, Slices.cut] at isCut
  by_cases outside : Slices.len e < base + n
  · simp [outside] at isCut
  · simp only [outside, ↓reduceIte, Except.ok.injEq] at isCut
    rw [← isCut]
    exact stored.cutWithin (by omega)

end Code

section
variable {env : Env} {table : Placeholder} {types : Nat → StoreTypes}

theorem writeValue_stores (cond : CondCode) {stores : StoreTypes} {out out' : List Slot}
    (agree : Slot.AgreeAll stores out out')
    (stored : ∀ register, Registry.boolean ∈ stores 0 register) :
    cond.writeValue out' false = cond.writeValue out false := by
  have writes (n : Int32) := agree.writeAt 0 (.int n) Registry.boolean stored
  simp only [CondCode.writeValue, writes]

theorem chain_stores (what : String) (op : ChainOp) {head : Code} {first : StoreTypes}
    (stored : head.Stores first) (headType : TypeId) (tail : List OperandCode) (ty : TypeId) :
    (chainCode env what op head headType tail ty).Stores fun i register =>
      ty :: if i = 0 ∧ ¬ register then [] else first i register := by
  refine .of_slots fun out out' agree => ?_
  have puts (slot : Nat) := agree.put (.register slot) ty (by simp)
  have target : chainTarget? tail out' = chainTarget? tail out := by
    simp only [chainTarget?, agree.roleAt, agree.inlineAt]
  by_cases inPlace : Slot.roleAt out 0 = .register
  · have whole : head.read out' = head.read out := by
      apply stored.read
      refine ⟨agree.length, ?_⟩
      intro i a b isFirst isSecond
      have same := agree.each i a b isFirst isSecond
      have wanted : ¬ (i = 0 ∧ ¬ a.isRegister) := by
        rintro ⟨rfl, notRegister⟩
        simp [Slot.isRegister, Slot.roleAt, isFirst] at inPlace notRegister
        exact notRegister inPlace
      rw [if_neg wanted] at same
      exact ⟨same.role, same.inline, fun input t isStored => same.write input t (.tail _ isStored)⟩
    have computes (place : Arg) : computeChain env op head headType tail out' place =
        computeChain env op head headType tail out place := by
      simp only [computeChain, whole]
    simp only [target, computes, puts]
  · have elsewhere : chainTarget? tail out = pure none := by
      rw [chainTarget?, if_pos inPlace]
    simp only [target, elsewhere]
    refine congrArg Emit.inScope (congrArg (Emit.temp >>= ·) (funext fun slot => ?_))
    rw [puts]

theorem deferred_stores (known : ∀ id e, table id = some e → Code.Stores e (types id)) (what : String)
    (id : Nat) (perms : List Perm) : (deferredCode what table id perms).Stores (types id) := by
  simp only [deferredCode, Placeholder.get]
  cases found : table id with
  | none => exact ⟨fun _ _ _ => rfl, fun _ _ _ _ _ => rfl⟩
  | some e =>
    have stored := known id e found
    constructor
    · intro out out' agree
      exact stored.read agree
    · intro base len out out' agree
      show (do (← Emit.ofExcept (e.cut base len)).read out') =
        (do (← Emit.ofExcept (e.cut base len)).read out)
      cases isCut : e.cut base len with
      | error cause => rfl
      | ok part => exact (stored.cut isCut).read agree

mutual
theorem Leaf.code_stores (known : ∀ id e, table id = some e → Code.Stores e (types id)) :
    (leaf : Leaf) → (leaf.code env table).Stores (leaf.stores types)
  | .const _ | .builtin .. => .of_slots fun _ _ agree => agree.put _ _ (by simp [Leaf.stores])
  | .var _ ty _ | .isInstance _ _ _ ty => by
    refine .of_slots fun out out' agree => ?_
    have puts (place : Arg) := agree.put place ty (by simp [Leaf.stores])
    simp only [puts]
  | .sink .. | .retype .. => .of_slots fun _ _ _ => rfl
  | .field base f => by
    refine .of_slots fun out out' agree => ?_
    have puts (place : Arg) := agree.put place f.ty (by simp [Leaf.stores])
    have writes (place : Arg) := agree.writeAt 0 place f.ty (by simp [Leaf.stores])
    simp only [fieldRead, puts, writes]
  | .cast base ty => by
    refine .of_slots fun out out' agree => ?_
    have writes (input : Arg) := agree.writeAt 0 input ty (by simp [Leaf.stores])
    simp only [retypeSlot, agree.roleAt, agree.inlineAt, writes]
  | .chain op head headType tail =>
    chain_stores _ op (codeOf_stores known head) headType _ _
  | .test .. => .of_slots fun _ _ agree => writeValue_stores _ agree (by simp [Leaf.stores])
  | .inline parts ty => by
    refine .of_slots fun out out' agree => ?_
    have writes (place : Arg) := agree.writeAt 0 place ty (by simp [Leaf.stores])
    simp only [writes]
  | .deferred .. => deferred_stores known ..
  | .call _ _ body | .seq _ _ body => by
    refine .of_slots fun out out' agree => ?_
    rw [(codeOf_stores known body).read agree]
theorem codeOf_stores (known : ∀ id e, table id = some e → Code.Stores e (types id)) :
    (e : List (Piece Leaf)) → (codeOf env table e).Stores (storesAll types e)
  | [] => trivial
  | .whole leaf :: rest => by
    rw [codeOf]
    refine ⟨⟨leaf.stores types, Leaf.code_stores known leaf, ?_⟩, ?_⟩
    · intro i inside
      rw [pieceCode_len] at inside
      rw [storesAll_here inside, storesPiece, pieceCode, Piece.start, Nat.zero_add]
    · simpa only [pieceCode_len, storesAll_later] using codeOf_stores known rest
  | .view leaf base len :: rest => by
    rw [codeOf]
    refine ⟨⟨leaf.stores types, Leaf.code_stores known leaf, ?_⟩, ?_⟩
    · intro i inside
      rw [pieceCode_len] at inside
      rw [storesAll_here inside, storesPiece, pieceCode, Piece.start]
    · simpa only [pieceCode_len, storesAll_later] using codeOf_stores known rest
end

end

theorem placeholders_stores (env : Env) (deferred : List (Option Expr)) (rounds : Nat) :
    ∀ id e, placeholders env deferred rounds id = some e →
      Code.Stores e (storeTable deferred rounds id) := by
  induction rounds with
  | zero => exact nofun
  | succ rounds ih =>
    intro id e found
    rcases isEntry : deferred[id]? with _ | _ | entry
    · simp [placeholders, isEntry] at found
    · simp [placeholders, isEntry] at found
    · simp only [placeholders, isEntry, Option.some.injEq] at found
      simpa only [← found, storeTable, isEntry] using codeOf_stores ih entry

/-- The types that reading an expression of one slot stores in its output. -/
def Expr.storeTypes (deferred : List (Option Expr)) (e : Expr) (register : Bool) : List TypeId :=
  storesAll (storeTable deferred deferred.length) e 0 register

theorem retypeSlot_agree {env : Env} {out : Slot} (uniform : out.Uniform env) {types : List TypeId}
    {ty : TypeId} (alike : ∀ t ∈ types, env.types.StoresAs t ty) :
    out.Agree types (retypeSlot [out] ty) where
  role := rfl
  inline := rfl
  write := by
    intro input t stored
    exact (uniform input t ty (alike t stored)).symm

/-- A cast to an expression's own type changes nothing where the instruction for that type stores all
that reading the expression stores. -/
theorem Expr.read_cast_own (env : Env) (deferred : List (Option Expr)) {e : Expr} {ty : TypeId}
    (typed : e.singleReadType = .ok ty) (out : Expr) :
    let table := placeholderTable env deferred
    let target := codeOf env table out
    (∀ t ∈ e.storeTypes deferred (target.role = .register), env.types.StoresAs t ty) → ∀ s,
      ((codeOf env table (Expr.leaf (.cast e ty))).read target.slots).run s =
        ((codeOf env table e).read target.slots).run s := by
  intro table target alike s
  have count : Slices.len (codeOf env table e) = 1 :=
    (codeOf_len env table e).trans (singleReadType_len typed)
  have uniform : Slot.AllUniform env target.slots :=
    codeOf_uniform (placeholders_each (fun _ known e _ => codeOf_uniform known e) _) out
  by_cases single : target.slots.length = 1
  · obtain ⟨o, isOut⟩ := List.length_eq_one_iff.mp single
    have role : target.role = o.role.get := by simp [Code.role, Slot.roleAt, isOut]
    rw [isOut] at uniform ⊢
    have agree : Slot.AgreeAll (storesAll (storeTable deferred deferred.length) e) [o]
        [retypeSlot [o] ty] := by
      apply Slot.AgreeAll.single
      apply retypeSlot_agree (uniform o (by simp))
      simpa [Expr.storeTypes, Slot.isRegister, role] using alike
    have reads : (codeOf env table e).read _ = _ :=
      (codeOf_stores (placeholders_stores env deferred _) e).read agree
    have cast := Code.run_read_piece (p := .whole (castCode env (codeOf env table e) ty)) rfl o s
    exact cast.trans (congrArg (Emit.run · s) reads)
  · have refused (c : Code) (one : Slices.len c = 1) :
        c.read target.slots = Emit.refuse (.arity target.slots.length 1) := by
      rw [Code.read, one, if_neg single]
    rw [refused _ count, refused _ rfl]

/-- A sum that begins with a parameter, computed in the variable that it is wanted in. -/
theorem Expr.read_cast_own_sum :
    let env : Env := ⟨.initial, .standard⟩
    let deferred := [some (Expr.leaf (.var 0 Registry.integer true))]
    let table := placeholderTable env deferred
    let parameter := Expr.leaf (.deferred 0 0 [(Registry.integer, .r)])
    let sum := Expr.leaf (.chain .add parameter Registry.integer
      [.mk (Expr.const ⟨.int 2, Registry.integer⟩) Registry.integer Registry.integer])
    let target := codeOf env table (Expr.leaf (.var 1 Registry.integer true))
    let s := (Op.bind 1).perform ((Op.bind 0).perform (Ctx.start 0 2))
    let x := (codeOf env table sum).read target.slots
    sum.singleReadType = .ok Registry.integer ∧
      ((codeOf env table (Expr.leaf (.cast sum Registry.integer))).read target.slots).run s = x.run s ∧
      (x.run s).2.lines = s.lines ++
        [.store .value (.register 1) (.register 0), .arith .add (.register 1) (.int 2)] := by
  intro env deferred table parameter sum target s x
  have typed : sum.singleReadType = .ok Registry.integer := rfl
  have stores : sum.storeTypes deferred true = [Registry.integer, Registry.integer] := rfl
  have alike : ∀ t ∈ sum.storeTypes deferred (target.role = .register),
      env.types.StoresAs t Registry.integer := by
    intro t stored
    rw [show decide (target.role = .register) = true from rfl, stores] at stored
    obtain rfl : t = Registry.integer := by simpa using stored
    exact .refl ..
  have same := Expr.read_cast_own env deferred typed (Expr.leaf (.var 1 Registry.integer true)) alike s
  exact ⟨typed, same, rfl⟩

/-- A number that is passed as a parameter of any type is stored as a number. Cast to that type it is
not stored at all, since no instruction stores values of any type. -/
theorem Expr.read_cast_any_fails :
    let env : Env := ⟨.initial, .standard⟩
    let table := placeholderTable env [some (Expr.const ⟨.int 1, Registry.integer⟩)]
    let parameter := Expr.leaf (.deferred 0 0 [(Registry.any, .r)])
    let target := codeOf env table (Expr.leaf (.var 0 Registry.any true))
    let s := (Op.bind 0).perform (Ctx.start 0 1)
    parameter.singleReadType = .ok Registry.any ∧
      (((codeOf env table parameter).read target.slots).run s).1 = .ok () ∧
      (((codeOf env table (Expr.leaf (.cast parameter Registry.any))).read target.slots).run s).1 =
        .error (Failure.of (.unknownMajor "any" "1")) :=
  ⟨rfl, rfl, rfl⟩

end AgentScript
