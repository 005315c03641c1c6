import AgentScript.Code.Slot

/-!
Code of variables, fields, class tests and casts. A field of the owner has a name of its own. A field
of any other agent is reached through `targ`, which is pointed at the agent for the time of the
access and put back after it.
-/
namespace AgentScript

def constCode (env : Env) (what : String) (c : Constant) : LeafCode :=
  .ofSlot env
    ⟨.pure .plain, fun forWrite _ => .ok (if forWrite then none else some (.literal c.value)),
      Slot.noWrite what⟩
    fun out => Slot.put out (.literal c.value) c.ty

def handleArg (handle : Nat) (s : Ctx) : Except Cause Arg :=
  match s.registerOf? handle with
  | some slot => .ok (.register slot)
  | none => .error (.escapedHandle handle)

def varSlot (env : Env) (handle : Nat) (writable : Bool) : Slot :=
  ⟨.pure .register,
    fun forWrite s => if forWrite && !writable then .ok none else (handleArg handle s).map some,
    fun input exact => do
      let place ← Emit.inspect (handleArg handle)
      Emit.store env exact place input⟩

def varCode (env : Env) (handle : Nat) (ty : TypeId) (writable : Bool) : LeafCode :=
  .ofSlot env (varSlot env handle writable) fun out => do
    let place ← Emit.inspect (handleArg handle)
    Slot.put out place ty

def builtinSlot (env : Env) (name : String) (writable : Bool) (role : Role) : Slot :=
  ⟨.pure role,
    fun forWrite _ => .ok (if forWrite && !writable then none else some (.name name)),
    fun input exact =>
      if writable then Emit.store env exact (.name name) input
      else Emit.refuse (.notWritable (Text.leadingWord name))⟩

def builtinCode (env : Env) (name : String) (ty : TypeId) (writable : Bool) (role : Role) :
    LeafCode :=
  .ofSlot env (builtinSlot env name writable role) fun out => Slot.put out (.name name) ty

def sinkCode (env : Env) (what : String) (len : Nat) : LeafCode :=
  .ofSlots env (List.replicate len (Slot.discard env)) fun _ => Emit.refuse (.notReadable what)

/-! ### Fields -/

def withTarget (env : Env) (agent : Code) (x : Emit Unit) : Emit Unit := Emit.inScope do
  let saved ← Emit.temp
  Emit.line (.store .agent (.register saved) .targ)
  agent.read [builtinSlot env "targ" true .target]
  x
  Emit.line (.store .agent .targ (.register saved))

def onTarget (env : Env) (agent : Code) (x : Emit Unit) : Emit Unit :=
  if agent.role = .target then x else withTarget env agent x

/-- The name under which a field is read. A field of `targ` has none, since `targ` may be moved
before the name is used. -/
def fieldReadName? (base : Code) (f : Field) : Option Arg :=
  if base.role = .owner then some (.ownField f.slot.toNat) else none

def fieldWriteName? (base : Code) (f : Field) : Option Arg :=
  match base.role with
  | .owner => some (.ownField f.slot.toNat)
  | .target => some (.targetField f.slot.toNat)
  | _ => none

def afterHead? : (head text : List Char) → Option (List Char)
  | [], cs => some cs
  | _ :: _, [] => none
  | a :: head, c :: cs => if a = c then afterHead? head cs else none

/-- A variable with a number of two digits. -/
def isNumbered (head text : String) : Bool :=
  match afterHead? head.toList text.toList with
  | some [a, b] => a.isDigit && b.isDigit
  | _ => false

def dropSign : List Char → List Char
  | '+' :: cs | '-' :: cs => cs
  | cs => cs

def isExponent : List Char → Bool
  | [] => true
  | c :: cs =>
    (c = 'e' || c = 'E') && !(dropSign cs).isEmpty && (dropSign cs).all Char.isDigit

/-- Digits with at most one point among them, and an exponent. -/
def isDecimal (cs : List Char) : Bool :=
  let whole := cs.takeWhile Char.isDigit
  match cs.dropWhile Char.isDigit with
  | '.' :: rest =>
    !(whole.isEmpty && (rest.takeWhile Char.isDigit).isEmpty) &&
      isExponent (rest.dropWhile Char.isDigit)
  | rest => !whole.isEmpty && isExponent rest

/-- Whether a text reads as a number, words for values that are not finite included. -/
def isNumber (text : String) : Bool :=
  let cs := dropSign text.toList
  isDecimal cs || ["inf", "infinity", "nan"].contains (String.ofList (cs.map Char.toLower))

def isEnclosed (first last : Char) (text : String) : Bool :=
  match text.toList with
  | c :: rest => c = first && rest.getLast? == some last
  | [] => false

/-- Literals, registers, fields of the owner and the fixed variables of a script mean the same
wherever `targ` points. -/
def independentOfTarget (text : String) : Bool :=
  isNumbered "va" text || isNumbered "mv" text ||
  ["ownr", "from", "null", "_it_", "_p1_", "_p2_"].contains text ||
  isNumber text || isEnclosed '"' '"' text || isEnclosed '[' ']' text

/-- An argument that stays the same while `targ` is moved, a copy if need be. -/
def keepArg (env : Env) (input : Arg) (exact : TypeId) : Emit Arg := do
  if independentOfTarget input.text then return input
  let slot ← Emit.temp
  Emit.store env exact (.register slot) input
  return .register slot

def fieldWrite (env : Env) (base : Code) (f : Field) (input : Arg) (exact : TypeId) : Emit Unit :=
  match fieldWriteName? base f with
  | some place => Emit.store env exact place input
  | none => Emit.inScope do
    let kept ← keepArg env input exact
    withTarget env base (Emit.store env exact (.targetField f.slot.toNat) kept)

def fieldRead (env : Env) (base : Code) (f : Field) (out : List Slot) : Emit Unit :=
  match fieldReadName? base f with
  | some place => Slot.writeAt out 0 place f.ty
  | none => Emit.inScope do
    let slot ← Emit.temp
    onTarget env base (Emit.store env f.ty (.register slot) (.targetField f.slot.toNat))
    Slot.put out (.register slot) f.ty

def fieldCode (env : Env) (base : Code) (f : Field) : LeafCode :=
  .ofSlot env
    ⟨.pure .plain,
      fun forWrite _ => .ok (if forWrite then fieldWriteName? base f else fieldReadName? base f),
      fieldWrite env base f⟩
    (fieldRead env base f)

/-! ### Class tests -/

/-- The numbers of `targ` agree with those of a classifier, up to the first that stands for any. -/
def classTest (c : Classifier) : Test :=
  let part (name : String) (n : Nat) : Test := .atom (.name name) .eq (.int (Int32.ofNat n))
  let family := part "fmly" c.family.toNat
  if c.genus = 0 then family
  else
    let genus := family.join .and (part "gnus" c.genus.toNat)
    if c.species = 0 then genus else genus.join .and (part "spcs" c.species.toNat)

def classCheck (cls : Classifier) (nullable : Bool) (slot : Nat) : Emit Unit := do
  if nullable then Emit.code 0 (.doif (.atom .targ .ne (.name "null"))) 1
  Emit.code 0 (.doif (classTest cls)) 1
  Emit.line (.store .value (.register slot) (.int 1))
  Emit.code (-1) .endi 0
  if nullable then Emit.code (-1) .endi 0

def isInstanceCode (env : Env) (what : String) (base : Code) (cls : Classifier) (nullable : Bool)
    (ty : TypeId) : LeafCode :=
  .ofSlot env (.computed what) fun out => Emit.inScope do
    let slot ← Emit.temp
    Emit.line (.store .value (.register slot) (.int 0))
    onTarget env base (classCheck cls nullable slot)
    Slot.put out (.register slot) ty

/-! ### Casts -/

def retypeSlot (target : List Slot) (ty : TypeId) : Slot :=
  ⟨.mk fun _ => Slot.roleAt target 0, Slot.inlineAt target 0,
    fun input _ => Slot.writeAt target 0 input ty⟩

def castCode (env : Env) (base : Code) (ty : TypeId) : LeafCode :=
  .ofSlot env
    ⟨.mk fun _ => base.role, Slot.inlineAt base.slots 0, base.write⟩
    fun out => base.read [retypeSlot out ty]

def retypeCode (env : Env) (what : String) (target : Code) (ty : TypeId) : LeafCode :=
  .ofSlot env (retypeSlot target.slots ty) fun _ => Emit.refuse (.notReadable what)

end AgentScript
