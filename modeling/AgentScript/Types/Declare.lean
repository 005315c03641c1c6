import AgentScript.Types.Registry

/-!
Declarations in the registry of types. A refused declaration reports why; the only trace it may leave
is types that were made on the way, which no name refers to.
-/
namespace AgentScript.Registry

def pushPrimitive (r : Registry) (name : String) (major : Major) (parent : Option TypeId) :
    TypeId × Registry :=
  let (t, r) := r.push (.primitive name parent) major
  (t, r.bindName name t)

def rename (r : Registry) (t : TypeId) (name : String) : Registry :=
  let own := (r.kind? t).bind Kind.own?
  { r with
    entries := r.entries.modify t fun e => { e with kind := e.kind.rename name }
    interfaces := match own with
      | some i => r.interfaces.modify i fun interface => { interface with name }
      | none => r.interfaces }

def empty : Registry := ⟨[], [], [], [], []⟩

def initial : Registry :=
  let r := empty
  let r := (r.pushPrimitive "any" .unknown none).2
  let r := (r.pushPrimitive "void" .unknown none).2
  let r := (r.pushPrimitive "null" .agent none).2
  let r := (r.pushPrimitive "number" .value none).2
  let r := (r.pushPrimitive "integer" .value (some number)).2
  let r := (r.pushPrimitive "float" .value (some number)).2
  let r := (r.pushPrimitive "boolean" .value (some integer)).2
  let r := (r.pushPrimitive "string" .string none).2
  let r := (r.pushPrimitive "bytes" .byteString none).2
  let r := (r.byClassifier .root).2
  let r := (r.rename agent "Agent").bindName "Agent" agent
  (r.byNullable agent).2

/-- A primitive type. Declaring it again in the same way gives the same type. -/
def declarePrimitive (r : Registry) (name : String) (major : Major) (parent : Option TypeId) :
    Except TypeError (TypeId × Registry) :=
  match r.find? name with
  | none => .ok (r.pushPrimitive name major parent)
  | some t => match r.kind? t with
    | some (.primitive _ p) =>
      if p = parent ∧ r.major t = major then .ok (t, r) else .error (.duplicateType name)
    | _ => .error (.duplicateType name)

def declareTypedef (r : Registry) (name : String) (t : TypeId) : Except TypeError Registry :=
  match r.find? name with
  | none => .ok (r.bindName name t)
  | some old => if old = t then .ok r else .error (.duplicateType name)

/-- Names the type of a classifier. The first name is the one shown. -/
def declareClass (r : Registry) (c : Classifier) (name : String) :
    Except TypeError TypeId × Registry :=
  let (t, r) := r.byClassifier c
  match r.find? name with
  | some old => if old = t then (.ok t, r) else (.error (.duplicateType name), r)
  | none =>
    let r := if r.name t = c.display then r.rename t name else r
    (.ok t, r.bindName name t)

def declareInterface (r : Registry) (name : String) : Except TypeError (TypeId × Registry) :=
  match r.find? name with
  | some t => match r.kind? t with
    | some (.interface ..) => .ok (t, r)
    | _ => .error (.duplicateType name)
  | none =>
    let (own, r) := r.pushInterface name
    let (t, r) := r.push (.interface name own [agent]) .agent
    .ok (t, r.bindName name t)

/-- Gives `child` one more parent. -/
def link (r : Registry) (child parent : TypeId) : Registry :=
  { r with
    entries := r.entries.modify child fun e => { e with kind := e.kind.addParent parent }
    dependents := record child r.dependents [parent] }

/-- Makes `child` implement `parent`, unless that closes a cycle. -/
def addParent (r : Registry) (child parent : TypeId) : Except TypeError Registry :=
  if ¬ r.isAgent child then .error (.notAnAgent (r.name child))
  else if ¬ r.isAgent parent then .error (.notAnAgent (r.name parent))
  else if parent ∈ r.parents child then .ok r
  else if child = parent ∨ r.canCast parent child then
    .error (.cyclicParent (r.name child) (r.name parent))
  else .ok (refresh (r.link child parent) child)

def updateOwn (r : Registry) (owner : TypeId)
    (change : Interface → Except TypeError Interface) : Except TypeError Registry :=
  match (r.kind? owner).bind Kind.own? with
  | none => .error (.notAnAgent (r.name owner))
  | some i => match r.interfaces[i]? with
    | none => .error (.notAnAgent (r.name owner))
    | some interface => match change interface with
      | .error e => .error e
      | .ok interface => .ok { r with interfaces := r.interfaces.set i interface }

def declareField (r : Registry) (owner : TypeId) (name : String) (ty : TypeId) (slot : UInt8) :
    Except TypeError Registry :=
  if fieldSlots ≤ slot then .error (.fieldSlotOutOfRange slot)
  else r.updateOwn owner fun i => i.declareField ⟨name, ty, slot⟩

def declareMessage (r : Registry) (owner : TypeId) (name : String) (number : UInt16) :
    Except TypeError Registry :=
  r.updateOwn owner fun i => i.declareMessage name number

def declareScript (r : Registry) (owner : TypeId) (name : String) (number : UInt16) :
    Except TypeError Registry :=
  r.updateOwn owner fun i => i.declareScript name number

def declareConstant (r : Registry) (name : String) (constant : Constant) :
    Except TypeError Registry :=
  match r.constant? name with
  | some _ => .error (.duplicateConstant name)
  | none => .ok { r with constants := (name, constant) :: r.constants }

end AgentScript.Registry
