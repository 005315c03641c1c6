import AgentScript.Types.Interface

/-!
The registry of types: an arena that only grows. Each entry keeps its effective interfaces, the
ones that its members are looked up in, nearest first. Casting follows parents and union members.
-/
namespace AgentScript

structure TypeEntry where
  kind : Kind
  major : Major
  /-- Effective interfaces in the order of lookup. -/
  interfaces : List InterfaceId

structure Registry where
  entries : List TypeEntry
  interfaces : List Interface
  named : List (String × TypeId)
  constants : List (String × Constant)
  /-- For each type the ones built directly on it, as they came. -/
  dependents : List (List TypeId)

namespace Registry

def any : TypeId := 0
def void : TypeId := 1
def null : TypeId := 2
def number : TypeId := 3
def integer : TypeId := 4
def float : TypeId := 5
def boolean : TypeId := 6
def string : TypeId := 7
def bytes : TypeId := 8
def agent : TypeId := 9
def agentOrNull : TypeId := 10

def kind? (r : Registry) (t : TypeId) : Option Kind := r.entries[t]?.map (·.kind)

def major (r : Registry) (t : TypeId) : Major := r.entries[t]?.elim .unknown (·.major)

def parents (r : Registry) (t : TypeId) : List TypeId := (r.kind? t).elim [] Kind.parents

def supers (r : Registry) (t : TypeId) : List TypeId := (r.kind? t).elim [] Kind.supers

def members? (r : Registry) (t : TypeId) : Option (List TypeId) :=
  match r.kind? t with
  | some (.union members) => some members
  | _ => none

def isAgent (r : Registry) (t : TypeId) : Bool := (r.kind? t).any Kind.isAgent

def classifierOf (r : Registry) (t : TypeId) : Option Classifier :=
  (r.kind? t).bind Kind.classifier?

def effective (r : Registry) (t : TypeId) : List InterfaceId :=
  r.entries[t]?.elim [] (·.interfaces)

def plainName (r : Registry) (t : TypeId) : String := (r.kind? t).elim "" Kind.name

/-- The name shown to users. A union joins the names of its members, `null` last. -/
def name (r : Registry) (t : TypeId) : String :=
  match r.members? t with
  | some members =>
    let order := members.filter (· ≠ null) ++ if null ∈ members then [null] else []
    "|".intercalate (order.map r.plainName)
  | none => r.plainName t

def find? (r : Registry) (name : String) : Option TypeId := r.named.lookup name

def byName (r : Registry) (name : String) : Except TypeError TypeId :=
  match r.find? name with
  | some t => .ok t
  | none => .error (.unknownType name)

/-- Casting with a bound on the number of steps along parents and union members. -/
def castsWithin (r : Registry) : (steps : Nat) → (a b : TypeId) → Bool
  | 0, _, _ => false
  | steps + 1, a, b =>
    b == any || a == b ||
    (r.members? a).any (fun members => members.all fun m => r.castsWithin steps m b) ||
    (r.members? b).any (fun members => members.any fun m => r.castsWithin steps a m) ||
    (r.parents a).any fun p => r.castsWithin steps p b

/-- No path along parents and members visits a type twice, so a path from `a` and one from `b`
together are shorter than twice the arena. -/
def castSteps (r : Registry) : Nat := 2 * r.entries.length + 1

/-- `a` casts to `b` when `b` is `any`, they are the same, every member of the union `a` casts to
`b`, `a` casts to a member of the union `b`, or a parent of `a` casts to `b`. -/
def canCast (r : Registry) (a b : TypeId) : Bool := r.castsWithin r.castSteps a b

def checkCast (r : Registry) (source target : TypeId) : Except TypeError Unit :=
  if r.canCast source target then .ok ()
  else .error (.cannotCast (r.name source) (r.name target))

/-! ### Effective interfaces -/

def addNew (list : List InterfaceId) (i : InterfaceId) : List InterfaceId :=
  if i ∈ list then list else list ++ [i]

/-- A type sees its own interface and then those of its parents. A union sees what all its members
see, in the order of the first. -/
def effectiveOf (r : Registry) : Kind → List InterfaceId
  | .union [] => []
  | .union (first :: rest) =>
    (r.effective first).filter fun i => rest.all fun m => i ∈ r.effective m
  | kind => kind.parents.foldl (fun list p => (r.effective p).foldl addNew list) kind.own?.toList

def dependentsOf (r : Registry) (t : TypeId) : List TypeId := r.dependents[t]?.getD []

/-- Notes in a table of dependents that `t` is built on `supers`. -/
def record (t : TypeId) (table : List (List TypeId)) (supers : List TypeId) : List (List TypeId) :=
  supers.foldl (fun table s => table.modify s (· ++ [t])) table

def setEffective (r : Registry) (t : TypeId) (list : List InterfaceId) : Registry :=
  { r with entries := r.entries.modify t fun e => { e with interfaces := list } }

def recompute (r : Registry) (t : TypeId) : Registry :=
  match r.kind? t with
  | some kind => r.setEffective t (r.effectiveOf kind)
  | none => r

/-- Recomputes the effective interfaces of `t` and of all that is built on it, along paths of at
most `steps` types. -/
def refreshWithin : (steps : Nat) → Registry → TypeId → Registry
  | 0, r, _ => r
  | steps + 1, r, t =>
    let r := r.recompute t
    (r.dependentsOf t).foldl (fun r d => refreshWithin steps r d) r

def refresh (r : Registry) (t : TypeId) : Registry := refreshWithin r.entries.length r t

/-! ### Lookup of members -/

def visible (r : Registry) (t : TypeId) : List Interface :=
  (r.effective t).filterMap fun i => r.interfaces[i]?

def field? (r : Registry) (t : TypeId) (name : String) : Option Field :=
  (r.visible t).findSome? (·.field? name)

def messageNumber? (r : Registry) (t : TypeId) (name : String) : Option UInt16 :=
  (r.visible t).findSome? fun i => Interface.numberOf i.messages name

def messageName? (r : Registry) (t : TypeId) (number : UInt16) : Option String :=
  (r.visible t).findSome? fun i => Interface.nameOf i.messages number

def scriptNumber? (r : Registry) (t : TypeId) (name : String) : Option UInt16 :=
  (r.visible t).findSome? fun i => Interface.numberOf i.scripts name

def scriptName? (r : Registry) (t : TypeId) (number : UInt16) : Option String :=
  (r.visible t).findSome? fun i => Interface.nameOf i.scripts number

def constant? (r : Registry) (name : String) : Option Constant := r.constants.lookup name

/-! ### New types -/

def push (r : Registry) (kind : Kind) (major : Major) : TypeId × Registry :=
  let t := r.entries.length
  (t, { r with
    entries := r.entries ++ [⟨kind, major, r.effectiveOf kind⟩]
    dependents := record t r.dependents kind.supers ++ [[]] })

def pushInterface (r : Registry) (name : String) : InterfaceId × Registry :=
  (r.interfaces.length, { r with interfaces := r.interfaces ++ [Interface.empty name] })

def bindName (r : Registry) (name : String) (t : TypeId) : Registry :=
  { r with named := (name, t) :: r.named }

def findClass? (r : Registry) (c : Classifier) : Option TypeId :=
  r.entries.findIdx? fun e => e.kind.classifier? == some c

def pushClass (r : Registry) (c : Classifier) (parents : List TypeId) : TypeId × Registry :=
  let (own, r) := r.pushInterface c.display
  r.push (.classified c.display c own parents) .agent

/-- The type of `c`, whose more general classifiers are `above`. -/
def classUnder (r : Registry) (c : Classifier) : (above : List Classifier) → TypeId × Registry
  | [] => match r.findClass? c with
    | some t => (t, r)
    | none => r.pushClass c []
  | p :: above => match r.findClass? c with
    | some t => (t, r)
    | none =>
      let (parent, r) := r.classUnder p above
      r.pushClass c [parent]

/-- The type of a classifier, made on first use after those of the more general ones. -/
def byClassifier (r : Registry) (c : Classifier) : TypeId × Registry := r.classUnder c c.above

def insertType (t : TypeId) : List TypeId → List TypeId
  | [] => [t]
  | x :: rest => if t < x then t :: x :: rest else if t = x then x :: rest
    else x :: insertType t rest

def flatten (r : Registry) (types : List TypeId) : List TypeId :=
  (types.flatMap fun t => (r.members? t).getD [t]).foldr insertType []

/-- The types of a list that do not cast to another one of it. -/
def maximal (r : Registry) (types : List TypeId) : List TypeId :=
  types.filter fun m => !types.any fun other => other != m && r.canCast m other

def findUnion? (r : Registry) (members : List TypeId) : Option TypeId :=
  r.entries.findIdx? fun e => e.kind.isUnionOf members

/-- The union of some types. Unions among them count as their members, and a member that casts to
another is dropped. Equal unions are one type. -/
def byUnion (r : Registry) (types : List TypeId) : TypeId × Registry :=
  match r.maximal (r.flatten types) with
  | [] => (void, r)
  | [t] => (t, r)
  | members => match r.findUnion? members with
    | some t => (t, r)
    | none => r.push (.union members) (Major.common (members.map r.major))

def byNullable (r : Registry) (t : TypeId) : TypeId × Registry := r.byUnion [t, null]

def byNonNullable (r : Registry) (t : TypeId) : Except TypeError (TypeId × Registry) :=
  match r.members? t with
  | some members => .ok (r.byUnion (members.filter (· ≠ null)))
  | none => .error (.notNullable (r.name t))

end Registry

end AgentScript
