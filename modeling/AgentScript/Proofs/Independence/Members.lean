import AgentScript.Proofs.Independence.Twins

/-! Members of twins. Twins see the same declared interfaces, those of a union perhaps in another
order. -/
namespace AgentScript

open scoped List

namespace Interface

/-- Whether two interfaces give no name two meanings. -/
def agrees (f g : Interface) : Bool :=
  (f.fields.all fun x => (g.field? x.name).all fun y => x.ty = y.ty && x.slot = y.slot) &&
  (f.messages.all fun m => (numberOf g.messages m.1).all (· = m.2)) &&
  f.scripts.all fun m => (numberOf g.scripts m.1).all (· = m.2)

variable {f g : Interface}

theorem agrees_field (agree : f.agrees g = true) (here : f.field? word = some x)
    (there : g.field? word = some y) : x = y := by
  simp only [agrees, Bool.and_eq_true, List.all_eq_true] at agree
  have isField := List.mem_of_find?_eq_some here
  have named : x.name = word := by simpa using List.find?_some here
  have named' : y.name = word := by simpa using List.find?_some there
  have same := agree.1.1 x isField
  rw [named, there] at same
  obtain ⟨n, ty, slot⟩ := x
  obtain ⟨n', ty', slot'⟩ := y
  simp_all

theorem agrees_number {table table' : List (String × UInt16)}
    (agree : ∀ m ∈ table, (numberOf table' m.1).all (· = m.2) = true)
    (here : numberOf table word = some n) (there : numberOf table' word = some k) : n = k := by
  obtain ⟨m, found, rfl⟩ := Option.map_eq_some_iff.mp here
  have same := agree m (List.mem_of_find?_eq_some found)
  have named : m.1 = word := by simpa using List.find?_some found
  rw [named, there] at same
  simpa [eq_comm] using same

theorem agrees_message (agree : f.agrees g = true) (here : numberOf f.messages word = some n)
    (there : numberOf g.messages word = some k) : n = k := by
  simp only [agrees, Bool.and_eq_true, List.all_eq_true (l := f.messages)] at agree
  exact agrees_number agree.1.2 here there

theorem agrees_script (agree : f.agrees g = true) (here : numberOf f.scripts word = some n)
    (there : numberOf g.scripts word = some k) : n = k := by
  simp only [agrees, Bool.and_eq_true, List.all_eq_true (l := f.scripts)] at agree
  exact agrees_number agree.2 here there

end Interface

namespace Registry

/-- No two types see two interfaces in opposite orders, if these give one name two meanings. -/
def coherent (r : Registry) : Bool :=
  (List.range r.entries.length).all fun t => (List.range r.entries.length).all fun u =>
    (r.effective t).all fun i => (r.effective t).all fun j =>
      !([i, j] <+ r.effective t && [j, i] <+ r.effective u) ||
        r.interfaces[i]?.all fun f => r.interfaces[j]?.all fun g => f.agrees g

variable {base r r' : Registry}

theorem coherent_agrees (coherent : r.coherent = true) (inside : t < r.entries.length)
    (inside' : u < r.entries.length) (order : [i, j] <+ r.effective t) (order' : [j, i] <+ r.effective u)
    (isInterface : r.interfaces[i]? = some f) (isInterface' : r.interfaces[j]? = some g) :
    f.agrees g = true := by
  simp only [Registry.coherent, List.all_eq_true, List.mem_range] at coherent
  have here := coherent t inside u inside' i (order.subset (by simp)) j (order.subset (by simp))
  simpa [order, order', isInterface, isInterface'] using here

theorem findSome?_first {l : List α} {find : α → Option β} (found : l.findSome? find = some x) :
    ∃ a ∈ l, find a = some x ∧ ∀ b ∈ l, find b ≠ none → b = a ∨ [a, b] <+ l := by
  induction l with
  | nil => cases found
  | cons c rest ih =>
    rw [List.findSome?_cons] at found
    cases here : find c with
    | some y =>
      rw [here] at found
      cases found
      refine ⟨c, List.mem_cons_self, here, fun b member _ => ?_⟩
      rcases List.mem_cons.mp member with rfl | later
      · exact .inl rfl
      · exact .inr ((List.singleton_sublist.mpr later).cons_cons c)
    | none =>
      rw [here] at found
      obtain ⟨a, member, answer, first⟩ := ih found
      refine ⟨a, List.mem_cons_of_mem _ member, answer, fun b member answers => ?_⟩
      rcases List.mem_cons.mp member with rfl | later
      · exact absurd here answers
      · exact (first b later answers).imp_right (·.cons c)

/-- Where those answers agree that come in opposite orders, the order does not matter. -/
theorem findSome?_congr {l l' : List α} {find : α → Option β} (same : ∀ a, a ∈ l ↔ a ∈ l')
    (agree : ∀ {a b x y}, [a, b] <+ l → [b, a] <+ l' → find a = some x → find b = some y → x = y) :
    l.findSome? find = l'.findSome? find := by
  cases found : l.findSome? find with
  | none =>
    rw [List.findSome?_eq_none_iff] at found
    exact (List.findSome?_eq_none_iff.mpr fun a member => found a ((same a).mpr member)).symm
  | some x =>
    obtain ⟨a, isMember, here, first⟩ := findSome?_first found
    cases found' : l'.findSome? find with
    | none =>
      rw [List.findSome?_eq_none_iff] at found'
      simp [found' a ((same a).mp isMember)] at here
    | some y =>
      obtain ⟨b, isMember', there, first'⟩ := findSome?_first found'
      rcases first b ((same b).mpr isMember') (by simp [there]) with rfl | order
      · exact here.symm.trans there
      · rcases first' a ((same a).mp isMember) (by simp [here]) with rfl | order'
        · exact here.symm.trans there
        · exact congrArg some (agree order order' here there)

theorem foldl_addNew_sublist (list more : List InterfaceId) : more.foldl addNew list <+ list ++ more := by
  induction more generalizing list with
  | nil => simp
  | cons i rest ih =>
    have here : addNew list i <+ list ++ [i] := by
      unfold addNew
      split
      · exact List.sublist_append_left _ _
      · exact List.Sublist.refl _
    refine (ih (addNew list i)).trans ?_
    rw [← List.singleton_append, ← List.append_assoc]
    exact here.append_right rest

theorem filter_foldl_addNew (keep : InterfaceId → Bool) (list more : List InterfaceId) :
    (more.foldl addNew list).filter keep = (more.filter keep).foldl addNew (list.filter keep) := by
  induction more generalizing list with
  | nil => rfl
  | cons i rest ih =>
    rw [List.foldl_cons, ih, List.filter_cons]
    by_cases kept : keep i = true
    · rw [if_pos kept, List.foldl_cons]
      by_cases old : i ∈ list
      · simp [addNew, old, kept]
      · simp [addNew, old, kept]
    · rw [if_neg kept]
      by_cases old : i ∈ list
      · simp [addNew, old]
      · simp [addNew, old, kept]

theorem sees_old (closed : base.Closed) (above : base.Above r) (inside : t < base.entries.length) :
    sees base r t = base.effective t := by
  unfold sees
  rw [effective_grown above.entries inside]
  exact List.filter_eq_self.mpr fun i member => by simpa using closed.effective t i member

theorem sees_class (above : base.Above r) (late : base.entries.length ≤ t)
    (isClass : r.classifierOf t = some c) : c.above = [] ∧ sees base r t = [] ∨
      ∃ p c', c.above.head? = some c' ∧ r.classifierOf p = some c' ∧
        sees base r t = (sees base r p).foldl addNew [] := by
  obtain ⟨own, ups, kind, new, under, _⟩ := above.late_class late isClass
  have seen : sees base r t = ((ups.foldl (fun list p => (r.effective p).foldl addNew list) [own]).filter
      (· < base.interfaces.length)) := by
    rw [sees, above.fresh t late, kind]
    rfl
  have dropped : [own].filter (fun i => decide (i < base.interfaces.length)) = [] := by
    simpa using new
  cases heads : c.above with
  | nil =>
    left
    rw [heads, List.head?_nil, Option.toList_none, List.map_nil, List.map_eq_nil_iff] at under
    rw [seen, under]
    exact ⟨rfl, dropped⟩
  | cons c' rest =>
    right
    rw [heads, List.head?_cons, Option.toList_some, List.map_singleton, List.map_eq_singleton_iff] at under
    obtain ⟨p, rfl, isClass'⟩ := under
    refine ⟨p, c', rfl, isClass', ?_⟩
    rw [seen, List.foldl_cons, List.foldl_nil, filter_foldl_addNew, dropped]
    rfl

theorem mem_sees_union (above : base.Above r) (late : base.entries.length ≤ t)
    (isUnion : r.members? t = some ms) :
    i ∈ sees base r t ↔ ∀ m ∈ ms, i ∈ sees base r m := by
  have some := above.ordered.several t ms isUnion
  cases ms with
  | nil => simp at some
  | cons first rest =>
    have seen : r.effective t = (r.effective first).filter fun i => rest.all fun m => i ∈ r.effective m := by
      rw [above.fresh t late, kind_of_members isUnion]
      rfl
    simp only [sees, seen, List.mem_filter, List.all_eq_true, decide_eq_true_eq, List.forall_mem_cons]
    constructor
    · rintro ⟨⟨here, others⟩, old⟩
      exact ⟨⟨here, old⟩, fun m member => ⟨others m member, old⟩⟩
    · rintro ⟨⟨here, old⟩, others⟩
      exact ⟨⟨here, fun m member => (others m member).1⟩, old⟩

/-- A late union sees interfaces in the order of one of its members. -/
theorem sees_union_first (above : base.Above r) (late : base.entries.length ≤ t)
    (isUnion : r.members? t = some ms) : ∃ m ∈ ms, sees base r t <+ sees base r m := by
  have several := above.ordered.several t ms isUnion
  cases ms with
  | nil => simp at several
  | cons first rest =>
    refine ⟨first, List.mem_cons_self, ?_⟩
    unfold sees
    rw [above.fresh t late, kind_of_members isUnion]
    exact List.filter_sublist.filter _

section
variable (closed : base.Closed) (above : base.Above r) (above' : base.Above r')
include closed above

/-- What a class sees, some declared type sees in this order. -/
theorem sees_bounded_class (isClass : r.classifierOf t = some c) (member : i ∈ sees base r t) :
    ∃ o < base.entries.length, sees base r t <+ base.effective o := by
  have old {t : TypeId} (inside : t < base.entries.length) :
      ∃ o < base.entries.length, sees base r t <+ base.effective o :=
    ⟨t, inside, sees_old closed above inside ▸ List.Sublist.refl _⟩
  induction known : c.above generalizing t c with
  | nil =>
    by_cases inside : t < base.entries.length
    · exact old inside
    · rcases sees_class above (Nat.le_of_not_lt inside) isClass with ⟨_, none⟩ | ⟨p, c', head, _⟩
      · simp [none] at member
      · simp [known] at head
  | cons c' rest ih =>
    by_cases inside : t < base.entries.length
    · exact old inside
    · rcases sees_class above (Nat.le_of_not_lt inside) isClass with ⟨none, _⟩ | ⟨p, c'', head, isClass', seen⟩
      · simp [known] at none
      · rw [known, List.head?_cons, Option.some.injEq] at head
        subst head
        have sub : sees base r t <+ sees base r p := seen ▸ foldl_addNew_sublist [] _
        obtain ⟨o, isOld, within⟩ := ih isClass' (sub.subset member) (Classifier.above_tail known)
        exact ⟨o, isOld, sub.trans within⟩

theorem sees_bounded (inside : t < r.entries.length) (member : i ∈ sees base r t) :
    ∃ o < base.entries.length, sees base r t <+ base.effective o := by
  have single {t : TypeId} (inside : t < r.entries.length) (notUnion : r.members? t = none)
      (member : i ∈ sees base r t) : ∃ o < base.entries.length, sees base r t <+ base.effective o := by
    by_cases old : t < base.entries.length
    · exact ⟨t, old, sees_old closed above old ▸ List.Sublist.refl _⟩
    · cases above.late t (Nat.le_of_not_lt old) inside with
      | cls kind =>
        exact sees_bounded_class closed above (c := _) (by rw [classifierOf, kind]; rfl) member
      | union kind => simp [members?, kind] at notUnion
  cases isUnion : r.members? t with
  | none => exact single inside isUnion member
  | some ms =>
    by_cases old : t < base.entries.length
    · exact ⟨t, old, sees_old closed above old ▸ List.Sublist.refl _⟩
    · obtain ⟨m, isMember, sub⟩ := sees_union_first above (Nat.le_of_not_lt old) isUnion
      obtain ⟨inside, _, notUnion⟩ := (above.sound.unions t ms isUnion).members m isMember
      obtain ⟨o, isOld, within⟩ := single inside notUnion (sub.subset member)
      exact ⟨o, isOld, sub.trans within⟩

include above'

theorem class_sees (isClass : r.classifierOf t = some c) (isClass' : r'.classifierOf u = some c) :
    sees base r' u = sees base r t := by
  induction known : c.above generalizing t u c with
  | nil =>
    cases Core.of_class above above' isClass isClass' with
    | old inside => rw [sees_old closed above inside, sees_old closed above' inside]
    | cls late late' =>
      rcases sees_class above late isClass with ⟨_, seen⟩ | ⟨p, c', head, _⟩
      · rcases sees_class above' late' isClass' with ⟨_, seen'⟩ | ⟨p, c', head, _⟩
        · rw [seen, seen']
        · simp [known] at head
      · simp [known] at head
  | cons c' rest ih =>
    cases Core.of_class above above' isClass isClass' with
    | old inside => rw [sees_old closed above inside, sees_old closed above' inside]
    | cls late late' =>
      rcases sees_class above late isClass with ⟨none, _⟩ | ⟨p, c₁, head, isParent, seen⟩
      · simp [known] at none
      · rcases sees_class above' late' isClass' with ⟨none, _⟩ | ⟨p', c₂, head', isParent', seen'⟩
        · simp [known] at none
        · rw [known, List.head?_cons, Option.some.injEq] at head head'
          subst head
          subst head'
          rw [seen, seen', ih isParent isParent' (Classifier.above_tail known)]

theorem Core.sees (core : Core base r r' t u) : Registry.sees base r' u = Registry.sees base r t := by
  cases core with
  | old inside => rw [sees_old closed above inside, sees_old closed above' inside]
  | cls _ _ isClass isClass' => exact class_sees closed above above' isClass isClass'

theorem Twin.mem_sees (twin : Twin base r r' t u) :
    i ∈ Registry.sees base r' u ↔ i ∈ Registry.sees base r t := by
  cases twin with
  | core core => rw [core.sees closed above above']
  | union late late' isUnion isUnion' covers =>
    rw [mem_sees_union above late isUnion, mem_sees_union above' late' isUnion']
    constructor
    · intro all m member
      obtain ⟨m', member', core⟩ := covers.left m member
      exact core.sees closed above above' ▸ all m' member'
    · intro all m' member'
      obtain ⟨m, member, core⟩ := covers.right m' member'
      exact core.sees closed above above' ▸ all m member

/-- What a type sees, found first, is the same for twins. -/
theorem Twin.find (twin : Twin base r r' t u) (coherent : base.coherent = true)
    {find : Interface → Option α} (none : ∀ name, find (.empty name) = none)
    (agree : ∀ f g : Interface, f.agrees g = true → ∀ x y, find f = some x → find g = some y → x = y) :
    (r'.visible u).findSome? find = (r.visible t).findSome? find := by
  have ordered {r : Registry} {t : TypeId} {i j : InterfaceId} (above : base.Above r)
      (order : [i, j] <+ Registry.sees base r t) :
      ∃ o < base.entries.length, [i, j] <+ base.effective o := by
    have isSeen : i ∈ Registry.sees base r t := order.subset (by simp)
    have inside : t < r.entries.length := by
      apply Nat.lt_of_not_le
      intro outside
      simp [Registry.sees, effective, List.getElem?_eq_none outside] at isSeen
    obtain ⟨o, isOld, within⟩ := sees_bounded closed above inside isSeen
    exact ⟨o, isOld, order.trans within⟩
  rw [above.findSome?_visible none, above'.findSome?_visible none]
  refine findSome?_congr (fun i => twin.mem_sees closed above above') fun order' order here there => ?_
  obtain ⟨f, isInterface, here⟩ := Option.bind_eq_some_iff.mp here
  obtain ⟨g, isInterface', there⟩ := Option.bind_eq_some_iff.mp there
  obtain ⟨o', isOld', order'⟩ := ordered above' order'
  obtain ⟨o, isOld, order⟩ := ordered above order
  exact agree f g (coherent_agrees coherent isOld' isOld order' order isInterface isInterface') _ _ here there

theorem Twin.field? (twin : Twin base r r' t u) (coherent : base.coherent = true) (name : String) :
    r'.field? u name = r.field? t name :=
  twin.find closed above above' coherent (fun _ => rfl) fun _ _ same _ _ => Interface.agrees_field same

theorem Twin.messageNumber? (twin : Twin base r r' t u) (coherent : base.coherent = true)
    (name : String) : r'.messageNumber? u name = r.messageNumber? t name :=
  twin.find closed above above' coherent (fun _ => rfl) fun _ _ same _ _ => Interface.agrees_message same

theorem Twin.scriptNumber? (twin : Twin base r r' t u) (coherent : base.coherent = true)
    (name : String) : r'.scriptNumber? u name = r.scriptNumber? t name :=
  twin.find closed above above' coherent (fun _ => rfl) fun _ _ same _ _ => Interface.agrees_script same

/-- The order in which a class sees interfaces is fixed, so that every script has one name. -/
theorem Core.scriptName? (core : Core base r r' t u) (number : UInt16) :
    r'.scriptName? u number = r.scriptName? t number := by
  unfold Registry.scriptName?
  rw [above.findSome?_visible fun _ => rfl, above'.findSome?_visible fun _ => rfl,
    core.sees closed above above']

end

theorem field_inside (closed : base.Closed) (above : base.Above r) {name : String}
    (found : r.field? t name = some f) :
    f.ty < base.entries.length := by
  unfold Registry.field? at found
  rw [above.findSome?_visible fun _ => rfl] at found
  obtain ⟨i, _, here⟩ := List.exists_of_findSome?_eq_some found
  obtain ⟨g, isInterface, here⟩ := Option.bind_eq_some_iff.mp here
  exact closed.fields g (List.mem_of_getElem? isInterface) f (List.mem_of_find?_eq_some here)

end Registry

end AgentScript
