import AgentScript.Proofs.Json.Values

/-! Readers applied to what was written. A reader that may go `k` brackets deep reads a value back if as
many brackets may be opened at its place as the value has. -/
namespace AgentScript

namespace Json
variable {items : List Json}

mutual
def depth : Json → Nat
  | null | bool _ | number _ | string _ => 0
  | array items => itemsDepth items + 1
  | object fs => fieldsDepth fs + 1
def itemsDepth : List Json → Nat
  | [] => 0
  | item :: items => max (depth item) (itemsDepth items)
def fieldsDepth : List (Option String × Json) → Nat
  | [] => 0
  | (_, value) :: fs => max (depth value) (fieldsDepth fs)
end

theorem itemsDepth_le : itemsDepth items ≤ n ↔ ∀ item ∈ items, item.depth ≤ n := by
  induction items with
  | nil => simp [itemsDepth]
  | cons item items ih => simp [itemsDepth, ih]

theorem fieldsDepth_le {fs : List (Option String × Json)} :
    fieldsDepth fs ≤ n ↔ ∀ f ∈ fs, f.2.depth ≤ n := by
  induction fs with
  | nil => simp [fieldsDepth]
  | cons f fs ih => simp [fieldsDepth, ih]

@[simp] theorem depth_text (s : String) : (text s).depth = 0 := by rw [text, depth]

theorem depth_array_le : (array items).depth ≤ n + 1 ↔ ∀ item ∈ items, item.depth ≤ n := by
  rw [depth, Nat.add_le_add_iff_right, itemsDepth_le]

theorem depth_fields_le {fs : List (String × Json)} :
    (fields fs).depth ≤ n + 1 ↔ ∀ f ∈ fs, f.2.depth ≤ n := by
  rw [fields, depth, Nat.add_le_add_iff_right, fieldsDepth_le, List.forall_mem_map]

theorem depth_fields_pos (fs : List (String × Json)) : 0 < (fields fs).depth := by
  exact Nat.succ_pos _

theorem depth_tagged (tag : String) (content : Json) :
    (tagged tag content).depth = content.depth + 1 := by
  simp [tagged, fields, depth, fieldsDepth]

theorem soundItems_iff : soundItems levels items = true ↔ ∀ item ∈ items, item.sound levels = true := by
  induction items with
  | nil => simp [soundItems]
  | cons item items ih => simp [soundItems, ih]

theorem soundFields_iff {fs : List (String × Json)} :
    soundFields levels (fs.map fun f => (some f.1, f.2)) = true ↔
      ∀ f ∈ fs, f.2.sound levels = true := by
  induction fs with
  | nil => simp [soundFields]
  | cons f fs ih => simp [soundFields, soundField, ih]

theorem sound_of_plain (plain : Plain j) (deep : j.depth ≤ levels) : j.sound levels = true := by
  induction plain generalizing levels with
  | null | bool => rw [sound]
  | @int n low high =>
    have word : (numberParts (Text.int n)).isWord = true := by
      rw [NumberParts.isWord, numberParts_int]
      exact decide_eq_true ⟨low, high⟩
    rw [Json.int, sound, NumberParts.inRange, word, Bool.true_or]
  | text => rfl
  | @array items _ each =>
    cases levels with
    | zero => simp [depth] at deep
    | succ levels =>
      have inner := depth_array_le.mp deep
      simp only [sound, Bool.and_eq_true, Nat.add_sub_cancel, soundItems_iff]
      exact ⟨rfl, fun item member => each item member (inner item member)⟩
  | @fields fs _ each =>
    cases levels with
    | zero => exact absurd (depth_fields_pos fs) (by omega)
    | succ levels =>
      have inner := depth_fields_le.mp deep
      simp only [Json.fields, sound, Bool.and_eq_true, Nat.add_sub_cancel, soundFields_iff]
      exact ⟨rfl, fun f member => each f member (inner f member)⟩

/-- Plain, if no more than `k` brackets are open at once. -/
def PlainWithin (k : Nat) (j : Json) : Prop := j.depth ≤ k → Plain j

theorem PlainWithin.array (each : ∀ item ∈ items, item.PlainWithin k) :
    (array items).PlainWithin (k + 1) := fun deep =>
  .array fun item member => each item member (depth_array_le.mp deep item member)

theorem PlainWithin.fields {fs : List (String × Json)} (each : ∀ f ∈ fs, f.2.PlainWithin k) :
    (fields fs).PlainWithin (k + 1) := fun deep =>
  .fields fun f member => each f member (depth_fields_le.mp deep f member)

end Json

open Json

namespace Reader

/-- A plain value `j` is written for `a`, and the reader finds `a` in it at every place where as many
brackets may be opened as it takes, and no more than `k`. -/
structure Reads (k : Nat) (reader : Reader α) (j : Json) (a : α) : Prop where
  plain : j.PlainWithin k
  read : ∀ p : ReadAt, p.levels ≤ k → j.depth ≤ p.levels → reader p j = some a

namespace Reads
variable {k : Nat}

theorem mono (reads : Reads k reader j a) (less : m ≤ k) : Reads m reader j a :=
  ⟨fun deep => reads.plain (Nat.le_trans deep less),
    fun p small deep => reads.read p (Nat.le_trans small less) deep⟩

theorem text (s : String) : Reads k asText (Json.text s) s := ⟨fun _ => .text, fun _ _ _ => rfl⟩

theorem bool (b : Bool) : Reads k asBool (.bool b) b := ⟨fun _ => .bool, fun _ _ _ => rfl⟩

theorem oneOf {names : List (String × α)} (found : names.lookup word = some a) :
    Reads k (oneOf names) (Json.text word) a := ⟨fun _ => .text, fun _ _ _ => found⟩

theorem intWithin (of : Int → α) (same : of n = a) (above : low ≤ n) (below : n ≤ high)
    (word : -(0x8000000000000000 : Int) ≤ low ∧ high ≤ NumberParts.maxSignificand) :
    Reads k (fun p j => (asIntWithin low high p j).map of) (Json.int n) a := by
  refine ⟨fun _ => .int (Int.le_trans word.1 above) (Int.le_trans below word.2), fun p _ _ => ?_⟩
  simp [asIntWithin, asInt, Json.int, numberParts_int, above, below, same]

theorem natBelow (of : Nat → α) {size : Nat} (small : n < size) (same : of n = a)
    (word : size ≤ 2 ^ 32) :
    Reads k (fun p j => (asIntWithin 0 (size - 1) p j).map fun n => of n.toNat) (nat n) a :=
  intWithin (fun n => of n.toNat) (by simpa using same) (by omega) (by omega)
    (by simp only [NumberParts.maxSignificand, UInt64.size]; omega)

theorem uint8 (n : UInt8) : Reads k asUInt8 (nat n.toNat) n :=
  natBelow Nat.toUInt8 n.toNat_lt (by simp) (by decide)

theorem uint16 (n : UInt16) : Reads k asUInt16 (nat n.toNat) n :=
  natBelow Nat.toUInt16 n.toNat_lt (by simp) (by decide)

theorem uint32 (n : UInt32) : Reads k asUInt32 (nat n.toNat) n :=
  natBelow Nat.toUInt32 n.toNat_lt (by simp) (by decide)

theorem int32 (n : Int32) : Reads k asInt32 (Json.int n.toInt) n :=
  intWithin Int32.ofInt (by simp) n.minValue_le_toInt n.toInt_le (by decide)

theorem orNull {write : α → Json} {o : Option α} (each : ∀ a ∈ o, Reads k reader (write a) a)
    (given : ∀ a, write a ≠ .null) : Reads k (nullable reader) (Json.orNull write o) o := by
  cases o with
  | none => exact ⟨fun _ => .null, fun _ _ _ => rfl⟩
  | some a =>
    refine ⟨(each a rfl).plain, fun p small deep => ?_⟩
    have read := (each a rfl).read p small deep
    simp only [Json.orNull, nullable]
    split
    · next null => exact absurd null (given a)
    · rw [read]
      rfl

theorem list {write : α → Json} {as : List α} (each : ∀ a ∈ as, Reads k reader (write a) a) :
    Reads k (list reader) (.array (as.map write)) as := by
  constructor
  · intro deep
    have items := List.forall_mem_map.mpr fun a member => (each a member).plain
    exact PlainWithin.array items (Nat.le_succ_of_le deep)
  rintro ⟨levels, whole⟩ small deep
  cases levels with
  | zero => simp [depth] at deep
  | succ levels =>
    have inner := depth_array_le.mp deep
    have read : ∀ a ∈ as, reader ⟨levels, whole⟩ (write a) = some a := fun a member =>
      (each a member).read ⟨levels, whole⟩ (Nat.le_of_succ_le small)
        (inner _ (List.mem_map_of_mem member))
    simp only [Reader.list, ReadAt.inner?, Option.bind_eq_bind, Option.bind_some]
    clear deep inner each
    induction as with
    | nil => rfl
    | cons a as ih =>
      obtain ⟨here, others⟩ := List.forall_mem_cons.mp read
      rw [List.map_cons, List.mapM_cons, here, ih others]
      rfl

theorem taken (reads : Reads k reader j a) : Reads k (taken reader) j a := by
  refine ⟨reads.plain, fun p small deep => ?_⟩
  rw [Reader.taken, if_pos (sound_of_plain (reads.plain (Nat.le_trans deep small)) deep)]
  exact reads.read { p with whole := true } small deep

/-- The content of a tagged value is one bracket further in. -/
theorem tagged {inner : Reader β} {next : β → Option α}
    (reads : Reads k inner content b)
    (step : ∀ levels whole, reader ⟨levels + 1, whole⟩ (Json.tagged tag content) =
      (inner ⟨levels, whole⟩ content).bind next := by intros; rfl)
    (result : next b = some a := by rfl) :
    Reads (k + 1) reader (Json.tagged tag content) a := by
  refine ⟨.fields (by simpa using reads.plain), ?_⟩
  rintro ⟨levels, whole⟩ small deep
  rw [depth_tagged] at deep
  cases levels with
  | zero => cases deep
  | succ levels =>
    have read := reads.read ⟨levels, whole⟩ (Nat.le_of_succ_le_succ small) (Nat.le_of_succ_le_succ deep)
    rw [step, read, Option.bind_some, result]

theorem zero (deep : 0 < j.depth) : Reads 0 reader j a :=
  ⟨fun flat => absurd deep (by omega), fun _ small enough => absurd deep (by omega)⟩

end Reads

end Reader

namespace Fields
variable {k : Nat} {fs : List (String × Json)} {names : List String} {p : ReadAt}

/-- The fields are at hand, at a place that is deep enough for them. -/
structure Given (k : Nat) (fs : List (String × Json)) (f : Fields) : Prop where
  small : f.place.levels ≤ k
  each : ∀ entry ∈ fs, f.find? entry.1 = some entry.2 ∧ entry.2.depth ≤ f.place.levels

/-- Fields are read one after another, in the order in which they were written. -/
structure Reads (k : Nat) (fs : List (String × Json)) (next : Fields → Option α) (a : α) : Prop where
  plain : ∀ entry ∈ fs, entry.2.PlainWithin k
  read : ∀ f : Fields, f.Given k fs → next f = some a

namespace Reads
variable {α β : Type} {a : α} {b : β} {reader : Reader α} {next : α → Fields → Option β}

theorem done : Reads k [] (fun _ => some a) a := ⟨nofun, fun _ _ => rfl⟩

theorem cons {get : Fields → Option α} (found : ∀ f, f.find? name = some j → get f = reader f.place j)
    (reads : Reader.Reads k reader j a) (rest : Reads k fs (next a) b) :
    Reads k ((name, j) :: fs) (fun f => (get f).bind fun a => next a f) b := by
  refine ⟨List.forall_mem_cons.mpr ⟨reads.plain, rest.plain⟩, fun f given => ?_⟩
  obtain ⟨⟨here, deep⟩, others⟩ := List.forall_mem_cons.mp given.each
  rw [found f here, reads.read f.place given.small deep]
  exact rest.read f ⟨given.small, others⟩

theorem required (reads : Reader.Reads k reader j a) (rest : Reads k fs (next a) b) :
    Reads k ((name, j) :: fs) (fun f => (f.required name reader).bind fun a => next a f) b :=
  .cons (fun f found => by rw [Fields.required, found]; rfl) reads rest

theorem withDefault (reads : Reader.Reads k reader j a) (rest : Reads k fs (next a) b) :
    Reads k ((name, j) :: fs)
      (fun f => (f.withDefault name reader missing).bind fun a => next a f) b :=
  .cons (fun f found => by rw [Fields.withDefault, found]) reads rest

theorem nullable {a : Option α} {next : Option α → Fields → Option β}
    (reads : Reader.Reads k (Reader.nullable reader) j a) (rest : Reads k fs (next a) b) :
    Reads k ((name, j) :: fs) (fun f => (f.nullable name reader).bind fun a => next a f) b :=
  .withDefault reads rest

end Reads

theorem select?_fields (names : List String) (nodup : (fs.map (·.1)).Nodup) :
    select? names (fs.map fun f => (some f.1, f.2)) = some (fs.filter fun f => f.1 ∈ names) := by
  induction fs with
  | nil => rfl
  | cons f fs ih =>
    rw [List.map_cons, List.nodup_cons] at nodup
    have fresh : (fs.filter fun f => f.1 ∈ names).lookup f.1 = none := by
      rw [List.lookup_eq_none_iff]
      intro g member
      have other : f.1 ≠ g.1 := fun same =>
        nodup.1 (same ▸ List.mem_map_of_mem (List.mem_of_mem_filter member))
      simpa using other
    by_cases known : f.1 ∈ names <;> simp [select?, ih nodup.2, known, fresh]

theorem filter_known (same : fs.map (·.1) = names) : (fs.filter fun f => f.1 ∈ names) = fs := by
  subst same
  exact List.filter_eq_self.mpr fun f member => decide_eq_true (List.mem_map_of_mem member)

/-- Of the fields that were written, those that are known are read. -/
theorem read?_known (names : List String) (nodup : (fs.map (·.1)).Nodup) (small : p.levels ≤ k + 1)
    (deep : (fields fs).depth ≤ p.levels) :
    ∃ place : ReadAt, place.levels ≤ k ∧ (∀ f ∈ fs, f.2.depth ≤ place.levels) ∧
      read? names p (fields fs) = some ⟨place, true, fs.filter fun f => f.1 ∈ names⟩ := by
  obtain ⟨levels, whole⟩ := p
  cases levels with
  | zero => exact absurd (depth_fields_pos fs) (by simpa using deep)
  | succ levels =>
    refine ⟨⟨levels, whole⟩, Nat.le_of_succ_le_succ small, depth_fields_le.mp deep, ?_⟩
    simp [read?, fields, ReadAt.inner?, select?_fields names nodup]

theorem lookup_field {f : String × Json} (nodup : (fs.map (·.1)).Nodup) (member : f ∈ fs) :
    fs.lookup f.1 = some f.2 := by
  induction fs with
  | nil => cases member
  | cons g fs ih =>
    rw [List.map_cons, List.nodup_cons] at nodup
    rcases List.mem_cons.mp member with rfl | later
    · exact List.lookup_cons_self
    · have other : f.1 ≠ g.1 := fun same => nodup.1 (same ▸ List.mem_map_of_mem later)
      rw [List.lookup_cons, beq_false_of_ne other]
      exact ih nodup.2 later

/-- A record is written with all its fields, in the order in which they are read. -/
theorem Reads.record {next : Fields → Option α} (reads : Reads k fs next a)
    (same : fs.map (·.1) = names := by rfl) (nodup : names.Nodup := by decide) :
    Reader.Reads k (fun p j => (read? names p j).bind next) (fields fs) a := by
  refine ⟨fun deep => PlainWithin.fields reads.plain (Nat.le_succ_of_le deep), fun p small deep => ?_⟩
  obtain ⟨place, below, room, read⟩ :=
    read?_known names (same ▸ nodup) (Nat.le_succ_of_le small) deep
  rw [read, filter_known same]
  exact reads.read _ ⟨below, fun f member => ⟨lookup_field (same ▸ nodup) member, room f member⟩⟩

theorem Reads.tagged {reader : Reader α} {next : Fields → Option α}
    (reads : Reads k fs next a)
    (step : ∀ levels whole, reader ⟨levels + 1, whole⟩ (Json.tagged tag (fields fs)) =
      (read? names ⟨levels, whole⟩ (fields fs)).bind next := by intros; rfl)
    (same : fs.map (·.1) = names := by rfl) (nodup : names.Nodup := by decide) :
    Reader.Reads (k + 1) reader (Json.tagged tag (fields fs)) a := by
  refine .tagged (reads.record same nodup) fun levels whole => ?_
  exact (step levels whole).trans (Option.bind_fun_some _).symm

/-- One field names a kind, and the others are those of this kind. -/
theorem read?_kind {mark : String} {content : Json} (same : fs.map (·.1) = names)
    (nodup : (mark :: names).Nodup) (small : p.levels ≤ k + 1)
    (deep : (fields ((mark, content) :: fs)).depth ≤ p.levels) :
    ∃ head, read? [mark] p (fields ((mark, content) :: fs)) = some head ∧
      head.Given k [(mark, content)] ∧
      select? names (((mark, content) :: fs).map fun f => (some f.1, f.2)) = some fs ∧
      Given k fs ⟨head.place, true, fs⟩ := by
  subst same
  have distinct : (((mark, content) :: fs).map (·.1)).Nodup := nodup
  obtain ⟨fresh, nodup⟩ := List.nodup_cons.mp nodup
  obtain ⟨place, below, room, read⟩ := read?_known [mark] distinct small deep
  obtain ⟨here, others⟩ := List.forall_mem_cons.mp room
  refine ⟨⟨place, true, [(mark, content)]⟩, ?_, ⟨below, ?_⟩, ?_, below, fun f member => ?_⟩
  · have others : fs.filter (fun f => f.1 ∈ [mark]) = [] := by
      simp only [List.filter_eq_nil_iff, List.mem_singleton, decide_eq_true_eq]
      rintro f member rfl
      exact fresh (List.mem_map_of_mem member)
    rw [read, List.filter_cons_of_pos (by simp), others]
  · simpa [find?] using here
  · rw [select?_fields _ distinct, List.filter_cons_of_neg (by simpa using fresh), filter_known rfl]
  · exact ⟨lookup_field nodup member, others f member⟩

end Fields

end AgentScript
