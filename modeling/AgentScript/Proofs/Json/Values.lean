import AgentScript.Json.Read
import Mathlib.Data.String.Basic

/-! Values that are written are read back, whatever their strings hold. Whole numbers are the only numbers
that are considered; of a text, nothing after the value is taken. -/
namespace AgentScript.Json

/-- The text after a value, which does not go on with a number. -/
def Stops (rest : List Char) : Prop :=
  ∀ c ∈ rest.head?, c.isDigit = false ∧ c ≠ '.' ∧ c ≠ 'e' ∧ c ≠ 'E'

theorem Stops.nil : Stops [] := nofun

theorem Stops.cons (digit : c.isDigit = false) (others : c ≠ '.' ∧ c ≠ 'e' ∧ c ≠ 'E') :
    Stops (c :: rest) := by
  rintro _ ⟨⟩
  exact ⟨digit, others⟩

abbrev digits (n : Nat) : List Char := Nat.toDigits 10 n

theorem isDigit_of_mem (member : c ∈ digits n) : c.isDigit = true :=
  Nat.isDigit_of_mem_toDigits (by decide) (by decide) member

theorem takeDigits_digits (n : Nat) (stops : Stops rest) :
    takeDigits (digits n ++ rest) = (digits n, rest) := by
  have each : ∀ c ∈ digits n, c.isDigit = true := fun _ => isDigit_of_mem
  rw [takeDigits, List.takeWhile_append_of_pos each, List.dropWhile_append_of_pos each]
  cases rest with
  | nil => simp
  | cons c rest => simp [(stops c rfl).1]

theorem head_digits (positive : 0 < n) : (digits n).head? ≠ some '0' := by
  induction n using Nat.strongRecOn with
  | ind n ih =>
    by_cases small : n < 10
    · rw [digits, Nat.toDigits_of_lt_base small]
      have all : ∀ k < 10, 0 < k → [k.digitChar].head? ≠ some '0' := by decide
      exact all n small positive
    · rw [digits, Nat.toDigits_of_base_le (by decide) (by omega)]
      have shorter := ih (n / 10) (by omega) (by omega)
      rwa [List.head?_append_of_ne_nil _ Nat.toDigits_ne_nil]

theorem wholePart?_digits (n : Nat) (stops : Stops rest) :
    wholePart? (digits n ++ rest) = some (digits n, rest) := by
  have taken := takeDigits_digits n stops
  rcases Nat.eq_zero_or_pos n with rfl | positive
  · have zero : digits 0 = ['0'] := by decide
    rw [zero]
    cases rest with
    | nil => rfl
    | cons c rest => simp [wholePart?, (stops c rfl).1]
  · have head := head_digits positive
    cases ds : digits n with
    | nil => exact absurd ds Nat.toDigits_ne_nil
    | cons c cs =>
      rw [ds] at head taken
      have nonzero : c ≠ '0' := by simpa using head
      simp [wholePart?, nonzero, List.cons_append ▸ taken]

theorem unsignedNumber?_digits (n : Nat) (stops : Stops rest) :
    unsignedNumber? (digits n ++ rest) = some (digits n, rest) := by
  have fraction : fractionPart? rest = some ([], rest) := by
    cases rest with
    | nil => rfl
    | cons c rest => simp [fractionPart?, (stops c rfl).2.1]
  have exponent : exponentPart? rest = some ([], rest) := by
    cases rest with
    | nil => rfl
    | cons c rest => simp [exponentPart?, (stops c rfl).2.2]
  simp [unsignedNumber?, wholePart?_digits n stops, fraction, exponent]

theorem digits_eq_cons (n : Nat) : ∃ c cs, digits n = c :: cs ∧ c.isDigit = true := by
  cases ds : digits n with
  | nil => exact absurd ds Nat.toDigits_ne_nil
  | cons c cs => exact ⟨c, cs, rfl, isDigit_of_mem (n := n) (by simp [ds])⟩

theorem digits_append_ne (n : Nat) (rest cs : List Char) : digits n ++ rest ≠ '-' :: cs := by
  obtain ⟨c, _, same, isDigit⟩ := digits_eq_cons n
  rw [same, List.cons_append]
  rintro ⟨⟩
  cases isDigit

theorem int_toList (n : Int) :
    (∃ k : Nat, n = k ∧ (Text.int n).toList = digits k) ∨
      ∃ k : Nat, n = -(k + 1 : Nat) ∧ (Text.int n).toList = '-' :: digits (k + 1) := by
  cases n with
  | ofNat k => exact .inl ⟨k, rfl, by simp [Text.int, Text.nat, Nat.repr_eq_ofList_toDigits]⟩
  | negSucc k => exact .inr ⟨k, rfl, by simp [Text.int, Text.nat, Nat.repr_eq_ofList_toDigits]⟩

theorem parseNumber?_int (n : Int) (stops : Stops rest) :
    parseNumber? ((Text.int n).toList ++ rest) = some (.int n, rest) := by
  have whole : Json.int n = number (String.ofList (Text.int n).toList) := by
    rw [String.ofList_toList, Json.int]
  rw [whole]
  rcases int_toList n with ⟨k, _, same⟩ | ⟨k, _, same⟩
  · rw [same]
    unfold parseNumber?
    split
    · next other => exact absurd other (digits_append_ne k rest _)
    · rw [unsignedNumber?_digits k stops]
      rfl
  · rw [same, List.cons_append]
    simp [parseNumber?, unsignedNumber?_digits (k + 1) stops]

theorem natOf_digits (n : Nat) : NumberParts.natOf (digitValues (digits n)) = n := by
  have value := Nat.ofDigitChars_ten_toDigits (n := n)
  rw [Nat.ofDigitChars] at value
  simpa [NumberParts.natOf, digitValues, List.foldl_map, Nat.mul_comm] using value

theorem unsignedParts_digits (negative : Bool) (n : Nat) :
    unsignedParts negative (digits n) = ⟨negative, digitValues (digits n), [], none⟩ := by
  have taken := takeDigits_digits n .nil
  rw [List.append_nil] at taken
  simp [unsignedParts, taken, digitValues, exponentOf]

theorem numberParts_int (n : Int) : (numberParts (Text.int n)).int? = some n := by
  unfold numberParts
  rcases int_toList n with ⟨k, rfl, same⟩ | ⟨k, rfl, same⟩
  · rw [same]
    split
    · next other => exact absurd ((List.append_nil _).trans other) (digits_append_ne k [] _)
    · rw [unsignedParts_digits]
      simp [NumberParts.int?, natOf_digits]
  · rw [same]
    simp [unsignedParts_digits, NumberParts.int?, natOf_digits]

/-- Control characters without an escape of their own are written as units. -/
def unitOf (c : Char) : StringUnit :=
  if c.toNat < 32 ∧ c ∉ ['\x08', '\x0c', '\n', '\r', '\t'] then .code c.toNat else .char c

theorem hexValue?_hexDigit : ∀ n < 16, hexValue? (hexDigit n) = some n := by decide

theorem stringUnits?_escape (c : Char) (rest : List Char) :
    stringUnits? (escapeChar c ++ rest) =
      (stringUnits? rest).map fun p => (unitOf c :: p.1, p.2) := by
  -- the short escapes first, then those that name a unit, then the characters that stand for themselves
  by_cases short : c ∈ ['"', '\\', '\x08', '\x0c', '\n', '\r', '\t']
  · simp only [List.mem_cons, List.not_mem_nil, or_false] at short
    rcases short with rfl | rfl | rfl | rfl | rfl | rfl | rfl <;>
      cases found : stringUnits? rest <;>
        simp [escapeChar, stringUnits?, simpleEscape?, found, unitOf]
  · simp only [List.mem_cons, List.not_mem_nil, or_false, not_or] at short
    obtain ⟨quote, slash, b, f, n, r, t⟩ := short
    by_cases control : c.toNat < 32
    · have high := hexValue?_hexDigit (c.toNat / 16) (by omega)
      have low := hexValue?_hexDigit (c.toNat % 16) (by omega)
      have zero : hexValue? '0' = some 0 := rfl
      have value : c.toNat / 16 * 16 + c.toNat % 16 = c.toNat := by omega
      cases found : stringUnits? rest <;>
        simp [escapeChar, quote, slash, b, f, n, r, t, control, stringUnits?, hexUnit?, zero, high, low,
          value, found, unitOf]
    · have itself : escapeChar c = [c] := by simp [escapeChar, quote, slash, b, f, n, r, t, control]
      have unit : unitOf c = .char c := by simp [unitOf, control]
      rw [itself, unit, List.singleton_append]
      cases found : stringUnits? rest <;> simp [stringUnits?, slash, control, found]

theorem stringUnits?_quoted (s rest : List Char) :
    stringUnits? (s.flatMap escapeChar ++ '"' :: rest) = some (s.map unitOf, rest) := by
  induction s with
  | nil => simp [stringUnits?]
  | cons c s ih =>
    rw [List.flatMap_cons, List.append_assoc, stringUnits?_escape, ih]
    rfl

/-- A unit that is no half of a surrogate pair is a character, whatever follows. -/
theorem decodeUnits?_code (single : n < 0xD800) (rest : List StringUnit) :
    decodeUnits? (.code n :: rest) = (decodeUnits? rest).map (Char.ofNat n :: ·) := by
  have high : isHighSurrogate n = false := by simp [isHighSurrogate, single]
  have low : isLowSurrogate n = false := by
    simp only [isLowSurrogate, Bool.and_eq_false_iff, decide_eq_false_iff_not]
    omega
  rw [decodeUnits?.eq_def]
  split <;> simp_all

theorem decodeUnits?_units (s : List Char) : decodeUnits? (s.map unitOf) = some s := by
  induction s with
  | nil => rfl
  | cons c s ih =>
    rw [List.map_cons, unitOf]
    split
    · next control =>
      rw [decodeUnits?_code (by omega), ih, Char.ofNat_toNat]
      rfl
    · rw [decodeUnits?, ih]
      rfl

theorem parseString?_quoted (s : String) (rest : List Char) :
    parseString? (s.toList.flatMap escapeChar ++ '"' :: rest) = some (some s, rest) := by
  rw [parseString?, stringUnits?_quoted]
  simp [decodeUnits?_units]

/-- Values that hold texts and whole numbers of at most 64 bits. -/
inductive Plain : Json → Prop where
  | null : Plain null
  | bool : Plain (bool b)
  | int : -(0x8000000000000000 : Int) ≤ n → n ≤ NumberParts.maxSignificand → Plain (int n)
  | text : Plain (text s)
  | array : (∀ item ∈ items, Plain item) → Plain (array items)
  | fields : (∀ f ∈ fs, Plain f.2) → Plain (fields fs)

theorem skipBlank_newline (level : Nat) (cs : List Char) :
    skipBlank (newline level ++ cs) = skipBlank cs := by
  have blank : ∀ c ∈ newline level, isBlank c = true := by
    simp only [newline, List.mem_cons, List.mem_replicate]
    rintro c (rfl | ⟨_, rfl⟩) <;> rfl
  exact List.dropWhile_append_of_pos blank

theorem skipBlank_cons (visible : isBlank c = false) : skipBlank (c :: cs) = c :: cs := by
  simp [skipBlank, visible]

/-- A written value begins with a character that is no blank and closes nothing. -/
theorem prettyAt_head (plain : Plain j) (level : Nat) :
    ∃ c cs, prettyAt level j = c :: cs ∧ isBlank c = false ∧ c ≠ ']' := by
  cases plain with
  | null => exact ⟨_, _, rfl, rfl, by decide⟩
  | @bool b => cases b <;> exact ⟨_, _, rfl, rfl, by decide⟩
  | @int n =>
    have same : prettyAt level (Json.int n) = (Text.int n).toList := rfl
    rw [same]
    rcases int_toList n with ⟨k, _, same⟩ | ⟨k, _, same⟩
    · obtain ⟨c, cs, first, isDigit⟩ := digits_eq_cons k
      have other : c ≠ ' ' ∧ c ≠ '\n' ∧ c ≠ '\t' ∧ c ≠ '\r' ∧ c ≠ ']' := by
        refine ⟨?_, ?_, ?_, ?_, ?_⟩ <;> rintro rfl <;> cases isDigit
      exact ⟨c, cs, same.trans first, by simp [isBlank, other], other.2.2.2.2⟩
    · exact ⟨_, _, same, rfl, by decide⟩
  | text => exact ⟨_, _, rfl, rfl, by decide⟩
  | @array items => cases items <;> exact ⟨_, _, rfl, rfl, by decide⟩
  | @fields fs => cases fs <;> exact ⟨_, _, rfl, rfl, by decide⟩

theorem parseValue?_congr (same : skipBlank cs = skipBlank ds) :
    parseValue? fuel cs = parseValue? fuel ds := by
  cases fuel with
  | zero => simp [parseValue?]
  | succ fuel => rw [parseValue?, parseValue?, same]

theorem parseItems?_newline (fuel level : Nat) (cs : List Char) :
    parseItems? fuel (newline level ++ cs) = parseItems? fuel cs := by
  cases fuel with
  | zero => simp [parseItems?]
  | succ fuel => rw [parseItems?, parseItems?, parseValue?_congr (skipBlank_newline level cs)]

theorem parseFields?_newline (fuel level : Nat) (cs : List Char) :
    parseFields? fuel (newline level ++ cs) = parseFields? fuel cs := by
  cases fuel with
  | zero => simp [parseFields?]
  | succ fuel => rw [parseFields?, parseFields?, skipBlank_newline]

theorem parseValue?_int (fuel : Nat) (n : Int) (stops : Stops rest) :
    parseValue? (fuel + 1) ((Text.int n).toList ++ rest) = some (int n, rest) := by
  have parsed := parseNumber?_int n stops
  have head : ∃ c cs, (Text.int n).toList ++ rest = c :: cs ∧ (c = '-' ∨ c.isDigit = true) := by
    rcases int_toList n with ⟨k, _, same⟩ | ⟨k, _, same⟩
    · obtain ⟨c, cs, first, isDigit⟩ := digits_eq_cons k
      exact ⟨c, cs ++ rest, by rw [same, first, List.cons_append], .inr isDigit⟩
    · exact ⟨_, _, by rw [same, List.cons_append], .inl rfl⟩
  obtain ⟨c, cs, same, first⟩ := head
  have other {d : Char} (noDigit : d.isDigit = false) (noSign : d ≠ '-') : c ≠ d := by
    rintro rfl
    rcases first with rfl | isDigit
    · exact noSign rfl
    · rw [isDigit] at noDigit
      cases noDigit
  have visible : isBlank c = false := by
    simp [isBlank, other (d := ' ') rfl (by decide), other (d := '\n') rfl (by decide),
      other (d := '\t') rfl (by decide), other (d := '\r') rfl (by decide)]
  rw [same] at parsed ⊢
  rw [parseValue?, skipBlank_cons visible]
  split <;> first
    | exact parsed
    | next found => exact absurd (List.cons.inj found).1 (other rfl (by decide))

/-- A value is read back from its text, and what follows it is left. -/
def Parses (j : Json) : Prop :=
  ∀ level fuel rest, (prettyAt level j).length < fuel → Stops rest →
    parseValue? fuel (prettyAt level j ++ rest) = some (j, rest)

theorem Stops.newline (level : Nat) (rest : List Char) : Stops (newline level ++ rest) :=
  .cons rfl (by decide)

theorem Stops.prettyItems (level : Nat) (items : List Json) (stops : Stops rest) :
    Stops (prettyItems level items ++ rest) := by
  cases items with
  | nil => exact stops
  | cons item items => exact .cons rfl (by decide)

theorem parseItems?_pretty {item : Json} {items : List Json}
    (each : ∀ j ∈ item :: items, Parses j) (level outer : Nat) (rest : List Char) {fuel : Nat}
    (enough : (prettyAt level item).length + (prettyItems level items).length + 1 < fuel) :
    parseItems? fuel (prettyAt level item ++ (prettyItems level items ++ (newline outer ++ ']' :: rest))) =
      some (item :: items, rest) := by
  induction items generalizing item fuel with
  | nil =>
    obtain ⟨fuel, rfl⟩ : ∃ k, fuel = k + 1 := ⟨fuel - 1, by omega⟩
    have first := each item List.mem_cons_self level fuel _ (by omega) (.newline outer (']' :: rest))
    rw [prettyItems, List.nil_append, parseItems?, first]
    simp [skipBlank_newline, skipBlank_cons (c := ']') rfl]
  | cons next items ih =>
    obtain ⟨fuel, rfl⟩ : ∃ k, fuel = k + 1 := ⟨fuel - 1, by omega⟩
    obtain ⟨here, others⟩ := List.forall_mem_cons.mp each
    have length : (prettyItems level (next :: items)).length =
        1 + (newline level).length + (prettyAt level next).length + (prettyItems level items).length := by
      simp [prettyItems]
      omega
    have first := here level fuel _ (by omega)
      (.prettyItems level (next :: items) (.newline outer (']' :: rest)))
    have second : parseItems? fuel (newline level ++ (prettyAt level next ++
        (prettyItems level items ++ (newline outer ++ ']' :: rest)))) = some (next :: items, rest) := by
      rw [parseItems?_newline]
      exact ih others (by omega)
    rw [parseItems?, first]
    simp [prettyItems, skipBlank_cons (c := ',') rfl, second]

theorem prettyField_eq (level : Nat) (key : String) (value : Json) (cs : List Char) :
    prettyField level (some key, value) ++ cs = '"' :: (key.toList.flatMap escapeChar ++
      '"' :: (':' :: ' ' :: (prettyAt level value ++ cs))) := by
  simp [prettyField, quoteText, quote]

/-- A field whose value is read back, and what comes after it. -/
theorem parseFields?_field {fuel level : Nat} {key : String} {value : Json} {cs : List Char}
    (parsed : parseValue? fuel (prettyAt level value ++ cs) = some (value, cs)) :
    parseFields? (fuel + 1) (prettyField level (some key, value) ++ cs) = match skipBlank cs with
      | '}' :: rest => some ([(some key, value)], rest)
      | ',' :: rest => do
        let (fs, rest) ← parseFields? fuel rest
        return ((some key, value) :: fs, rest)
      | _ => none := by
  have blank : parseValue? fuel (' ' :: (prettyAt level value ++ cs)) = some (value, cs) :=
    (parseValue?_congr (by simp [skipBlank, isBlank])).trans parsed
  rw [prettyField_eq, parseFields?, skipBlank_cons rfl]
  simp only [parseString?_quoted, Option.bind_eq_bind, Option.bind_some]
  rw [skipBlank_cons rfl]
  simp only [blank, Option.bind_some]
  rfl

/-- The fields of an object are read back, if their values are. -/
theorem parseFields?_pretty {f : String × Json} {fs : List (String × Json)}
    (each : ∀ g ∈ f :: fs, Parses g.2) (level outer : Nat) (rest : List Char) {fuel : Nat}
    (enough : (prettyField level (some f.1, f.2)).length +
      (prettyFields level (fs.map fun g => (some g.1, g.2))).length + 1 < fuel) :
    parseFields? fuel (prettyField level (some f.1, f.2) ++
        (prettyFields level (fs.map fun g => (some g.1, g.2)) ++ (newline outer ++ '}' :: rest))) =
      some ((f :: fs).map fun g => (some g.1, g.2), rest) := by
  have shorter (f : String × Json) :
      (prettyAt level f.2).length ≤ (prettyField level (some f.1, f.2)).length := by
    simp only [prettyField, List.length_append]
    omega
  induction fs generalizing f fuel with
  | nil =>
    obtain ⟨fuel, rfl⟩ : ∃ k, fuel = k + 1 := ⟨fuel - 1, by omega⟩
    have less := shorter f
    have first := each f List.mem_cons_self level fuel _ (by omega) (.newline outer ('}' :: rest))
    rw [List.map_nil, prettyFields, List.nil_append, parseFields?_field first, skipBlank_newline,
      skipBlank_cons rfl]
    rfl
  | cons g fs ih =>
    obtain ⟨fuel, rfl⟩ : ∃ k, fuel = k + 1 := ⟨fuel - 1, by omega⟩
    obtain ⟨here, others⟩ := List.forall_mem_cons.mp each
    have less := shorter f
    have text : prettyFields level ((g :: fs).map fun g => (some g.1, g.2)) =
        ',' :: (newline level ++ (prettyField level (some g.1, g.2) ++
          prettyFields level (fs.map fun g => (some g.1, g.2)))) := by
      simp [prettyFields]
    rw [text] at enough ⊢
    simp only [List.length_cons, List.length_append] at enough
    simp only [List.cons_append, List.append_assoc]
    have first (cs : List Char) := here level fuel (',' :: cs) (by omega) (.cons rfl (by decide))
    have second : parseFields? fuel _ = _ := ih others (by omega)
    rw [parseFields?_field (first _), skipBlank_cons rfl]
    simp [parseFields?_newline, second]

theorem parseValue?_array (first : skipBlank cs = c :: ds) (notClosed : c ≠ ']') :
    parseValue? (fuel + 1) ('[' :: cs) = (parseItems? fuel (c :: ds)).map fun p => (array p.1, p.2) := by
  rw [parseValue?, skipBlank_cons rfl]
  simp [first, notClosed]

theorem parseValue?_object (first : skipBlank cs = '"' :: ds) :
    parseValue? (fuel + 1) ('{' :: cs) =
      (parseFields? fuel ('"' :: ds)).map fun p => (object p.1, p.2) := by
  rw [parseValue?, skipBlank_cons rfl]
  simp [first]

theorem parses_of_plain (plain : Plain j) : Parses j := by
  induction plain with
  | null =>
    rintro level (_ | fuel) rest enough stops
    · cases enough
    · simp [prettyAt, parseValue?, skipBlank_cons (c := 'n') rfl]
  | @bool b =>
    rintro level (_ | fuel) rest enough stops
    · cases enough
    · cases b <;> simp [prettyAt, parseValue?, skipBlank_cons (c := 't') rfl, skipBlank_cons (c := 'f') rfl]
  | @int n =>
    rintro level (_ | fuel) rest enough stops
    · cases enough
    · exact parseValue?_int fuel n stops
  | @text s =>
    rintro level (_ | fuel) rest enough stops
    · cases enough
    · have quoted : prettyAt level (Json.text s) ++ rest =
          '"' :: (s.toList.flatMap escapeChar ++ '"' :: rest) := by
        simp [Json.text, prettyAt, quoteText, quote]
      rw [quoted, parseValue?, skipBlank_cons rfl]
      simp [parseString?_quoted, Json.text]
  | @array items plains each =>
    rintro level (_ | fuel) rest enough stops
    · cases enough
    · cases items with
      | nil => simp [prettyAt, parseValue?, skipBlank_cons (c := '[') rfl, skipBlank_cons (c := ']') rfl]
      | cons item items =>
        have text : prettyAt level (.array (item :: items)) ++ rest =
            '[' :: (newline (level + 1) ++ (prettyAt (level + 1) item ++ (prettyItems (level + 1) items ++
              (newline level ++ ']' :: rest)))) := by
          simp [prettyAt]
        obtain ⟨c, cs, same, visible, notClosed⟩ :=
          prettyAt_head (plains item List.mem_cons_self) (level + 1)
        simp only [prettyAt, newline, List.length_cons, List.length_append, List.length_nil] at enough
        have inside : parseItems? fuel _ = _ := parseItems?_pretty each (level + 1) level rest (by omega)
        have first : skipBlank (newline (level + 1) ++ (prettyAt (level + 1) item ++
            (prettyItems (level + 1) items ++ (newline level ++ ']' :: rest)))) =
            c :: (cs ++ (prettyItems (level + 1) items ++ (newline level ++ ']' :: rest))) := by
          rw [skipBlank_newline, same, List.cons_append, skipBlank_cons visible]
        rw [text, parseValue?_array first notClosed, ← List.cons_append, ← same, inside]
        rfl
  | @fields fs plains each =>
    rintro level (_ | fuel) rest enough stops
    · cases enough
    · cases fs with
      | nil =>
        simp [Json.fields, prettyAt, parseValue?, skipBlank_cons (c := '{') rfl,
          skipBlank_cons (c := '}') rfl]
      | cons f fs =>
        have text : prettyAt level (Json.fields (f :: fs)) ++ rest =
            '{' :: (newline (level + 1) ++ (prettyField (level + 1) (some f.1, f.2) ++
              (prettyFields (level + 1) (fs.map fun g => (some g.1, g.2)) ++
                (newline level ++ '}' :: rest)))) := by
          simp [Json.fields, prettyAt]
        simp only [Json.fields, List.map_cons, prettyAt, newline, List.length_cons, List.length_append,
          List.length_nil] at enough
        have inside : parseFields? fuel _ = _ := parseFields?_pretty each (level + 1) level rest (by omega)
        have first (cs : List Char) : skipBlank (newline (level + 1) ++
            (prettyField (level + 1) (some f.1, f.2) ++ cs)) =
              prettyField (level + 1) (some f.1, f.2) ++ cs := by
          rw [skipBlank_newline, prettyField_eq, skipBlank_cons rfl]
        rw [text, parseValue?_object ((first _).trans (prettyField_eq ..)), ← prettyField_eq, inside]
        rfl

theorem parse?_pretty (plain : Plain j) : parse? j.pretty = some j := by
  have parsed := parses_of_plain plain 0 (parseFuel (prettyAt 0 j)) []
    (by simp only [parseFuel]; omega) .nil
  rw [List.append_nil] at parsed
  rw [parse?, pretty, String.toList_ofList, parsed]
  rfl

end AgentScript.Json
