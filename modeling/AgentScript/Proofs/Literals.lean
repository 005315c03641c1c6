import AgentScript.Proofs.Json.Values
import AgentScript.Proofs.Layout.OneLine

/-! Literals tell what they denote. Quoted text can be read back from whatever line it stands in, and no two
integers, strings and byte strings are written alike. -/
namespace AgentScript

namespace Quoted

/-- The character that a backslash and another character stand for. -/
def unescape : Char → Char
  | 'r' => '\r'
  | 'n' => '\n'
  | 't' => '\t'
  | '0' => '\x00'
  | c => c

/-- Reads up to the closing quote, and what follows it. -/
def scan? : List Char → Option (List Char × List Char)
  | [] => none
  | '"' :: rest => some ([], rest)
  | '\\' :: c :: rest => (scan? rest).map fun (s, rest) => (unescape c :: s, rest)
  | c :: rest => (scan? rest).map fun (s, rest) => (c :: s, rest)

/-- The string that a literal denotes. -/
def decode? (text : String) : Option String :=
  match text.toList with
  | '"' :: cs => match scan? cs with
    | some (s, []) => some (String.ofList s)
    | _ => none
  | _ => none

theorem scan?_encode (s rest : List Char) : scan? (encode s ++ '"' :: rest) = some (s, rest) := by
  induction s with
  | nil => rfl
  | cons c s ih =>
    change scan? (escape c ++ encode s ++ '"' :: rest) = _
    unfold escape
    split <;> simp_all [scan?, unescape]

theorem decode?_text (s : String) : decode? (text s) = some s := by
  simp [decode?, text, scan?_encode]

theorem escape_plain (c : Char) : ∀ d ∈ escape c, d ∉ ['\n', '\r', '\t', '\x00'] := by
  unfold escape
  split <;> simp_all

theorem encode_plain {s : List Char} (member : d ∈ encode s) : d ∉ ['\n', '\r', '\t', '\x00'] := by
  obtain ⟨c, _, isEscape⟩ := List.mem_flatMap.mp member
  exact escape_plain c d isEscape

/-- How many backslashes a text ends with. -/
def backslashes (cs : List Char) : Nat := (cs.reverse.takeWhile (· == '\\')).length

theorem backslashes_escape (c : Char) (cs : List Char) :
    backslashes (escape c ++ cs) % 2 = backslashes cs % 2 := by
  have even : backslashes (escape c) % 2 = 0 := by
    unfold escape
    split <;> simp_all [backslashes]
  unfold backslashes at even ⊢
  rw [List.reverse_append, List.takeWhile_append]
  split
  · next all => rw [all, List.length_append]; omega
  · rfl

theorem escape_quote {before after : List Char} (isEscape : escape c = before ++ '"' :: after) :
    before = ['\\'] := by
  unfold escape at isEscape
  split at isEscape <;> simp_all [List.cons_eq_append_iff]
  exact absurd isEscape.2.1.symm (by assumption)

theorem backslashes_of_quote {s before after : List Char} (quote : encode s = before ++ '"' :: after) :
    backslashes before % 2 = 1 := by
  induction s generalizing before with
  | nil => simp [encode] at quote
  | cons c s ih =>
    change escape c ++ encode s = _ at quote
    rcases List.append_eq_append_iff.mp quote with ⟨more, rfl, rest⟩ | ⟨more, isEscape, rest⟩
    · rw [backslashes_escape]
      exact ih rest
    · cases more with
      | nil =>
        rw [List.append_nil] at isEscape
        rw [← isEscape, ← List.append_nil (escape c), backslashes_escape]
        exact ih rest.symm
      | cons d more =>
        cases rest
        rw [escape_quote isEscape]
        rfl

end Quoted

namespace Value

theorem int_injective (same : Text.int n = Text.int m) : n = m := by
  have read := Json.numberParts_int n
  rw [same, Json.numberParts_int] at read
  cases read; rfl

theorem mem_int (member : c ∈ (Text.int n).toList) : c.isDigit = true ∨ c = '-' := by
  rcases Json.int_toList n with ⟨k, _, same⟩ | ⟨k, _, same⟩ <;> rw [same] at member
  · exact .inl (Json.isDigit_of_mem member)
  · rcases List.mem_cons.mp member with sign | digit
    · exact .inr sign
    · exact .inl (Json.isDigit_of_mem digit)

theorem bytesText_injective {bs cs : List UInt8} (same : bytesText bs = bytesText cs) : bs = cs := by
  let digits (b : UInt8) : List Char := Nat.toDigits 10 b.toNat
  have parted (bs : List UInt8) :
      List.splitOn ' ' ([' '].intercalate (bs.map digits)) = if bs = [] then [[]] else bs.map digits := by
    split
    · next none => simp [none]
    · next some =>
      refine List.splitOn_intercalate _ (fun l member blank => ?_) (by simpa using some)
      obtain ⟨b, _, rfl⟩ := List.mem_map.mp member
      exact absurd (Nat.isDigit_of_mem_toDigits (by decide) (by decide) blank) (by decide)
  have lists : [' '].intercalate (bs.map digits) = [' '].intercalate (cs.map digits) := by
    simpa [bytesText, Text.words, String.toList_intercalate, Text.nat, Nat.repr_eq_ofList_toDigits,
      Function.comp_def] using congrArg String.toList same
  have parts := congrArg (List.splitOn ' ') lists
  rw [parted, parted] at parts
  have filled (bs : List UInt8) : bs.map digits ≠ [[]] := by
    simp [digits, List.map_eq_singleton_iff, Nat.toDigits_ne_nil]
  have distinct : Function.Injective digits := by
    intro b c alike
    have value := congrArg (Nat.ofDigitChars 10 · 0) alike
    simpa [digits, Nat.ofDigitChars_ten_toDigits, UInt8.toNat_inj] using value
  split at parts <;> split at parts
  · next none none' => rw [none, none']
  · exact absurd parts.symm (filled cs)
  · exact absurd parts (filled bs)
  · exact List.map_injective_iff.mpr distinct parts

/-- Integers, strings and byte strings; different floats may have one text. -/
def isExact : Value → Bool
  | float _ => false
  | _ => true

theorem literal_injective {v w : Value} (exact : v.isExact = true) (exact' : w.isExact = true)
    (same : v.literal = w.literal) : v = w := by
  have numeral {n : Int} {t : String} {c : Char} (whole : Text.int n = t) (member : c ∈ t.toList)
      (other : (c.isDigit || c == '-') = false) : False := by
    have := mem_int (whole ▸ member)
    simp_all
  have strText (s : String) : '"' ∈ (Quoted.text s).toList := by simp [Quoted.text]
  have bytesText (bs : List UInt8) : '[' ∈ (bytesText bs).toList := by simp [Value.bytesText]
  cases v with
  | float => cases exact
  | int n => cases w with
    | float => cases exact'
    | int m => 
      rw [Int32.toInt_inj.mp (int_injective same)]
    | str s => exact (numeral same (strText s) rfl).elim
    | bytes bs => exact (numeral same (bytesText bs) rfl).elim
  | str s => cases w with
    | float => cases exact'
    | int m => exact (numeral same.symm (strText s) rfl).elim
    | str s' =>
      have decoded := Quoted.decode?_text s
      rw [show Quoted.text s = Quoted.text s' from same, Quoted.decode?_text] at decoded
      cases decoded; rfl
    | bytes bs => simp [literal, Quoted.text, Value.bytesText, ← String.toList_inj] at same
  | bytes bs => cases w with
    | float => cases exact'
    | int m => exact (numeral same.symm (bytesText bs) rfl).elim
    | str s => simp [literal, Quoted.text, Value.bytesText, ← String.toList_inj] at same
    | bytes cs => rw [bytesText_injective same]

/-- Literals are unambiguous. A string can be read back from its literal; between its quotes there is no
line feed, carriage return, tab or NUL, and each quote has an odd number of backslashes in front of it.
Integers, strings and byte strings that are different have different literals. -/
theorem literals_unambiguous :
    (∀ s, Quoted.decode? (Quoted.text s) = some s) ∧
    (∀ s, ∃ inside, (Quoted.text s).toList = '"' :: inside ++ ['"'] ∧
      (∀ c ∈ inside, c ∉ ['\n', '\r', '\t', '\x00']) ∧
      ∀ before after, inside = before ++ '"' :: after → Quoted.backslashes before % 2 = 1) ∧
    ∀ v w : Value, v.isExact = true → w.isExact = true → v.literal = w.literal → v = w := by
  refine ⟨Quoted.decode?_text, fun s => ⟨Quoted.encode s.toList, ?_, ?_, ?_⟩, fun v w => literal_injective⟩
  · simp [Quoted.text]
  · exact fun c => Quoted.encode_plain
  · exact fun before after => Quoted.backslashes_of_quote

theorem literals_unambiguous_numeral :
    Quoted.decode? (Quoted.text "\"-1\"") = some "\"-1\"" ∧ (str "-1").literal ≠ (int (-1)).literal :=
  ⟨literals_unambiguous.1 _, fun same => nomatch literals_unambiguous.2.2 _ _ rfl rfl same⟩

end Value

end AgentScript
