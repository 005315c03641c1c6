import AgentScript.Code.Instr
import Mathlib.Data.String.Basic

/-! Texts without line breaks. Numbers and literals are such texts, whatever they denote: a break in a
string is written as an escape. -/
namespace AgentScript

def Text.OneLine (s : String) : Prop := '\n' ∉ s.toList

instance (s : String) : Decidable (Text.OneLine s) := inferInstanceAs (Decidable (_ ∉ _))

namespace Text.OneLine

@[simp] theorem append_iff : OneLine (a ++ b) ↔ OneLine a ∧ OneLine b := by
  simp [OneLine]

theorem ofList (each : '\n' ∉ cs) : OneLine (String.ofList cs) := by
  simpa [OneLine] using each

@[simp] theorem nat (n : Nat) : OneLine (Text.nat n) := by
  intro member
  rw [Text.nat, Nat.repr_eq_ofList_toDigits, String.toList_ofList] at member
  exact absurd (Nat.isDigit_of_mem_toDigits (by decide) (by decide) member) (by decide)

theorem int (n : Int) : OneLine (Text.int n) := by
  cases n with
  | ofNat n => exact nat n
  | negSucc n => exact append_iff.mpr ⟨by decide, nat (n + 1)⟩

theorem twoDigits (n : Nat) : OneLine (Text.twoDigits n) := by
  unfold Text.twoDigits
  split
  · exact append_iff.mpr ⟨by decide, nat n⟩
  · exact nat n

theorem words (each : ∀ s ∈ parts, OneLine s) : OneLine (Text.words parts) := by
  induction parts with
  | nil => decide
  | cons first rest ih =>
    obtain ⟨here, others⟩ := List.forall_mem_cons.mp each
    cases rest with
    | nil => simpa [Text.words] using here
    | cons second more =>
      have joined : Text.words (first :: second :: more) = first ++ " " ++ Text.words (second :: more) := by
        simp [Text.words, String.intercalate_cons_cons]
      rw [joined]
      exact append_iff.mpr ⟨append_iff.mpr ⟨here, by decide⟩, ih others⟩

end Text.OneLine

open Text

theorem Single.positional_oneLine (s : Decimal.Scaled) : OneLine (positional s) := by
  have digits := OneLine.nat s.digits
  have zeros (n : Nat) : OneLine (zeros n) := .ofList fun member => by
    simpa using List.eq_of_mem_replicate member
  unfold positional
  dsimp only
  split
  · simp [digits, zeros]
  · split
    · simp [digits, zeros]
      decide
    · have part {cs : List Char} (sub : cs ⊆ (Text.nat s.digits).toList) : OneLine (String.ofList cs) :=
        .ofList fun member => digits (sub member)
      have point : OneLine "." := by decide
      simp [part (List.take_subset _ _), part (List.drop_subset _ _), point]

theorem Single.scriptText_oneLine (v : Float32) : OneLine (scriptText v) := by
  have sign (negative : Bool) : OneLine (sign negative) := by cases negative <;> decide
  unfold scriptText
  split
  · decide
  · exact OneLine.append_iff.mpr ⟨sign _, by decide⟩
  · exact OneLine.append_iff.mpr ⟨sign _, by decide⟩
  · refine OneLine.append_iff.mpr ⟨sign _, ?_⟩
    split
    · exact OneLine.append_iff.mpr ⟨.nat _, by decide⟩
    · exact positional_oneLine _

theorem Quoted.text_oneLine (s : String) : OneLine (text s) := by
  have escaped (c : Char) : '\n' ∉ escape c := by
    unfold escape
    split <;> simp_all
    rintro rfl
    contradiction
  refine .ofList ?_
  simp [encode, escaped]

theorem Value.literal_oneLine (v : Value) : OneLine v.literal := by
  cases v with
  | int n => exact .int _
  | float x => exact Single.scriptText_oneLine x
  | str s => exact Quoted.text_oneLine s
  | bytes bs =>
    have listed : OneLine (Text.words (bs.map fun b => Text.nat b.toNat)) :=
      .words (by simp)
    simp [literal, bytesText, listed]
    decide

theorem Arg.register_oneLine (slot : Nat) : OneLine (Arg.register slot).text :=
  OneLine.append_iff.mpr ⟨by decide, .twoDigits slot⟩

end AgentScript
