import Amm.Text.Decimal
import Mathlib.Data.List.DropRight
import Mathlib.Data.Nat.Digits.Defs
import Mathlib.Tactic.Ring

/-!
The grammar of amounts, apart from their reader. An amount is a decimal numeral, or a hexadecimal one
after 0x, with at most one sign before its digits and white space around it all. The reader takes what
the grammar spells and nothing else, and what is written for an integer spells that integer.
-/

namespace Amm
namespace Text

/-- A digit of a radix up to sixteen, and its value. Letters are of either case. -/
def IsDigit (radix : Nat) (c : Char) (value : Nat) : Prop :=
  value < radix ∧ (c = value.digitChar ∨ c = value.digitChar.toUpper)

/-- Digits with underscores among them, and the values of the digits. -/
inductive Digits (radix : Nat) : List Char → List Nat → Prop
  | done : Digits radix [] []
  | digit {c : Char} {value : Nat} {rest : List Char} {values : List Nat}
      (first : IsDigit radix c value) (others : Digits radix rest values) :
      Digits radix (c :: rest) (value :: values)
  | gap {rest : List Char} {values : List Nat} (others : Digits radix rest values) :
      Digits radix ('_' :: rest) values

/-- A digit, then digits and underscores. The digits count by their places. -/
inductive Numeral (radix : Nat) : List Char → Nat → Prop
  | digits {c : Char} {value : Nat} {rest : List Char} {values : List Nat}
      (first : IsDigit radix c value) (others : Digits radix rest values) :
      Numeral radix (c :: rest) (Nat.ofDigits radix (value :: values).reverse)

/-- A numeral with one sign or none. -/
inductive Signed (radix : Nat) : List Char → Int → Prop
  | plain {text : List Char} {value : Nat} (numeral : Numeral radix text value) :
      Signed radix text value
  | plus {text : List Char} {value : Nat} (numeral : Numeral radix text value) :
      Signed radix ('+' :: text) value
  | minus {text : List Char} {value : Nat} (numeral : Numeral radix text value) :
      Signed radix ('-' :: text) (-value)

/-- An amount without white space around it. The sign of a hexadecimal one follows the prefix. -/
inductive Spells : List Char → Int → Prop
  | decimal {text : List Char} {value : Int} (number : Signed 10 text value) : Spells text value
  | hexadecimal {text : List Char} {value : Int} (number : Signed 16 text value) :
      Spells ('0' :: 'x' :: text) value

section
variable {radix value : Nat} {c : Char} {text : List Char} (small : radix ≤ 16)
include small

/-- What holds of the digits one by one. -/
theorem IsDigit.holds (Holds : Char → Prop)
    (each : ∀ value < 16, Holds value.digitChar ∧ Holds value.digitChar.toUpper)
    (digit : IsDigit radix c value) : Holds c := by
  obtain ⟨below, lower | upper⟩ := digit
  · rw [lower]
    exact (each value (by omega)).1
  · rw [upper]
    exact (each value (by omega)).2

theorem digit?_eq_some_iff : digit? radix c = some value ↔ IsDigit radix c value := by
  have read : ∀ value < 16, digitValue? value.digitChar = some value ∧
      digitValue? value.digitChar.toUpper = some value := by decide
  have place : ∀ value < 16, (value < 10 → value.digitChar.toNat = value + 48) ∧
      (10 ≤ value → value.digitChar.toNat = value + 87 ∧
        value.digitChar.toUpper.toNat = value + 55) := by decide
  rw [digit?, Option.filter_eq_some_iff, decide_eq_true_eq, and_comm]
  refine and_congr_right fun below => ⟨fun found => ?_, ?_⟩
  · obtain ⟨decimal, letter⟩ := place value (by omega)
    simp only [digitValue?, Char.le_def, UInt32.le_iff_toNat_le] at found
    change (if 48 ≤ c.toNat ∧ c.toNat ≤ 57 then some (c.toNat - 48)
      else if 97 ≤ c.toNat ∧ c.toNat ≤ 122 then some (c.toNat - 87)
      else if 65 ≤ c.toNat ∧ c.toNat ≤ 90 then some (c.toNat - 55) else none) = some value at found
    simp only [← Char.toNat_inj]
    split_ifs at found with numeric lower upper
    · obtain rfl := Option.some.inj found
      exact .inl (by omega)
    · obtain rfl := Option.some.inj found
      exact .inl (by omega)
    · obtain rfl := Option.some.inj found
      exact .inr (by omega)
  · rintro (rfl | rfl)
    · exact (read value (by omega)).1
    · exact (read value (by omega)).2

theorem IsDigit.ne_underscore (digit : IsDigit radix c value) : c ≠ '_' :=
  digit.holds small (· ≠ '_') (by decide)

omit small in
/-- A digit that follows others moves them up by one place. -/
theorem ofDigits_append_digit (start digit : Nat) (values : List Nat) :
    Nat.ofDigits radix ((start * radix + digit) :: values).reverse =
      Nat.ofDigits radix (start :: digit :: values).reverse := by
  rw [Nat.ofDigits_reverse_cons, Nat.ofDigits_reverse_cons, Nat.ofDigits_reverse_cons,
    List.length_cons, pow_succ]
  ring

theorem continueNumeral?_eq_some_iff {start : Nat} : continueNumeral? radix start text = some value ↔
    ∃ values, Digits radix text values ∧ Nat.ofDigits radix (start :: values).reverse = value := by
  induction text generalizing start with
  | nil =>
      rw [continueNumeral?, Option.some.injEq]
      constructor
      · intro same
        exact ⟨[], .done, by simpa using same⟩
      · rintro ⟨values, read, same⟩
        cases read
        simpa using same
  | cons c rest ih =>
      rw [continueNumeral?]
      by_cases gap : c = '_'
      · subst gap
        rw [if_pos rfl, ih]
        constructor
        · rintro ⟨values, read, same⟩
          exact ⟨values, .gap read, same⟩
        · rintro ⟨values, read, same⟩
          cases read with
          | digit first others => exact absurd rfl (first.ne_underscore small)
          | gap others => exact ⟨values, others, same⟩
      · rw [if_neg gap]
        constructor
        · intro found
          split at found
          · rename_i digit digitRead
            obtain ⟨values, read, same⟩ := ih.mp found
            refine ⟨digit :: values, .digit ((digit?_eq_some_iff small).mp digitRead) read, ?_⟩
            rw [← ofDigits_append_digit, same]
          · simp at found
        · rintro ⟨values, read, same⟩
          cases read with
          | gap others => exact absurd rfl gap
          | digit first others =>
              rw [(digit?_eq_some_iff small).mpr first]
              refine ih.mpr ⟨_, others, ?_⟩
              rw [ofDigits_append_digit, same]

theorem natural?_eq_some_iff : natural? radix text = some value ↔ Numeral radix text value := by
  cases text with
  | nil =>
      refine iff_of_false (by simp [natural?]) ?_
      rintro ⟨⟩
  | cons c rest =>
      simp only [natural?, Option.bind_eq_some_iff, digit?_eq_some_iff small,
        continueNumeral?_eq_some_iff small]
      constructor
      · rintro ⟨digit, first, values, others, rfl⟩
        exact .digits first others
      · rintro ⟨first, others⟩
        exact ⟨_, first, _, others, rfl⟩

theorem natural?_cast_eq_some_iff {value : Int} :
    (natural? radix text >>= fun found => pure (found : Int)) = some value ↔
      ∃ found : Nat, Numeral radix text found ∧ found = value := by
  simp only [Option.bind_eq_bind, Option.pure_def, Option.bind_eq_some_iff, Option.some.injEq,
    natural?_eq_some_iff small]

theorem integer?_eq_some_iff {value : Int} :
    integer? radix text = some value ↔ Signed radix text value := by
  have unsigned {c : Char} {digit : Nat} (first : IsDigit radix c digit) : c ≠ '-' ∧ c ≠ '+' :=
    first.holds small (fun c => c ≠ '-' ∧ c ≠ '+') (by decide)
  cases text with
  | nil =>
      refine iff_of_false (by simp [integer?]) ?_
      rintro ⟨⟨⟩⟩
  | cons c rest =>
      by_cases negative : c = '-'
      · subst negative
        simp only [integer?, if_true, Option.map_eq_some_iff, natural?_cast_eq_some_iff small]
        constructor
        · rintro ⟨_, ⟨value, numeral, rfl⟩, rfl⟩
          exact .minus numeral
        · intro signed
          cases signed with
          | plain numeral =>
              obtain ⟨first, -⟩ := numeral
              exact absurd rfl (unsigned first).1
          | minus numeral => exact ⟨_, ⟨_, numeral, rfl⟩, rfl⟩
      by_cases positive : c = '+'
      · subst positive
        simp only [integer?, if_neg negative, if_true, Option.map_eq_some_iff,
          natural?_cast_eq_some_iff small]
        constructor
        · rintro ⟨_, ⟨value, numeral, rfl⟩, rfl⟩
          exact .plus numeral
        · intro signed
          cases signed with
          | plain numeral =>
              obtain ⟨first, -⟩ := numeral
              exact absurd rfl (unsigned first).2
          | plus numeral => exact ⟨_, ⟨_, numeral, rfl⟩, rfl⟩
      · simp only [integer?, if_neg negative, if_neg positive, Option.map_eq_some_iff,
          natural?_cast_eq_some_iff small]
        constructor
        · rintro ⟨_, ⟨value, numeral, rfl⟩, rfl⟩
          exact .plain numeral
        · intro signed
          cases signed with
          | plain numeral => exact ⟨_, ⟨_, numeral, rfl⟩, rfl⟩
          | plus numeral => exact absurd rfl positive
          | minus numeral => exact absurd rfl negative

end

theorem amountDigits?_eq_some_iff {text : List Char} {value : Int} :
    amountDigits? text = some value ↔ Spells text value := by
  unfold amountDigits?
  split
  · rename_i rest
    rw [integer?_eq_some_iff (by decide)]
    constructor
    · exact .hexadecimal
    · rintro (number | number)
      -- The letter of the prefix is no digit.
      · cases number with
        | plain numeral =>
            obtain ⟨-, others⟩ := numeral
            cases others with
            | digit letter others =>
                exact absurd rfl (letter.holds (by decide) (· ≠ 'x') (by decide))
      · exact number
  · rename_i text other
    rw [integer?_eq_some_iff (by decide)]
    constructor
    · exact .decimal
    · rintro (number | number)
      · exact number
      · exact absurd rfl (other _)

section
variable {radix : Nat} {text : List Char} (small : radix ≤ 16)
include small

theorem Digits.visible {values : List Nat} (read : Digits radix text values) :
    ∀ c ∈ text, isBlank c = false := by
  induction read with
  | done => exact List.forall_mem_nil _
  | digit first _ ih =>
      exact List.forall_mem_cons.mpr ⟨first.holds small (isBlank · = false) (by decide), ih⟩
  | gap _ ih => exact List.forall_mem_cons.mpr ⟨by decide, ih⟩

theorem Numeral.visible {value : Nat} (numeral : Numeral radix text value) :
    ∀ c ∈ text, isBlank c = false := by
  obtain ⟨first, others⟩ := numeral
  exact (Digits.digit first others).visible small

theorem Signed.visible {value : Int} (number : Signed radix text value) :
    ∀ c ∈ text, isBlank c = false := by
  cases number with
  | plain numeral => exact numeral.visible small
  | plus numeral => exact List.forall_mem_cons.mpr ⟨by decide, numeral.visible small⟩
  | minus numeral => exact List.forall_mem_cons.mpr ⟨by decide, numeral.visible small⟩

end

theorem Signed.ne_nil {radix : Nat} {text : List Char} {value : Int}
    (number : Signed radix text value) : text ≠ [] := by
  rintro rfl
  obtain ⟨⟨⟩⟩ := number

section
variable {text : List Char} {value : Int} (spelled : Spells text value)
include spelled

theorem Spells.ne_nil : text ≠ [] := by
  cases spelled with
  | decimal number => exact number.ne_nil
  | hexadecimal number => exact List.cons_ne_nil _ _

theorem Spells.visible : ∀ c ∈ text, isBlank c = false := by
  cases spelled with
  | decimal number => exact number.visible (by decide)
  | hexadecimal number =>
      exact List.forall_mem_cons.mpr
        ⟨by decide, List.forall_mem_cons.mpr ⟨by decide, number.visible (by decide)⟩⟩

end

/-- A text with white space before it and after it, or with none. -/
def Padded (inner outer : List Char) : Prop :=
  ∃ before after, outer = before ++ inner ++ after ∧ ∀ c ∈ before ++ after, isBlank c = true

theorem padded_trim (text : List Char) : Padded (trim text) text := by
  refine ⟨text.takeWhile isBlank, (text.dropWhile isBlank).rtakeWhile isBlank, ?_, ?_⟩
  · rw [List.append_assoc, trim, ← List.rdropWhile, List.rdropWhile_append_rtakeWhile,
      List.takeWhile_append_dropWhile]
  · intro c member
    rcases List.mem_append.mp member with before | after
    · exact List.mem_takeWhile_imp before
    · exact List.mem_rtakeWhile_imp after

/-- What is dropped from the front of a text ends where the text is visible. -/
theorem dropWhile_isBlank {before rest : List Char} (blank : ∀ c ∈ before, isBlank c = true)
    (visible : ∀ c ∈ rest.head?, isBlank c = false) :
    (before ++ rest).dropWhile isBlank = rest := by
  rw [List.dropWhile_append_of_pos blank]
  cases rest with
  | nil => rfl
  | cons c rest =>
      have shown : isBlank c = false := visible c rfl
      rw [List.dropWhile_cons_of_neg (by simp [shown])]

theorem trim_of_padded {inner outer : List Char} (padded : Padded inner outer) (some : inner ≠ [])
    (visible : ∀ c ∈ inner, isBlank c = false) : trim outer = inner := by
  obtain ⟨before, after, rfl, blank⟩ := padded
  obtain ⟨first, last⟩ := List.forall_mem_append.mp blank
  have front : (before ++ (inner ++ after)).dropWhile isBlank = inner ++ after := by
    refine dropWhile_isBlank first fun c member => visible c ?_
    rw [List.head?_append_of_ne_nil _ some] at member
    exact List.mem_of_head? member
  have back : (after.reverse ++ inner.reverse).dropWhile isBlank = inner.reverse := by
    refine dropWhile_isBlank (fun c member => last c (List.mem_reverse.mp member))
      fun c member => visible c ?_
    exact List.mem_reverse.mp (List.mem_of_head? member)
  rw [trim, List.append_assoc, front, List.reverse_append, back, List.reverse_reverse]

theorem readAmount_eq_ok_iff {text : String} {value : Int} :
    readAmount text = .ok value ↔ Spells (trim text.toList) value := by
  rw [← amountDigits?_eq_some_iff]
  unfold readAmount
  dsimp only
  split
  · rename_i empty
    rw [List.isEmpty_iff] at empty
    rw [empty]
    exact iff_of_false (by simp) (by simp [amountDigits?, integer?])
  · split <;> simp_all

/-- White space does not change what a text is read as. -/
theorem readAmount_of_padded {text : String} {spelled : List Char} {value : Int}
    (padded : Padded spelled text.toList) (spells : Spells spelled value) :
    readAmount text = .ok value := by
  rw [readAmount_eq_ok_iff, trim_of_padded padded spells.ne_nil spells.visible]
  exact spells

theorem Digits.append_digit {radix digit : Nat} {text : List Char} {values : List Nat} {c : Char}
    (read : Digits radix text values) (last : IsDigit radix c digit) :
    Digits radix (text ++ [c]) (values ++ [digit]) := by
  induction read with
  | done => exact .digit last .done
  | digit first _ ih => exact .digit first ih
  | gap _ ih => exact .gap ih

theorem Numeral.append_digit {radix value digit : Nat} {text : List Char} {c : Char}
    (numeral : Numeral radix text value) (last : IsDigit radix c digit) :
    Numeral radix (text ++ [c]) (radix * value + digit) := by
  cases numeral with
  | @digits first start rest values leading others =>
      have places : Nat.ofDigits radix (start :: (values ++ [digit])).reverse =
          radix * Nat.ofDigits radix (start :: values).reverse + digit := by
        rw [← List.cons_append, List.reverse_append, List.reverse_singleton, List.singleton_append,
          Nat.ofDigits_cons, add_comm]
      rw [← places]
      exact .digits leading (others.append_digit last)

/-- A natural number is written with the digits of its quotients by ten. -/
theorem numeral_toDigits (number : Nat) : Numeral 10 (Nat.toDigits 10 number) number := by
  induction number using Nat.strongRec with
  | ind number ih =>
      rw [Nat.toDigits_eq_if (by decide)]
      split
      · rename_i below
        exact .digits ⟨below, .inl rfl⟩ .done
      · have others := ih (number / 10) (by omega)
        have last : IsDigit 10 (number % 10).digitChar (number % 10) :=
          ⟨Nat.mod_lt _ (by decide), .inl rfl⟩
        have whole := others.append_digit last
        rwa [Nat.div_add_mod] at whole

theorem spells_writeAmount (amount : Int) : Spells (writeAmount amount).toList amount := by
  rw [writeAmount, Int.toString_eq_repr, Int.repr_eq_if]
  split
  · rename_i unsigned
    have number := Signed.plain (numeral_toDigits amount.toNat)
    rw [Int.toNat_of_nonneg unsigned] at number
    rw [Nat.repr_eq_ofList_toDigits, String.toList_ofList]
    exact .decimal number
  · rename_i negative
    have number := Signed.minus (numeral_toDigits (-amount).toNat)
    rw [Int.toNat_of_nonneg (by omega), neg_neg] at number
    rw [Nat.repr_eq_ofList_toDigits, String.toList_append, String.toList_ofList,
      String.toList_ofList]
    exact .decimal number

/-- The reader of amounts takes a text exactly if, the white space around it aside, it spells an
integer, and gives that integer. What is written for an integer is read back as the integer, also with
white space around it. -/
theorem amounts_read_as_spelled :
    (∀ (text : String) (value : Int), readAmount text = .ok value ↔
      ∃ spelled, Padded spelled text.toList ∧ Spells spelled value) ∧
    ∀ (text : String) (value : Int), Padded (writeAmount value).toList text.toList →
      readAmount text = .ok value := by
  refine ⟨fun text value => ⟨fun read => ?_, ?_⟩, fun text value padded => ?_⟩
  · exact ⟨trim text.toList, padded_trim _, readAmount_eq_ok_iff.mp read⟩
  · rintro ⟨spelled, padded, spells⟩
    exact readAmount_of_padded padded spells
  · exact readAmount_of_padded padded (spells_writeAmount value)

/-- A sign stands after the prefix and not before it, there is only one, and an underscore follows a
digit. -/
theorem near_misses_not_spelled :
    readAmount "\u20030x-1_F_\n" = .ok (-31) ∧ readAmount "\t -1208\u3000" = .ok (-1208) ∧
      ∀ text ∈ ["-0x10", "-+5", "_1", "0x", "0X10", "- 5"], ∀ value,
        ¬ ∃ spelled, Padded spelled text.toList ∧ Spells spelled value := by
  have read := amounts_read_as_spelled
  have one : IsDigit 16 '1' 1 := ⟨by decide, .inl rfl⟩
  have fifteen : IsDigit 16 'F' 15 := ⟨by decide, .inr rfl⟩
  have numeral : Numeral 16 ['1', '_', 'F', '_'] 31 :=
    Numeral.digits one (.gap (.digit fifteen (.gap .done)))
  refine ⟨?_, ?_, fun text member value => ?_⟩
  · exact (read.1 _ _).mpr ⟨['0', 'x', '-', '1', '_', 'F', '_'],
      ⟨['\u2003'], ['\n'], by decide, List.all_eq_true.mp (by decide)⟩, .hexadecimal (.minus numeral)⟩
  · exact read.2 _ _ ⟨['\t', ' '], ['\u3000'], by decide, List.all_eq_true.mp (by decide)⟩
  · have refused : ∀ text ∈ ["-0x10", "-+5", "_1", "0x", "0X10", "- 5"],
        (readAmount text).toOption = none := by decide +kernel
    intro spelled
    have none := refused text member
    rw [(read.1 text value).mpr spelled] at none
    exact absurd none (by simp [Except.toOption])

end Text
end Amm
