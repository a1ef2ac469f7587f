import Mathlib.Algebra.Order.Ring.Nat
import Mathlib.Tactic.Ring

/-!
# Decimal text

Numbers written in decimal, with a unit or zeros in front, and what a reader makes of them.
-/

namespace DecimalText

def value (digits : List Char) : Nat := Nat.ofDigitChars 10 digits 0

def leadingDigits (text : List Char) : List Char × List Char :=
  (text.takeWhile Char.isDigit, text.dropWhile Char.isDigit)

def part (unit : Char) (text : List Char) : Nat × List Char :=
  match leadingDigits text with
  | (d :: digits, c :: rest) => if c = unit then (value (d :: digits), rest) else (0, text)
  | _ => (0, text)

def NoDigitFirst (text : List Char) : Prop := ∀ c ∈ text.head?, c.isDigit = false

theorem leadingDigits_append (h : ∀ c ∈ digits, Char.isDigit c = true) (hr : NoDigitFirst rest) :
    leadingDigits (digits ++ rest) = (digits, rest) := by
  rw [leadingDigits, List.takeWhile_append_of_pos h, List.dropWhile_append_of_pos h]
  cases rest with
  | nil => rw [List.takeWhile_nil, List.append_nil, List.dropWhile_nil]
  | cons c rest =>
    have hc : ¬ c.isDigit = true := by
      rw [hr c rfl]
      decide
    rw [List.takeWhile_cons_of_neg hc, List.dropWhile_cons_of_neg hc, List.append_nil]

theorem isDigit_toDigits (h : c ∈ Nat.toDigits 10 n) : c.isDigit = true :=
  Nat.isDigit_of_mem_toDigits (by decide) (by decide) h

theorem value_toDigits (n : Nat) : value (Nat.toDigits 10 n) = n := Nat.ofDigitChars_ten_toDigits

theorem leadingDigits_toDigits (n : Nat) (hr : NoDigitFirst rest) :
    leadingDigits (Nat.toDigits 10 n ++ rest) = (Nat.toDigits 10 n, rest) :=
  leadingDigits_append (fun _ => isDigit_toDigits) hr

theorem part_unit (n : Nat) (hu : Char.isDigit unit = false) (rest : List Char) :
    part unit (Nat.toDigits 10 n ++ unit :: rest) = (n, rest) := by
  have hr : NoDigitFirst (unit :: rest) := by
    rintro c ⟨⟩
    exact hu
  rw [part, leadingDigits_toDigits n hr]
  cases hd : Nat.toDigits 10 n with
  | nil => exact absurd hd Nat.toDigits_ne_nil
  | cons d digits =>
    simp only [if_true]
    rw [← hd, value_toDigits]

/-- A text in which another unit follows the first number, or none. -/
def OtherUnit (unit : Char) (text : List Char) : Prop :=
  text = [] ∨ ∃ n c rest, text = Nat.toDigits 10 n ++ c :: rest ∧ c.isDigit = false ∧ c ≠ unit

theorem part_other (h : OtherUnit unit text) : part unit text = (0, text) := by
  obtain rfl | ⟨n, c, rest, rfl, hc, hne⟩ := h
  · rfl
  · have hr : NoDigitFirst (c :: rest) := by
      rintro c ⟨⟩
      exact hc
    rw [part, leadingDigits_toDigits n hr]
    cases hd : Nat.toDigits 10 n with
    | nil => exact absurd hd Nat.toDigits_ne_nil
    | cons d digits => exact if_neg hne

def padded (width n : Nat) : List Char := (Nat.toDigits 10 n).leftpad width '0'

structure Digits (text : List Char) (count n : Nat) : Prop where
  length : text.length = count
  digit : ∀ c ∈ text, Char.isDigit c = true
  value : value text = n

theorem Digits.nil : Digits [] 0 0 := ⟨rfl, by nofun, rfl⟩

theorem digits_padded (hw : 0 < width) (h : n < 10 ^ width) :
    Digits (padded width n) width n where
  length := by
    have hle := (Nat.length_toDigits_le_iff (by decide) hw).mpr h
    rw [padded, List.leftpad, List.length_append, List.length_replicate]
    omega
  digit := by
    intro c hc
    rw [padded, List.leftpad] at hc
    obtain hc | hc := List.mem_append.mp hc
    · rw [List.eq_of_mem_replicate hc]
      rfl
    · exact isDigit_toDigits hc
  value := by
    rw [padded, List.leftpad, DecimalText.value, Nat.ofDigitChars_append,
      Nat.ofDigitChars_replicate_zero]
    exact value_toDigits n

theorem Digits.append (hf : Digits front a m) (hb : Digits back b n) :
    Digits (front ++ back) (a + b) (m * 10 ^ b + n) where
  length := by rw [List.length_append, hf.length, hb.length]
  digit := by
    intro c hc
    obtain hc | hc := List.mem_append.mp hc
    · exact hf.digit c hc
    · exact hb.digit c hc
  value := by
    have hm := hf.value
    have hn := hb.value
    rw [DecimalText.value] at hm hn
    rw [DecimalText.value, Nat.ofDigitChars_append, Nat.ofDigitChars_eq_ofDigitChars_zero, hm, hn,
      hb.length, Nat.mul_comm]

end DecimalText
