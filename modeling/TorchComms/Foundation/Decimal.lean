import Mathlib.Data.List.Basic
import Mathlib.Data.List.TakeWhile
import Mathlib.Algebra.Order.Ring.Int

/-! # Decimal numerals

The last digits of a number and the value of a list of digits. The conversions of the C library
read a number off the front of a text: blanks, a sign, the digits that follow it, and no word about
the characters behind them.
-/
namespace TorchComms.Foundation

/-- The last `w` digits. -/
def digits : ℕ → ℕ → List Char
  | 0, _ => []
  | w + 1, n => digits w (n / 10) ++ [Nat.digitChar (n % 10)]

def digitValue (c : Char) : ℕ := c.toNat - '0'.toNat

def value (cs : List Char) : ℕ := cs.foldl (fun acc c => acc * 10 + digitValue c) 0

@[simp] theorem length_digits (w n : ℕ) : (digits w n).length = w := by
  induction w generalizing n with
  | zero => rfl
  | succ w ih => rw [digits, List.length_append, ih, List.length_singleton]

theorem digitChar_spec {d : ℕ} (hd : d < 10) :
    (Nat.digitChar d).isDigit = true ∧ digitValue (Nat.digitChar d) = d := by
  revert d
  decide

variable {c : Char}

theorem isDigit_of_mem_digits {w n : ℕ} (hc : c ∈ digits w n) : c.isDigit = true := by
  induction w generalizing n with
  | zero => cases hc
  | succ w ih =>
    rw [digits, List.mem_append, List.mem_singleton] at hc
    rcases hc with hc | rfl
    · exact ih hc
    · exact (digitChar_spec (Nat.mod_lt n (by decide))).1

theorem value_concat (cs : List Char) (c : Char) :
    value (cs ++ [c]) = value cs * 10 + digitValue c := by
  unfold value
  rw [List.foldl_append]
  rfl

theorem value_digits (w n : ℕ) : value (digits w n) = n % 10 ^ w := by
  induction w generalizing n with
  | zero => rw [Nat.pow_zero, Nat.mod_one]; rfl
  | succ w ih =>
    rw [digits, value_concat, ih, (digitChar_spec (Nat.mod_lt n (by decide))).2, Nat.pow_succ',
      Nat.mod_mul, Nat.mul_comm, Nat.add_comm]

/-! ### The number at the front of a text -/

/-- `isspace` in the C locale. -/
def isSpace (c : Char) : Bool := c = ' ' || ('\t'.toNat ≤ c.toNat && c.toNat ≤ '\r'.toNat)

/-- Whether a minus sign stands before the number, and its digits. -/
def numeral (cs : List Char) : Bool × List Char :=
  match cs.dropWhile isSpace with
  | '-' :: rest => (true, rest.takeWhile Char.isDigit)
  | '+' :: rest => (false, rest.takeWhile Char.isDigit)
  | rest => (false, rest.takeWhile Char.isDigit)

theorem toNat_of_isDigit (hc : c.isDigit = true) : 48 ≤ c.toNat ∧ c.toNat ≤ 57 := by
  rw [Char.isDigit, Bool.and_eq_true, decide_eq_true_iff, decide_eq_true_iff] at hc
  exact hc

theorem isSpace_of_isDigit (hc : c.isDigit = true) : isSpace c = false := by
  have hrange := toNat_of_isDigit hc
  rw [isSpace, Bool.or_eq_false_iff, decide_eq_false_iff_not, Bool.and_eq_false_iff]
  constructor
  · rintro rfl
    cases hc
  · right
    apply decide_eq_false
    intro hle
    exact absurd (hrange.1.trans hle) (by decide)

theorem numeral_of_digits {cs : List Char} (hcs : ∀ c ∈ cs, c.isDigit = true) :
    numeral cs = (false, cs) := by
  have htake : cs.takeWhile Char.isDigit = cs := List.takeWhile_eq_self_iff.mpr hcs
  cases cs with
  | nil => rfl
  | cons c cs =>
    have hc := hcs c List.mem_cons_self
    have hdrop : (c :: cs).dropWhile isSpace = c :: cs := by
      rw [List.dropWhile_cons_of_neg]
      rw [isSpace_of_isDigit hc]
      nofun
    unfold numeral
    rw [hdrop]
    split
    · rename_i heq
      cases heq
      cases hc
    · rename_i heq
      cases heq
      cases hc
    · rw [htake]

end TorchComms.Foundation
