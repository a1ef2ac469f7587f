import Mathlib.Algebra.Order.Ring.Nat
import Mathlib.Tactic.Ring

/-!
# Integers as bytes and groups

Numbers of a fixed width are bytes, the least significant one first. A number of variable length is
groups, the least significant digit first. A group of at least the base says that another group
follows. Signed numbers alternate around zero.
-/

-- ---------------------------------------------------------------------------
-- Little-endian numbers
-- ---------------------------------------------------------------------------

namespace LittleEndian

abbrev Bytes := List UInt8

def encode : (width : Nat) → Nat → Bytes
  | 0, _ => []
  | width + 1, n => UInt8.ofNat n :: encode width (n / 256)

def decode : Bytes → Nat
  | [] => 0
  | b :: bytes => b.toNat + 256 * decode bytes

@[simp] theorem length_encode (width n : Nat) : (encode width n).length = width := by
  induction width generalizing n with
  | zero => rfl
  | succ width ih => simp [encode, ih]

theorem decode_encode {width n : Nat} (h : n < 256 ^ width) : decode (encode width n) = n := by
  induction width generalizing n with
  | zero =>
    rw [pow_zero, Nat.lt_one_iff] at h
    rw [h]
    rfl
  | succ width ih =>
    have hdiv : n / 256 < 256 ^ width := by
      rw [Nat.div_lt_iff_lt_mul (by decide), ← pow_succ]
      exact h
    rw [encode, decode, ih hdiv, UInt8.toNat_ofNat']
    omega

theorem decode_lt (bytes : Bytes) : decode bytes < 256 ^ bytes.length := by
  induction bytes with
  | nil => decide
  | cons b bytes ih =>
    have := b.toNat_lt
    rw [decode, List.length_cons, pow_succ]
    omega

theorem encode_decode (bytes : Bytes) : encode bytes.length (decode bytes) = bytes := by
  induction bytes with
  | nil => rfl
  | cons b bytes ih =>
    have hb := b.toNat_lt
    have hmod : UInt8.ofNat (b.toNat + 256 * decode bytes) = b := by
      apply UInt8.toNat_inj.mp
      rw [UInt8.toNat_ofNat']
      omega
    have hdiv : (b.toNat + 256 * decode bytes) / 256 = decode bytes := by omega
    rw [decode, List.length_cons, encode, hmod, hdiv, ih]

end LittleEndian

-- ---------------------------------------------------------------------------
-- Integers of variable length
-- ---------------------------------------------------------------------------

namespace Vle

def read (b : Nat) : List Nat → Option (Nat × List Nat)
  | [] => none
  | g :: gs =>
    if g < b then some (g, gs)
    else (read b gs).map fun (n, rest) => (g - b + b * n, rest)

def write (b n : Nat) : List Nat :=
  if 2 ≤ b ∧ b ≤ n then (b + n % b) :: write b (n / b)
  else [n]
termination_by n
decreasing_by
  rename_i h
  exact Nat.div_lt_self (by omega) h.1

theorem write_last (h : n < b) : write b n = [n] := by
  rw [write, if_neg (by omega)]

theorem write_more (hb : 2 ≤ b) (h : b ≤ n) : write b n = (b + n % b) :: write b (n / b) := by
  rw [write, if_pos ⟨hb, h⟩]

theorem read_last (h : g < b) : read b (g :: gs) = some (g, gs) := if_pos h

theorem read_more (h : b ≤ g) :
    read b (g :: gs) = (read b gs).map fun (n, rest) => (g - b + b * n, rest) :=
  if_neg (by omega)

theorem read_write (hb : 2 ≤ b) (n : Nat) (rest : List Nat) :
    read b (write b n ++ rest) = some (n, rest) := by
  induction n using Nat.strongRecOn with
  | ind n ih =>
    by_cases hn : n < b
    · rw [write_last hn]
      exact read_last hn
    · have hdiv : n / b < n := Nat.div_lt_self (by omega) hb
      rw [write_more hb (by omega), List.cons_append, read_more (by omega), ih _ hdiv]
      have hsum := Nat.mod_add_div n b
      simp [hsum]

theorem length_write_le (hb : 2 ≤ b) (h : n < b ^ (k + 1)) : (write b n).length ≤ k + 1 := by
  induction k generalizing n with
  | zero =>
    rw [pow_one] at h
    rw [write_last h]
    exact Nat.le_refl _
  | succ k ih =>
    by_cases hn : n < b
    · rw [write_last hn]
      exact Nat.succ_le_succ (Nat.zero_le _)
    · rw [write_more hb (by omega), List.length_cons]
      have hdiv : n / b < b ^ (k + 1) := by
        rw [Nat.div_lt_iff_lt_mul (by omega), ← pow_succ]
        exact h
      have := ih hdiv
      omega

/-- `0, -1, 1, -2, 2, …` as `0, 1, 2, 3, 4, …` -/
def zigzag : Int → Nat
  | .ofNat n => 2 * n
  | .negSucc n => 2 * n + 1

def unzigzag (n : Nat) : Int :=
  if n % 2 = 0 then .ofNat (n / 2) else .negSucc (n / 2)

theorem unzigzag_zigzag (x : Int) : unzigzag (zigzag x) = x := by
  cases x with
  | ofNat n =>
    have hmod : 2 * n % 2 = 0 := by omega
    have hdiv : 2 * n / 2 = n := by omega
    rw [zigzag, unzigzag, if_pos hmod, hdiv]
  | negSucc n =>
    have hmod : ¬ (2 * n + 1) % 2 = 0 := by omega
    have hdiv : (2 * n + 1) / 2 = n := by omega
    rw [zigzag, unzigzag, if_neg hmod, hdiv]

theorem unzigzag_eq (n : Nat) :
    unzigzag n = if n % 2 = 0 then (n : Int) / 2 else -((n : Int) / 2) - 1 := by
  unfold unzigzag
  split
  · rw [Int.ofNat_eq_natCast]
    omega
  · rw [Int.negSucc_eq]
    omega

theorem zigzag_eq (x : Int) : (zigzag x : Int) = if 0 ≤ x then 2 * x else -(2 * x) - 1 := by
  cases x with
  | ofNat n =>
    rw [zigzag, Int.ofNat_eq_natCast, if_pos (Int.natCast_nonneg n)]
    omega
  | negSucc n =>
    rw [zigzag, Int.negSucc_eq, if_neg (by omega)]
    omega

theorem zigzag_lt {k : Nat} (h : -(k : Int) ≤ x) (h' : x < k) : zigzag x < 2 * k := by
  cases x with
  | ofNat n =>
    rw [Int.ofNat_eq_natCast] at h'
    rw [zigzag]
    omega
  | negSucc n =>
    rw [Int.negSucc_eq] at h
    rw [zigzag]
    omega

end Vle
