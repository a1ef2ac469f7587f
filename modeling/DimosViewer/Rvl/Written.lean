import DimosViewer.Rvl.Bits
import DimosViewer.Rvl.Format
import Mathlib.Data.Nat.Digits.Defs

/-!
# What the encoder writes

An encoder stands for the groups that it has been given: those of its whole words, and those
of the word that it fills.
-/

namespace DimosViewer.Rvl

open LittleEndian (Bytes)

-- ---------------------------------------------------------------------------
-- Words from groups
-- ---------------------------------------------------------------------------

def wordOf (groups : List Nat) : Nat := Nat.ofDigits 16 groups.reverse

theorem wordOf_append (groups : List Nat) (g : Nat) :
    wordOf (groups ++ [g]) = g + 16 * wordOf groups := by
  rw [wordOf, List.reverse_append]
  exact Nat.ofDigits_cons

theorem wordOf_zeros (groups : List Nat) (count : Nat) :
    wordOf (groups ++ List.replicate count 0) = 16 ^ count * wordOf groups := by
  rw [wordOf, List.reverse_append, List.reverse_replicate, Nat.ofDigits_append,
    Nat.ofDigits_replicate_zero, List.length_replicate, Nat.zero_add]
  rfl

theorem wordOf_lt (h : ∀ g ∈ groups, g < 16) : wordOf groups < 16 ^ groups.length := by
  rw [← List.length_reverse]
  refine Nat.ofDigits_lt_base_pow_length (by decide) ?_
  intro g hg
  exact h g (List.mem_reverse.mp hg)

/-- The groups of a word come out as they went in, where they are aligned to its top. -/
theorem nibblesOf_wordOf (h : ∀ g ∈ groups, g < 16) (hlen : groups.length + k = 8) :
    nibblesOf groups.length (16 ^ k * wordOf groups) = groups := by
  induction groups generalizing k with
  | nil => rfl
  | cons g groups ih =>
    have htail : ∀ g' ∈ groups, g' < 16 := fun g' hg => h g' (List.mem_cons_of_mem _ hg)
    have hlen' : groups.length + (k + 1) = 8 := by
      rw [← hlen, List.length_cons]
      omega
    have htop : 16 ^ k * 16 ^ groups.length = 2 ^ 28 := by
      have hk : k + groups.length = 7 := by omega
      rw [← pow_add, hk]
      rfl
    have hword : 16 ^ k * wordOf (g :: groups) = 16 ^ k * wordOf groups + 2 ^ 28 * g := by
      rw [wordOf, Nat.ofDigits_reverse_cons, Nat.mul_add, ← Nat.mul_assoc, htop]
      rfl
    have hlow : 16 ^ k * wordOf groups < 2 ^ 28 := by
      rw [← htop]
      exact Nat.mul_lt_mul_of_pos_left (wordOf_lt htail) (Nat.pow_pos (by decide))
    have hnext : 16 ^ (k + 1) * wordOf groups = 16 * (16 ^ k * wordOf groups) := by
      rw [pow_succ]
      ring
    have hdiv : 16 ^ k * wordOf (g :: groups) / 2 ^ 28 = g := by omega
    have hmod : 16 ^ k * wordOf (g :: groups) * 16 % 2 ^ 32 = 16 ^ (k + 1) * wordOf groups := by
      omega
    rw [List.length_cons, nibblesOf, hdiv, hmod, ih htail hlen']

theorem payloadNibbles_append {word : Bytes} (h : 4 ∣ word.length) (bytes : Bytes) :
    payloadNibbles (word ++ bytes) = payloadNibbles word ++ payloadNibbles bytes := by
  obtain ⟨count, hcount⟩ := h
  induction count generalizing word with
  | zero =>
    rw [List.length_eq_zero_iff.mp hcount]
    rfl
  | succ count ih =>
    have hsplit := List.take_append_drop 4 word
    have hfirst : (word.take 4).length = 4 := by
      rw [List.length_take]
      omega
    have hrest : (word.drop 4).length = 4 * count := by
      rw [List.length_drop]
      omega
    rw [← hsplit, List.append_assoc, payloadNibbles_word hfirst, payloadNibbles_word hfirst,
      ih hrest, List.append_assoc]

theorem payloadNibbles_toLeBytes (word : UInt32) :
    payloadNibbles (toLeBytes word) = nibblesOf 8 word.toNat := by
  have hlt : word.toNat < 256 ^ 4 := word.toNat_lt
  have hlen : (toLeBytes word).length = 4 := LittleEndian.length_encode 4 _
  have hword := payloadNibbles_word hlen []
  rw [List.append_nil] at hword
  rw [hword, toLeBytes, LittleEndian.decode_encode hlt]
  exact List.append_nil _

-- ---------------------------------------------------------------------------
-- The encoder
-- ---------------------------------------------------------------------------

namespace Encoder

def Written (e : Encoder) (groups : List Nat) : Prop :=
  ∃ part, groups = payloadNibbles e.buffer ++ part ∧ 4 ∣ e.buffer.length ∧
    part.length = e.nibblesWritten ∧ part.length < 8 ∧ e.word.toNat = wordOf part ∧
    ∀ g ∈ part, g < 16

variable {e : Encoder}

theorem new_written : new.Written [] :=
  ⟨[], rfl, ⟨0, rfl⟩, rfl, by decide, rfl, by nofun⟩

theorem length_toLeBytes (word : UInt32) : (toLeBytes word).length = 4 :=
  LittleEndian.length_encode 4 _

theorem pushNibble_written (h : e.Written groups) (nibble : UInt8) (hlt : nibble.toNat < 16) :
    (e.pushNibble nibble).Written (groups ++ [nibble.toNat]) := by
  obtain ⟨part, rfl, hdvd, hcount, hshort, hword, hpart⟩ := h
  have hwordlt : e.word.toNat < 16 ^ 7 := by
    rw [hword]
    exact (wordOf_lt hpart).trans_le (Nat.pow_le_pow_right (by decide) (by omega))
  have hpushed : ((e.word <<< 4) ||| nibble.toUInt32).toNat = wordOf (part ++ [nibble.toNat]) := by
    have hor := toNat_or_shiftLeft (s := 4) (by decide) (v := nibble.toUInt32)
      (by rw [UInt8.toNat_toUInt32]; exact hlt) e.word
    rw [UInt8.toNat_toUInt32] at hor
    rw [UInt32.or_comm, wordOf_append, ← hword]
    refine hor.trans ?_
    omega
  have hall : ∀ g ∈ part ++ [nibble.toNat], g < 16 := by
    intro g hg
    obtain hg | hg := List.mem_append.mp hg
    · exact hpart g hg
    · rw [List.mem_singleton.mp hg]
      exact hlt
  have hlen : (part ++ [nibble.toNat]).length = e.nibblesWritten + 1 := by
    rw [List.length_append, hcount]
    rfl
  rw [pushNibble]
  split
  · rename_i hfull
    refine ⟨[], ?_, ?_, rfl, by decide, rfl, by nofun⟩
    · have hnibbles := nibblesOf_wordOf (k := 0) hall (by omega)
      rw [hlen, hfull, pow_zero, Nat.one_mul] at hnibbles
      rw [payloadNibbles_append hdvd, payloadNibbles_toLeBytes, hpushed, hnibbles,
        List.append_nil, List.append_assoc]
    · rw [List.length_append, length_toLeBytes]
      exact Nat.dvd_add hdvd (Nat.dvd_refl 4)
  · rename_i hroom
    exact ⟨part ++ [nibble.toNat], List.append_assoc .., hdvd, hlen, by omega, hpushed, hall⟩

theorem encodeVle_written (h : e.Written groups) (value : UInt32) :
    (e.encodeVle value).Written (groups ++ Vle.write 8 value.toNat) := by
  induction hn : value.toNat using Nat.strongRecOn generalizing e groups value with
  | ind n ih =>
    have hdigit : (value &&& 0x7).toUInt8.toNat = n % 8 := by
      have hand : value.toNat &&& 7 = value.toNat % 8 := Nat.and_two_pow_sub_one_eq_mod _ 3
      rw [UInt32.toNat_toUInt8, UInt32.toNat_and, ← hn]
      refine (congrArg (· % 2 ^ 8) hand).trans ?_
      omega
    have hrest := toNat_shiftRight_three value
    have hiff : value >>> 3 = 0 ↔ n < 8 := by
      rw [← UInt32.toNat_inj, hrest, UInt32.toNat_zero]
      omega
    rw [encodeVle]
    split
    · rename_i hz
      rw [Vle.write_last (hiff.mp hz)]
      have hw := pushNibble_written h (value &&& 0x7).toUInt8 (by omega)
      have hsmall := hiff.mp hz
      rw [hdigit, Nat.mod_eq_of_lt hsmall] at hw
      exact hw
    · rename_i hz
      have hbig : 8 ≤ n := by
        rw [hiff] at hz
        omega
      have hmore : ((value &&& 0x7).toUInt8 ||| 0x8).toNat = 8 + n % 8 := by
        rw [UInt8.toNat_or, hdigit, Nat.or_comm]
        exact (Nat.two_pow_add_eq_or_of_lt (i := 3) (Nat.mod_lt _ (by decide)) 1).symm
      have hw := pushNibble_written h ((value &&& 0x7).toUInt8 ||| 0x8) (by omega)
      rw [hmore] at hw
      have hstep := ih (n / 8) (by omega) hw (value >>> 3) (by rw [hrest, hn])
      rw [Vle.write_more (by decide) hbig]
      rw [List.append_assoc] at hstep
      exact hstep

theorem finish_written (h : e.Written groups) :
    ∃ padding, payloadNibbles e.finish = groups ++ padding := by
  obtain ⟨part, rfl, hdvd, hcount, hshort, hword, hpart⟩ := h
  rw [finish]
  split
  · rename_i hsome
    have hlen : part.length + (8 - e.nibblesWritten) = 8 := by omega
    have hshift : (e.word <<< UInt32.ofNat (4 * (8 - e.nibblesWritten))).toNat =
        16 ^ (8 - e.nibblesWritten) * wordOf part := by
      have hmod : (UInt32.ofNat (4 * (8 - e.nibblesWritten))).toNat % 32 =
          4 * (8 - e.nibblesWritten) := by
        rw [UInt32.toNat_ofNat']
        omega
      have hpow : 2 ^ (4 * (8 - e.nibblesWritten)) = 16 ^ (8 - e.nibblesWritten) := by
        rw [pow_mul]
        rfl
      have hfits : 16 ^ (8 - e.nibblesWritten) * wordOf part < 2 ^ 32 := by
        calc 16 ^ (8 - e.nibblesWritten) * wordOf part
            < 16 ^ (8 - e.nibblesWritten) * 16 ^ part.length :=
              Nat.mul_lt_mul_of_pos_left (wordOf_lt hpart) (Nat.pow_pos (by decide))
          _ = 16 ^ 8 := by rw [← pow_add, Nat.add_comm, hlen]
      rw [UInt32.toNat_shiftLeft, hmod, Nat.shiftLeft_eq, hpow, hword, Nat.mul_comm,
        Nat.mod_eq_of_lt hfits]
    have hpadded : ∀ g ∈ part ++ List.replicate (8 - e.nibblesWritten) 0, g < 16 := by
      intro g hg
      obtain hg | hg := List.mem_append.mp hg
      · exact hpart g hg
      · rw [List.eq_of_mem_replicate hg]
        decide
    have hlen' : (part ++ List.replicate (8 - e.nibblesWritten) 0).length = 8 := by
      rw [List.length_append, List.length_replicate, hlen]
    have hnibbles := nibblesOf_wordOf (k := 0) hpadded (by omega)
    rw [hlen', wordOf_zeros, pow_zero, Nat.one_mul] at hnibbles
    refine ⟨List.replicate (8 - e.nibblesWritten) 0, ?_⟩
    rw [payloadNibbles_append hdvd, payloadNibbles_toLeBytes, hshift, hnibbles, List.append_assoc]
  · rename_i hnone
    have hnil : part = [] := List.length_eq_zero_iff.mp (by omega)
    refine ⟨[], ?_⟩
    rw [hnil, List.append_nil, List.append_nil]

end Encoder
end DimosViewer.Rvl
