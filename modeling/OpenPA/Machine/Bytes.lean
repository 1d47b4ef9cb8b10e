/-
Byte-addressed memory. A value of `n` bytes is read and written little-endian. What a read gives depends on the
bytes it reads only, and a write changes the bytes it writes only.
-/
import Mathlib.Data.BitVec

namespace OpenPA.Machine

variable {w : Nat}

/-- A byte at each address of `w` bits. -/
abbrev Bytes (w : Nat) := BitVec w → BitVec 8

/-- The address is one of the `n` from `p` on. -/
def Within (p : BitVec w) (n : Nat) (a : BitVec w) : Prop := (a - p).toNat < n

instance (p : BitVec w) (n : Nat) (a : BitVec w) : Decidable (Within p n a) :=
  inferInstanceAs (Decidable ((a - p).toNat < n))

/-- The `n` bytes from `p` on, the first one lowest. -/
def readBytes (m : Bytes w) (p : BitVec w) : (n : Nat) → BitVec (8 * n)
  | 0 => 0#0
  | n + 1 => readBytes m (p + 1) n ++ m p

/-- Write the `n` bytes of `v` from `p` on. -/
def writeBytes (m : Bytes w) (p : BitVec w) (n : Nat) (v : BitVec (8 * n)) : Bytes w := fun a =>
  if Within p n a then v.extractLsb' (8 * (a - p).toNat) 8 else m a

/-! ## Addresses -/

theorem within_offset {p : BitVec w} {n k : Nat} (hk : k < n) (hn : n ≤ 2 ^ w) :
    Within p n (p + BitVec.ofNat w k) ∧ (p + BitVec.ofNat w k - p).toNat = k := by
  have hsub : (p + BitVec.ofNat w k - p).toNat = k := by
    rw [add_sub_cancel_left, BitVec.toNat_ofNat, Nat.mod_eq_of_lt (by omega)]
  constructor
  · rw [Within, hsub]
    exact hk
  · exact hsub

theorem within_iff {p : BitVec w} {n : Nat} {a : BitVec w} :
    Within p n a ↔ ∃ k < n, a = p + BitVec.ofNat w k ∧ (a - p).toNat = k := by
  constructor
  · intro h
    refine ⟨(a - p).toNat, h, ?_, rfl⟩
    rw [BitVec.ofNat_toNat, BitVec.setWidth_eq, add_sub_cancel]
  · rintro ⟨k, hk, -, h⟩
    rw [Within, h]
    exact hk

/-! ## Reads and writes -/

theorem append_eq_iff {n : Nat} {x : BitVec n} {y : BitVec 8} {v : BitVec (n + 8)} :
    x ++ y = v ↔ x = v.extractLsb' 8 n ∧ y = v.extractLsb' 0 8 := by
  constructor
  · rintro rfl
    exact ⟨BitVec.extractLsb'_append_eq_left.symm, BitVec.extractLsb'_append_eq_right.symm⟩
  · rintro ⟨rfl, rfl⟩
    exact BitVec.extractLsb'_append_extractLsb'

/-- The bytes of a value without its lowest one. -/
theorem extractLsb'_succ {n k : Nat} (hk : k < n) (v : BitVec (8 * n + 8)) :
    (v.extractLsb' 8 (8 * n)).extractLsb' (8 * k) 8 = v.extractLsb' (8 * (k + 1)) 8 := by
  ext i hi
  have hin : 8 * k + i < 8 * n := by omega
  have hadd : 8 + (8 * k + i) = 8 * (k + 1) + i := by omega
  simp only [BitVec.getElem_extractLsb', BitVec.getLsbD_extractLsb', hin, decide_true, Bool.true_and, hadd]

/-- A value is read if it has the bytes that are there. -/
theorem readBytes_eq_iff {m : Bytes w} : ∀ {n : Nat} {p : BitVec w} {v : BitVec (8 * n)},
    readBytes m p n = v ↔ ∀ k < n, m (p + BitVec.ofNat w k) = v.extractLsb' (8 * k) 8
  | 0, p, v => by
    refine iff_of_true (BitVec.of_length_zero.trans BitVec.of_length_zero.symm) ?_
    intro k hk
    omega
  | n + 1, p, v => by
    have hnext : ∀ k, p + 1 + BitVec.ofNat w k = p + BitVec.ofNat w (k + 1) := by
      intro k
      rw [add_assoc, BitVec.ofNat_add, add_comm (BitVec.ofNat w k)]
      rfl
    rw [readBytes, append_eq_iff, readBytes_eq_iff]
    constructor
    · rintro ⟨hhi, hlo⟩ k hk
      cases k with
      | zero =>
        rw [show p + BitVec.ofNat w 0 = p from add_zero p]
        exact hlo
      | succ k => rw [← hnext, hhi k (by omega), extractLsb'_succ (by omega)]
    · intro h
      refine ⟨fun k hk => ?_, ?_⟩
      · rw [hnext, h (k + 1) (by omega), extractLsb'_succ hk]
      · have hzero := h 0 (by omega)
        rwa [show p + BitVec.ofNat w 0 = p from add_zero p] at hzero

theorem readBytes_byte {m : Bytes w} {p : BitVec w} {n k : Nat} (hk : k < n) :
    (readBytes m p n).extractLsb' (8 * k) 8 = m (p + BitVec.ofNat w k) :=
  (readBytes_eq_iff.1 rfl k hk).symm

/-- What is read depends on the bytes read only. -/
theorem readBytes_congr {m m' : Bytes w} {p : BitVec w} {n : Nat} (hn : n ≤ 2 ^ w)
    (h : ∀ a, Within p n a → m' a = m a) : readBytes m' p n = readBytes m p n := by
  rw [readBytes_eq_iff]
  intro k hk
  rw [h _ (within_offset hk hn).1, readBytes_byte hk]

theorem writeBytes_within {m : Bytes w} {p a : BitVec w} {n : Nat} {v : BitVec (8 * n)} (h : Within p n a) :
    writeBytes m p n v a = v.extractLsb' (8 * (a - p).toNat) 8 := if_pos h

/-- A write changes the bytes it writes only. -/
theorem writeBytes_outside {m : Bytes w} {p a : BitVec w} {n : Nat} {v : BitVec (8 * n)} (h : ¬Within p n a) :
    writeBytes m p n v a = m a := if_neg h

/-- To write what is there changes nothing. -/
theorem writeBytes_readBytes {m : Bytes w} {p : BitVec w} {n : Nat} : writeBytes m p n (readBytes m p n) = m := by
  funext a
  by_cases h : Within p n a
  · obtain ⟨k, hk, ha, hsub⟩ := within_iff.1 h
    rw [writeBytes_within h, hsub, readBytes_byte hk, ← ha]
  · exact writeBytes_outside h

/-- The lower bytes of a value read. -/
theorem readBytes_setWidth {m : Bytes w} {p : BitVec w} {n n' : Nat} (h : n ≤ n') :
    (readBytes m p n').setWidth (8 * n) = readBytes m p n := by
  refine (readBytes_eq_iff.2 fun k hk => ?_).symm
  rw [← readBytes_byte (m := m) (p := p) (Nat.lt_of_lt_of_le hk h)]
  ext i hi
  have hin : 8 * k + i < 8 * n := by omega
  simp only [BitVec.getElem_extractLsb', BitVec.getLsbD_setWidth, hin, decide_true, Bool.true_and]

end OpenPA.Machine
