/-
What the `int` operations of the IA64 port (`opa_gcc_ia64.h`) read and write, byte by byte. The suffix of an
instruction's name is the number of bytes that it reads and writes, and registers have 64 bits. The operations
stay in the four bytes of their cell, except `OPA_swap_int`, whose `xchg8` writes the upper half of its register
to the four bytes after the cell (`ia64_frame`).

Memory is little-endian: the big-endian mode of the processor is not modelled. Neither is the fault that it may
raise for the eight bytes of an `xchg8` at an address that is aligned to four only.
-/
import OpenPA.Machine.Bytes
import OpenPA.Atomic.Ia64

namespace OpenPA.Atomic

open OpenPA.Machine

/-! ## Instructions -/

namespace Ia64Bytes

def fetchadd (sz : Nat) (m : Bytes 64) (p : BitVec 64) (inc : BitVec (8 * sz)) : Bytes 64 × BitVec 64 :=
  let v := readBytes m p sz
  (writeBytes m p sz (v + inc), v.setWidth 64)

def cmpxchg (sz : Nat) (m : Bytes 64) (p ccv r : BitVec 64) : Bytes 64 × BitVec 64 :=
  let v := (readBytes m p sz).setWidth 64
  (if v = ccv then writeBytes m p sz (r.setWidth (8 * sz)) else m, v)

def xchg (sz : Nat) (m : Bytes 64) (p r : BitVec 64) : Bytes 64 × BitVec 64 :=
  let v := (readBytes m p sz).setWidth 64
  (writeBytes m p sz (r.setWidth (8 * sz)), v)

def zxt4 (r : BitVec 64) : BitVec 64 := (r.setWidth 32).setWidth 64

/-- The `int` in a register. What the upper half holds is left open. -/
def int (r : BitVec 64) : BitVec 32 := r.setWidth 32

/-! ## Operations: memory after the call and what it returns; arguments are in registers -/

/-- `OPA_load_int` -/
def loadInt (m : Bytes 64) (ptr : BitVec 64) : BitVec 64 := (readBytes m ptr 4).setWidth 64

/-- `OPA_decr_and_test_int` -/
def decrAndTestInt (m : Bytes 64) (ptr : BitVec 64) : Bytes 64 × BitVec 32 :=
  let (m', val) := fetchadd 4 m ptr (-1)
  (m', if int val = 1 then 1 else 0)

/-- `OPA_cas_int`. Its `zxt4` and its `mov ar.ccv` name the operand `%1`, which is the memory output `ptr->v`; they are
read here as naming `%2`, which is `oldv`, as the comment beside them says. For which bytes are read and written it
makes no difference: that is the same for every comparand. -/
def casInt (m : Bytes 64) (ptr oldv newv : BitVec 64) : Bytes 64 × BitVec 64 :=
  cmpxchg 4 m ptr (zxt4 oldv) newv

/-- The loop of the default case of `OPA_fetch_and_add_int`, with at most `fuel` rounds -/
def faaLoop (m : Bytes 64) (ptr val : BitVec 64) : Nat → BitVec 64 → Option (Bytes 64 × BitVec 32)
  | 0, _ => none
  | fuel + 1, cmp =>
    let (m', prev) := casInt m ptr cmp val
    if int prev ≠ int cmp then faaLoop m' ptr val fuel prev else some (m', int prev)

/-- `OPA_fetch_and_add_int` -/
def fetchAndAddInt (fuel : Nat) (m : Bytes 64) (ptr val : BitVec 64) : Option (Bytes 64 × BitVec 32) :=
  if int val ∈ faaCases then
    let (m', prev) := fetchadd 4 m ptr (int val)
    some (m', int prev)
  else faaLoop m ptr val fuel (loadInt m ptr)

/-- `OPA_swap_int` -/
def swapInt (m : Bytes 64) (ptr val : BitVec 64) : Bytes 64 × BitVec 32 :=
  let (m', val) := xchg 8 m ptr val
  (m', int val)

end Ia64Bytes

/-- A call of one of the operations. -/
inductive IntOp where
  | fetchAndAdd (val : BitVec 64)
  | decrAndTest
  | cas (oldv newv : BitVec 64)
  | swap (val : BitVec 64)

def IntOp.exec (fuel : Nat) (m : Bytes 64) (ptr : BitVec 64) : IntOp → Option (Bytes 64 × BitVec 32)
  | .fetchAndAdd val => Ia64Bytes.fetchAndAddInt fuel m ptr val
  | .decrAndTest => some (Ia64Bytes.decrAndTestInt m ptr)
  | .cas oldv newv =>
    let (m', prev) := Ia64Bytes.casInt m ptr oldv newv
    some (m', Ia64Bytes.int prev)
  | .swap val => some (Ia64Bytes.swapInt m ptr val)

/-! ## What they do to the cell -/

namespace Ia64Bytes

variable (m : Bytes 64) (ptr : BitVec 64)

theorem int_setWidth (v : BitVec 32) : int (v.setWidth 64) = v := by
  simp [int]

/-- `fetchadd4` adds to the cell. -/
theorem fetchadd4_eq (inc : BitVec 32) :
    fetchadd 4 m ptr inc = (writeBytes m ptr 4 (readBytes m ptr 4 + inc), (readBytes m ptr 4).setWidth 64) := rfl

/-- `OPA_cas_int` compares the cell with the lower half of a register. -/
theorem casInt_eq (oldv newv : BitVec 64) : casInt m ptr oldv newv =
    (writeBytes m ptr 4 (if readBytes m ptr 4 = int oldv then int newv else readBytes m ptr 4),
      (readBytes m ptr 4).setWidth 64) := by
  have hzxt : (readBytes m ptr 4).setWidth 64 = zxt4 oldv ↔ readBytes m ptr 4 = int oldv := by
    constructor
    · intro h
      have hint := congrArg int h
      rwa [int_setWidth, zxt4, int_setWidth] at hint
    · intro h
      rw [h]
      rfl
  simp only [casInt, cmpxchg]
  by_cases h : readBytes m ptr 4 = int oldv
  · rw [if_pos (hzxt.2 h), if_pos h]
    rfl
  · rw [if_neg (fun hz => h (hzxt.1 hz)), if_neg h, writeBytes_readBytes]

/-- The loop of the default case ends in its first round, with nobody else around. -/
theorem faaLoop_eq (val : BitVec 64) (fuel : Nat) : faaLoop m ptr val (fuel + 1) (loadInt m ptr) =
    some (writeBytes m ptr 4 (int val), readBytes m ptr 4) := by
  have hload : int (loadInt m ptr) = readBytes m ptr 4 := int_setWidth _
  rw [faaLoop, casInt_eq, hload, if_pos rfl]
  simp only [int_setWidth, ne_eq, not_true_eq_false, if_false]

/-- `xchg8` writes all of the register, and returns the cell in its lower half. -/
theorem swapInt_eq (val : BitVec 64) : swapInt m ptr val = (writeBytes m ptr 8 val, readBytes m ptr 4) := by
  have hold : int ((readBytes m ptr 8).setWidth 64) = readBytes m ptr 4 := by
    rw [show (readBytes m ptr 8).setWidth 64 = readBytes m ptr 8 from BitVec.setWidth_eq _]
    exact readBytes_setWidth (n := 4) (m := m) (p := ptr) (by omega)
  have hnew : val.setWidth 64 = val := BitVec.setWidth_eq val
  simp only [swapInt, xchg, hold]
  exact congrArg (fun v => (writeBytes m ptr 8 v, readBytes m ptr 4)) hnew

end Ia64Bytes

/-- The value that an operation other than `OPA_swap_int` leaves in a cell that holds `v`. -/
def IntOp.newValue (v : BitVec 32) : IntOp → BitVec 32
  | .fetchAndAdd val => faaNew (Ia64Bytes.int val) v
  | .decrAndTest => v + -1
  | .cas oldv newv => if v = Ia64Bytes.int oldv then Ia64Bytes.int newv else v
  | .swap val => Ia64Bytes.int val

def IntOp.retValue (v : BitVec 32) : IntOp → BitVec 32
  | .decrAndTest => if v = 1 then 1 else 0
  | .fetchAndAdd _ | .cas _ _ | .swap _ => v

def IntOp.isSwap : IntOp → Bool
  | .swap _ => true
  | _ => false

/-- The other operations write the cell, by what it holds. -/
theorem IntOp.exec_eq {op : IntOp} (hop : op.isSwap = false) (fuel : Nat) (m : Bytes 64) (ptr : BitVec 64) :
    op.exec (fuel + 1) m ptr =
      some (writeBytes m ptr 4 (op.newValue (readBytes m ptr 4)), op.retValue (readBytes m ptr 4)) := by
  cases op with
  | fetchAndAdd val =>
    simp only [IntOp.exec, Ia64Bytes.fetchAndAddInt]
    by_cases hval : Ia64Bytes.int val ∈ faaCases
    · rw [if_pos hval, Ia64Bytes.fetchadd4_eq, IntOp.newValue, faaNew, if_pos hval]
      simp only [Ia64Bytes.int_setWidth]
      rfl
    · rw [if_neg hval, Ia64Bytes.faaLoop_eq, IntOp.newValue, faaNew, if_neg hval]
      rfl
  | decrAndTest =>
    simp only [IntOp.exec, Ia64Bytes.decrAndTestInt, Ia64Bytes.fetchadd4_eq, Ia64Bytes.int_setWidth]
    rfl
  | cas oldv newv =>
    simp only [IntOp.exec, Ia64Bytes.casInt_eq, Ia64Bytes.int_setWidth]
    rfl
  | swap val => cases hop

theorem IntOp.exec_swap (val : BitVec 64) (fuel : Nat) (m : Bytes 64) (ptr : BitVec 64) :
    (IntOp.swap val).exec fuel m ptr = some (writeBytes m ptr 8 val, readBytes m ptr 4) := by
  rw [IntOp.exec, Ia64Bytes.swapInt_eq]

/-! ## The frame -/

/-- The address of cell `i` of an array of `OPA_int_t` at `base`. -/
def cellAddr (base : BitVec 64) (i : Nat) : BitVec 64 := base + BitVec.ofNat 64 (4 * i)

/-- What the operation does to memory stays within cell `i` of an array of `n`, and does not depend on the rest. -/
structure InCell (op : IntOp) (fuel : Nat) (m : Bytes 64) (base : BitVec 64) (n i : Nat) (m' : Bytes 64)
    (ret : BitVec 32) : Prop where
  frame : ∀ a, ¬Within (cellAddr base i) 4 a → m' a = m a
  neighbours : ∀ j < n, j ≠ i → readBytes m' (cellAddr base j) 4 = readBytes m (cellAddr base j) 4
  depends : ∀ m₂ : Bytes 64, (∀ a, Within (cellAddr base i) 4 a → m₂ a = m a) →
    ∃ m₂', op.exec fuel m₂ (cellAddr base i) = some (m₂', ret) ∧ ∀ a, Within (cellAddr base i) 4 a → m₂' a = m' a

/-- The four bytes after the cell hold what the upper half of the register of `OPA_swap_int` does. -/
def IntOp.keepsNext (m : Bytes 64) (ptr : BitVec 64) : IntOp → Bool
  | .swap val => decide (readBytes m (ptr + 4) 4 = val.extractLsb' 32 32)
  | _ => true

theorem within_cellAddr {base a : BitVec 64} {i : Nat} (hi : 4 * i + 4 ≤ 2 ^ 64) :
    Within (cellAddr base i) 4 a ↔ (a - base).toNat / 4 = i := by
  have hsub : a - cellAddr base i = a - base - BitVec.ofNat 64 (4 * i) := (sub_sub a base _).symm
  have hoff : (BitVec.ofNat 64 (4 * i)).toNat = 4 * i := by
    rw [BitVec.toNat_ofNat, Nat.mod_eq_of_lt (by omega)]
  have hlt := (a - base).isLt
  rw [Within, hsub, BitVec.toNat_sub (a - base), hoff]
  omega

theorem frame_neighbours {m m' : Bytes 64} {base : BitVec 64} {n i : Nat} (hi : i < n) (hn : 4 * n ≤ 2 ^ 64)
    (h : ∀ a, ¬Within (cellAddr base i) 4 a → m' a = m a) :
    ∀ j < n, j ≠ i → readBytes m' (cellAddr base j) 4 = readBytes m (cellAddr base j) 4 := by
  intro j hj hji
  apply readBytes_congr (by decide)
  intro a ha
  apply h
  rw [within_cellAddr (by omega)] at ha ⊢
  omega

/-- Eight bytes stay within the first four exactly if the others are there already. -/
theorem writeBytes_frame {m : Bytes 64} {ptr val : BitVec 64} :
    (∀ a, ¬Within ptr 4 a → writeBytes m ptr 8 val a = m a) ↔ readBytes m (ptr + 4) 4 = val.extractLsb' 32 32 := by
  have hupper : ∀ k < 4, (val.extractLsb' 32 32).extractLsb' (8 * k) 8 = val.extractLsb' (8 * (4 + k)) 8 := by
    intro k hk
    ext i hi
    have hin : 8 * k + i < 32 := by omega
    have hadd : 32 + (8 * k + i) = 8 * (4 + k) + i := by omega
    simp only [BitVec.getElem_extractLsb', BitVec.getLsbD_extractLsb', hin, decide_true, Bool.true_and, hadd]
  have hnext : ∀ k, ptr + 4 + BitVec.ofNat 64 k = ptr + BitVec.ofNat 64 (4 + k) := by
    intro k
    rw [BitVec.ofNat_add, add_assoc]
    rfl
  rw [readBytes_eq_iff (n := 4)]
  constructor
  · intro h k hk
    obtain ⟨hin, hsub⟩ := within_offset (p := ptr) (n := 8) (k := 4 + k) (by omega) (by decide)
    have hout : ¬Within ptr 4 (ptr + BitVec.ofNat 64 (4 + k)) := by
      rw [Within, hsub]
      omega
    rw [hnext, hupper k hk, ← h _ hout, writeBytes_within hin, hsub]
  · intro h a ha
    by_cases hin : Within ptr 8 a
    · obtain ⟨k, hk, hak, hsub⟩ := within_iff.1 hin
      rw [Within, hsub] at ha
      have hbyte := h (k - 4) (by omega)
      rw [hnext, hupper (k - 4) (by omega), Nat.add_sub_cancel' (by omega), ← hak] at hbyte
      rw [writeBytes_within hin, hsub, hbyte]
    · exact writeBytes_outside hin

/-- Of `OPA_fetch_and_add_int`, `OPA_decr_and_test_int`, `OPA_cas_int` and `OPA_swap_int`, on any cell of any array in
any memory: the call returns, and it changes no byte outside the cell, keeps the values of the other cells, and depends
on no byte outside in its result and in what it leaves in the cell, exactly if it is not `OPA_swap_int` or the
four bytes after the cell hold the upper half of the register that the new value is in. -/
theorem ia64_frame (op : IntOp) (fuel : Nat) (m : Bytes 64) (base : BitVec 64) (n i : Nat) (hi : i < n)
    (hn : 4 * n ≤ 2 ^ 64) : ∃ m' ret, op.exec (fuel + 1) m (cellAddr base i) = some (m', ret) ∧
      (InCell op (fuel + 1) m base n i m' ret ↔ op.keepsNext m (cellAddr base i) = true) := by
  cases hop : op.isSwap with
  | false =>
    refine ⟨_, _, IntOp.exec_eq hop fuel m _, iff_of_true ?_ ?_⟩
    · have hframe : ∀ a, ¬Within (cellAddr base i) 4 a → writeBytes m (cellAddr base i) 4
          (op.newValue (readBytes m (cellAddr base i) 4)) a = m a := fun a ha => writeBytes_outside ha
      refine ⟨hframe, frame_neighbours hi hn hframe, fun m₂ hm₂ => ?_⟩
      have hread := readBytes_congr (p := cellAddr base i) (n := 4) (by decide) hm₂
      refine ⟨_, by rw [IntOp.exec_eq hop, hread], fun a ha => ?_⟩
      rw [writeBytes_within ha, writeBytes_within ha]
    · cases op with
      | swap val => cases hop
      | _ => rfl
  | true =>
    cases op with
    | swap val =>
      refine ⟨_, _, IntOp.exec_swap val (fuel + 1) m _, ?_⟩
      rw [IntOp.keepsNext, decide_eq_true_eq, ← writeBytes_frame]
      constructor
      · intro h
        exact h.frame
      · intro hframe
        refine ⟨hframe, frame_neighbours hi hn hframe, fun m₂ hm₂ => ?_⟩
        have hread := readBytes_congr (p := cellAddr base i) (n := 4) (by decide) hm₂
        refine ⟨_, by rw [IntOp.exec_swap, hread], fun a ha => ?_⟩
        have ha' : Within (cellAddr base i) 8 a := Nat.lt_trans ha (by decide)
        rw [writeBytes_within ha', writeBytes_within ha']
    | _ => cases hop

/-- Two cells, of which the second one holds 7. -/
def twoInts : Bytes 64 := fun a => if a = 4 then 7 else 0

/-- `OPA_swap_int` of 5 into the first cell, from a register whose upper half is 0, leaves 0 in the second one. -/
theorem swap_overwrites_next : ∃ m', (IntOp.swap 5).exec 1 twoInts (cellAddr 0 0) = some (m', 0) ∧
    readBytes m' (cellAddr 0 0) 4 = 5 ∧ readBytes twoInts (cellAddr 0 1) 4 = 7 ∧ readBytes m' (cellAddr 0 1) 4 = 0 ∧
    ¬InCell (.swap 5) 1 twoInts 0 2 0 m' 0 := by
  have hnext : readBytes twoInts (cellAddr 0 1) 4 = 7 ∧
      readBytes (writeBytes twoInts (cellAddr 0 0) 8 (5 : BitVec 64)) (cellAddr 0 1) 4 = 0 := by decide
  refine ⟨_, IntOp.exec_swap 5 1 twoInts _, by decide, hnext.1, hnext.2, fun h => ?_⟩
  have hkept := h.neighbours 1 (by decide) (by decide)
  rw [hnext.1, hnext.2] at hkept
  exact absurd hkept (by decide)

theorem ia64_frame_demo : ∃ m' ret, (IntOp.cas 0 9).exec 1 twoInts (cellAddr 0 0) = some (m', ret) ∧
    InCell (.cas 0 9) 1 twoInts 0 2 0 m' ret := by
  obtain ⟨m', ret, hexec, hiff⟩ := ia64_frame (.cas 0 9) 0 twoInts 0 2 0 (by decide) (by decide)
  exact ⟨m', ret, hexec, hiff.2 rfl⟩

end OpenPA.Atomic
