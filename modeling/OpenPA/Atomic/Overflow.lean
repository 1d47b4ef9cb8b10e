/-
Where the counters leave the range of `int`. The ports compute the new value, or the old one from the new one,
with the `int` arithmetic of C, for which overflow is undefined; here it is `none`. Every form of the code
stays in range exactly if the value and the addend do together, and then all ports leave the sum and fetch
the value (`int_overflow`).
-/
import OpenPA.Atomic.ByLock

namespace OpenPA.Atomic

/-! ## `int` -/

/-- Between `INT_MIN` and `INT_MAX` -/
def InInt (x : Int) : Prop := -2 ^ 31 ≤ x ∧ x ≤ 2 ^ 31 - 1

instance (x : Int) : Decidable (InInt x) := inferInstanceAs (Decidable (_ ∧ _))

def intAdd (a b : BitVec 32) : Option (BitVec 32) :=
  if InInt (a.toInt + b.toInt) then some (BitVec.ofInt 32 (a.toInt + b.toInt)) else none

def intSub (a b : BitVec 32) : Option (BitVec 32) :=
  if InInt (a.toInt - b.toInt) then some (BitVec.ofInt 32 (a.toInt - b.toInt)) else none

theorem intAdd_eq (a b : BitVec 32) : intAdd a b = if InInt (a.toInt + b.toInt) then some (a + b) else none := by
  rw [intAdd, BitVec.ofInt_add, BitVec.ofInt_toInt, BitVec.ofInt_toInt]

theorem intSub_eq (a b : BitVec 32) : intSub a b = if InInt (a.toInt - b.toInt) then some (a - b) else none := by
  rw [intSub, sub_eq_add_neg, BitVec.ofInt_add, BitVec.ofInt_neg, BitVec.ofInt_toInt, BitVec.ofInt_toInt,
    BitVec.sub_eq_add_neg]

/-- The difference gives back a value from which the sum was in range, and is out of range itself otherwise. -/
theorem intSub_add (v b : BitVec 32) :
    intSub (v + b) b = if InInt (v.toInt + b.toInt) then some v else none := by
  have hrange : InInt ((v + b).toInt - b.toInt) ↔ InInt (v.toInt + b.toInt) := by
    have hlt := BitVec.toInt_lt (x := v)
    have hle := BitVec.le_toInt v
    rw [BitVec.toInt_add, Int.bmod_def]
    unfold InInt
    split <;> omega
  rw [intSub_eq, add_sub_cancel_right]
  simp only [hrange]

theorem intAdd_sub (v b : BitVec 32) :
    intAdd (v - b) b = if InInt (v.toInt - b.toInt) then some v else none := by
  have hrange : InInt ((v - b).toInt + b.toInt) ↔ InInt (v.toInt - b.toInt) := by
    have hlt := BitVec.toInt_lt (x := v)
    have hle := BitVec.le_toInt v
    rw [BitVec.toInt_sub, Int.bmod_def]
    unfold InInt
    split <;> omega
  rw [intAdd_eq, sub_add_cancel]
  simp only [hrange]

/-! ## The operations -/

/-- The operations that count. -/
inductive CountOp where
  | addInt (val : BitVec 32)
  | incrInt
  | decrInt
  | decrAndTestInt
  | fetchAndAddInt (val : BitVec 32)
  | fetchAndIncrInt
  | fetchAndDecrInt

def CountOp.addend : CountOp → BitVec 32
  | .addInt val | .fetchAndAddInt val => val
  | .incrInt | .fetchAndIncrInt => 1
  | .decrInt | .decrAndTestInt | .fetchAndDecrInt => -1

/-- What an operation returns if the cell held `v`: `none` for a `void` one. -/
def CountOp.result (v : BitVec 32) : CountOp → Option (BitVec 32)
  | .addInt _ | .incrInt | .decrInt => none
  | .decrAndTestInt => some (if v = 1 then 1 else 0)
  | .fetchAndAddInt _ | .fetchAndIncrInt | .fetchAndDecrInt => some v

/-- The cell after an operation and what it returned, or `none` where `int` arithmetic overflows. -/
abbrev Outcome := Option (BitVec 32 × Option (BitVec 32))

/-- `OPA_fetch_and_add_int_by_llsc`, when nobody else writes and the store-conditional fails `fails` times -/
def faaByLlsc (val : BitVec 32) : Nat → BitVec 32 → Option (BitVec 32 × BitVec 32)
  | 0, prev => (intAdd prev val).map fun new => (new, prev)
  | fails + 1, prev => (intAdd prev val).bind fun _ => faaByLlsc val fails prev

/-- `OPA_fetch_and_add_int_by_cas` -/
def faaByCas (val prev : BitVec 32) : Option (BitVec 32 × BitVec 32) := (intAdd prev val).map fun new => (new, prev)

/-- `OPA_add_int_by_faa` and so on, and the same functions `_by_llsc`, by a given fetch-and-add of `val` -/
def byFaa (faa : BitVec 32 → BitVec 32 → Option (BitVec 32 × BitVec 32)) (v : BitVec 32) : CountOp → Outcome
  | .addInt val => (faa val v).map fun r => (r.1, none)
  | .incrInt => (faa 1 v).map fun r => (r.1, none)
  | .decrInt => (faa (-1) v).map fun r => (r.1, none)
  | .decrAndTestInt => (faa (-1) v).map fun r => (r.1, some (if r.2 = 1 then 1 else 0))
  | .fetchAndAddInt val => (faa val v).map fun r => (r.1, some r.2)
  | .fetchAndIncrInt => (faa 1 v).map fun r => (r.1, some r.2)
  | .fetchAndDecrInt => (faa (-1) v).map fun r => (r.1, some r.2)

/-- The critical sections of `opa_by_lock.h`, and the functions of `opa_unsafe.h` -/
def lockSection (v : BitVec 32) : CountOp → Outcome
  | .addInt val => (intAdd v val).map fun new => (new, none)
  | .incrInt => (intAdd v 1).map fun new => (new, none)
  | .decrInt => (intSub v 1).map fun new => (new, none)
  | .decrAndTestInt => (intSub v 1).map fun new_val => (new_val, some (if 0 = new_val then 1 else 0))
  | .fetchAndAddInt val => (intAdd v val).map fun new => (new, some v)
  | .fetchAndIncrInt => (intAdd v 1).map fun new => (new, some v)
  | .fetchAndDecrInt => (intSub v 1).map fun new => (new, some v)

/-- `opa_sun_atomic_ops.h`: the atomic functions are on `uint_t`, and return the new value. -/
def sunAtomic (v : BitVec 32) : CountOp → Outcome
  | .addInt val => some (v + val, none)
  | .incrInt => some (v + 1, none)
  | .decrInt => some (v - 1, none)
  | .decrAndTestInt => some (v - 1, some (if v - 1 = 0 then 1 else 0))
  | .fetchAndAddInt val => (intSub (v + val) val).map fun old => (v + val, some old)
  | .fetchAndIncrInt => (intSub (v + 1) 1).map fun old => (v + 1, some old)
  | .fetchAndDecrInt => (intAdd (v - 1) 1).map fun old => (v - 1, some old)

/-- `opa_c11_atomics.h`: everything by `atomic_fetch_add_explicit`, which wraps around. -/
def c11Atomic (v : BitVec 32) (op : CountOp) : Outcome := byFaa (fun val prev => some (prev + val, prev)) v op

inductive Port where
  | llsc (fails : Nat)
  | cas
  | lock
  | sun
  | c11

def Port.exec (v : BitVec 32) (op : CountOp) : Port → Outcome
  | .llsc fails => byFaa (fun val prev => faaByLlsc val fails prev) v op
  | .cas => byFaa faaByCas v op
  | .lock => lockSection v op
  | .sun => sunAtomic v op
  | .c11 => c11Atomic v op

/-- The port computes with `int` in the operation. -/
def Port.usesInt (op : CountOp) : Port → Bool
  | .llsc _ | .cas | .lock => true
  | .sun => match op with
    | .fetchAndAddInt _ | .fetchAndIncrInt | .fetchAndDecrInt => true
    | _ => false
  | .c11 => false

/-! ## The range -/

/-- The value and the addend are in range together. -/
def InRange (v : BitVec 32) (op : CountOp) : Prop := InInt (v.toInt + op.addend.toInt)

instance (v : BitVec 32) (op : CountOp) : Decidable (InRange v op) := inferInstanceAs (Decidable (InInt _))

/-- The sum, and what is to be returned. -/
def CountOp.sum (v : BitVec 32) (op : CountOp) : BitVec 32 × Option (BitVec 32) := (v + op.addend, op.result v)

theorem map_guard {α β : Type} {c : Prop} [Decidable c] (f : α → β) (a : α) :
    (if c then some a else none).map f = if c then some (f a) else none := by
  split <;> rfl

theorem faaByCas_eq (val prev : BitVec 32) :
    faaByCas val prev = if InInt (prev.toInt + val.toInt) then some (prev + val, prev) else none := by
  rw [faaByCas, intAdd_eq, map_guard]

theorem faaByLlsc_eq (val prev : BitVec 32) (fails : Nat) :
    faaByLlsc val fails prev = if InInt (prev.toInt + val.toInt) then some (prev + val, prev) else none := by
  induction fails with
  | zero => exact faaByCas_eq val prev
  | succ fails ih =>
    rw [faaByLlsc, ih, intAdd_eq]
    split <;> rfl

/-- The functions by fetch-and-add are in range where it is. -/
theorem byFaa_eq {f : BitVec 32 → BitVec 32 → Option (BitVec 32 × BitVec 32)} {v : BitVec 32} {op : CountOp} {c : Prop}
    [Decidable c] (h : f op.addend v = if c then some (v + op.addend, v) else none) :
    byFaa f v op = if c then some (op.sum v) else none := by
  cases op <;>
  · simp only [byFaa, CountOp.addend] at h ⊢
    rw [h, map_guard]
    rfl

theorem lockSection_eq (v : BitVec 32) (op : CountOp) :
    lockSection v op = if InRange v op then some (op.sum v) else none := by
  have hdecr : intSub v 1 = if InInt (v.toInt + (-1 : BitVec 32).toInt) then some (v + -1) else none := by
    rw [intSub_eq, BitVec.sub_eq_add_neg]
    rfl
  have htest : (0 = v + -1) ↔ v = 1 := by
    rw [← BitVec.sub_eq_add_neg, eq_comm, sub_eq_zero]
  cases op with
  | addInt val | fetchAndAddInt val | incrInt | fetchAndIncrInt =>
    rw [lockSection, intAdd_eq, map_guard]
    rfl
  | decrInt | fetchAndDecrInt =>
    rw [lockSection, hdecr, map_guard]
    rfl
  | decrAndTestInt =>
    rw [lockSection, hdecr, map_guard]
    simp only [htest]
    rfl

theorem sunAtomic_eq (v : BitVec 32) (op : CountOp) :
    sunAtomic v op = if Port.sun.usesInt op = true → InRange v op then some (op.sum v) else none := by
  have hdecr : v - 1 = v + -1 := BitVec.sub_eq_add_neg v 1
  have htest : v + -1 = 0 ↔ v = 1 := by
    rw [← hdecr, sub_eq_zero]
  cases op with
  | addInt val | incrInt => rfl
  | decrInt =>
    rw [sunAtomic, hdecr]
    rfl
  | decrAndTestInt =>
    rw [sunAtomic, hdecr]
    simp only [htest]
    rfl
  | fetchAndAddInt val | fetchAndIncrInt =>
    rw [sunAtomic, intSub_add, map_guard]
    simp only [Port.usesInt, true_implies]
    rfl
  | fetchAndDecrInt =>
    rw [sunAtomic, intAdd_sub, map_guard, hdecr]
    simp only [Port.usesInt, true_implies]
    rfl

/-- Wrap-around. For every value of the cell and every addend: a port in which an operation is computed with `int`
stays in range exactly if the value and the addend are in range together, and the others always do; and whenever the
port stays in range, the cell ends as their sum and the fetch forms return the value. -/
theorem int_overflow (port : Port) (op : CountOp) (v : BitVec 32) :
    port.exec v op = if port.usesInt op = true → InRange v op then some (v + op.addend, op.result v) else none := by
  cases port with
  | llsc fails =>
    simp only [Port.usesInt, true_implies]
    exact byFaa_eq (faaByLlsc_eq op.addend v fails)
  | cas =>
    simp only [Port.usesInt, true_implies]
    exact byFaa_eq (faaByCas_eq op.addend v)
  | lock =>
    simp only [Port.usesInt, true_implies]
    exact lockSection_eq v op
  | sun => exact sunAtomic_eq v op
  | c11 =>
    have hfaa : some (v + op.addend, v) =
        if Port.c11.usesInt op = true → InRange v op then some (v + op.addend, v) else none := by
      rw [if_pos]
      intro h
      cases h
    exact byFaa_eq (f := fun val prev => some (prev + val, prev)) hfaa

/-- Add 1 to `INT_MAX`: the ports that compute with `int` overflow, with the new value or with the old one. -/
theorem int_max_overflows : [Port.llsc 0, .cas, .lock, .sun].map (Port.exec (2147483647#32) .fetchAndIncrInt) =
    [none, none, none, none] ∧ Port.c11.exec (2147483647#32) .fetchAndIncrInt =
      some (2147483648#32, some (2147483647#32)) := by
  decide

end OpenPA.Atomic
