/-
The atomic operations on `OPA_int_t` and `OPA_ptr_t`, and what each does and returns: the reference is
`opa_by_lock.h`, where every operation is one critical section. `int` arithmetic wraps around at 32 bits.
-/
import Mathlib.Data.BitVec
import OpenPA.Machine.Retry

namespace OpenPA.Atomic

open OpenPA.Machine

variable {w : Nat} {A B : Type}

/-- The address of an `OPA_int_t` or of an `OPA_ptr_t`. -/
inductive Loc (A B : Type) where
  | int (ptr : A)
  | ptr (ptr : B)
  deriving DecidableEq

/-- An `int` has 32 bits and a pointer `w`. -/
def Val (w : Nat) : Loc A B → Type
  | .int _ => BitVec 32
  | .ptr _ => BitVec w

instance : (l : Loc A B) → DecidableEq (Val w l)
  | .int _ => inferInstanceAs (DecidableEq (BitVec 32))
  | .ptr _ => inferInstanceAs (DecidableEq (BitVec w))

abbrev Cells (w : Nat) (A B : Type) := (l : Loc A B) → Val w l

/-- The value of an `OPA_int_t`. -/
def intAt (ptr : A) (m : Cells w A B) : BitVec 32 := m (.int ptr)

/-- All cells 0. -/
def zeroCells : Cells w A B
  | .int _ => 0#32
  | .ptr _ => 0#w

/-- What an operation returns. -/
inductive Ret (w : Nat) where
  | void
  | int (v : BitVec 32)
  | ptr (v : BitVec w)
  deriving DecidableEq

/-- A call of an operation. -/
inductive Op (w : Nat) (A B : Type) where
  | loadInt (ptr : A)
  | storeInt (ptr : A) (val : BitVec 32)
  | loadPtr (ptr : B)
  | storePtr (ptr : B) (val : BitVec w)
  | addInt (ptr : A) (val : BitVec 32)
  | incrInt (ptr : A)
  | decrInt (ptr : A)
  | decrAndTestInt (ptr : A)
  | fetchAndAddInt (ptr : A) (val : BitVec 32)
  | fetchAndIncrInt (ptr : A)
  | fetchAndDecrInt (ptr : A)
  | casPtr (ptr : B) (oldv newv : BitVec w)
  | casInt (ptr : A) (oldv newv : BitVec 32)
  | swapPtr (ptr : B) (val : BitVec w)
  | swapInt (ptr : A) (val : BitVec 32)

/-! ## The critical sections: `ptr->v` after it, and what is returned -/

namespace ByLock

def loadInt (v : BitVec 32) : BitVec 32 × BitVec 32 := (v, v)

def storeInt (val : BitVec 32) (_ : BitVec 32) : BitVec 32 × Unit := (val, ())

def loadPtr (v : BitVec w) : BitVec w × BitVec w := (v, v)

def storePtr (val : BitVec w) (_ : BitVec w) : BitVec w × Unit := (val, ())

def addInt (val v : BitVec 32) : BitVec 32 × Unit := (v + val, ())

def casPtr (oldv newv v : BitVec w) : BitVec w × BitVec w :=
  let prev := v
  (if prev = oldv then newv else v, prev)

def casInt (oldv newv v : BitVec 32) : BitVec 32 × BitVec 32 :=
  let prev := v
  (if prev = oldv then newv else v, prev)

def decrAndTestInt (v : BitVec 32) : BitVec 32 × BitVec 32 :=
  let new_val := v - 1
  (new_val, if 0 = new_val then 1 else 0)

def decrInt (v : BitVec 32) : BitVec 32 × Unit := (v - 1, ())

def fetchAndAddInt (val v : BitVec 32) : BitVec 32 × BitVec 32 :=
  let prev := v
  (v + val, prev)

def fetchAndDecrInt (v : BitVec 32) : BitVec 32 × BitVec 32 :=
  let prev := v
  (v - 1, prev)

def fetchAndIncrInt (v : BitVec 32) : BitVec 32 × BitVec 32 :=
  let prev := v
  (v + 1, prev)

def incrInt (v : BitVec 32) : BitVec 32 × Unit := (v + 1, ())

def swapPtr (val v : BitVec w) : BitVec w × BitVec w :=
  let prev := v
  (val, prev)

def swapInt (val v : BitVec 32) : BitVec 32 × BitVec 32 :=
  let prev := v
  (val, prev)

end ByLock

variable [DecidableEq A] [DecidableEq B]

/-- A critical section on one cell. -/
def atCell {R : Type} (m : Cells w A B) (l : Loc A B) (f : Val w l → Val w l × R) (ret : R → Ret w) :
    Cells w A B × Ret w :=
  (Function.update m l (f (m l)).1, ret (f (m l)).2)

/-- Every operation as `opa_by_lock.h` does it, in one step. -/
def byLock (m : Cells w A B) : Op w A B → Cells w A B × Ret w
  | .loadInt ptr => atCell m (.int ptr) ByLock.loadInt .int
  | .storeInt ptr val => atCell m (.int ptr) (ByLock.storeInt val) fun _ => .void
  | .loadPtr ptr => atCell m (.ptr ptr) ByLock.loadPtr .ptr
  | .storePtr ptr val => atCell m (.ptr ptr) (ByLock.storePtr val) fun _ => .void
  | .addInt ptr val => atCell m (.int ptr) (ByLock.addInt val) fun _ => .void
  | .incrInt ptr => atCell m (.int ptr) ByLock.incrInt fun _ => .void
  | .decrInt ptr => atCell m (.int ptr) ByLock.decrInt fun _ => .void
  | .decrAndTestInt ptr => atCell m (.int ptr) ByLock.decrAndTestInt .int
  | .fetchAndAddInt ptr val => atCell m (.int ptr) (ByLock.fetchAndAddInt val) .int
  | .fetchAndIncrInt ptr => atCell m (.int ptr) ByLock.fetchAndIncrInt .int
  | .fetchAndDecrInt ptr => atCell m (.int ptr) ByLock.fetchAndDecrInt .int
  | .casPtr ptr oldv newv => atCell m (.ptr ptr) (ByLock.casPtr oldv newv) .ptr
  | .casInt ptr oldv newv => atCell m (.int ptr) (ByLock.casInt oldv newv) .int
  | .swapPtr ptr val => atCell m (.ptr ptr) (ByLock.swapPtr val) .ptr
  | .swapInt ptr val => atCell m (.int ptr) (ByLock.swapInt val) .int

/-- An operation on a cell is a critical section that writes what it found when it is not to write. -/
theorem atCell_of_rmw {R : Type} (m : Cells w A B) {p : Rmw (Loc A B) (Val w) R} {f : Val w p.cell → Val w p.cell × R}
    (ret : R → Ret w) (h : ∀ v, f v = (if p.cond v then p.new v else v, p.ret v)) :
    (p.map ret).atOnce m = atCell m p.cell f ret := by
  unfold atCell
  rw [h]
  by_cases hc : p.cond (m p.cell) = true
  · rw [if_pos hc]
    exact Rmw.atOnce_writes hc
  · rw [if_neg hc, Function.update_eq_self]
    exact Rmw.atOnce_keeps hc

end OpenPA.Atomic
