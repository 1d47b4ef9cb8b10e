/-
The operations emulated by load-link and store-conditional (`opa_emulated.h`), in the source's layers: the
retry loops of fetch-and-add, compare-and-swap and swap, and the others in terms of fetch-and-add. Loads and
stores are single accesses. For any number of threads and any interleaving of the accesses they are
linearizable to the operations of `opa_by_lock.h` (`llsc_linearizable`).
-/
import OpenPA.Atomic.ByLock

namespace OpenPA.Atomic

open OpenPA.Machine

variable {w : Nat} {A B : Type}

/-! ## The operations -/

def loadInt (ptr : A) : Code (Loc A B) (Val w) (BitVec 32) :=
  .once { cell := .int ptr, cond := fun _ => false, new := fun v => v, ret := fun v => v }

def storeInt (ptr : A) (val : BitVec 32) : Code (Loc A B) (Val w) Unit :=
  .once { cell := .int ptr, cond := fun _ => true, new := fun _ => val, ret := fun _ => () }

def loadPtr (ptr : B) : Code (Loc A B) (Val w) (BitVec w) :=
  .once { cell := .ptr ptr, cond := fun _ => false, new := fun v => v, ret := fun v => v }

def storePtr (ptr : B) (val : BitVec w) : Code (Loc A B) (Val w) Unit :=
  .once { cell := .ptr ptr, cond := fun _ => true, new := fun _ => val, ret := fun _ => () }

/-- `OPA_fetch_and_add_int_by_llsc` -/
def fetchAndAddIntByLlsc (ptr : A) (val : BitVec 32) : Code (Loc A B) (Val w) (BitVec 32) :=
  .loop { cell := .int ptr, cond := fun _ => true, new := fun (prev : BitVec 32) => prev + val, ret := fun prev => prev }

/-- `OPA_add_int_by_llsc` -/
def addIntByLlsc (ptr : A) (val : BitVec 32) : Code (Loc A B) (Val w) Unit :=
  (fetchAndAddIntByLlsc ptr val).map fun _ => ()

/-- `OPA_incr_int_by_llsc` -/
def incrIntByLlsc (ptr : A) : Code (Loc A B) (Val w) Unit := addIntByLlsc ptr 1

/-- `OPA_decr_int_by_llsc` -/
def decrIntByLlsc (ptr : A) : Code (Loc A B) (Val w) Unit := addIntByLlsc ptr (-1)

/-- `OPA_fetch_and_decr_int_by_llsc` -/
def fetchAndDecrIntByLlsc (ptr : A) : Code (Loc A B) (Val w) (BitVec 32) := fetchAndAddIntByLlsc ptr (-1)

/-- `OPA_fetch_and_incr_int_by_llsc` -/
def fetchAndIncrIntByLlsc (ptr : A) : Code (Loc A B) (Val w) (BitVec 32) := fetchAndAddIntByLlsc ptr 1

/-- `OPA_decr_and_test_int_by_llsc` -/
def decrAndTestIntByLlsc (ptr : A) : Code (Loc A B) (Val w) (BitVec 32) :=
  (fetchAndDecrIntByLlsc ptr).map fun prev => if prev = 1 then 1 else 0

/-- `OPA_cas_ptr_by_llsc` -/
def casPtrByLlsc (ptr : B) (oldv newv : BitVec w) : Code (Loc A B) (Val w) (BitVec w) :=
  .loop { cell := .ptr ptr, cond := fun (prev : BitVec w) => prev = oldv, new := fun _ => newv, ret := fun prev => prev }

/-- `OPA_cas_int_by_llsc` -/
def casIntByLlsc (ptr : A) (oldv newv : BitVec 32) : Code (Loc A B) (Val w) (BitVec 32) :=
  .loop { cell := .int ptr, cond := fun (prev : BitVec 32) => prev = oldv, new := fun _ => newv, ret := fun prev => prev }

/-- `OPA_swap_ptr_by_llsc` -/
def swapPtrByLlsc (ptr : B) (val : BitVec w) : Code (Loc A B) (Val w) (BitVec w) :=
  .loop { cell := .ptr ptr, cond := fun _ => true, new := fun _ => val, ret := fun prev => prev }

/-- `OPA_swap_int_by_llsc` -/
def swapIntByLlsc (ptr : A) (val : BitVec 32) : Code (Loc A B) (Val w) (BitVec 32) :=
  .loop { cell := .int ptr, cond := fun _ => true, new := fun _ => val, ret := fun prev => prev }

/-- The code of every operation on a machine with load-link and store-conditional. -/
def llscCode : Op w A B → Code (Loc A B) (Val w) (Ret w)
  | .loadInt ptr => (loadInt ptr).map .int
  | .storeInt ptr val => (storeInt ptr val).map fun _ => .void
  | .loadPtr ptr => (loadPtr ptr).map .ptr
  | .storePtr ptr val => (storePtr ptr val).map fun _ => .void
  | .addInt ptr val => (addIntByLlsc ptr val).map fun _ => .void
  | .incrInt ptr => (incrIntByLlsc ptr).map fun _ => .void
  | .decrInt ptr => (decrIntByLlsc ptr).map fun _ => .void
  | .decrAndTestInt ptr => (decrAndTestIntByLlsc ptr).map .int
  | .fetchAndAddInt ptr val => (fetchAndAddIntByLlsc ptr val).map .int
  | .fetchAndIncrInt ptr => (fetchAndIncrIntByLlsc ptr).map .int
  | .fetchAndDecrInt ptr => (fetchAndDecrIntByLlsc ptr).map .int
  | .casPtr ptr oldv newv => (casPtrByLlsc ptr oldv newv).map .ptr
  | .casInt ptr oldv newv => (casIntByLlsc ptr oldv newv).map .int
  | .swapPtr ptr val => (swapPtrByLlsc ptr val).map .ptr
  | .swapInt ptr val => (swapIntByLlsc ptr val).map .int

/-! ## They do what `opa_by_lock.h` does -/

variable [DecidableEq A] [DecidableEq B]

/-- Done in one step, each operation is the one of `opa_by_lock.h`. -/
theorem llscCode_atOnce (m : Cells w A B) (op : Op w A B) : (llscCode op).rmw.atOnce m = byLock m op := by
  cases op with
  | loadInt ptr => exact atCell_of_rmw m .int fun _ => rfl
  | storeInt ptr val => exact atCell_of_rmw m (fun _ => .void) fun _ => rfl
  | loadPtr ptr => exact atCell_of_rmw m .ptr fun _ => rfl
  | storePtr ptr val => exact atCell_of_rmw m (fun _ => .void) fun _ => rfl
  | addInt ptr val => exact atCell_of_rmw m (fun _ => .void) fun _ => rfl
  | incrInt ptr => exact atCell_of_rmw m (fun _ => .void) fun _ => rfl
  | decrInt ptr =>
    apply atCell_of_rmw m (fun _ => .void)
    intro (v : BitVec 32)
    show (v - 1, ()) = (v + -1, ())
    rw [BitVec.sub_eq_add_neg]
  | decrAndTestInt ptr =>
    apply atCell_of_rmw m .int
    intro (v : BitVec 32)
    show (v - 1, if 0 = v - 1 then 1 else 0) = (v + -1, if v = 1 then 1 else 0)
    have htest : (0 = v - 1) ↔ v = 1 := by
      constructor
      · intro h
        exact (sub_eq_zero.1 h.symm)
      · rintro rfl
        rfl
    rw [BitVec.sub_eq_add_neg] at htest ⊢
    simp only [htest]
  | fetchAndAddInt ptr val => exact atCell_of_rmw m .int fun _ => rfl
  | fetchAndIncrInt ptr => exact atCell_of_rmw m .int fun _ => rfl
  | fetchAndDecrInt ptr =>
    apply atCell_of_rmw m .int
    intro (v : BitVec 32)
    show (v - 1, v) = (v + -1, v)
    rw [BitVec.sub_eq_add_neg]
  | casPtr ptr oldv newv =>
    apply atCell_of_rmw m .ptr
    intro (v : BitVec w)
    show (if v = oldv then newv else v, v) = (if decide (v = oldv) = true then newv else v, v)
    simp only [decide_eq_true_eq]
  | casInt ptr oldv newv =>
    apply atCell_of_rmw m .int
    intro (v : BitVec 32)
    show (if v = oldv then newv else v, v) = (if decide (v = oldv) = true then newv else v, v)
    simp only [decide_eq_true_eq]
  | swapPtr ptr val => exact atCell_of_rmw m .ptr fun _ => rfl
  | swapInt ptr val => exact atCell_of_rmw m .int fun _ => rfl

variable {T : Type} [DecidableEq T]

/-- The emulation by load-link and store-conditional is linearizable to the lock-based operations: for any
number of threads, any calls on any cells and any interleaving of their accesses, with any spurious failures,
there is a total order of the calls that have returned, consistent with real time, in which each has the
return value and the effect of its `opa_by_lock.h` operation in one step, and the contents agree. -/
theorem llsc_linearizable (u : Linked T (Loc A B) (Val w)) (as : List (SystemAct T (Op w A B)))
    (s : System T (Linked T (Loc A B) (Val w)) (LlscPc (Loc A B) (Val w) (Ret w)) (Op w A B) (Ret w))
    (h : run (systemStep (llscObject llscCode)) (System.init u) as = some s) :
    ∃ order, Linearizes byLock u.mem s.shared.mem s.done order := by
  have hspec : (fun m (op : Op w A B) => (llscCode op).rmw.atOnce m) = byLock := by
    funext m op
    exact llscCode_atOnce m op
  have hlast := llsc_lastAccess (T := T) (llscCode (w := w) (A := A) (B := B))
  rw [hspec] at hlast
  exact ⟨s.done, hlast.linearizes h⟩

/-- Two threads add 5 and 7 to a cell: the first one's store-conditional fails because the second one's was in
between, and then once spuriously. -/
def llscActs : List (SystemAct Bool (Op 8 Bool Bool)) :=
  [.call true (.fetchAndAddInt true 5), .step true false, .call false (.fetchAndAddInt true 7), .step false false,
    .step false false, .step true false, .step true false, .step true true, .step true false, .step true false]

theorem llsc_linearizable_demo : ∃ s order,
    run (systemStep (llscObject llscCode)) (System.init ⟨zeroCells, fun _ _ => false⟩) llscActs = some s ∧
    s.done.map (fun c => (c.thread, c.ret)) = [(false, .int 0#32), (true, .int 7#32)] ∧
    s.shared.mem (.int true) = 12#32 ∧ Linearizes byLock zeroCells s.shared.mem s.done order := by
  have h : (run (systemStep (llscObject llscCode)) (System.init ⟨zeroCells, fun _ _ => false⟩) llscActs).map
      (fun s => (s.done.map fun c => (c.thread, c.ret), (s.shared.mem (.int true) : BitVec 32))) =
        some ([(false, .int 0#32), (true, .int 7#32)], 12#32) := by decide
  obtain ⟨s, hs, hd⟩ := Option.map_eq_some_iff.1 h
  obtain ⟨hret, hmem⟩ := Prod.mk.inj hd
  obtain ⟨order, ho⟩ := llsc_linearizable ⟨zeroCells, fun _ _ => false⟩ llscActs s hs
  exact ⟨s, order, hs, hret, hmem, ho⟩

end OpenPA.Atomic
