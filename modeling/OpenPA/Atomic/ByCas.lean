/-
Swap and fetch-and-add emulated by compare-and-swap (`opa_emulated.h`), next to the operations that the
machine has as single accesses. The loops use the value that a failed compare-and-swap returned as the next
one to expect, and return the last one. For any interleaving they are linearizable to the operations of
`opa_by_lock.h` (`cas_linearizable`), also when a cell leaves a value and returns to it in between.
-/
import OpenPA.Atomic.ByLlsc

namespace OpenPA.Atomic

open OpenPA.Machine

variable {w : Nat} {A B : Type}

/-- `OPA_fetch_and_add_int_by_cas` -/
def fetchAndAddIntByCas (ptr : A) (val : BitVec 32) : Code (Loc A B) (Val w) (BitVec 32) :=
  .loop { cell := .int ptr, cond := fun _ => true, new := fun (prev : BitVec 32) => prev + val, ret := fun prev => prev }

/-- `OPA_swap_ptr_by_cas` -/
def swapPtrByCas (ptr : B) (val : BitVec w) : Code (Loc A B) (Val w) (BitVec w) :=
  .loop { cell := .ptr ptr, cond := fun _ => true, new := fun _ => val, ret := fun prev => prev }

/-- `OPA_swap_int_by_cas` -/
def swapIntByCas (ptr : A) (val : BitVec 32) : Code (Loc A B) (Val w) (BitVec 32) :=
  .loop { cell := .int ptr, cond := fun _ => true, new := fun _ => val, ret := fun prev => prev }

/-- A call of an emulated operation, or of one that the machine does in a single access. -/
inductive CasOp (w : Nat) (A B : Type) where
  | fetchAndAddIntByCas (ptr : A) (val : BitVec 32)
  | swapPtrByCas (ptr : B) (val : BitVec w)
  | swapIntByCas (ptr : A) (val : BitVec 32)
  | atomic (op : Op w A B)

/-- The operation that a call is for. -/
def CasOp.op : CasOp w A B → Op w A B
  | .fetchAndAddIntByCas ptr val => .fetchAndAddInt ptr val
  | .swapPtrByCas ptr val => .swapPtr ptr val
  | .swapIntByCas ptr val => .swapInt ptr val
  | .atomic op => op

/-- The code of every call; the machine's own operations are single accesses. -/
def casCode : CasOp w A B → Code (Loc A B) (Val w) (Ret w)
  | .fetchAndAddIntByCas ptr val => (fetchAndAddIntByCas ptr val).map .int
  | .swapPtrByCas ptr val => (swapPtrByCas ptr val).map .ptr
  | .swapIntByCas ptr val => (swapIntByCas ptr val).map .int
  | .atomic op => .once (llscCode op).rmw

/-- The loops write whatever they find. -/
theorem casCode_loop (c : CasOp w A B) (p : Rmw (Loc A B) (Val w) (Ret w)) (h : casCode c = .loop p)
    (v : Val w p.cell) : p.cond v = true := by
  cases c with
  | atomic op => cases h
  | _ => cases h; rfl

variable [DecidableEq A] [DecidableEq B]

/-- Done in one step, each call is the operation of `opa_by_lock.h`. -/
theorem casCode_atOnce (m : Cells w A B) (c : CasOp w A B) : (casCode c).rmw.atOnce m = byLock m c.op := by
  cases c with
  | fetchAndAddIntByCas ptr val => exact atCell_of_rmw m .int fun _ => rfl
  | swapPtrByCas ptr val => exact atCell_of_rmw m .ptr fun _ => rfl
  | swapIntByCas ptr val => exact atCell_of_rmw m .int fun _ => rfl
  | atomic op => exact llscCode_atOnce m op

variable {T : Type} [DecidableEq T]

/-- The emulation by compare-and-swap is linearizable to the lock-based operations: for any number of threads,
any calls of the emulated and of the machine's own operations and any interleaving of their accesses, there is
a total order of the calls that have returned, consistent with real time, in which each has the return value
and the effect of its `opa_by_lock.h` operation in one step, and the contents agree. -/
theorem cas_linearizable (m : Cells w A B) (as : List (SystemAct T (CasOp w A B)))
    (s : System T (Cells w A B) (CasPc (Loc A B) (Val w) (Ret w)) (CasOp w A B) (Ret w))
    (h : run (systemStep (casObject casCode)) (System.init m) as = some s) :
    ∃ order, Linearizes (fun m c => byLock m c.op) m s.shared s.done order := by
  have hspec : (fun m (c : CasOp w A B) => (casCode c).rmw.atOnce m) = fun m c => byLock m c.op := by
    funext m c
    exact casCode_atOnce m c
  have hlast := cas_lastAccess (T := T) (casCode (w := w) (A := A) (B := B)) casCode_loop
  rw [hspec] at hlast
  exact ⟨s.done, hlast.linearizes h⟩

/-- A thread swaps 9 into a cell while another one changes the cell from 0 to 5 and back before the
compare-and-swap; a third one adds 7 after a compare-and-swap that failed. -/
def casActs : List (SystemAct Nat (CasOp 8 Bool Bool)) :=
  [.call 0 (.swapIntByCas true 9), .step 0 false, .call 2 (.fetchAndAddIntByCas true 7), .step 2 false,
    .call 1 (.atomic (.storeInt true 5)), .step 1 false, .call 1 (.atomic (.storeInt true 0)), .step 1 false,
    .step 0 false, .step 2 false, .step 2 false]

theorem cas_linearizable_demo : ∃ s order,
    run (systemStep (casObject casCode)) (System.init zeroCells) casActs = some s ∧
    s.done.map (fun c => (c.thread, c.ret)) = [(1, .void), (1, .void), (0, .int 0#32), (2, .int 9#32)] ∧
    s.shared (.int true) = 16#32 ∧ Linearizes (fun m c => byLock m c.op) zeroCells s.shared s.done order := by
  have h : (run (systemStep (casObject casCode)) (System.init zeroCells) casActs).map
      (fun s => (s.done.map fun c => (c.thread, c.ret), (s.shared (.int true) : BitVec 32))) =
        some ([(1, .void), (1, .void), (0, .int 0#32), (2, .int 9#32)], 16#32) := by decide
  obtain ⟨s, hs, hd⟩ := Option.map_eq_some_iff.1 h
  obtain ⟨hret, hmem⟩ := Prod.mk.inj hd
  obtain ⟨order, ho⟩ := cas_linearizable zeroCells casActs s hs
  exact ⟨s, order, hs, hret, hmem, ho⟩

end OpenPA.Atomic
