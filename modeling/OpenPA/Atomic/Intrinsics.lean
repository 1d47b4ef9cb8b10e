/-
The ports made of a compiler's or a system's atomic functions: gcc's intrinsics (`opa_gcc_intrinsics.h`), those of
Windows (`opa_nt_intrinsics.h`), C11's generic functions (`opa_c11_atomics.h`), and `atomic_ops` of Solaris
(`opa_sun_atomic_ops.h`), some of which return the old value, others the new one, from which the port goes back
to the old one. What a port does not have it emulates (`opa_emulated.h`). Every port is linearizable to the
operations of `opa_by_lock.h` (`port_linearizable`).
-/
import OpenPA.Atomic.ByCas

namespace OpenPA.Atomic

open OpenPA.Machine

variable {w n : Nat} {A B R : Type}

/-! ## Atomic functions: the new value of the cell, and what is returned -/

namespace Intrinsic

/-- `__sync_fetch_and_add`, `_InterlockedExchangeAdd`, `atomic_fetch_add_explicit`: the old value -/
def fetchAndAdd (val v : BitVec n) : BitVec n × BitVec n := (v + val, v)

/-- `atomic_add_int_nv`, `_InterlockedIncrement`, `atomic_inc_uint_nv`: the new value -/
def addAndFetch (val v : BitVec n) : BitVec n × BitVec n := (v + val, v + val)

/-- `__sync_sub_and_fetch`, `_InterlockedDecrement`, `atomic_dec_uint_nv`: the new value -/
def subAndFetch (val v : BitVec n) : BitVec n × BitVec n := (v - val, v - val)

/-- `__sync_val_compare_and_swap`, `_InterlockedCompareExchange`, `atomic_cas_uint`, `atomic_cas_ptr`: the old value -/
def valCompareAndSwap (oldv newv v : BitVec n) : BitVec n × BitVec n := (if v = oldv then newv else v, v)

/-- `atomic_compare_exchange_strong_explicit`: whether it found `expected`, which is set to the old value if not -/
def compareExchangeStrong (expected desired v : BitVec n) : BitVec n × Bool × BitVec n :=
  if v = expected then (desired, true, expected) else (v, false, v)

/-- `__sync_lock_test_and_set` where it is a swap, `_InterlockedExchange`, `atomic_exchange_explicit`,
`atomic_swap_uint`, `atomic_swap_ptr`: the old value -/
def exchange (val v : BitVec n) : BitVec n × BitVec n := (val, v)

end Intrinsic

/-- A call of such a function on a cell. -/
def intrinsic (l : Loc A B) (f : Val w l → Val w l × R) : Code (Loc A B) (Val w) R :=
  .once { cell := l, cond := fun _ => true, new := fun v => (f v).1, ret := fun v => (f v).2 }

/-! ## Emulated operations of `opa_emulated.h` -/

section Emulated

variable (faa : A → BitVec 32 → Code (Loc A B) (Val w) (BitVec 32)) (fad fai : A → Code (Loc A B) (Val w) (BitVec 32))

/-- `OPA_fetch_and_incr_int_by_faa` -/
def fetchAndIncrIntByFaa (ptr : A) : Code (Loc A B) (Val w) (BitVec 32) := faa ptr 1

/-- `OPA_fetch_and_decr_int_by_faa` -/
def fetchAndDecrIntByFaa (ptr : A) : Code (Loc A B) (Val w) (BitVec 32) := faa ptr (-1)

/-- `OPA_add_int_by_faa` -/
def addIntByFaa (ptr : A) (val : BitVec 32) : Code (Loc A B) (Val w) Unit := (faa ptr val).map fun _ => ()

/-- `OPA_incr_int_by_fai` -/
def incrIntByFai (ptr : A) : Code (Loc A B) (Val w) Unit := (fai ptr).map fun _ => ()

/-- `OPA_decr_int_by_fad` -/
def decrIntByFad (ptr : A) : Code (Loc A B) (Val w) Unit := (fad ptr).map fun _ => ()

end Emulated

/-! ## The ports -/

namespace Gcc

def fetchAndAddInt (ptr : A) (val : BitVec 32) : Code (Loc A B) (Val w) (BitVec 32) :=
  intrinsic (.int ptr) (Intrinsic.fetchAndAdd val)

def decrAndTestInt (ptr : A) : Code (Loc A B) (Val w) (BitVec 32) :=
  (intrinsic (.int ptr) (Intrinsic.subAndFetch 1)).map fun (nv : BitVec 32) => if nv = 0 then 1 else 0

def fetchAndIncrInt (ptr : A) : Code (Loc A B) (Val w) (BitVec 32) := fetchAndIncrIntByFaa fetchAndAddInt ptr

def fetchAndDecrInt (ptr : A) : Code (Loc A B) (Val w) (BitVec 32) := fetchAndDecrIntByFaa fetchAndAddInt ptr

/-- The operations; `isSwap` is `SYNC_LOCK_TEST_AND_SET_IS_SWAP`. -/
def code (isSwap : Bool) : Op w A B → Code (Loc A B) (Val w) (Ret w)
  | .loadInt ptr => (loadInt ptr).map .int
  | .storeInt ptr val => (storeInt ptr val).map fun _ => .void
  | .loadPtr ptr => (loadPtr ptr).map .ptr
  | .storePtr ptr val => (storePtr ptr val).map fun _ => .void
  | .addInt ptr val => (addIntByFaa fetchAndAddInt ptr val).map fun _ => .void
  | .incrInt ptr => (incrIntByFai fetchAndIncrInt ptr).map fun _ => .void
  | .decrInt ptr => (decrIntByFad fetchAndDecrInt ptr).map fun _ => .void
  | .decrAndTestInt ptr => (decrAndTestInt ptr).map .int
  | .fetchAndAddInt ptr val => (fetchAndAddInt ptr val).map .int
  | .fetchAndIncrInt ptr => (fetchAndIncrInt ptr).map .int
  | .fetchAndDecrInt ptr => (fetchAndDecrInt ptr).map .int
  | .casPtr ptr oldv newv => (intrinsic (.ptr ptr) (Intrinsic.valCompareAndSwap oldv newv)).map .ptr
  | .casInt ptr oldv newv => (intrinsic (.int ptr) (Intrinsic.valCompareAndSwap oldv newv)).map .int
  | .swapPtr ptr val =>
    if isSwap then (intrinsic (.ptr ptr) (Intrinsic.exchange val)).map .ptr else (swapPtrByCas ptr val).map .ptr
  | .swapInt ptr val =>
    if isSwap then (intrinsic (.int ptr) (Intrinsic.exchange val)).map .int else (swapIntByCas ptr val).map .int

end Gcc

namespace Nt

def fetchAndAddInt (ptr : A) (val : BitVec 32) : Code (Loc A B) (Val w) (BitVec 32) :=
  intrinsic (.int ptr) (Intrinsic.fetchAndAdd val)

/-- The operations; a `long` has 32 bits, as an `int`, and a pointer is exchanged at its own size. -/
def code : Op w A B → Code (Loc A B) (Val w) (Ret w)
  | .loadInt ptr => (loadInt ptr).map .int
  | .storeInt ptr val => (storeInt ptr val).map fun _ => .void
  | .loadPtr ptr => (loadPtr ptr).map .ptr
  | .storePtr ptr val => (storePtr ptr val).map fun _ => .void
  | .addInt ptr val => ((intrinsic (.int ptr) (Intrinsic.fetchAndAdd val)).map fun _ => ()).map fun _ => .void
  | .incrInt ptr => ((intrinsic (.int ptr) (Intrinsic.addAndFetch 1)).map fun _ => ()).map fun _ => .void
  | .decrInt ptr => ((intrinsic (.int ptr) (Intrinsic.subAndFetch 1)).map fun _ => ()).map fun _ => .void
  | .decrAndTestInt ptr =>
    ((intrinsic (.int ptr) (Intrinsic.subAndFetch 1)).map fun (nv : BitVec 32) => if nv = 0 then 1 else 0).map .int
  | .fetchAndAddInt ptr val => (fetchAndAddInt ptr val).map .int
  | .fetchAndIncrInt ptr => (fetchAndIncrIntByFaa fetchAndAddInt ptr).map .int
  | .fetchAndDecrInt ptr => (fetchAndDecrIntByFaa fetchAndAddInt ptr).map .int
  | .casPtr ptr oldv newv => (intrinsic (.ptr ptr) (Intrinsic.valCompareAndSwap oldv newv)).map .ptr
  | .casInt ptr oldv newv => (intrinsic (.int ptr) (Intrinsic.valCompareAndSwap oldv newv)).map .int
  | .swapPtr ptr val => (intrinsic (.ptr ptr) (Intrinsic.exchange val)).map .ptr
  | .swapInt ptr val => (intrinsic (.int ptr) (Intrinsic.exchange val)).map .int

end Nt

namespace C11

/-- The operations; compare-and-swap returns the comparand, which the function has set to the old value if it did
not find it. -/
def code : Op w A B → Code (Loc A B) (Val w) (Ret w)
  | .loadInt ptr => (loadInt ptr).map .int
  | .storeInt ptr val => (storeInt ptr val).map fun _ => .void
  | .loadPtr ptr => (loadPtr ptr).map .ptr
  | .storePtr ptr val => (storePtr ptr val).map fun _ => .void
  | .addInt ptr val => ((intrinsic (.int ptr) (Intrinsic.fetchAndAdd val)).map fun _ => ()).map fun _ => .void
  | .incrInt ptr => ((intrinsic (.int ptr) (Intrinsic.fetchAndAdd 1)).map fun _ => ()).map fun _ => .void
  | .decrInt ptr => ((intrinsic (.int ptr) (Intrinsic.fetchAndAdd (-1))).map fun _ => ()).map fun _ => .void
  | .decrAndTestInt ptr =>
    ((intrinsic (.int ptr) (Intrinsic.fetchAndAdd (-1))).map fun (prev : BitVec 32) =>
      if 1 = prev then 1 else 0).map .int
  | .fetchAndAddInt ptr val => (intrinsic (.int ptr) (Intrinsic.fetchAndAdd val)).map .int
  | .fetchAndIncrInt ptr => (intrinsic (.int ptr) (Intrinsic.fetchAndAdd 1)).map .int
  | .fetchAndDecrInt ptr => (intrinsic (.int ptr) (Intrinsic.fetchAndAdd (-1))).map .int
  | .casPtr ptr comparand swaperand =>
    ((intrinsic (.ptr ptr) (Intrinsic.compareExchangeStrong comparand swaperand)).map (·.2)).map .ptr
  | .casInt ptr comparand swaperand =>
    ((intrinsic (.int ptr) (Intrinsic.compareExchangeStrong comparand swaperand)).map (·.2)).map .int
  | .swapPtr ptr val => (intrinsic (.ptr ptr) (Intrinsic.exchange val)).map .ptr
  | .swapInt ptr val => (intrinsic (.int ptr) (Intrinsic.exchange val)).map .int

end C11

namespace Sun

/-- The operations; those that return the old value compute it from the new one. -/
def code : Op w A B → Code (Loc A B) (Val w) (Ret w)
  | .loadInt ptr => (loadInt ptr).map .int
  | .storeInt ptr val => (storeInt ptr val).map fun _ => .void
  | .loadPtr ptr => (loadPtr ptr).map .ptr
  | .storePtr ptr val => (storePtr ptr val).map fun _ => .void
  | .addInt ptr val => ((intrinsic (.int ptr) (Intrinsic.addAndFetch val)).map fun _ => ()).map fun _ => .void
  | .incrInt ptr => ((intrinsic (.int ptr) (Intrinsic.addAndFetch 1)).map fun _ => ()).map fun _ => .void
  | .decrInt ptr => ((intrinsic (.int ptr) (Intrinsic.subAndFetch 1)).map fun _ => ()).map fun _ => .void
  | .decrAndTestInt ptr =>
    ((intrinsic (.int ptr) (Intrinsic.subAndFetch 1)).map fun (nv : BitVec 32) => if nv = 0 then 1 else 0).map .int
  | .fetchAndAddInt ptr val =>
    ((intrinsic (.int ptr) (Intrinsic.addAndFetch val)).map fun (nv : BitVec 32) => nv - val).map .int
  | .fetchAndDecrInt ptr =>
    ((intrinsic (.int ptr) (Intrinsic.subAndFetch 1)).map fun (nv : BitVec 32) => nv + 1).map .int
  | .fetchAndIncrInt ptr =>
    ((intrinsic (.int ptr) (Intrinsic.addAndFetch 1)).map fun (nv : BitVec 32) => nv - 1).map .int
  | .casPtr ptr oldv newv => (intrinsic (.ptr ptr) (Intrinsic.valCompareAndSwap oldv newv)).map .ptr
  | .casInt ptr oldv newv => (intrinsic (.int ptr) (Intrinsic.valCompareAndSwap oldv newv)).map .int
  | .swapPtr ptr val => (intrinsic (.ptr ptr) (Intrinsic.exchange val)).map .ptr
  | .swapInt ptr val => (intrinsic (.int ptr) (Intrinsic.exchange val)).map .int

end Sun

inductive IntrinsicPort where
  | gcc (isSwap : Bool)
  | nt
  | c11
  | sun

def IntrinsicPort.code : IntrinsicPort → Op w A B → Code (Loc A B) (Val w) (Ret w)
  | .gcc isSwap => Gcc.code isSwap
  | .nt => Nt.code
  | .c11 => C11.code
  | .sun => Sun.code

/-! ## They do what `opa_by_lock.h` does -/

variable [DecidableEq A] [DecidableEq B]

section Values

omit [DecidableEq A] [DecidableEq B]

theorem decr_eq (v : BitVec 32) : v - 1 = v + -1 := BitVec.sub_eq_add_neg v 1

/-- The test of the new value against 0. -/
theorem decrAndTest_new (v : BitVec 32) :
    ByLock.decrAndTestInt v = (v - 1, if v - 1 = 0 then (1 : BitVec 32) else 0) := by
  unfold ByLock.decrAndTestInt
  rw [Prod.mk.injEq]
  exact ⟨rfl, if_congr eq_comm rfl rfl⟩

/-- The test of the old value against 1. -/
theorem decrAndTest_old (v : BitVec 32) :
    ByLock.decrAndTestInt v = (v + -1, if 1 = v then (1 : BitVec 32) else 0) := by
  rw [decrAndTest_new, decr_eq]
  have htest : v + -1 = 0 ↔ 1 = v := by
    rw [← decr_eq]
    constructor
    · intro h
      exact (sub_eq_zero.1 h).symm
    · rintro rfl
      rfl
  simp only [htest]

theorem compareExchangeStrong_eq (comparand swaperand v : BitVec n) :
    ((Intrinsic.compareExchangeStrong comparand swaperand v).1,
      (Intrinsic.compareExchangeStrong comparand swaperand v).2.2) =
        (if v = comparand then swaperand else v, v) := by
  unfold Intrinsic.compareExchangeStrong
  by_cases hv : v = comparand
  · rw [if_pos hv, if_pos hv, hv]
  · rw [if_neg hv, if_neg hv]

end Values

theorem Gcc.code_atOnce (isSwap : Bool) (m : Cells w A B) (op : Op w A B) :
    (Gcc.code isSwap op).rmw.atOnce m = byLock m op := by
  cases op with
  | loadInt ptr => exact llscCode_atOnce m (.loadInt ptr)
  | storeInt ptr val => exact llscCode_atOnce m (.storeInt ptr val)
  | loadPtr ptr => exact llscCode_atOnce m (.loadPtr ptr)
  | storePtr ptr val => exact llscCode_atOnce m (.storePtr ptr val)
  | addInt ptr val => exact atCell_of_rmw m (fun _ => .void) fun _ => rfl
  | incrInt ptr => exact atCell_of_rmw m (fun _ => .void) fun _ => rfl
  | decrInt ptr => exact atCell_of_rmw m (fun _ => .void) fun v => congrArg (·, ()) (decr_eq v)
  | decrAndTestInt ptr => exact atCell_of_rmw m .int fun v => decrAndTest_new v
  | fetchAndAddInt ptr val => exact atCell_of_rmw m .int fun _ => rfl
  | fetchAndIncrInt ptr => exact atCell_of_rmw m .int fun _ => rfl
  | fetchAndDecrInt ptr => exact atCell_of_rmw m .int fun v => congrArg (·, v) (decr_eq v)
  | casPtr ptr oldv newv => exact atCell_of_rmw m .ptr fun _ => rfl
  | casInt ptr oldv newv => exact atCell_of_rmw m .int fun _ => rfl
  | swapPtr ptr val =>
    cases isSwap with
    | false => exact casCode_atOnce m (.swapPtrByCas ptr val)
    | true => exact atCell_of_rmw m .ptr fun _ => rfl
  | swapInt ptr val =>
    cases isSwap with
    | false => exact casCode_atOnce m (.swapIntByCas ptr val)
    | true => exact atCell_of_rmw m .int fun _ => rfl

theorem Nt.code_atOnce (m : Cells w A B) (op : Op w A B) : (Nt.code op).rmw.atOnce m = byLock m op := by
  cases op with
  | loadInt ptr => exact llscCode_atOnce m (.loadInt ptr)
  | storeInt ptr val => exact llscCode_atOnce m (.storeInt ptr val)
  | loadPtr ptr => exact llscCode_atOnce m (.loadPtr ptr)
  | storePtr ptr val => exact llscCode_atOnce m (.storePtr ptr val)
  | addInt ptr val => exact atCell_of_rmw m (fun _ => .void) fun _ => rfl
  | incrInt ptr => exact atCell_of_rmw m (fun _ => .void) fun _ => rfl
  | decrInt ptr => exact atCell_of_rmw m (fun _ => .void) fun _ => rfl
  | decrAndTestInt ptr => exact atCell_of_rmw m .int fun v => decrAndTest_new v
  | fetchAndAddInt ptr val => exact atCell_of_rmw m .int fun _ => rfl
  | fetchAndIncrInt ptr => exact atCell_of_rmw m .int fun _ => rfl
  | fetchAndDecrInt ptr => exact atCell_of_rmw m .int fun v => congrArg (·, v) (decr_eq v)
  | casPtr ptr oldv newv => exact atCell_of_rmw m .ptr fun _ => rfl
  | casInt ptr oldv newv => exact atCell_of_rmw m .int fun _ => rfl
  | swapPtr ptr val => exact atCell_of_rmw m .ptr fun _ => rfl
  | swapInt ptr val => exact atCell_of_rmw m .int fun _ => rfl

theorem C11.code_atOnce (m : Cells w A B) (op : Op w A B) : (C11.code op).rmw.atOnce m = byLock m op := by
  cases op with
  | loadInt ptr => exact llscCode_atOnce m (.loadInt ptr)
  | storeInt ptr val => exact llscCode_atOnce m (.storeInt ptr val)
  | loadPtr ptr => exact llscCode_atOnce m (.loadPtr ptr)
  | storePtr ptr val => exact llscCode_atOnce m (.storePtr ptr val)
  | addInt ptr val => exact atCell_of_rmw m (fun _ => .void) fun _ => rfl
  | incrInt ptr => exact atCell_of_rmw m (fun _ => .void) fun _ => rfl
  | decrInt ptr => exact atCell_of_rmw m (fun _ => .void) fun v => congrArg (·, ()) (decr_eq v)
  | decrAndTestInt ptr => exact atCell_of_rmw m .int fun v => decrAndTest_old v
  | fetchAndAddInt ptr val => exact atCell_of_rmw m .int fun _ => rfl
  | fetchAndIncrInt ptr => exact atCell_of_rmw m .int fun _ => rfl
  | fetchAndDecrInt ptr => exact atCell_of_rmw m .int fun v => congrArg (·, v) (decr_eq v)
  | casPtr ptr oldv newv => exact atCell_of_rmw m .ptr fun v => (compareExchangeStrong_eq oldv newv v).symm
  | casInt ptr oldv newv => exact atCell_of_rmw m .int fun v => (compareExchangeStrong_eq oldv newv v).symm
  | swapPtr ptr val => exact atCell_of_rmw m .ptr fun _ => rfl
  | swapInt ptr val => exact atCell_of_rmw m .int fun _ => rfl

theorem Sun.code_atOnce (m : Cells w A B) (op : Op w A B) : (Sun.code op).rmw.atOnce m = byLock m op := by
  cases op with
  | loadInt ptr => exact llscCode_atOnce m (.loadInt ptr)
  | storeInt ptr val => exact llscCode_atOnce m (.storeInt ptr val)
  | loadPtr ptr => exact llscCode_atOnce m (.loadPtr ptr)
  | storePtr ptr val => exact llscCode_atOnce m (.storePtr ptr val)
  | addInt ptr val => exact atCell_of_rmw m (fun _ => .void) fun _ => rfl
  | incrInt ptr => exact atCell_of_rmw m (fun _ => .void) fun _ => rfl
  | decrInt ptr => exact atCell_of_rmw m (fun _ => .void) fun _ => rfl
  | decrAndTestInt ptr => exact atCell_of_rmw m .int fun v => decrAndTest_new v
  | fetchAndAddInt ptr val =>
    exact atCell_of_rmw m .int fun (v : BitVec 32) => congrArg (v + val, ·) (BitVec.add_sub_cancel v val).symm
  | fetchAndIncrInt ptr =>
    exact atCell_of_rmw m .int fun (v : BitVec 32) => congrArg (v + 1, ·) (BitVec.add_sub_cancel v 1).symm
  | fetchAndDecrInt ptr =>
    exact atCell_of_rmw m .int fun (v : BitVec 32) => congrArg (v - 1, ·) (BitVec.sub_add_cancel v 1).symm
  | casPtr ptr oldv newv => exact atCell_of_rmw m .ptr fun _ => rfl
  | casInt ptr oldv newv => exact atCell_of_rmw m .int fun _ => rfl
  | swapPtr ptr val => exact atCell_of_rmw m .ptr fun _ => rfl
  | swapInt ptr val => exact atCell_of_rmw m .int fun _ => rfl

theorem IntrinsicPort.code_atOnce (port : IntrinsicPort) (m : Cells w A B) (op : Op w A B) :
    (port.code op).rmw.atOnce m = byLock m op := by
  cases port with
  | gcc isSwap => exact Gcc.code_atOnce isSwap m op
  | nt => exact Nt.code_atOnce m op
  | c11 => exact C11.code_atOnce m op
  | sun => exact Sun.code_atOnce m op

omit [DecidableEq A] [DecidableEq B] in
/-- The only loops are those of swap by compare-and-swap, which write whatever they find. -/
theorem IntrinsicPort.code_loop (port : IntrinsicPort) (op : Op w A B) (p : Rmw (Loc A B) (Val w) (Ret w))
    (h : port.code op = .loop p) (v : Val w p.cell) : p.cond v = true := by
  cases port with
  | gcc isSwap =>
    cases op with
    | swapPtr ptr val =>
      cases isSwap with
      | false => exact casCode_loop (.swapPtrByCas ptr val) p h v
      | true => cases h
    | swapInt ptr val =>
      cases isSwap with
      | false => exact casCode_loop (.swapIntByCas ptr val) p h v
      | true => cases h
    | _ => cases h
  | nt => cases op <;> cases h
  | c11 => cases op <;> cases h
  | sun => cases op <;> cases h

variable {T : Type} [DecidableEq T]

omit [DecidableEq T] in
/-- The calls take effect with their last access. -/
theorem IntrinsicPort.lastAccess (port : IntrinsicPort) :
    LastAccess (casObject (T := T) (port.code (w := w) (A := A) (B := B))) byLock id fun _ _ => CasOk port.code := by
  have hspec : (fun m (op : Op w A B) => (port.code op).rmw.atOnce m) = byLock := by
    funext m op
    exact port.code_atOnce m op
  rw [← hspec]
  exact cas_lastAccess port.code port.code_loop

/-- Every port is linearizable to the lock-based operations: for any number of threads, any calls on any cells and
any interleaving of their accesses, there is a total order of the calls that have returned, consistent with real
time, in which each has the return value and the effect of its `opa_by_lock.h` operation in one step, and the
contents agree. -/
theorem port_linearizable (port : IntrinsicPort) (m : Cells w A B) (as : List (SystemAct T (Op w A B)))
    (s : System T (Cells w A B) (CasPc (Loc A B) (Val w) (Ret w)) (Op w A B) (Ret w))
    (h : run (systemStep (casObject port.code)) (System.init m) as = some s) :
    ∃ order, Linearizes byLock m s.shared s.done order :=
  ⟨s.done, port.lastAccess.linearizes h⟩

/-- With gcc's intrinsics, where test-and-set is not a swap, a thread swaps in 9 while another one decrements the
cell from 1 to 0: the first compare-and-swap fails. -/
def gccActs : List (SystemAct Bool (Op 8 Bool Bool)) :=
  [.call true (.storeInt true 1), .step true false, .call true (.swapInt true 9), .step true false,
    .call false (.decrAndTestInt true), .step false false, .step true false, .step true false]

theorem port_linearizable_demo : ∃ s order,
    run (systemStep (casObject (IntrinsicPort.gcc false).code)) (System.init zeroCells) gccActs = some s ∧
    s.done.map (·.ret) = [.void, .int 1, .int 0] ∧ s.shared (.int true) = 9#32 ∧
    Linearizes byLock zeroCells s.shared s.done order := by
  have h : (run (systemStep (casObject (IntrinsicPort.gcc false).code)) (System.init zeroCells) gccActs).map
      (fun s => (s.done.map (·.ret), (s.shared (.int true) : BitVec 32))) =
        some ([.void, .int 1, .int 0], 9#32) := by decide
  obtain ⟨s, hs, hd⟩ := Option.map_eq_some_iff.1 h
  obtain ⟨hret, hmem⟩ := Prod.mk.inj hd
  obtain ⟨order, ho⟩ := port_linearizable (.gcc false) zeroCells gccActs s hs
  exact ⟨s, order, hs, hret, hmem, ho⟩

end OpenPA.Atomic
