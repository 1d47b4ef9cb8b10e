/-
The operations of `opa_by_lock.h` access by access: `OPA_IPC_SINGLE_CS_ENTER`, the reads and writes of
`ptr->v`, which is volatile, and `OPA_IPC_SINGLE_CS_EXIT`. For any interleaving they are linearizable to the
one-step operations (`lock_linearizable`), no two threads are ever inside, and not all of them wait
(`lock_exclusive`). `opa_unsafe.h` has the same statements without the lock: they are the operations when no
call is made while another one is under way (`unsafe_sequential`).
-/
import OpenPA.Atomic.ByLock
import OpenPA.Machine.Section

namespace OpenPA.Atomic

open OpenPA.Machine

variable {w : Nat} {A B : Type}

/-! ## The statements on `ptr->v` -/

namespace CriticalSection

def loadInt : Body (BitVec 32) (BitVec 32) := .read fun retval => .ret retval

def storeInt (val : BitVec 32) : Body (BitVec 32) Unit := .write val ()

def loadPtr : Body (BitVec w) (BitVec w) := .read fun retval => .ret retval

def storePtr (val : BitVec w) : Body (BitVec w) Unit := .write val ()

/-- `ptr->v += val` -/
def addInt (val : BitVec 32) : Body (BitVec 32) Unit := .read fun v => .write (v + val) ()

def casPtr (oldv newv : BitVec w) : Body (BitVec w) (BitVec w) :=
  .read fun prev => if prev = oldv then .write newv prev else .ret prev

def casInt (oldv newv : BitVec 32) : Body (BitVec 32) (BitVec 32) :=
  .read fun prev => if prev = oldv then .write newv prev else .ret prev

/-- `new_val = --(ptr->v)`, and `0 == new_val` after the section -/
def decrAndTestInt : Body (BitVec 32) (BitVec 32) :=
  .read fun v =>
    let new_val := v - 1
    .write new_val (if 0 = new_val then 1 else 0)

def decrInt : Body (BitVec 32) Unit := .read fun v => .write (v - 1) ()

/-- `prev = ptr->v` and `ptr->v += val` read the cell twice. -/
def fetchAndAddInt (val : BitVec 32) : Body (BitVec 32) (BitVec 32) :=
  .read fun prev => .read fun v => .write (v + val) prev

def fetchAndDecrInt : Body (BitVec 32) (BitVec 32) := .read fun prev => .read fun v => .write (v - 1) prev

def fetchAndIncrInt : Body (BitVec 32) (BitVec 32) := .read fun prev => .read fun v => .write (v + 1) prev

def incrInt : Body (BitVec 32) Unit := .read fun v => .write (v + 1) ()

def swapPtr (val : BitVec w) : Body (BitVec w) (BitVec w) := .read fun prev => .write val prev

def swapInt (val : BitVec 32) : Body (BitVec 32) (BitVec 32) := .read fun prev => .write val prev

end CriticalSection

/-- The code of every operation in `opa_by_lock.h`. -/
def lockCode : Op w A B → SectionCode (Loc A B) (Val w) (Ret w)
  | .loadInt ptr => .locked (.int ptr) (CriticalSection.loadInt.map .int)
  | .storeInt ptr val => .locked (.int ptr) ((CriticalSection.storeInt val).map fun _ => .void)
  | .loadPtr ptr => .locked (.ptr ptr) (CriticalSection.loadPtr.map .ptr)
  | .storePtr ptr val => .locked (.ptr ptr) ((CriticalSection.storePtr val).map fun _ => .void)
  | .addInt ptr val => .locked (.int ptr) ((CriticalSection.addInt val).map fun _ => .void)
  | .incrInt ptr => .locked (.int ptr) (CriticalSection.incrInt.map fun _ => .void)
  | .decrInt ptr => .locked (.int ptr) (CriticalSection.decrInt.map fun _ => .void)
  | .decrAndTestInt ptr => .locked (.int ptr) (CriticalSection.decrAndTestInt.map .int)
  | .fetchAndAddInt ptr val => .locked (.int ptr) ((CriticalSection.fetchAndAddInt val).map .int)
  | .fetchAndIncrInt ptr => .locked (.int ptr) (CriticalSection.fetchAndIncrInt.map .int)
  | .fetchAndDecrInt ptr => .locked (.int ptr) (CriticalSection.fetchAndDecrInt.map .int)
  | .casPtr ptr oldv newv => .locked (.ptr ptr) ((CriticalSection.casPtr oldv newv).map .ptr)
  | .casInt ptr oldv newv => .locked (.int ptr) ((CriticalSection.casInt oldv newv).map .int)
  | .swapPtr ptr val => .locked (.ptr ptr) ((CriticalSection.swapPtr val).map .ptr)
  | .swapInt ptr val => .locked (.int ptr) ((CriticalSection.swapInt val).map .int)

/-- The code of every operation in `opa_unsafe.h`: the statements of the critical sections, alone. -/
def unsafeCode : Op w A B → SectionCode (Loc A B) (Val w) (Ret w)
  | .loadInt ptr => .bare (.int ptr) (CriticalSection.loadInt.map .int)
  | .storeInt ptr val => .bare (.int ptr) ((CriticalSection.storeInt val).map fun _ => .void)
  | .loadPtr ptr => .bare (.ptr ptr) (CriticalSection.loadPtr.map .ptr)
  | .storePtr ptr val => .bare (.ptr ptr) ((CriticalSection.storePtr val).map fun _ => .void)
  | .addInt ptr val => .bare (.int ptr) ((CriticalSection.addInt val).map fun _ => .void)
  | .incrInt ptr => .bare (.int ptr) (CriticalSection.incrInt.map fun _ => .void)
  | .decrInt ptr => .bare (.int ptr) (CriticalSection.decrInt.map fun _ => .void)
  | .decrAndTestInt ptr => .bare (.int ptr) (CriticalSection.decrAndTestInt.map .int)
  | .fetchAndAddInt ptr val => .bare (.int ptr) ((CriticalSection.fetchAndAddInt val).map .int)
  | .fetchAndIncrInt ptr => .bare (.int ptr) (CriticalSection.fetchAndIncrInt.map .int)
  | .fetchAndDecrInt ptr => .bare (.int ptr) (CriticalSection.fetchAndDecrInt.map .int)
  | .casPtr ptr oldv newv => .bare (.ptr ptr) ((CriticalSection.casPtr oldv newv).map .ptr)
  | .casInt ptr oldv newv => .bare (.int ptr) ((CriticalSection.casInt oldv newv).map .int)
  | .swapPtr ptr val => .bare (.ptr ptr) ((CriticalSection.swapPtr val).map .ptr)
  | .swapInt ptr val => .bare (.int ptr) ((CriticalSection.swapInt val).map .int)

/-! ## At once they are the one-step operations -/

theorem casBody_run {n : Nat} (oldv newv v : BitVec n) :
    (Body.read fun prev => if prev = oldv then .write newv prev else .ret prev : Body (BitVec n) (BitVec n)).run v =
      (if v = oldv then newv else v, v) := by
  show (if v = oldv then Body.write newv v else .ret v : Body (BitVec n) (BitVec n)).run v = _
  split <;> rfl

section

variable [DecidableEq A] [DecidableEq B]

/-- Statements on a cell, one after the other, against the one-step operation. -/
theorem atCell_of_body {R : Type} (m : Cells w A B) {l : Loc A B} {b : Body (Val w l) R} {f : Val w l → Val w l × R}
    (ret : R → Ret w) (h : ∀ v, b.run v = f v) :
    (Function.update m l ((b.map ret).run (m l)).1, ((b.map ret).run (m l)).2) = atCell m l f ret := by
  unfold atCell
  rw [Body.run_map, h]

theorem lockCode_atOnce (m : Cells w A B) (op : Op w A B) : (lockCode op).atOnce m = byLock m op := by
  cases op with
  | casPtr ptr oldv newv => exact atCell_of_body m .ptr (casBody_run oldv newv)
  | casInt ptr oldv newv => exact atCell_of_body m .int (casBody_run oldv newv)
  | loadPtr ptr => exact atCell_of_body m .ptr fun _ => rfl
  | swapPtr ptr val => exact atCell_of_body m .ptr fun _ => rfl
  | storeInt ptr val => exact atCell_of_body m (fun _ => .void) fun _ => rfl
  | storePtr ptr val => exact atCell_of_body m (fun _ => .void) fun _ => rfl
  | addInt ptr val => exact atCell_of_body m (fun _ => .void) fun _ => rfl
  | incrInt ptr => exact atCell_of_body m (fun _ => .void) fun _ => rfl
  | decrInt ptr => exact atCell_of_body m (fun _ => .void) fun _ => rfl
  | loadInt ptr => exact atCell_of_body m .int fun _ => rfl
  | decrAndTestInt ptr => exact atCell_of_body m .int fun _ => rfl
  | fetchAndAddInt ptr val => exact atCell_of_body m .int fun _ => rfl
  | fetchAndIncrInt ptr => exact atCell_of_body m .int fun _ => rfl
  | fetchAndDecrInt ptr => exact atCell_of_body m .int fun _ => rfl
  | swapInt ptr val => exact atCell_of_body m .int fun _ => rfl

theorem unsafeCode_atOnce (m : Cells w A B) (op : Op w A B) : (unsafeCode op).atOnce m = byLock m op := by
  rw [← lockCode_atOnce]
  cases op <;> rfl

end

/-- All cells are guarded: nothing goes past the lock. -/
theorem lockCode_disciplined (op : Op w A B) : Disciplined (fun _ => true) (lockCode op) := by
  cases op <;> exact fun h => nomatch h

/-! ## Runs -/

section Run

variable [DecidableEq A] [DecidableEq B] {T : Type} [DecidableEq T]

/-- The lock-based operations, access by access, are linearizable to the same operations in one step: for any
number of threads, any calls on any cells and any interleaving, the calls that have returned, with some under
way that have made their last access to the cell, can be put in an order that respects real time, in which
each has the return value and the effect of the operation in one step, and the contents agree. -/
theorem lock_linearizable (m : Cells w A B) (as : List (SystemAct T (Op w A B)))
    (s : System T (Mutexed T (Loc A B) (Val w)) (SectionPc (Loc A B) (Val w) (Ret w)) (Op w A B) (Ret w))
    (h : run (systemStep (sectionObject lockCode)) (System.init ⟨m, none⟩) as = some s) :
    ∃ pending order, LinearizesNow byLock m s.shared.mem s pending order := by
  have hspec : (fun m (op : Op w A B) => (lockCode op).atOnce m) = byLock := by
    funext m op
    exact lockCode_atOnce m op
  have heffect := section_takesEffect (T := T) (lockCode_disciplined (w := w) (A := A) (B := B))
  rw [hspec] at heffect
  exact heffect.linearizes (SectionOk.init m) h

/-- Two threads add 5 and 7 to a cell. The second one waits for the lock; the first one has written the sum,
and is still inside. -/
def lockActs : List (SystemAct Bool (Op 8 Bool Bool)) :=
  [.call true (.fetchAndAddInt true 5), .step true false, .call false (.fetchAndAddInt true 7), .step true false,
    .step false false, .step true false, .step true false]

theorem lock_linearizable_demo : ∃ s pending order,
    run (systemStep (sectionObject lockCode)) (System.init ⟨zeroCells, none⟩) lockActs = some s ∧
    s.shared.mem (.int true) = 5#32 ∧ s.shared.holder = some true ∧ s.done.length = 0 ∧
    LinearizesNow byLock zeroCells s.shared.mem s pending order := by
  have h : (run (systemStep (sectionObject lockCode)) (System.init ⟨zeroCells, none⟩) lockActs).map
      (fun s => ((s.shared.mem (.int true) : BitVec 32), s.shared.holder, s.done.length)) =
        some (5#32, some true, 0) := by decide
  obtain ⟨s, hs, hd⟩ := Option.map_eq_some_iff.1 h
  obtain ⟨hmem, hd⟩ := Prod.mk.inj hd
  obtain ⟨hholder, hdone⟩ := Prod.mk.inj hd
  obtain ⟨pending, order, ho⟩ := lock_linearizable zeroCells lockActs s hs
  exact ⟨s, pending, order, hs, hmem, hholder, hdone, ho⟩

/-- In every state reached no two threads are inside, none of the others' accesses changes a cell meanwhile,
and while some thread is in a call, not all of them wait for the lock. -/
theorem lock_exclusive (m : Cells w A B) (as : List (SystemAct T (Op w A B)))
    (s : System T (Mutexed T (Loc A B) (Val w)) (SectionPc (Loc A B) (Val w) (Ret w)) (Op w A B) (Ret w))
    (h : run (systemStep (sectionObject lockCode)) (System.init ⟨m, none⟩) as = some s) :
    (∀ t t', Inside s t → Inside s t' → t = t') ∧
    (∀ t t' flag s', Inside s t → t' ≠ t → systemStep (sectionObject lockCode) s (.step t' flag) = some s' →
      s'.shared.mem = s.shared.mem) ∧
    ((∃ t, s.running t ≠ none) → ∃ t, s.running t ≠ none ∧ ¬Waits s t) := by
  refine ⟨?_, ?_, ?_⟩
  · intro t t' ht ht'
    rw [inside_iff_holder lockCode_disciplined h] at ht ht'
    rw [ht] at ht'
    exact Option.some.inj ht'
  · intro t t' flag s' hin ht hstep
    funext l
    exact guarded_kept lockCode_disciplined h hin ht hstep rfl
  · rintro ⟨t, ht⟩
    exact not_all_wait lockCode_disciplined h ht

theorem lock_exclusive_demo : ∃ s, run (systemStep (sectionObject lockCode)) (System.init ⟨zeroCells, none⟩) lockActs =
    some s ∧ (∀ t t', Inside s t → Inside s t' → t = t') ∧
    ((∃ t, s.running t ≠ none) → ∃ t, s.running t ≠ none ∧ ¬Waits s t) := by
  have h : (run (systemStep (sectionObject lockCode)) (System.init ⟨zeroCells, none⟩) lockActs).isSome = true := by
    decide
  obtain ⟨s, hs⟩ := Option.isSome_iff_exists.1 h
  obtain ⟨hone, -, hwait⟩ := lock_exclusive zeroCells lockActs s hs
  exact ⟨s, hs, hone, hwait⟩

/-- The operations of `opa_unsafe.h` are those of `opa_by_lock.h` for a client that makes no call while another
one is under way: every call returns what the lock-based one would, in the order of the calls, and the
contents agree. -/
theorem unsafe_sequential (m : Cells w A B) (as : List (SystemAct T (Op w A B)))
    (s : System T (Mutexed T (Loc A B) (Val w)) (SectionPc (Loc A B) (Val w) (Ret w)) (Op w A B) (Ret w))
    (halong : Along (systemStep (sectionObject unsafeCode)) CallsAlone (System.init ⟨m, none⟩) as)
    (h : run (systemStep (sectionObject unsafeCode)) (System.init ⟨m, none⟩) as = some s)
    (hidle : ∀ t, s.running t = none) : Linearizes byLock m s.shared.mem s.done s.done := by
  have hspec : (fun m (op : Op w A B) => (unsafeCode op).atOnce m) = byLock := by
    funext m op
    exact unsafeCode_atOnce m op
  have hbare : ∀ op : Op w A B, ∃ l b, unsafeCode op = .bare l b := by
    intro op
    cases op <;> exact ⟨_, _, rfl⟩
  rw [← hspec]
  exact bare_linearizes hbare halong h hidle

/-- One thread adds 5 to a cell, and after it the other one swaps in 9. -/
def unsafeActs : List (SystemAct Bool (Op 8 Bool Bool)) :=
  [.call true (.addInt true 5), .step true false, .step true false, .call false (.swapInt true 9), .step false false,
    .step false false]

theorem unsafe_sequential_demo : ∃ s,
    run (systemStep (sectionObject unsafeCode)) (System.init ⟨zeroCells, none⟩) unsafeActs = some s ∧
    s.done.map (·.ret) = [.void, .int 5] ∧ Linearizes byLock zeroCells s.shared.mem s.done s.done := by
  have halong : Along (systemStep (sectionObject unsafeCode)) CallsAlone (System.init ⟨zeroCells, none⟩)
      unsafeActs := by decide
  have h : (run (systemStep (sectionObject unsafeCode)) (System.init ⟨zeroCells, none⟩) unsafeActs).map
      (fun s => (s.done.map (·.ret), s.running true, s.running false)) = some ([.void, .int 5], none, none) := by
    rfl
  obtain ⟨s, hs, hd⟩ := Option.map_eq_some_iff.1 h
  simp only [Prod.mk.injEq] at hd
  obtain ⟨hret, htrue, hfalse⟩ := hd
  have hidle : ∀ t, s.running t = none := by
    rintro (_ | _)
    · exact hfalse
    · exact htrue
  exact ⟨s, hs, hret, unsafe_sequential zeroCells unsafeActs s halong hs hidle⟩

end Run

end OpenPA.Atomic
