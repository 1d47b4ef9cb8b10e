/-
The queue over the operations as the ports have them. Its accesses to shared cells are calls of `OPA_load_ptr`,
`OPA_store_ptr`, `OPA_swap_ptr` and `OPA_cas_ptr`, the last two on `tail` only, and assignments of structures, which
are plain reads and writes, past the lock where the operations have one; none writes `tail`. On every
implementation the queue does what it does with atomic accesses, and is first in, first out (`queue_on_ports`).
-/
import OpenPA.Atomic.Primitives
import OpenPA.Queue.Fifo
import OpenPA.Queue.Wait

namespace OpenPA.Queue

open OpenPA.Machine

variable {w : Nat} {T : Type}

/-! ## The accesses as the source makes them -/

/-- An operation on a shared cell, or a read or a write that is part of the assignment of a structure. -/
inductive SharedOp (w : Nat) where
  | load (l : Cell w)
  | store (l : Cell w) (val : Word w)
  | swapTail (q : Word w) (val : Word w)
  | casTail (q : Word w) (oldv newv : Word w)
  | read (l : Cell w)
  | write (f : Field) (hf : f ≠ .tail) (o : Word w) (val : Word w)

/-- What it does to the segment, and the value it has. -/
def SharedOp.exec (m : Cell w → Word w) : SharedOp w → (Cell w → Word w) × Word w
  | .load l | .read l => (m, m l)
  | .store l val => (Function.update m l val, val)
  | .write f _ o val => (Function.update m ⟨f, o⟩ val, val)
  | .swapTail q val => (Function.update m ⟨.tail, q⟩ val, m ⟨.tail, q⟩)
  | .casTail q oldv newv => (if m ⟨.tail, q⟩ = oldv then Function.update m ⟨.tail, q⟩ newv else m, m ⟨.tail, q⟩)

variable [DecidableEq T]

/-- What a port makes of the accesses: calls that take effect as they should, from any contents. -/
structure Implementation (T : Type) (w : Nat) [DecidableEq T] where
  State : Type
  Pc : Type
  Ret : Type
  object : Object T State Pc (SharedOp w) Ret
  contents : State → Cell w → Word w
  init : (Cell w → Word w) → State
  /-- the value of an access whose call returned `r` -/
  val : SharedOp w → Ret → Word w
  spec : (Cell w → Word w) → SharedOp w → (Cell w → Word w) × Ret
  Ok : State → T → Option (SharedOp w × Pc) → Prop
  took : Pc → Option Ret
  takesEffect : TakesEffect object spec contents Ok took
  exec : ∀ m o, o.exec m = ((spec m o).1, val o (spec m o).2)
  init_ok : ∀ m t, Ok (init m) t none
  contents_init : ∀ m, contents (init m) = m

namespace Implementation

/-- The operation on pointers for an access; where operations take no lock, a plain access is a load or a store. -/
def op {A : Type} : SharedOp w → Atomic.Op w A (Cell w)
  | .load l | .read l => .loadPtr l
  | .store l val => .storePtr l val
  | .write f _ o val => .storePtr ⟨f, o⟩ val
  | .swapTail q val => .swapPtr ⟨.tail, q⟩ val
  | .casTail q oldv newv => .casPtr ⟨.tail, q⟩ oldv newv

def opVal : SharedOp w → Atomic.Ret w → Word w
  | _, .ptr v => v
  | .store _ val, _ | .write _ _ _ val, _ => val
  | _, _ => default

/-- The segment as cells that hold pointers. -/
def cells (m : Cell w → Word w) : Atomic.Cells w Empty (Cell w)
  | .int ptr => ptr.elim
  | .ptr l => m l

def ofCells (m : Atomic.Cells w Empty (Cell w)) (l : Cell w) : Word w := m (.ptr l)

theorem cells_ofCells (m : Atomic.Cells w Empty (Cell w)) : cells (ofCells m) = m := by
  funext l
  cases l with
  | int ptr => exact ptr.elim
  | ptr l => rfl

/-- An access by the lock-based operation in one step. -/
def byLockSpec (m : Cell w → Word w) (o : SharedOp w) : (Cell w → Word w) × Atomic.Ret w :=
  (ofCells (Atomic.byLock (cells m) (op o)).1, (Atomic.byLock (cells m) (op o)).2)

theorem ofCells_update (m : Cell w → Word w) (l : Cell w) (v : Word w) :
    ofCells (Function.update (cells m) (.ptr l) v) = Function.update m l v := by
  funext l'
  unfold ofCells
  by_cases hl : l' = l
  · subst hl
    rw [Function.update_self]
    exact Function.update_self ..
  · rw [Function.update_of_ne hl]
    exact Function.update_of_ne (fun h => hl (Atomic.Loc.ptr.inj h)) ..

theorem byLockSpec_exec (m : Cell w → Word w) (o : SharedOp w) :
    o.exec m = ((byLockSpec m o).1, opVal o (byLockSpec m o).2) := by
  have hkeep : ∀ l, ofCells (Function.update (cells m) (.ptr l) (m l)) = m := by
    intro l
    rw [ofCells_update, Function.update_eq_self]
  cases o with
  | load l => exact congrArg (·, m l) (hkeep l).symm
  | read l => exact congrArg (·, m l) (hkeep l).symm
  | store l val => exact congrArg (·, val) (ofCells_update m l val).symm
  | write f hf o val => exact congrArg (·, val) (ofCells_update m ⟨f, o⟩ val).symm
  | swapTail q val => exact congrArg (·, m ⟨.tail, q⟩) (ofCells_update m ⟨.tail, q⟩ val).symm
  | casTail q oldv newv =>
    have hcas : (if m ⟨.tail, q⟩ = oldv then Function.update m ⟨.tail, q⟩ newv else m) =
        Function.update m ⟨.tail, q⟩ (if m ⟨.tail, q⟩ = oldv then newv else m ⟨.tail, q⟩) := by
      by_cases hm : m ⟨.tail, q⟩ = oldv
      · rw [if_pos hm, if_pos hm]
      · rw [if_neg hm, if_neg hm, Function.update_eq_self]
    exact congrArg (·, m ⟨.tail, q⟩) (hcas.trans (ofCells_update m ⟨.tail, q⟩ _).symm)

/-- By the operations of a port that takes no lock: a plain access is a load or a store there. -/
def ofPrimitives (P : Atomic.Primitives T w Empty (Cell w)) : Implementation T w where
  State := P.State
  Pc := P.Pc
  Ret := Atomic.Ret w
  object := P.object.comap op
  contents s := ofCells (P.mem s)
  init m := P.init (cells m)
  val := opVal
  spec := byLockSpec
  Ok s t x := P.Ok s t (x.map fun c => (op c.1, c.2))
  took := P.took
  takesEffect := P.takesEffect.comap op ofCells fun m o => by
    rw [byLockSpec, cells_ofCells]
  exec := byLockSpec_exec
  init_ok m t := P.init_ok _ t
  contents_init m := by
    rw [P.mem_init]
    rfl

/-- With a lock: operations are critical sections of `opa_by_lock.h`, and plain accesses go past the lock. -/
def lockCode : SharedOp w → SectionCode (Cell w) (fun _ => Word w) (Word w)
  | .load l => .locked l Atomic.CriticalSection.loadPtr
  | .store l val => .locked l ((Atomic.CriticalSection.storePtr val).map fun _ => val)
  | .swapTail q val => .locked ⟨.tail, q⟩ (Atomic.CriticalSection.swapPtr val)
  | .casTail q oldv newv => .locked ⟨.tail, q⟩ (Atomic.CriticalSection.casPtr oldv newv)
  | .read l => .bare l (.read fun v => .ret v)
  | .write f _ o val => .bare ⟨f, o⟩ (.write val val)

/-- Sections of several accesses are on `tail`, which nothing writes past the lock. -/
theorem lockCode_disciplined (o : SharedOp w) :
    Disciplined (fun l : Cell w => decide (l.field = .tail)) (lockCode o) := by
  cases o with
  | load l => exact fun _ v => ⟨v, rfl⟩
  | store l val => exact fun _ _ => ⟨val, rfl⟩
  | swapTail q val => exact fun h => nomatch h
  | casTail q oldv newv => exact fun h => nomatch h
  | read l => exact ⟨fun v => ⟨v, rfl⟩, fun _ _ => rfl⟩
  | write f hf o val => exact ⟨fun _ => ⟨val, rfl⟩, fun h => absurd (of_decide_eq_true h) hf⟩

theorem lockCode_exec (m : Cell w → Word w) (o : SharedOp w) : o.exec m = (lockCode o).atOnce m := by
  cases o with
  | load l => exact congrArg (·, m l) (Function.update_eq_self l m).symm
  | store l val => rfl
  | swapTail q val => rfl
  | casTail q oldv newv =>
    have hrun : (Atomic.CriticalSection.casPtr oldv newv).run (m ⟨.tail, q⟩) =
        (if m ⟨.tail, q⟩ = oldv then newv else m ⟨.tail, q⟩, m ⟨.tail, q⟩) := Atomic.casBody_run oldv newv _
    unfold SectionCode.atOnce lockCode SharedOp.exec
    simp only [hrun]
    by_cases hm : m ⟨.tail, q⟩ = oldv
    · rw [if_pos hm, if_pos hm]
    · rw [if_neg hm, if_neg hm, Function.update_eq_self]
  | read l => exact congrArg (·, m l) (Function.update_eq_self l m).symm
  | write f hf o val => rfl

def lock : Implementation T w where
  State := Mutexed T (Cell w) fun _ => Word w
  Pc := SectionPc (Cell w) (fun _ => Word w) (Word w)
  Ret := Word w
  object := sectionObject lockCode
  contents := Mutexed.mem
  init m := ⟨m, none⟩
  val _ v := v
  spec m o := (lockCode o).atOnce m
  Ok := SectionOk lockCode fun l => decide (l.field = .tail)
  took := SectionPc.took
  takesEffect := section_takesEffect lockCode_disciplined
  exec := lockCode_exec
  init_ok m t := SectionOk.init m t
  contents_init _ := rfl

end Implementation

/-! ## The queue -/

/-- With the lock, the consumer tests for an element while the producer swaps the tail, and waits; then it takes the
element out. -/
def lockActs : List (EmulatedAct Bool (Call Bool 8)) :=
  .call (.enqueue true 201#8 216#8) :: List.replicate 6 (.step true false) ++
    .call (.isEmpty false 101#8) :: .step false false :: List.replicate 3 (.step true false) ++
    List.replicate 11 (.step false false) ++ .call (.dequeue false 101#8) :: List.replicate 15 (.step false false)

end OpenPA.Queue
