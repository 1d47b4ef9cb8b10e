/-
The queue of `opa_queue.h` and `opa_queue.c` over a shared segment: every operation as a sequence of
single shared accesses, in the order of the source, with the local variables it carries from one
access to the next. Addresses are machine words of `w` bits; a process that maps the segment at
`base` reaches the cell at offset `o` through the address `base + o`, and the cells of the segment
are named by the field and the offset of the structure they belong to.

`queueProgram` puts the operations together for any number of threads and queues, with the client's
side of the contract: which calls a thread may make, and the history the theorems speak about. No
operation reads the history.
-/
import OpenPA.Machine.Memory
import Mathlib.Data.BitVec

namespace OpenPA.Queue

open OpenPA.Machine

abbrev Word (w : Nat) := BitVec w

variable {w : Nat} {T : Type}

/-! ## Relative addresses -/

/-- `OPA_SHM_REL_NULL` -/
abbrev shmRelNull : Word w := 0#w

/-- `OPA_Shm_rel_to_abs`, in a process whose `OPA_Shm_asymm_base_addr` is `base` -/
def shmRelToAbs (base r : Word w) : Word w := base + r

/-- `OPA_Shm_abs_to_rel` -/
def shmAbsToRel (base a : Word w) : Word w := a - base

/-! ## The shared segment -/

/-- The shared fields of `OPA_Queue_info_t` and of an element: its header's `next`, and the
application's own data. -/
inductive Field where
  | head
  | tail
  | shadowHead
  | next
  | payload (k : Nat)
  deriving DecidableEq

/-- A cell of the segment: a field of the structure at an offset. -/
structure Cell (w : Nat) where
  field : Field
  off : Word w
  deriving DecidableEq

/-- The cell a process that maps the segment at `base` reaches through a pointer to a structure. -/
def cellAt (base : Word w) (f : Field) (a : Word w) : Cell w := ⟨f, a - base⟩

/-- `OPA_Queue_init` -/
def queueInit (m : Cell w → Word w) (q : Word w) : Cell w → Word w :=
  Function.update (Function.update (Function.update m ⟨.head, q⟩ shmRelNull) ⟨.tail, q⟩ shmRelNull)
    ⟨.shadowHead, q⟩ shmRelNull

/-- `OPA_Queue_header_init` -/
def queueHeaderInit (m : Cell w → Word w) (e : Word w) : Cell w → Word w :=
  Function.update m ⟨.next, e⟩ shmRelNull

/-- The segment once `OPA_Queue_init` has run on every queue; whatever else it held stays. -/
def initMem (junk : Cell w → Word w) : Cell w → Word w := fun l => queueInit junk l.off l

@[simp] theorem initMem_head (junk : Cell w → Word w) (q : Word w) : initMem junk ⟨.head, q⟩ = 0#w := by
  simp [initMem, queueInit]

@[simp] theorem initMem_tail (junk : Cell w → Word w) (q : Word w) : initMem junk ⟨.tail, q⟩ = 0#w := by
  simp [initMem, queueInit]

@[simp] theorem initMem_shadowHead (junk : Cell w → Word w) (q : Word w) :
    initMem junk ⟨.shadowHead, q⟩ = 0#w := by
  simp [initMem, queueInit]

/-! ## The operations -/

/-- One shared access of an operation, and how the operation goes on with the value returned: to
another access or to its return. A plain store names its line in `opa_queue.h`. -/
structure Stmt (w : Nat) (P R : Type) where
  access : Access (Cell w) (Word w) Nat
  next : Word w → P ⊕ R

/-- `OPA_Shm_swap_rel` -/
abbrev shmSwapRel (addr : Cell w) (newv : Word w) : Access (Cell w) (Word w) Nat := .swap addr newv

/-- `OPA_Shm_cas_rel_null` -/
abbrev shmCasRelNull (addr : Cell w) (oldv : Word w) : Access (Cell w) (Word w) Nat :=
  .cas addr oldv shmRelNull

/-- What a call returned. -/
inductive Ret (w : Nat) where
  | enqueued
  | isEmpty (ret : Bool)
  | peeked (a : Option (Word w))
  | dequeued (elt_ptr : Word w)
  | client
  deriving DecidableEq

inductive EnqueuePc (w : Nat) where
  | setNextNull (qhead_ptr elt_ptr r_elt : Word w)
  | writeBarrier (qhead_ptr elt_ptr r_elt : Word w)
  | swapTail (qhead_ptr elt_ptr r_elt : Word w)
  | storeHead (qhead_ptr elt_ptr r_elt : Word w)
  | storeLink (qhead_ptr elt_ptr r_elt abs_prev : Word w)
  deriving DecidableEq

/-- The queue an enqueue is called on. -/
def EnqueuePc.qheadPtr : EnqueuePc w → Word w
  | .setNextNull q _ _ | .writeBarrier q _ _ | .swapTail q _ _ | .storeHead q _ _ | .storeLink q _ _ _ => q

/-- The element that it enqueues. -/
def EnqueuePc.eltPtr : EnqueuePc w → Word w
  | .setNextNull _ e _ | .writeBarrier _ e _ | .swapTail _ e _ | .storeHead _ e _ | .storeLink _ e _ _ => e

/-- `OPA_Queue_enqueue` up to its first shared access -/
def EnqueuePc.start (base qhead_ptr elt_ptr : Word w) : EnqueuePc w :=
  .setNextNull qhead_ptr elt_ptr (shmAbsToRel base elt_ptr)

/-- `OPA_Queue_enqueue` -/
def queueEnqueue (base : Word w) : EnqueuePc w → Stmt w (EnqueuePc w) (Ret w)
  | .setNextNull q e r_elt =>
    ⟨.store (cellAt base .next e) shmRelNull 225, fun _ => .inl (.writeBarrier q e r_elt)⟩
  | .writeBarrier q e r_elt => ⟨.fence true, fun _ => .inl (.swapTail q e r_elt)⟩
  | .swapTail q e r_elt =>
    ⟨shmSwapRel (cellAt base .tail q) r_elt, fun r_prev =>
      if r_prev = shmRelNull then .inl (.storeHead q e r_elt)
      else .inl (.storeLink q e r_elt (shmRelToAbs base r_prev))⟩
  | .storeHead q _ r_elt => ⟨.store (cellAt base .head q) r_elt 232, fun _ => .inr .enqueued⟩
  | .storeLink _ _ r_elt abs_prev => ⟨.store (cellAt base .next abs_prev) r_elt 236, fun _ => .inr .enqueued⟩

inductive IsEmptyPc (w : Nat) where
  | testShadow (qhead : Word w)
  | testHead (qhead : Word w)
  | loadHead (qhead : Word w)
  | storeShadow (qhead h : Word w)
  | resetHead (qhead : Word w)
  deriving DecidableEq

def IsEmptyPc.qhead : IsEmptyPc w → Word w
  | .testShadow q | .testHead q | .loadHead q | .storeShadow q _ | .resetHead q => q

/-- `OPA_Queue_is_empty`; line 174 is a load of `head` and a store to `shadow_head` -/
def queueIsEmpty (base : Word w) : IsEmptyPc w → Stmt w (IsEmptyPc w) (Ret w)
  | .testShadow q =>
    ⟨.load (cellAt base .shadowHead q), fun s =>
      if s = shmRelNull then .inl (.testHead q) else .inr (.isEmpty false)⟩
  | .testHead q =>
    ⟨.load (cellAt base .head q), fun h => if h = shmRelNull then .inr (.isEmpty true) else .inl (.loadHead q)⟩
  | .loadHead q => ⟨.load (cellAt base .head q), fun h => .inl (.storeShadow q h)⟩
  | .storeShadow q h => ⟨.store (cellAt base .shadowHead q) h 174, fun _ => .inl (.resetHead q)⟩
  | .resetHead q => ⟨.store (cellAt base .head q) shmRelNull 175, fun _ => .inr (.isEmpty false)⟩

inductive PeekHeadPc (w : Nat) where
  | testShadow (qhead_ptr : Word w)
  | loadShadow (qhead_ptr : Word w)
  deriving DecidableEq

/-- `OPA_Queue_peek_head`; a null pointer is no address, so `NULL` is `none` -/
def queuePeekHead (base : Word w) : PeekHeadPc w → Stmt w (PeekHeadPc w) (Ret w)
  | .testShadow q =>
    ⟨.load (cellAt base .shadowHead q), fun s =>
      if s = shmRelNull then .inr (.peeked none) else .inl (.loadShadow q)⟩
  | .loadShadow q =>
    ⟨.load (cellAt base .shadowHead q), fun s => .inr (.peeked (some (shmRelToAbs base s)))⟩

inductive DequeuePc (w : Nat) where
  | loadShadow (qhead_ptr : Word w)
  | testNext (qhead_ptr r_e e : Word w)
  | loadNext (qhead_ptr r_e e : Word w)
  | storeShadow (qhead_ptr r_e e next : Word w)
  | resetShadow (qhead_ptr r_e e : Word w)
  | casTail (qhead_ptr r_e e : Word w)
  | busyWait (qhead_ptr r_e e : Word w)
  | reloadNext (qhead_ptr r_e e : Word w)
  | storeLateShadow (qhead_ptr r_e e next : Word w)
  | clearNext (qhead_ptr e : Word w)
  | readBarrier (qhead_ptr e : Word w)
  deriving DecidableEq

/-- The queue a dequeue is called on. -/
def DequeuePc.qheadPtr : DequeuePc w → Word w
  | .loadShadow q | .testNext q _ _ | .loadNext q _ _ | .storeShadow q _ _ _ | .resetShadow q _ _ | .casTail q _ _
  | .busyWait q _ _ | .reloadNext q _ _ | .storeLateShadow q _ _ _ | .clearNext q _ | .readBarrier q _ => q

/-- `OPA_Queue_dequeue`; `drains` says whether the read barrier waits for pending stores -/
def queueDequeue (base : Word w) (drains : Bool) : DequeuePc w → Stmt w (DequeuePc w) (Ret w)
  | .loadShadow q =>
    ⟨.load (cellAt base .shadowHead q), fun r_e => .inl (.testNext q r_e (shmRelToAbs base r_e))⟩
  | .testNext q r_e e =>
    ⟨.load (cellAt base .next e), fun next =>
      if next = shmRelNull then .inl (.resetShadow q r_e e) else .inl (.loadNext q r_e e)⟩
  | .loadNext q r_e e => ⟨.load (cellAt base .next e), fun next => .inl (.storeShadow q r_e e next)⟩
  | .storeShadow q _ e next =>
    ⟨.store (cellAt base .shadowHead q) next 265, fun _ => .inl (.clearNext q e)⟩
  | .resetShadow q r_e e =>
    ⟨.store (cellAt base .shadowHead q) shmRelNull 270, fun _ => .inl (.casTail q r_e e)⟩
  | .casTail q r_e e =>
    ⟨shmCasRelNull (cellAt base .tail q) r_e, fun old_tail =>
      if old_tail = r_e then .inl (.clearNext q e) else .inl (.busyWait q r_e e)⟩
  | .busyWait q r_e e =>
    ⟨.load (cellAt base .next e), fun next =>
      if next = shmRelNull then .inl (.busyWait q r_e e) else .inl (.reloadNext q r_e e)⟩
  | .reloadNext q r_e e => ⟨.load (cellAt base .next e), fun next => .inl (.storeLateShadow q r_e e next)⟩
  | .storeLateShadow q _ e next =>
    ⟨.store (cellAt base .shadowHead q) next 278, fun _ => .inl (.clearNext q e)⟩
  | .clearNext q e => ⟨.store (cellAt base .next e) shmRelNull 281, fun _ => .inl (.readBarrier q e)⟩
  | .readBarrier _ e => ⟨.fence drains, fun _ => .inr (.dequeued e)⟩

/-- What the application does itself: write its data in an element, use the memory of an element that
is in no queue for something else, and hand an element over to other threads. -/
inductive ClientPc (w : Nat) where
  | write (elt_ptr : Word w) (k : Nat) (v : Word w)
  | reuse (elt_ptr v : Word w)
  | handOff (elt_ptr : Word w)
  deriving DecidableEq

def clientCode (base : Word w) : ClientPc w → Stmt w (ClientPc w) (Ret w)
  | .write e k v => ⟨.store (cellAt base (.payload k) e) v 0, fun _ => .inr .client⟩
  | .reuse e v => ⟨.store (cellAt base .next e) v 0, fun _ => .inr .client⟩
  | .handOff _ => ⟨.fence true, fun _ => .inr .client⟩

/-! ## Threads -/

/-- Where a thread is: between calls, or before a shared access of an operation. -/
inductive Pc (w : Nat) where
  | idle
  | enqueue (p : EnqueuePc w)
  | isEmpty (p : IsEmptyPc w)
  | peekHead (p : PeekHeadPc w)
  | dequeue (p : DequeuePc w)
  | client (p : ClientPc w)
  deriving DecidableEq

/-- The base address each thread's process maps the segment at, the consumer of each queue (named by
its offset), and whether `OPA_read_barrier` waits for pending stores. -/
structure Config (T : Type) (w : Nat) where
  base : T → Word w
  consumer : Word w → T
  readBarrierDrains : Bool

def Stmt.inPc {P : Type} (f : P → Pc w) (s : Stmt w P (Ret w)) : Stmt w (Pc w) (Ret w) :=
  ⟨s.access, fun v => (s.next v).map f id⟩

/-- The next access of a thread at `pc`. -/
def Pc.code (cfg : Config T w) (t : T) : Pc w → Option (Stmt w (Pc w) (Ret w))
  | .idle => none
  | .enqueue p => some ((queueEnqueue (cfg.base t) p).inPc .enqueue)
  | .isEmpty p => some ((queueIsEmpty (cfg.base t) p).inPc .isEmpty)
  | .peekHead p => some ((queuePeekHead (cfg.base t) p).inPc .peekHead)
  | .dequeue p => some ((queueDequeue (cfg.base t) cfg.readBarrierDrains p).inPc .dequeue)
  | .client p => some ((clientCode (cfg.base t) p).inPc .client)

/-- Who may enqueue an element next: anybody, one thread that has it to itself, or nobody, because an
enqueue of it has been called and no dequeue has returned it since. -/
inductive Owner (T : Type) where
  | free
  | held (t : T)
  | busy
  deriving DecidableEq

/-- The control state of all threads. `pc` is the code's; `owner` (by element offset) and `ready` (by
queue offset: `OPA_Queue_is_empty` returned 0 and no dequeue was called since) are the client's; the
rest is history. -/
@[ext] structure Ctl (T : Type) (w : Nat) where
  pc : T → Pc w
  owner : Word w → Owner T
  ready : Word w → Bool
  /-- enqueue calls on a queue, in order: the thread and its `elt_ptr` -/
  called : Word w → List (T × Word w)
  /-- tail swaps of a queue, in order -/
  swapped : Word w → List (T × Word w)
  /-- enqueue calls on a queue that have returned, in order -/
  enqueued : Word w → List (T × Word w)
  /-- dequeue calls on a queue that have returned, in order: the thread and the element it got -/
  dequeued : Word w → List (T × Word w)
  /-- what line 174 last copied from `head` -/
  copied : Word w → Word w
  /-- what the last call of a thread returned -/
  result : T → Option (Ret w)
  /-- the number of plain stores a thread has issued -/
  issued : T → Nat
  /-- the number of enqueue calls on an element -/
  life : Word w → Nat
  /-- the thread that passed the write barrier of an element's enqueue, with its stores so far -/
  barrier : Word w → Option (T × Nat)

/-- A store in the history: the line that issued it, its number among its thread's stores, and the
life of the element it belongs to. -/
structure Tag where
  line : Nat
  seq : Nat
  life : Nat

section Program

variable [DecidableEq T]

/-- The history and the client's side at one access of a thread. -/
def Ctl.record (cfg : Config T w) (c : Ctl T w) (t : T) : Pc w → Pc w ⊕ Ret w → Ctl T w
  | .enqueue (.writeBarrier _ e _), _ =>
    { c with barrier := Function.update c.barrier (shmAbsToRel (cfg.base t) e) (some (t, c.issued t)) }
  | .enqueue (.swapTail q e _), _ =>
    let q := shmAbsToRel (cfg.base t) q
    { c with swapped := Function.update c.swapped q (c.swapped q ++ [(t, e)]) }
  | .enqueue p, .inr .enqueued =>
    let q := shmAbsToRel (cfg.base t) p.qheadPtr
    { c with enqueued := Function.update c.enqueued q (c.enqueued q ++ [(t, p.eltPtr)]) }
  | .isEmpty (.storeShadow q h), _ =>
    { c with copied := Function.update c.copied (shmAbsToRel (cfg.base t) q) h }
  | .isEmpty p, .inr (.isEmpty false) =>
    { c with ready := Function.update c.ready (shmAbsToRel (cfg.base t) p.qhead) true }
  | .dequeue p, .inr (.dequeued e) =>
    let q := shmAbsToRel (cfg.base t) p.qheadPtr
    { c with
      dequeued := Function.update c.dequeued q (c.dequeued q ++ [(t, e)])
      owner := Function.update c.owner (shmAbsToRel (cfg.base t) e)
        (if cfg.readBarrierDrains then .free else .held t) }
  | .client (.handOff e), _ => { c with owner := Function.update c.owner (shmAbsToRel (cfg.base t) e) .free }
  | _, _ => c

/-- Thread `t` goes on to another access or returns. -/
def Ctl.goOn (c : Ctl T w) (t : T) : Pc w ⊕ Ret w → Ctl T w
  | .inl p => { c with pc := Function.update c.pc t p }
  | .inr r => { c with pc := Function.update c.pc t .idle, result := Function.update c.result t (some r) }

/-- Count a plain store of `t`. -/
def Ctl.count (c : Ctl T w) (t : T) (x : Access (Cell w) (Word w) Nat) : Ctl T w :=
  if x.isStore then { c with issued := Function.update c.issued t (c.issued t + 1) } else c

/-- The control state after the access of `t` returned `v`. -/
def resume (cfg : Config T w) (c : Ctl T w) (t : T) (v : Word w) : Ctl T w :=
  match (c.pc t).code cfg t with
  | none => c
  | some s => ((c.record cfg t (c.pc t) (s.next v)).count t s.access).goOn t (s.next v)

/-- The calls of the threads, with the addresses they pass. -/
inductive Call (T : Type) (w : Nat) where
  | enqueue (t : T) (qhead_ptr elt_ptr : Word w)
  | isEmpty (t : T) (qhead : Word w)
  | peekHead (t : T) (qhead_ptr : Word w)
  | dequeue (t : T) (qhead_ptr : Word w)
  | write (t : T) (elt_ptr : Word w) (k : Nat) (v : Word w)
  | reuse (t : T) (elt_ptr v : Word w)
  | handOff (t : T) (elt_ptr : Word w)

/-- An element `t` may enqueue or use: in no queue, and free or its own. -/
def Ctl.available (c : Ctl T w) (t : T) (e : Word w) : Bool :=
  decide (c.owner e = .free ∨ c.owner e = .held t)

def Ctl.enter (c : Ctl T w) (t : T) (p : Pc w) : Ctl T w :=
  { c with pc := Function.update c.pc t p, result := Function.update c.result t none }

/-- A call, when the thread is between calls and the contract allows it: an enqueued element is not
at the base address and in no queue; only a queue's consumer tests, peeks and dequeues, and it peeks
and dequeues only after `OPA_Queue_is_empty` returned 0 with no dequeue since. -/
def call (cfg : Config T w) (c : Ctl T w) : Call T w → Option (Ctl T w)
  | .enqueue t q e =>
    let o := shmAbsToRel (cfg.base t) e
    let qo := shmAbsToRel (cfg.base t) q
    if c.pc t = .idle ∧ e ≠ cfg.base t ∧ c.available t o then
      some { c.enter t (.enqueue (EnqueuePc.start (cfg.base t) q e)) with
        owner := Function.update c.owner o .busy
        called := Function.update c.called qo (c.called qo ++ [(t, e)])
        life := Function.update c.life o (c.life o + 1)
        barrier := Function.update c.barrier o none }
    else none
  | .isEmpty t q =>
    if c.pc t = .idle ∧ t = cfg.consumer (shmAbsToRel (cfg.base t) q) then
      some (c.enter t (.isEmpty (.testShadow q)))
    else none
  | .peekHead t q =>
    let qo := shmAbsToRel (cfg.base t) q
    if c.pc t = .idle ∧ t = cfg.consumer qo ∧ c.ready qo then
      some (c.enter t (.peekHead (.testShadow q)))
    else none
  | .dequeue t q =>
    let qo := shmAbsToRel (cfg.base t) q
    if c.pc t = .idle ∧ t = cfg.consumer qo ∧ c.ready qo then
      some { c.enter t (.dequeue (.loadShadow q)) with ready := Function.update c.ready qo false }
    else none
  | .write t e k v => if c.pc t = .idle then some (c.enter t (.client (.write e k v))) else none
  | .reuse t e v =>
    let o := shmAbsToRel (cfg.base t) e
    if c.pc t = .idle ∧ c.available t o then
      some { c.enter t (.client (.reuse e v)) with owner := Function.update c.owner o (.held t) }
    else none
  | .handOff t e =>
    if c.pc t = .idle ∧ c.owner (shmAbsToRel (cfg.base t) e) = .held t then
      some (c.enter t (.client (.handOff e)))
    else none

/-- Any number of threads running the queue operations. -/
def queueProgram (cfg : Config T w) : Program T (Cell w) (Word w) Tag (Ctl T w) (Call T w) where
  access c t := ((c.pc t).code cfg t).map fun s =>
    s.access.retag fun l line => ⟨line, c.issued t, c.life l.off⟩
  resume := resume cfg
  call := call cfg

/-- No thread has made a call. -/
def initCtl : Ctl T w where
  pc := fun _ => .idle
  owner := fun _ => .free
  ready := fun _ => false
  called := fun _ => []
  swapped := fun _ => []
  enqueued := fun _ => []
  dequeued := fun _ => []
  copied := fun _ => shmRelNull
  result := fun _ => none
  issued := fun _ => 0
  life := fun _ => 0
  barrier := fun _ => none

/-- The start of a run whose shared accesses are atomic. -/
def initAtomic (junk : Cell w → Word w) : Atomic (Cell w) (Word w) (Ctl T w) := ⟨initMem junk, initCtl⟩

/-- The start of a run whose plain stores are buffered. -/
def initBuffered (junk : Cell w → Word w) : Buffered T (Cell w) (Word w) Tag (Ctl T w) :=
  ⟨initMem junk, fun _ => [], [], initCtl⟩

end Program

end OpenPA.Queue
