/-
The queue in the hands of one thread: each call runs to its return before the next one starts. On elements that
are not at the base address the calls behave as a list does from which the oldest element is taken. An element
at the base address has the offset that stands for null, and the queue loses it (`queue_alone`).

Elements and queue heads are objects that do not overlap, as objects of C do not: then two cells are the same exactly
if they are the same field of the same object, which is how they are named.
-/
import OpenPA.Queue.Layout

namespace OpenPA.Queue

open OpenPA.Machine

variable {w : Nat}

/-! ## Calls by themselves -/

/-- A call on a queue. -/
inductive QueueCall (w : Nat) where
  | enqueue (elt_ptr : Word w)
  | isEmpty
  | dequeue

/-- The call, in a process whose `OPA_Shm_asymm_base_addr` is `base` -/
def QueueCall.run (base qhead_ptr : Word w) (drains : Bool) (fuel : Nat) (m : Cell w → Word w) :
    QueueCall w → Option ((Cell w → Word w) × Ret w)
  | .enqueue elt_ptr => runStmts (queueEnqueue base) fuel m (EnqueuePc.start base qhead_ptr elt_ptr)
  | .isEmpty => runStmts (queueIsEmpty base) fuel m (.testShadow qhead_ptr)
  | .dequeue => runStmts (queueDequeue base drains) fuel m (.loadShadow qhead_ptr)

/-- What a sequence of calls returns. -/
def runCalls (base qhead_ptr : Word w) (drains : Bool) (fuel : Nat) :
    (Cell w → Word w) → List (QueueCall w) → Option (List (Ret w))
  | _, [] => some []
  | m, c :: cs => (c.run base qhead_ptr drains fuel m).bind fun r =>
      (runCalls base qhead_ptr drains fuel r.1 cs).map (r.2 :: ·)

/-! ## The list -/

/-- The elements in the queue, oldest first, and whether `OPA_Queue_is_empty` has returned 0 since the last
dequeue. -/
structure Fifo (w : Nat) where
  elts : List (Word w)
  ready : Bool

/-- What a list does: `none` for a call that is not to be made. -/
def Fifo.step (s : Fifo w) : QueueCall w → Option (Fifo w × Ret w)
  | .enqueue e => if e ∉ s.elts then some ({ s with elts := s.elts ++ [e] }, .enqueued) else none
  | .isEmpty => some ({ s with ready := !s.elts.isEmpty }, .isEmpty s.elts.isEmpty)
  | .dequeue =>
    match s.elts, s.ready with
    | e :: es, true => some (⟨es, false⟩, .dequeued e)
    | _, _ => none

def Fifo.run : Fifo w → List (QueueCall w) → Option (List (Ret w))
  | _, [] => some []
  | s, c :: cs => (s.step c).bind fun r => (Fifo.run r.1 cs).map (r.2 :: ·)

/-! ## Sequences of calls -/

/-- Memory between two calls: the list is laid out by offsets, and after `OPA_Queue_is_empty` has returned 0 the front
is in `shadow_head`. -/
structure FifoOk (base q : Word w) (m : Cell w → Word w) (s : Fifo w) : Prop where
  laid : Laid m q (s.elts.map (shmAbsToRel base))
  ready : s.ready = true → s.elts ≠ [] ∧ m ⟨.shadowHead, q⟩ = (s.elts.map (shmAbsToRel base)).headD 0#w

theorem FifoOk.init (base q : Word w) (junk : Cell w → Word w) : FifoOk base q (queueInit junk q) ⟨[], false⟩ where
  laid := ⟨by simp, List.nodup_nil, trivial, by simp [queueInit], .inl (by simp [queueInit])⟩
  ready h := by cases h

/-- One call, on an element that is not at the base address: it does what the list does. -/
theorem FifoOk.step {base q : Word w} {m : Cell w → Word w} {s s' : Fifo w} {c : QueueCall w}
    {ret : Ret w} (h : FifoOk base q m s) (hc : ∀ e, c = .enqueue e → e ≠ base) (hs : s.step c = some (s', ret))
    (drains : Bool) (fuel : Nat) :
    ∃ m', c.run base (base + q) drains (fuel + 7) m = some (m', ret) ∧ FifoOk base q m' s' := by
  cases c with
  | enqueue e =>
    have hnew : e ∉ s.elts := by
      by_contra he
      simp [Fifo.step, he] at hs
    simp only [Fifo.step, hnew, not_false_eq_true, if_true, Option.some.injEq, Prod.mk.injEq] at hs
    obtain ⟨rfl, rfl⟩ := hs
    have ho : shmAbsToRel base e ∉ s.elts.map (shmAbsToRel base) := by
      rintro he
      obtain ⟨x, hx, hxe⟩ := List.mem_map.1 he
      exact hnew ((sub_left_inj.1 hxe : x = e) ▸ hx)
    -- here the base address is excluded: its offset is null
    have hz : shmAbsToRel base e ≠ 0#w := fun h => hc e rfl (sub_eq_zero.1 h)
    obtain ⟨m', hrun, hL, hshadow⟩ := runEnqueue base (fuel + 3) h.laid ho hz
    rw [add_shmAbsToRel] at hrun
    refine ⟨m', hrun, by simpa using hL, fun hr => ?_⟩
    obtain ⟨hne, hfront⟩ := h.ready hr
    obtain ⟨x, l, hl⟩ := List.exists_cons_of_ne_nil hne
    refine ⟨by simp, ?_⟩
    rw [hshadow, hfront, hl]
    rfl
  | isEmpty =>
    simp only [Fifo.step, Option.some.injEq, Prod.mk.injEq] at hs
    obtain ⟨rfl, rfl⟩ := hs
    obtain ⟨m', hrun, hL, hshadow⟩ := runIsEmpty base (fuel + 2) h.laid
    have hempty : s.elts.isEmpty = decide (s.elts.map (shmAbsToRel base) = []) := by
      cases s.elts <;> simp
    rw [← hempty] at hrun
    refine ⟨m', hrun, hL, fun hr => ⟨?_, hshadow⟩⟩
    simpa using hr
  | dequeue =>
    obtain ⟨elts, ready⟩ := s
    simp only [Fifo.step] at hs
    split at hs
    · simp only [Option.some.injEq, Prod.mk.injEq] at hs
      obtain ⟨rfl, rfl⟩ := hs
      obtain ⟨m', hrun, -, hL⟩ := runDequeue base drains (fuel + 1) h.laid (h.ready rfl).2
      rw [add_shmAbsToRel] at hrun
      exact ⟨m', hrun, hL, fun hr => nomatch hr⟩
    · cases hs

/-- A sequence of calls, on elements that are not at the base address: it returns what the list does. -/
theorem FifoOk.run {base q : Word w} {drains : Bool} (fuel : Nat) : ∀ (cs : List (QueueCall w)) {m : Cell w → Word w}
    {s : Fifo w} {rets : List (Ret w)}, FifoOk base q m s → (∀ e, .enqueue e ∈ cs → e ≠ base) → s.run cs = some rets →
    runCalls base (base + q) drains (fuel + 7) m cs = some rets
  | [], m, s, rets, _, _, hs => hs
  | c :: cs, m, s, rets, h, hcs, hs => by
    obtain ⟨⟨s', ret⟩, hstep, hs⟩ := Option.bind_eq_some_iff.1 hs
    obtain ⟨rets', hrest, rfl⟩ := Option.map_eq_some_iff.1 hs
    obtain ⟨m', hrun, h'⟩ := h.step (fun e he => hcs e (he ▸ List.mem_cons_self ..)) hstep drains fuel
    rw [runCalls, hrun, Option.bind_some, FifoOk.run fuel cs h' (fun e he => hcs e (List.mem_cons_of_mem _ he)) hrest]
    rfl

/-- An element at the base address is lost: its offset is null. -/
theorem enqueue_base_lost (base q : Word w) (drains : Bool) (fuel : Nat) (junk : Cell w → Word w) :
    runCalls base (base + q) drains (fuel + 7) (queueInit junk q) [.enqueue base, .isEmpty] =
      some [.enqueued, .isEmpty true] := by
  have hcell : cellAt base .next base = ⟨.next, 0#w⟩ := by simp [cellAt]
  have hnull : shmAbsToRel base base = 0#w := by simp [shmAbsToRel]
  have henqueue : (QueueCall.enqueue base).run base (base + q) drains (fuel + 7) (queueInit junk q) =
      some (Function.update (Function.update (Function.update (queueInit junk q) ⟨.next, 0#w⟩ 0#w) ⟨.tail, q⟩ 0#w)
        ⟨.head, q⟩ 0#w, .enqueued) := by
    simp [QueueCall.run, runStmts, queueEnqueue, EnqueuePc.start, Access.exec, cellAt_add, hcell, hnull, queueInit]
  rw [runCalls, henqueue]
  simp [runCalls, QueueCall.run, runStmts, queueIsEmpty, Access.exec, cellAt_add, queueInit]

/-- Which elements one thread can use. For every base address, every queue in every segment mapped there, and every set
of addresses: every sequence of `OPA_Queue_enqueue` calls on elements of the set that are not in the queue,
`OPA_Queue_is_empty` calls, and `OPA_Queue_dequeue` calls after one that returned 0, returns what a list does that is
added to at its end and taken from at its front, exactly if the base address is not in the set. -/
theorem queue_alone (base q : Word w) (drains : Bool) (junk : Cell w → Word w) (fuel : Nat) (elements : Word w → Prop) :
    (∀ cs rets, (∀ e, .enqueue e ∈ cs → elements e) → Fifo.run ⟨[], false⟩ cs = some rets →
      runCalls base (base + q) drains (fuel + 7) (queueInit junk q) cs = some rets) ↔ ¬elements base := by
  constructor
  · intro h hbase
    have hfifo : Fifo.run ⟨[], false⟩ [.enqueue base, .isEmpty] = some [.enqueued, .isEmpty false] := by
      simp [Fifo.run, Fifo.step]
    have hrun := h [.enqueue base, .isEmpty] _ (by simpa using hbase) hfifo
    rw [enqueue_base_lost] at hrun
    simp at hrun
  · intro hbase cs rets hcs hs
    exact FifoOk.run fuel cs (FifoOk.init base q junk) (fun e he h => hbase (h ▸ hcs e he)) hs

/-- With the segment mapped at 16, the element at 16 is enqueued and the queue is empty. -/
theorem base_element_lost : runCalls 16#8 17#8 true 7 (queueInit (fun _ => 7#8) 1#8) [.enqueue 16#8, .isEmpty] =
      some [.enqueued, .isEmpty true] ∧
    Fifo.run ⟨[], false⟩ [.enqueue 16#8, .isEmpty] = some [.enqueued, .isEmpty false] :=
  ⟨enqueue_base_lost 16#8 1#8 true 0 _, by decide⟩

end OpenPA.Queue
