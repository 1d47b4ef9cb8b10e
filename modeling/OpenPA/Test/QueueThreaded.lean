/-
`test_queue_threaded` of `test_queue.c`: threads that each enqueue elements with their number and increasing sequence
numbers, and one that dequeues them and checks what it gets. However the accesses of the queue interleave, it finds
no error, and when it has dequeued as many elements as there are, it has got all of them and the queue is empty
(`queue_threaded`).

Elements are allocated when they are enqueued and freed when they are dequeued, so the same memory is in the queue
again and again. A thread's own accesses, to an element that no other thread reaches, are one step.
-/
import Mathlib.Algebra.BigOperators.Fin
import Mathlib.Algebra.Order.BigOperators.Group.Finset
import OpenPA.Queue.Returns

namespace OpenPA.Test

open OpenPA.Machine OpenPA.Queue

variable {n w : Nat}

/-! ## The threads -/

/-- All threads are in one process, which has called `OPA_Shm_asymm_init` with `(char *)0`; the last one dequeues. An
element that it has dequeued is its own until it frees it. -/
def threadedConfig (n w : Nat) : Config (Option (Fin n)) w where
  base _ := 0#w
  consumer _ := none
  readBarrierDrains := false

/-- The segment and the queue operations of the threads. -/
abbrev Shared (n w : Nat) := Atomic (Cell w) (Word w) (Ctl (Option (Fin n)) w)

/-- `element->threadno` -/
def threadno (s : Shared n w) (element : Word w) : Word w := s.mem ⟨.payload 0, element⟩

/-- `element->sequenceno` -/
def sequenceno (s : Shared n w) (element : Word w) : Word w := s.mem ⟨.payload 1, element⟩

/-- Where a thread that enqueues goes on when it is in no call of the queue. -/
inductive EnqueueStage (w : Nat) where
  | malloc
  | setThreadno (element : Word w)
  | setSequenceno (element : Word w)
  | enqueue (element : Word w)
  | exit (ret : Bool)

structure Enqueuer (w : Nat) where
  stage : EnqueueStage w
  i : Nat

/-- The next thing that the thread does itself; `addr` is what `malloc` returns. -/
def testQueueThreadedEnqueue (qhead : Word w) (niter : Nat) (t : Fin n) (addr : Word w) (c : Enqueuer w)
    (s : Shared n w) : Option (Enqueuer w × Shared n w) :=
  match c.stage with
  | .malloc =>
    if c.i < niter then
      if addr = 0 then some (⟨.exit true, c.i⟩, s)
      else if s.ctl.owner addr = .free then
        -- with `OPA_Queue_header_init`
        (privately (threadedConfig n w) (some t) (.reuse (some t) addr shmRelNull) s).map
          (Prod.mk ⟨.setThreadno addr, c.i⟩)
      else none
    else some (⟨.exit false, c.i⟩, s)
  | .setThreadno e =>
    (privately (threadedConfig n w) (some t) (.write (some t) e 0 t.val) s).map (Prod.mk ⟨.setSequenceno e, c.i⟩)
  | .setSequenceno e =>
    (privately (threadedConfig n w) (some t) (.write (some t) e 1 c.i) s).map (Prod.mk ⟨.enqueue e, c.i⟩)
  | .enqueue e =>
    (atomicStep (queueProgram (threadedConfig n w)) s (.call (.enqueue (some t) qhead e))).map
      (Prod.mk ⟨.malloc, c.i + 1⟩)
  | .exit _ => none

/-- Where the thread that dequeues goes on when it is in no call of the queue: at the head of its loop, or with what
the call returned. -/
inductive DequeueStage where
  | loop
  | nonempty
  | peeked
  | rechecked
  | dequeued
  | final
  | exit (ret : Bool)
  deriving DecidableEq

structure Dequeuer (n w : Nat) where
  stage : DequeueStage
  i : Nat
  ndequeues : Nat
  peek_counter : Nat
  peek_element : Option (Word w)
  expect_sn : Fin n → Word w
  nerrors : Nat

/-- `element->threadno < 0 || element->threadno >= nenqueuers`, or the thread -/
def validThreadno (n : Nat) (x : Word w) : Option (Fin n) :=
  if h : 0 ≤ x.toInt ∧ x.toInt < n then some ⟨x.toInt.toNat, by omega⟩ else none

/-- The checks of a dequeued element. -/
def Dequeuer.check (s : Shared n w) (element : Word w) (c : Dequeuer n w) : Dequeuer n w :=
  let differs := match c.peek_element with
    | some p => decide (threadno s p ≠ threadno s element ∨ sequenceno s p ≠ sequenceno s element)
    | none => false
  let nerrors := if differs then c.nerrors + 1 else c.nerrors
  let c := { c with ndequeues := c.ndequeues + 1, peek_element := none, nerrors }
  match validThreadno n (threadno s element) with
  | none => { c with nerrors := c.nerrors + 1 }
  | some t =>
    { c with
      nerrors := if sequenceno s element ≠ c.expect_sn t then c.nerrors + 1 else c.nerrors
      expect_sn := Function.update c.expect_sn t (sequenceno s element + 1) }

/-- The next thing that the thread does itself. -/
def testQueueThreadedDequeue (qhead : Word w) (niter : Nat) (c : Dequeuer n w) (s : Shared n w) :
    Option (Dequeuer n w × Shared n w) :=
  let call := fun a => atomicStep (queueProgram (threadedConfig n w)) s (.call a)
  match c.stage, s.ctl.result none with
  | .loop, _ =>
    (call (.isEmpty none qhead)).map
      (Prod.mk { c with stage := if c.ndequeues < niter ∧ c.i < 1000 * niter then .nonempty else .final })
  | .nonempty, some (.isEmpty false) =>
    if c.peek_counter + 1 = 100 then
      (call (.peekHead none qhead)).map (Prod.mk { c with stage := .peeked, peek_counter := c.peek_counter + 1 })
    else
      (call (.dequeue none qhead)).map (Prod.mk { c with stage := .dequeued, peek_counter := c.peek_counter + 1 })
  | .nonempty, some (.isEmpty true) => some ({ c with stage := .loop, i := c.i + 1 }, s)
  | .peeked, some (.peeked a) =>
    (call (.isEmpty none qhead)).map
      (Prod.mk
        { c with
          stage := .rechecked
          peek_counter := 0
          peek_element := a
          nerrors := if a = none then c.nerrors + 1 else c.nerrors })
  | .rechecked, some (.isEmpty true) => some ({ c with stage := .exit true }, s)
  | .rechecked, some (.isEmpty false) => (call (.dequeue none qhead)).map (Prod.mk { c with stage := .dequeued })
  | .dequeued, some (.dequeued element) =>
    -- `free(element)` makes it available to `malloc`
    (privately (threadedConfig n w) none (.handOff none element) s).map
      (Prod.mk { c.check s element with stage := .loop, i := c.i + 1 })
  | .final, some (.isEmpty empty) =>
    let nerrors := if c.ndequeues ≠ niter then c.nerrors + 1 else c.nerrors
    let nerrors := if empty then nerrors else nerrors + 1
    some ({ c with stage := .exit (decide (nerrors ≠ 0)), nerrors }, s)
  | _, _ => none

structure Threaded (n w : Nat) where
  shared : Shared n w
  enqueuer : Fin n → Enqueuer w
  dequeuer : Dequeuer n w

/-- A thread makes the next access of the call that it is in, or does what it does next itself. -/
def threadedStep (qhead : Word w) (niter : Nat) (s : Threaded n w) (a : Option (Fin n) × Word w) :
    Option (Threaded n w) :=
  if s.shared.ctl.pc a.1 = .idle then
    match a.1 with
    | some t =>
      (testQueueThreadedEnqueue qhead niter t a.2 (s.enqueuer t) s.shared).map fun (c, u) =>
        { s with shared := u, enqueuer := Function.update s.enqueuer t c }
    | none =>
      (testQueueThreadedDequeue qhead (niter * n) s.dequeuer s.shared).map fun (c, u) =>
        { s with shared := u, dequeuer := c }
  else
    (atomicStep (queueProgram (threadedConfig n w)) s.shared (.step a.1)).map fun u => { s with shared := u }

/-- The threads at the start, with the queue initialized. -/
def Threaded.init (junk : Cell w → Word w) : Threaded n w where
  shared := initAtomic junk
  enqueuer _ := ⟨.malloc, 0⟩
  dequeuer := ⟨.loop, 0, 0, 0, none, fun _ => 0, 0⟩

/-! ## What one thread's step leaves to the others -/

/-- A step of thread `t`, in a call of the queue or between calls. -/
structure Moved (q : Word w) (t : Option (Fin n)) (s s' : Shared n w) : Prop where
  pc : ∀ t', t' ≠ t → s'.ctl.pc t' = s.ctl.pc t'
  result : ∀ t', t' ≠ t → s'.ctl.result t' = s.ctl.result t'
  called : ∀ t', t' ≠ t → ofThread t' (s'.ctl.called q) = ofThread t' (s.ctl.called q)
  swapped : s.ctl.swapped q <+: s'.ctl.swapped q
  swappedBy : ∀ t', t' ≠ t → ofThread t' (s'.ctl.swapped q) = ofThread t' (s.ctl.swapped q)
  dequeued : t ≠ none → s'.ctl.dequeued q = s.ctl.dequeued q
  owner : ∀ t' e, t' ≠ t → s.ctl.owner e = .held t' → s'.ctl.owner e = .held t'
  ready : t ≠ none → s'.ctl.ready = s.ctl.ready
  payload : ∀ k e, t = none ∨ s.ctl.owner e ≠ .held t → s'.mem ⟨.payload k, e⟩ = s.mem ⟨.payload k, e⟩

section

variable {q : Word w} {t : Option (Fin n)} {s s' : Shared n w} {g : Ghost (Option (Fin n)) w}

theorem threadedConfig_base (t : Option (Fin n)) : (threadedConfig n w).base t = 0#w := rfl

/-- A step that does not change the histories. -/
theorem Moved.of_kept (h : Kept t s s')
    (howner : ∀ t' e, t' ≠ t → s.ctl.owner e = .held t' → s'.ctl.owner e = .held t')
    (hpayload : ∀ k e, t = none ∨ s.ctl.owner e ≠ .held t → s'.mem ⟨.payload k, e⟩ = s.mem ⟨.payload k, e⟩) :
    Moved q t s s' where
  pc t' _ := by rw [h.pc]
  result := h.result
  called t' _ := by rw [h.called]
  swapped := by rw [h.swapped]
  swappedBy t' _ := by rw [h.swapped]
  dequeued _ := by rw [h.dequeued]
  owner := howner
  ready _ := h.ready
  payload := hpayload

/-- An element that an enqueue has not appended yet, or a dequeue has not returned yet, is nobody's. -/
theorem owner_busy (h : AtomicOk (threadedConfig n w) s g) {e : Word w} (he : g.place e ≠ .out) :
    s.ctl.owner e = .busy := by
  by_contra hbusy
  exact he ((h.inv.ctl.owner e).2 hbusy)

/-- An access of a thread that is in a call of the queue. -/
theorem Moved.of_access (h : AtomicOk (threadedConfig n w) s g) (hqueue : (s.ctl.pc t).inQueueCode = true)
    (henqueue : t ≠ none → ∃ p, s.ctl.pc t = .enqueue p)
    (hs : atomicStep (queueProgram (threadedConfig n w)) s (.step t) = some s') : Moved q t s s' := by
  obtain ⟨v, hacc⟩ := accessed threadedConfig_base hs
  have hswaps : ∀ p ∈ (s.ctl.pc t).swaps q t, p.1 = t := Pc.swaps_fst q t _
  constructor
  · intro t' ht
    rw [hacc.pc, Function.update_of_ne ht]
  · exact hacc.result
  · intro t' _
    rw [hacc.called]
  · rw [hacc.swapped]
    exact List.prefix_append ..
  · intro t' ht
    rw [hacc.swapped, ofThread_append, ofThread_none hswaps ht, List.append_nil]
  · intro ht
    obtain ⟨p, hp⟩ := henqueue ht
    rw [hacc.dequeued, hp]
    exact List.append_nil _
  · intro t' e ht he
    rw [hacc.owner]
    cases hp : s.ctl.pc t with
    | dequeue p =>
      cases p with
      | readBarrier q' e' =>
        -- it gives away one element, which was nobody's
        have hplace := (h.inv.ctl.token t (.leaving q' e' true)).2 (by rw [hp]; rfl)
        have hbusy := owner_busy h (e := e') (by rw [hplace.2]; exact nofun)
        have hne : e ≠ e' := by
          rintro rfl
          rw [hbusy] at he
          cases he
        simp only [ownerAfter]
        rw [Function.update_of_ne hne, he]
      | _ => exact he
    | client p =>
      rw [hp] at hqueue
      cases hqueue
    | _ => exact he
  · intro ht
    obtain ⟨p, hp⟩ := henqueue ht
    rw [hacc.ready, hp]
    rfl
  · intro k e _
    apply hacc.payload
    intro v hp
    rw [hp] at hqueue
    cases hqueue

end

/-! ## The elements -/

/-- The element has thread `t`'s number and the sequence number `k`. -/
structure Loaded (s : Shared n w) (t : Fin n) (k : Nat) (element : Word w) : Prop where
  threadno : threadno s element = (t.val : Word w)
  sequenceno : sequenceno s element = (k : Word w)

/-- Every element that has been appended is an enqueuer's, and those that have not been checked yet have its number
and a sequence number that counts its elements. -/
def EntriesOk (q : Word w) (ndequeues : Nat) (s : Shared n w) : Prop :=
  ∀ j p, (s.ctl.swapped q)[j]? = some p → ∃ t, p.1 = some t ∧
    (ndequeues ≤ j → Loaded s t (ofThread (some t) ((s.ctl.swapped q).take j)).length p.2)

/-- All dequeued elements have been checked, but for one that is the dequeuer's. -/
structure Unchecked (q : Word w) (ndequeues : Nat) (s : Shared n w) : Prop where
  length : (s.ctl.dequeued q).length ≤ ndequeues + 1
  held : ∀ p, ndequeues < (s.ctl.dequeued q).length → (s.ctl.swapped q)[ndequeues]? = some p →
    s.ctl.owner p.2 = .held none

section

variable {q : Word w} {niter ndequeues : Nat} {t : Option (Fin n)} {s s' : Shared n w}
  {g : Ghost (Option (Fin n)) w}

theorem Loaded.frame {t : Fin n} {k : Nat} {e : Word w} (h : Loaded s t k e)
    (hpayload : ∀ k, s'.mem ⟨.payload k, e⟩ = s.mem ⟨.payload k, e⟩) : Loaded s' t k e :=
  ⟨(hpayload 0).trans h.threadno, (hpayload 1).trans h.sequenceno⟩

/-- An element that has been appended and not dequeued. -/
theorem entry_busy (h : AtomicOk (threadedConfig n w) s g) {j : Nat} {p : Option (Fin n) × Word w}
    (hj : (s.ctl.swapped q)[j]? = some p) (hd : (s.ctl.dequeued q).length ≤ j) : s.ctl.owner p.2 = .busy := by
  apply owner_busy h
  have hmem : ((s.ctl.swapped q).map Prod.snd)[j]? = some p.2 := by
    rw [List.getElem?_map, hj]
    rfl
  rw [h.order q, List.append_assoc, List.getElem?_append_right (by rwa [List.length_map])] at hmem
  rcases List.mem_append.1 (List.mem_of_getElem? hmem) with hin | hchain
  · obtain ⟨b, htok⟩ := Pc.token_of_inHand hin
    have hplace := (h.inv.ctl.token none (.leaving q p.2 b)).2 htok
    rw [hplace.2]
    exact nofun
  · rw [((h.inv.ctl.chain q).mem p.2).1 hchain]
    exact nofun

/-- An element of an enqueue before its tail swap. -/
theorem entering_busy (h : AtomicOk (threadedConfig n w) s g) {e : Word w}
    (he : (t, e) ∈ (s.ctl.pc t).beforeSwap q t) : s.ctl.owner e = .busy := by
  apply owner_busy h
  have htok := h.inv.ctl.token t
  have hplace : ∃ st, g.place e = .entering t st := by
    unfold Pc.beforeSwap at he
    split at he
    · rename_i hp
      rw [List.mem_ite_nil_right, List.mem_singleton] at he
      obtain ⟨-, ⟨⟩⟩ := he
      exact ⟨.raw, (htok (.entering e .raw)).2 (by rw [hp]; rfl)⟩
    · rename_i hp
      rw [List.mem_ite_nil_right, List.mem_singleton] at he
      obtain ⟨-, ⟨⟩⟩ := he
      exact ⟨.nulled, (htok (.entering e .nulled)).2 (by rw [hp]; rfl)⟩
    · rename_i hp
      rw [List.mem_ite_nil_right, List.mem_singleton] at he
      obtain ⟨-, ⟨⟩⟩ := he
      exact ⟨.drained, (htok (.entering e .drained)).2 (by rw [hp]; rfl)⟩
    · cases he
  obtain ⟨st, hst⟩ := hplace
  rw [hst]
  exact nofun

/-- A step keeps the elements that have been appended; what is to show is about those that it appends. -/
theorem EntriesOk.moved (h : EntriesOk q ndequeues s) (hatomic : AtomicOk (threadedConfig n w) s g)
    (hunchecked : Unchecked q ndequeues s) (hm : Moved q t s s')
    (hnew : ∀ j p, (s.ctl.swapped q).length ≤ j → (s'.ctl.swapped q)[j]? = some p → ∃ t, p.1 = some t ∧
      Loaded s' t (ofThread (some t) ((s'.ctl.swapped q).take j)).length p.2) : EntriesOk q ndequeues s' := by
  intro j p hj
  rcases Nat.lt_or_ge j (s.ctl.swapped q).length with hlt | hge
  · obtain ⟨l, hl⟩ := hm.swapped
    rw [← hl, List.getElem?_append_left hlt] at hj
    obtain ⟨t', hp, hloaded⟩ := h j p hj
    refine ⟨t', hp, fun hle => ?_⟩
    rw [← hl, List.take_append_of_le_length (Nat.le_of_lt hlt)]
    apply (hloaded hle).frame
    intro k
    apply hm.payload
    by_cases ht : t = none
    · exact .inl ht
    · right
      intro howner
      rcases Nat.lt_or_ge j (s.ctl.dequeued q).length with hd | hd
      · -- the one that has not been checked
        have hjeq : j = ndequeues := by
          have := hunchecked.length
          omega
        subst hjeq
        rw [hunchecked.held p hd hj] at howner
        cases howner
        exact ht rfl
      · rw [entry_busy hatomic hj hd] at howner
        cases howner
  · obtain ⟨t', hp, hloaded⟩ := hnew j p hge hj
    exact ⟨t', hp, fun _ => hloaded⟩

theorem EntriesOk.moved_same (h : EntriesOk q ndequeues s) (hatomic : AtomicOk (threadedConfig n w) s g)
    (hunchecked : Unchecked q ndequeues s) (hm : Moved q t s s')
    (hswapped : s'.ctl.swapped q = s.ctl.swapped q) : EntriesOk q ndequeues s' := by
  apply h.moved hatomic hunchecked hm
  intro j p hj hp
  rw [hswapped, List.getElem?_eq_none hj] at hp
  cases hp

end

/-! ## The threads that enqueue -/

/-- An element that an enqueuer has allocated. -/
structure Holds (s : Shared n w) (t : Fin n) (element : Word w) : Prop where
  idle : s.ctl.pc (some t) = .idle
  pos : element ≠ 0#w
  owner : s.ctl.owner element = .held (some t)

def EnqueueStage.Ok (q : Word w) (niter : Nat) (s : Shared n w) (t : Fin n) (i : Nat) : EnqueueStage w → Prop
  | .malloc | .exit _ => s.ctl.pc (some t) = .idle ∨ ∃ p, s.ctl.pc (some t) = .enqueue p ∧ p.qheadPtr = q
  | .setThreadno e => Holds s t e ∧ i < niter
  | .setSequenceno e => Holds s t e ∧ i < niter ∧ threadno s e = (t.val : Word w)
  | .enqueue e => Holds s t e ∧ i < niter ∧ Loaded s t i e

structure EnqueuerOk (q : Word w) (niter : Nat) (s : Shared n w) (t : Fin n) (c : Enqueuer w) : Prop where
  i : c.i = (ofThread (some t) (s.ctl.called q)).length
  bound : c.i ≤ niter
  stage : c.stage.Ok q niter s t c.i
  entering : ∀ e, (some t, e) ∈ (s.ctl.pc (some t)).beforeSwap q (some t) →
    Loaded s t (ofThread (some t) (s.ctl.swapped q)).length e

section

variable {q : Word w} {niter ndequeues : Nat} {t : Fin n} {t' : Option (Fin n)} {s s' : Shared n w}
  {g : Ghost (Option (Fin n)) w} {c c' : Enqueuer w}

theorem Holds.moved {e : Word w} (h : Holds s t e) (hm : Moved q t' s s') (ht : some t ≠ t') :
    Holds s' t e ∧ ∀ k, s'.mem ⟨.payload k, e⟩ = s.mem ⟨.payload k, e⟩ := by
  refine ⟨⟨by rw [hm.pc _ ht]; exact h.idle, h.pos, hm.owner _ _ ht h.owner⟩, fun k => ?_⟩
  apply hm.payload
  right
  rw [h.owner]
  rintro ⟨⟩
  exact ht rfl

theorem EnqueuerOk.moved (h : EnqueuerOk q niter s t c) (hatomic : AtomicOk (threadedConfig n w) s g)
    (hm : Moved q t' s s') (ht : some t ≠ t') : EnqueuerOk q niter s' t c := by
  have hpc := hm.pc _ ht
  refine ⟨by rw [hm.called _ ht]; exact h.i, h.bound, ?_, fun e he => ?_⟩
  · have hstage := h.stage
    cases hc : c.stage with
    | malloc | exit =>
      rw [hc] at hstage
      unfold EnqueueStage.Ok at hstage ⊢
      rw [hpc]
      exact hstage
    | setThreadno e =>
      rw [hc] at hstage
      obtain ⟨hholds, hi⟩ := hstage
      exact ⟨(hholds.moved hm ht).1, hi⟩
    | setSequenceno e =>
      rw [hc] at hstage
      obtain ⟨hholds, hi, hno⟩ := hstage
      obtain ⟨hholds', hpayload⟩ := hholds.moved hm ht
      exact ⟨hholds', hi, (hpayload 0).trans hno⟩
    | enqueue e =>
      rw [hc] at hstage
      obtain ⟨hholds, hi, hloaded⟩ := hstage
      obtain ⟨hholds', hpayload⟩ := hholds.moved hm ht
      exact ⟨hholds', hi, hloaded.frame hpayload⟩
  · rw [hpc] at he
    rw [hm.swappedBy _ ht]
    apply (h.entering e he).frame
    intro k
    apply hm.payload
    right
    rw [entering_busy hatomic he]
    exact nofun

theorem beforeSwap_length (p : Pc w) (t : Option (Fin n)) : (p.beforeSwap q t).length ≤ 1 := by
  unfold Pc.beforeSwap
  split
  all_goals
    try split
    all_goals simp

/-- The next access of an enqueue. -/
theorem EnqueuerOk.access (h : EnqueuerOk q niter s t c) (hatomic : AtomicOk (threadedConfig n w) s g)
    (hbusy : s.ctl.pc (some t) ≠ .idle)
    (hs : atomicStep (queueProgram (threadedConfig n w)) s (.step (some t)) = some s') :
    Moved q (some t) s s' ∧ EnqueuerOk q niter s' t c ∧
      ∀ j p, (s.ctl.swapped q).length ≤ j → (s'.ctl.swapped q)[j]? = some p → ∃ t, p.1 = some t ∧
        Loaded s' t (ofThread (some t) ((s'.ctl.swapped q).take j)).length p.2 := by
  obtain ⟨p, hp, hq⟩ : ∃ p, s.ctl.pc (some t) = .enqueue p ∧ p.qheadPtr = q := by
    have hstage := h.stage
    cases hc : c.stage with
    | malloc | exit =>
      rw [hc] at hstage
      exact hstage.resolve_left hbusy
    | setThreadno | setSequenceno | enqueue =>
      rw [hc] at hstage
      exact absurd hstage.1.idle hbusy
  have hm : Moved q (some t) s s' := Moved.of_access hatomic (by rw [hp]; rfl) (fun _ => ⟨p, hp⟩) hs
  obtain ⟨v, hacc⟩ := accessed threadedConfig_base hs
  have hpayload : ∀ k e, s'.mem ⟨.payload k, e⟩ = s.mem ⟨.payload k, e⟩ := by
    intro k e
    apply hacc.payload
    intro v
    rw [hp]
    exact nofun
  -- an element that is not appended yet stays so, or is the one this access appends
  have hbefore : (s.ctl.pc (some t)).beforeSwap q (some t) =
      (s.ctl.pc (some t)).swaps q (some t) ++
        ((s.ctl.pc (some t)).after (threadedConfig n w) (some t) v).beforeSwap q (some t) :=
    (Pc.after_swap q (some t) (s.ctl.pc (some t)) v).1
  have hlen := beforeSwap_length (q := q) (s.ctl.pc (some t)) (some t)
  rw [hbefore, List.length_append] at hlen
  have hafter : s'.ctl.pc (some t) = (s.ctl.pc (some t)).after (threadedConfig n w) (some t) v := by
    rw [hacc.pc, Function.update_self]
  refine ⟨hm, ⟨by rw [hacc.called]; exact h.i, h.bound, ?_, fun e he => ?_⟩, fun j p hj hp => ?_⟩
  · have hnext : s'.ctl.pc (some t) = .idle ∨ ∃ p, s'.ctl.pc (some t) = .enqueue p ∧ p.qheadPtr = q := by
      rw [← hq]
      exact enqueue_step hp hs
    have hstage := h.stage
    cases hc : c.stage with
    | malloc | exit => exact hnext
    | setThreadno | setSequenceno | enqueue =>
      rw [hc] at hstage
      exact absurd hstage.1.idle hbusy
  · rw [hafter] at he
    have hpos := List.length_pos_of_mem he
    have hnone : (s.ctl.pc (some t)).swaps q (some t) = [] := List.eq_nil_of_length_eq_zero (by omega)
    rw [hacc.swapped, hnone, List.append_nil]
    apply (h.entering e _).frame fun k => hpayload k e
    rw [hbefore]
    exact List.mem_append_right _ he
  · -- the tail swap
    obtain ⟨t', e⟩ := p
    rw [hacc.swapped, List.getElem?_append_right hj] at hp
    have hmem := List.mem_of_getElem? hp
    have hlt := (List.getElem?_eq_some_iff.1 hp).1
    obtain rfl : t' = some t := Pc.swaps_fst q (some t) _ _ hmem
    have hjeq : j = (s.ctl.swapped q).length := by omega
    refine ⟨t, rfl, ?_⟩
    rw [hacc.swapped, hjeq, List.take_left]
    apply (h.entering e _).frame fun k => hpayload k e
    rw [hbefore]
    exact List.mem_append_left _ hmem

theorem Moved.refl : Moved q t' s s where
  pc _ _ := rfl
  result _ _ := rfl
  called _ _ := rfl
  swapped := List.prefix_refl _
  swappedBy _ _ := rfl
  dequeued _ := rfl
  owner _ _ _ h := h
  ready _ := rfl
  payload _ _ _ := rfl

/-- A thread that is in no call, on which nothing but its element depends. -/
theorem EnqueuerOk.private (h : EnqueuerOk q niter s t c) (hidle : s.ctl.pc (some t) = .idle) (hk : Kept (some t) s s')
    {stage : EnqueueStage w} (hstage : stage.Ok q niter s' t c.i) : EnqueuerOk q niter s' t ⟨stage, c.i⟩ := by
  refine ⟨by rw [hk.called]; exact h.i, h.bound, hstage, fun e he => ?_⟩
  rw [hk.pc, hidle] at he
  cases he

/-- It writes a field of its element. -/
theorem Holds.write {e v : Word w} {k : Nat} (h : Holds s t e)
    (hs : privately (threadedConfig n w) (some t) (.write (some t) e k v) s = some s') :
    Moved q (some t) s s' ∧ Kept (some t) s s' ∧ Holds s' t e ∧ s'.mem = Function.update s.mem ⟨.payload k, e⟩ v := by
  obtain ⟨hkept, howner, hmem⟩ := write_privately threadedConfig_base hs
  refine ⟨Moved.of_kept hkept (fun t' e' _ he' => by rw [howner]; exact he') fun k' e' he' => ?_, hkept,
    ⟨by rw [hkept.pc]; exact h.idle, h.pos, by rw [howner]; exact h.owner⟩, hmem⟩
  rw [hmem, Function.update_of_ne]
  rintro ⟨⟩
  rcases he' with hnone | hne
  · cases hnone
  · exact hne h.owner

/-- It calls `OPA_Queue_enqueue`. -/
theorem EnqueuerOk.call {e : Word w} (h : EnqueuerOk q niter s t c) (hatomic : AtomicOk (threadedConfig n w) s g)
    (hholds : Holds s t e) (hlt : c.i < niter) (hloaded : Loaded s t c.i e)
    (hs : atomicStep (queueProgram (threadedConfig n w)) s (.call (.enqueue (some t) q e)) = some s') :
    Moved q (some t) s s' ∧ EnqueuerOk q niter s' t ⟨.malloc, c.i + 1⟩ ∧ s'.ctl.swapped q = s.ctl.swapped q := by
  obtain ⟨ctl, hcall, rfl⟩ := Option.map_eq_some_iff.1 hs
  simp only [queueProgram, Queue.call, threadedConfig_base, shmAbsToRel_zero] at hcall
  split at hcall
  · cases hcall
    -- between calls, all that the thread has enqueued has been appended
    have hsame : (ofThread (some t) (s.ctl.swapped q)).length = c.i := by
      have hcalls := hatomic.hist.calls q (some t)
      rw [hholds.idle] at hcalls
      rw [h.i, hcalls]
      exact congrArg List.length (List.append_nil _).symm
    have hcalled : ∀ t', ofThread t' (Function.update s.ctl.called q (s.ctl.called q ++ [(some t, e)]) q) =
        ofThread t' (s.ctl.called q) ++ ofThread t' [(some t, e)] := by
      intro t'
      rw [Function.update_self, ofThread_append]
    have hone : ∀ p ∈ [(some t, e)], p.1 = some t := by
      rintro p hp
      rw [List.mem_singleton.1 hp]
    refine ⟨?_, ⟨?_, hlt, .inr ⟨_, Function.update_self .., rfl⟩, fun e' he' => ?_⟩, rfl⟩
    · constructor
      · exact fun t' ht => Function.update_of_ne ht _ _
      · exact fun t' ht => Function.update_of_ne ht _ _
      · intro t' ht
        rw [hcalled, ofThread_none hone ht, List.append_nil]
      · exact List.prefix_refl _
      · exact fun _ _ => rfl
      · exact fun _ => rfl
      · intro t' e' ht he'
        have hne : e' ≠ e := by
          rintro rfl
          rw [hholds.owner] at he'
          cases he'
          exact ht rfl
        exact (Function.update_of_ne hne _ _).trans he'
      · exact fun _ => rfl
      · exact fun _ _ _ => rfl
    · show c.i + 1 = _
      rw [hcalled, ofThread_all hone, List.length_append, ← h.i]
      rfl
    · replace he' : (some t, e') ∈ (Function.update s.ctl.pc (some t) _ (some t)).beforeSwap q (some t) := he'
      rw [Function.update_self] at he'
      simp only [EnqueuePc.start, Pc.beforeSwap, if_pos, List.mem_singleton, Prod.mk.injEq, true_and] at he'
      subst he'
      show Loaded _ t (ofThread (some t) (s.ctl.swapped q)).length e'
      rw [hsame]
      exact hloaded.frame fun _ => rfl
  · cases hcall

/-- What an enqueuer does between calls. -/
theorem EnqueuerOk.next (h : EnqueuerOk q niter s t c) (hatomic : AtomicOk (threadedConfig n w) s g)
    (hidle : s.ctl.pc (some t) = .idle) {addr : Word w}
    (hs : testQueueThreadedEnqueue q niter t addr c s = some (c', s')) :
    Moved q (some t) s s' ∧ EnqueuerOk q niter s' t c' ∧ s'.ctl.swapped q = s.ctl.swapped q ∧
      ∃ as, run (atomicStep (queueProgram (threadedConfig n w))) s as = some s' := by
  have hstage := h.stage
  have hexit : ∀ ret, EnqueuerOk q niter s t ⟨.exit ret, c.i⟩ := fun ret => ⟨h.i, h.bound, .inl hidle, h.entering⟩
  simp only [testQueueThreadedEnqueue] at hs
  cases hc : c.stage with
  | malloc =>
    simp only [hc] at hs
    split at hs
    · rename_i hlt
      split at hs
      · cases hs
        exact ⟨Moved.refl, hexit true, rfl, [], rfl⟩
      · rename_i hpos
        split at hs
        · rename_i hfree
          obtain ⟨u, hu, heq⟩ := Option.map_eq_some_iff.1 hs
          cases heq
          -- `malloc` may give any element that is free
          obtain ⟨hkept, howner, hmem⟩ := reuse_privately threadedConfig_base hu
          refine ⟨Moved.of_kept hkept (fun t' e _ he => ?_) fun k e _ => hmem k e, ?_, by rw [hkept.swapped], _, hu⟩
          · rw [howner, Function.update_of_ne _, he]
            rintro rfl
            rw [hfree] at he
            cases he
          · apply h.private hidle hkept
            exact ⟨⟨by rw [hkept.pc]; exact hidle, hpos, by rw [howner, Function.update_self]⟩, hlt⟩
        · cases hs
    · cases hs
      exact ⟨Moved.refl, hexit false, rfl, [], rfl⟩
  | setThreadno e =>
    rw [hc] at hstage
    simp only [hc] at hs
    obtain ⟨u, hu, heq⟩ := Option.map_eq_some_iff.1 hs
    cases heq
    obtain ⟨hm, hkept, hholds, hmem⟩ := hstage.1.write hu
    refine ⟨hm, h.private hidle hkept ⟨hholds, hstage.2, ?_⟩, by rw [hkept.swapped], _, hu⟩
    rw [threadno, hmem, Function.update_self]
  | setSequenceno e =>
    rw [hc] at hstage
    simp only [hc] at hs
    obtain ⟨u, hu, heq⟩ := Option.map_eq_some_iff.1 hs
    cases heq
    obtain ⟨hm, hkept, hholds, hmem⟩ := hstage.1.write hu
    refine ⟨hm, h.private hidle hkept ⟨hholds, hstage.2.1, ?_, ?_⟩, by rw [hkept.swapped], _, hu⟩
    · rw [threadno, hmem, Function.update_of_ne (by exact nofun)]
      exact hstage.2.2
    · rw [sequenceno, hmem, Function.update_self]
  | enqueue e =>
    rw [hc] at hstage
    simp only [hc] at hs
    obtain ⟨u, hu, heq⟩ := Option.map_eq_some_iff.1 hs
    cases heq
    obtain ⟨hm, hok, hswapped⟩ := h.call hatomic hstage.1 hstage.2.1 hstage.2.2 hu
    exact ⟨hm, hok, hswapped, [.call (.enqueue (some t) q e)], run_cons_some.2 ⟨_, hu, rfl⟩⟩
  | exit =>
    simp only [hc] at hs
    cases hs

end

/-! ## The thread that dequeues -/

/-- The element that the next dequeue returns, or the last one has returned. -/
def Next (q : Word w) (ndequeues : Nat) (s : Shared n w) (element : Word w) : Prop :=
  ((s.ctl.swapped q).map Prod.snd)[ndequeues]? = some element

def DequeueStage.Ok (q : Word w) (niter : Nat) (s : Shared n w) (c : Dequeuer n w) : DequeueStage → Prop
  | .loop => (s.ctl.dequeued q).length = c.ndequeues ∧ s.ctl.pc none = .idle ∧ c.peek_element = none
  | .nonempty => (s.ctl.dequeued q).length = c.ndequeues ∧ c.peek_element = none ∧
    ((∃ p, s.ctl.pc none = .isEmpty p ∧ p.qhead = q) ∨ s.ctl.pc none = .idle ∧
      ∃ b, s.ctl.result none = some (.isEmpty b) ∧ (b = false → s.ctl.ready q = true))
  | .peeked => (s.ctl.dequeued q).length = c.ndequeues ∧ s.ctl.ready q = true ∧
    ((∃ p, s.ctl.pc none = .peekHead p ∧ p.qheadPtr = q) ∨ s.ctl.pc none = .idle ∧
      ∃ x, s.ctl.result none = some (.peeked (some x)) ∧ Next q c.ndequeues s x)
  | .rechecked => (s.ctl.dequeued q).length = c.ndequeues ∧ s.ctl.ready q = true ∧
    (∀ x, c.peek_element = some x → Next q c.ndequeues s x) ∧
    (s.ctl.pc none = .isEmpty (.testShadow q) ∨ s.ctl.pc none = .idle ∧ s.ctl.result none = some (.isEmpty false))
  | .dequeued => (∀ x, c.peek_element = some x → Next q c.ndequeues s x) ∧
    ((s.ctl.dequeued q).length = c.ndequeues ∧ (∃ p, s.ctl.pc none = .dequeue p ∧ p.qheadPtr = q) ∨
      (s.ctl.dequeued q).length = c.ndequeues + 1 ∧ s.ctl.pc none = .idle ∧
        ∃ e, s.ctl.result none = some (.dequeued e) ∧ Next q c.ndequeues s e ∧ s.ctl.owner e = .held none)
  | .final => (s.ctl.dequeued q).length = c.ndequeues ∧
    ((∃ p, s.ctl.pc none = .isEmpty p ∧ p.qhead = q ∧ (c.ndequeues = niter → p = .testShadow q ∨ p = .testHead q)) ∨
      s.ctl.pc none = .idle ∧ ∃ b, s.ctl.result none = some (.isEmpty b) ∧ (c.ndequeues = niter → b = true))
  | .exit ret => (s.ctl.dequeued q).length = c.ndequeues ∧ s.ctl.pc none = .idle ∧
    ret = decide (c.nerrors ≠ 0) ∧ (c.ndequeues = niter → c.nerrors = 0)

structure DequeuerOk (q : Word w) (niter : Nat) (s : Shared n w) (c : Dequeuer n w) : Prop where
  expect : ∀ t, c.expect_sn t = ((ofThread (some t) ((s.ctl.swapped q).take c.ndequeues)).length : Word w)
  errors : (∀ ret, c.stage ≠ .exit ret) → c.nerrors = 0
  stage : c.stage.Ok q niter s c

section

variable {q : Word w} {niter : Nat} {t : Option (Fin n)} {s s' : Shared n w} {g : Ghost (Option (Fin n)) w}
  {c c' : Dequeuer n w}

theorem Next.of_prefix {ndequeues : Nat} {e : Word w} (h : Next q ndequeues s e)
    (hswapped : s.ctl.swapped q <+: s'.ctl.swapped q) : Next q ndequeues s' e := by
  obtain ⟨l, hl⟩ := hswapped
  unfold Next at h ⊢
  rw [← hl, List.map_append, List.getElem?_append_left (List.getElem?_eq_some_iff.1 h).1]
  exact h

theorem Next.unique {ndequeues : Nat} {e e' : Word w} (h : Next q ndequeues s e) (h' : Next q ndequeues s e') :
    e = e' := Option.some.inj (h.symm.trans h')

theorem dequeued_le (h : AtomicOk (threadedConfig n w) s g) :
    (s.ctl.dequeued q).length ≤ (s.ctl.swapped q).length := by
  have horder := congrArg List.length (h.order q)
  rw [List.append_assoc, List.length_append, List.length_map, List.length_map] at horder
  omega

theorem DequeuerOk.length (h : DequeuerOk q niter s c) :
    (s.ctl.dequeued q).length = c.ndequeues ∨
    (s.ctl.dequeued q).length = c.ndequeues + 1 ∧ ∃ e, Next q c.ndequeues s e ∧ s.ctl.owner e = .held none := by
  have hstage := h.stage
  cases hc : c.stage with
  | dequeued =>
    rw [hc] at hstage
    obtain ⟨-, ⟨hlen, -⟩ | ⟨hlen, -, e, -, hnext, howner⟩⟩ := hstage
    · exact .inl hlen
    · exact .inr ⟨hlen, e, hnext, howner⟩
  | _ =>
    rw [hc] at hstage
    exact .inl hstage.1

theorem DequeuerOk.unchecked (h : DequeuerOk q niter s c) : Unchecked q c.ndequeues s := by
  rcases h.length with hlen | ⟨hlen, e, hnext, howner⟩
  · refine ⟨by omega, fun p hlt => by omega⟩
  · refine ⟨by omega, fun p _ hp => ?_⟩
    have hnext' : Next q c.ndequeues s p.2 := by
      unfold Next
      rw [List.getElem?_map, hp]
      rfl
    rw [hnext'.unique hnext]
    exact howner

/-- The expected sequence numbers depend on elements that have been dequeued. -/
theorem DequeuerOk.expect_of_prefix (h : DequeuerOk q niter s c) (hatomic : AtomicOk (threadedConfig n w) s g)
    (hswapped : s.ctl.swapped q <+: s'.ctl.swapped q) (t : Fin n) :
    c.expect_sn t = ((ofThread (some t) ((s'.ctl.swapped q).take c.ndequeues)).length : Word w) := by
  obtain ⟨l, hl⟩ := hswapped
  have hle : c.ndequeues ≤ (s.ctl.swapped q).length := by
    have hd := dequeued_le (q := q) hatomic
    rcases h.length with hlen | ⟨hlen, -⟩
    · omega
    · omega
  rw [h.expect, ← hl, List.take_append_of_le_length hle]

/-- A step of another thread. -/
theorem DequeuerOk.moved (h : DequeuerOk q niter s c) (hatomic : AtomicOk (threadedConfig n w) s g)
    (hm : Moved q t s s') (ht : none ≠ t) : DequeuerOk q niter s' c := by
  have hpc := hm.pc none ht
  have hresult := hm.result none ht
  have hdequeued := hm.dequeued (Ne.symm ht)
  have hready := hm.ready (Ne.symm ht)
  have hnext : ∀ {e}, Next q c.ndequeues s e → Next q c.ndequeues s' e := fun hn => hn.of_prefix hm.swapped
  refine ⟨h.expect_of_prefix hatomic hm.swapped, h.errors, ?_⟩
  have hstage := h.stage
  cases hc : c.stage with
  | peeked =>
    rw [hc] at hstage
    obtain ⟨hlen, hrdy, hpos⟩ := hstage
    unfold DequeueStage.Ok
    rw [hpc, hresult, hdequeued, hready]
    exact ⟨hlen, hrdy, hpos.imp_right fun ⟨hidle, x, hx, hn⟩ => ⟨hidle, x, hx, hnext hn⟩⟩
  | rechecked =>
    rw [hc] at hstage
    obtain ⟨hlen, hrdy, hpeek, hpos⟩ := hstage
    unfold DequeueStage.Ok
    rw [hpc, hresult, hdequeued, hready]
    exact ⟨hlen, hrdy, fun x hx => hnext (hpeek x hx), hpos⟩
  | dequeued =>
    rw [hc] at hstage
    obtain ⟨hpeek, hpos⟩ := hstage
    unfold DequeueStage.Ok
    rw [hpc, hresult, hdequeued]
    exact ⟨fun x hx => hnext (hpeek x hx), hpos.imp_right fun ⟨hlen, hidle, e, he, hn, howner⟩ =>
      ⟨hlen, hidle, e, he, hnext hn, hm.owner none e ht howner⟩⟩
  | _ =>
    rw [hc] at hstage
    unfold DequeueStage.Ok at hstage ⊢
    rw [hpc, hdequeued]
    try rw [hresult]
    try rw [hready]
    exact hstage

/-- When all elements have been dequeued, the queue is empty. -/
theorem chain_nil (h : AtomicOk (threadedConfig n w) s g)
    (hall : (s.ctl.swapped q).length ≤ (s.ctl.dequeued q).length) : g.chain q = [] := by
  have horder := congrArg List.length (h.order q)
  rw [List.length_append, List.length_append, List.length_map, List.length_map] at horder
  exact List.eq_nil_of_length_eq_zero (by omega)

/-- The next access of a call of the dequeuer. -/
theorem DequeuerOk.access (h : DequeuerOk q niter s c) (hatomic : AtomicOk (threadedConfig n w) s g)
    (hroom : (s.ctl.swapped q).length ≤ niter) (hbusy : s.ctl.pc none ≠ .idle)
    (hs : atomicStep (queueProgram (threadedConfig n w)) s (.step none) = some s') :
    Moved q none s s' ∧ DequeuerOk q niter s' c ∧ s'.ctl.swapped q = s.ctl.swapped q := by
  obtain ⟨v, hacc⟩ := accessed threadedConfig_base hs
  -- what is to show once the call is known
  have hmove : (s.ctl.pc none).inQueueCode = true → (s.ctl.pc none).swaps q (none : Option (Fin n)) = [] →
      (s'.ctl.swapped q = s.ctl.swapped q → c.stage.Ok q niter s' c) →
      Moved q none s s' ∧ DequeuerOk q niter s' c ∧ s'.ctl.swapped q = s.ctl.swapped q := by
    intro hqueue hnone hok
    have hsame : s'.ctl.swapped q = s.ctl.swapped q := by rw [hacc.swapped, hnone, List.append_nil]
    refine ⟨Moved.of_access hatomic hqueue (fun ht => absurd rfl ht) hs, ⟨fun t => ?_, h.errors, hok hsame⟩, hsame⟩
    rw [hsame]
    exact h.expect t
  have hstage := h.stage
  cases hc : c.stage with
  | loop | exit =>
    rw [hc] at hstage
    exact absurd hstage.2.1 hbusy
  | nonempty =>
    rw [hc] at hstage hmove
    obtain ⟨hlen, hpeek, ⟨p, hp, hq⟩ | ⟨hidle, -⟩⟩ := hstage
    · apply hmove (by rw [hp]; rfl) (by rw [hp]; rfl)
      intro _
      refine ⟨by rw [hacc.dequeued, hp]; exact (congrArg List.length (List.append_nil _)).trans hlen, hpeek, ?_⟩
      rw [← hq]
      exact isEmpty_step threadedConfig_base hp hs
    · exact absurd hidle hbusy
  | peeked =>
    rw [hc] at hstage hmove
    obtain ⟨hlen, hready, ⟨p, hp, rfl⟩ | ⟨hidle, -⟩⟩ := hstage
    · have hlen' : (s'.ctl.dequeued p.qheadPtr).length = c.ndequeues := by
        rw [hacc.dequeued, hp]
        exact (congrArg List.length (List.append_nil _)).trans hlen
      apply hmove (by rw [hp]; rfl) (by rw [hp]; rfl)
      intro _
      refine ⟨hlen', by rw [hacc.ready, hp]; exact hready, ?_⟩
      rcases peekHead_step hp hs with hidle | hgo
      · obtain ⟨x, hx, hnext, -⟩ := hatomic.peek_next threadedConfig_base hp hs hidle
        rw [hlen'] at hnext
        exact .inr ⟨hidle, x, hx, hnext⟩
      · exact .inl hgo
    · exact absurd hidle hbusy
  | rechecked =>
    rw [hc] at hstage hmove
    obtain ⟨hlen, hready, hpeek, hp | ⟨hidle, -⟩⟩ := hstage
    · apply hmove (by rw [hp]; rfl) (by rw [hp]; rfl)
      intro hsame
      refine ⟨by rw [hacc.dequeued, hp]; exact (congrArg List.length (List.append_nil _)).trans hlen, ?_, ?_,
        .inr (hatomic.isEmpty_ready threadedConfig_base hp hready hs)⟩
      · rw [hacc.ready, hp]
        simp only [readyAfter]
        split
        · exact hready
        · exact Function.update_self ..
      · unfold Next
        rw [hsame]
        exact hpeek
    · exact absurd hidle hbusy
  | dequeued =>
    rw [hc] at hstage hmove
    obtain ⟨hpeek, ⟨hlen, p, hp, rfl⟩ | ⟨-, hidle, -⟩⟩ := hstage
    · apply hmove (by rw [hp]; rfl) (by rw [hp]; rfl)
      intro hsame
      refine ⟨by unfold Next; rw [hsame]; exact hpeek, ?_⟩
      rw [hacc.dequeued, hacc.owner, hp]
      rcases dequeue_step hp hs with ⟨hgo, hnone⟩ | ⟨e, hbarrier, hidle, hresult⟩
      · rw [hnone, List.append_nil]
        exact .inl ⟨hlen, hgo⟩
      · -- the read barrier
        generalize hq : p.qheadPtr = q at *
        subst hbarrier
        refine .inr ⟨?_, hidle, e, hresult, ?_, Function.update_self ..⟩
        · simp only [Pc.dequeues, if_pos, List.length_append, hlen, List.length_singleton]
        · have horder := hatomic.order q
          have hhand : (s.ctl.pc ((threadedConfig n w).consumer q)).inHand q = [e] := by
            show (s.ctl.pc none).inHand q = [e]
            rw [hp]
            simp only [Pc.inHand, if_pos]
          rw [hhand] at horder
          unfold Next
          rw [hsame, horder, List.append_assoc, List.getElem?_append_right (by rw [List.length_map, hlen]),
            List.length_map, hlen, Nat.sub_self]
          rfl
    · exact absurd hidle hbusy
  | final =>
    rw [hc] at hstage hmove
    obtain ⟨hlen, ⟨p, hp, hq, hfirst⟩ | ⟨hidle, -⟩⟩ := hstage
    · apply hmove (by rw [hp]; rfl) (by rw [hp]; rfl)
      intro _
      refine ⟨by rw [hacc.dequeued, hp]; exact (congrArg List.length (List.append_nil _)).trans hlen, ?_⟩
      by_cases hall : c.ndequeues = niter
      · -- everything has been dequeued
        have hchain := chain_nil (q := q) hatomic (by omega)
        rcases hatomic.isEmpty_none threadedConfig_base hp (hfirst hall) hchain hs with hgo | ⟨hidle, hresult⟩
        · exact .inl ⟨_, hgo, rfl, fun _ => .inr rfl⟩
        · exact .inr ⟨hidle, true, hresult, fun _ => rfl⟩
      · rcases isEmpty_step threadedConfig_base hp hs with ⟨p', hgo, hq'⟩ | ⟨hidle, b, hresult, -⟩
        · exact .inl ⟨p', hgo, hq'.trans hq, fun hall' => absurd hall' hall⟩
        · exact .inr ⟨hidle, b, hresult, fun hall' => absurd hall' hall⟩
    · exact absurd hidle hbusy

/-- The dequeuer makes a call, to `p`. -/
structure Entered (q : Word w) (p : Pc w) (s s' : Shared n w) : Prop where
  moved : Moved q none s s'
  pc : s'.ctl.pc none = p
  swapped : s'.ctl.swapped q = s.ctl.swapped q
  dequeued : s'.ctl.dequeued q = s.ctl.dequeued q

theorem Entered.enter (p : Pc w) (r : Word w → Bool) :
    Entered q p s ⟨s.mem, { s.ctl.enter none p with ready := r }⟩ where
  moved :=
    { pc := fun _ ht => Function.update_of_ne ht _ _
      result := fun _ ht => Function.update_of_ne ht _ _
      called := fun _ _ => rfl
      swapped := List.prefix_refl _
      swappedBy := fun _ _ => rfl
      dequeued := fun _ => rfl
      owner := fun _ _ _ h => h
      ready := fun ht => absurd rfl ht
      payload := fun _ _ _ => rfl }
  pc := by
    show Function.update s.ctl.pc none p none = p
    rw [Function.update_self]
  swapped := rfl
  dequeued := rfl

theorem Entered.next {p : Pc w} {ndequeues : Nat} {e : Word w} (h : Entered q p s s') (hnext : Next q ndequeues s e) :
    Next q ndequeues s' e := by
  unfold Next
  rw [h.swapped]
  exact hnext

theorem call_isEmpty (hs : atomicStep (queueProgram (threadedConfig n w)) s (.call (.isEmpty none q)) = some s') :
    Entered q (.isEmpty (.testShadow q)) s s' ∧ s'.ctl.ready = s.ctl.ready := by
  obtain ⟨ctl, hcall, rfl⟩ := Option.map_eq_some_iff.1 hs
  simp only [queueProgram, Queue.call] at hcall
  split at hcall
  · cases hcall
    exact ⟨Entered.enter _ _, rfl⟩
  · cases hcall

theorem call_peekHead (hs : atomicStep (queueProgram (threadedConfig n w)) s (.call (.peekHead none q)) = some s') :
    Entered q (.peekHead (.testShadow q)) s s' ∧ s'.ctl.ready = s.ctl.ready := by
  obtain ⟨ctl, hcall, rfl⟩ := Option.map_eq_some_iff.1 hs
  simp only [queueProgram, Queue.call] at hcall
  split at hcall
  · cases hcall
    exact ⟨Entered.enter _ _, rfl⟩
  · cases hcall

theorem call_dequeue (hs : atomicStep (queueProgram (threadedConfig n w)) s (.call (.dequeue none q)) = some s') :
    Entered q (.dequeue (.loadShadow q)) s s' := by
  obtain ⟨ctl, hcall, rfl⟩ := Option.map_eq_some_iff.1 hs
  simp only [queueProgram, Queue.call] at hcall
  split at hcall
  · cases hcall
    exact Entered.enter _ _
  · cases hcall

/-- Nothing is checked. -/
theorem DequeuerOk.unchanged (h : DequeuerOk q niter s c) (hswapped : s'.ctl.swapped q = s.ctl.swapped q)
    (hndequeues : c'.ndequeues = c.ndequeues) (hexpect : c'.expect_sn = c.expect_sn)
    (herrors : (∀ ret, c'.stage ≠ .exit ret) → c'.nerrors = 0) (hstage : c'.stage.Ok q niter s' c') :
    DequeuerOk q niter s' c' := by
  refine ⟨fun t => ?_, herrors, hstage⟩
  rw [hexpect, hswapped, hndequeues]
  exact h.expect t

theorem validThreadno_val (hn : 2 * n ≤ 2 ^ w) (t : Fin n) : validThreadno n (t.val : Word w) = some t := by
  have ht := t.isLt
  have hnat : (t.val : Word w).toNat = t.val := Nat.mod_eq_of_lt (by omega)
  have hint : (t.val : Word w).toInt = t.val := by
    rw [BitVec.toInt_eq_toNat_of_lt (by rw [hnat]; omega), hnat]
  unfold validThreadno
  rw [dif_pos (by rw [hint]; omega)]
  simp only [hint, Int.toNat_natCast]

/-- The checks of an element that is the expected one. -/
theorem check_expected (hn : 2 * n ≤ 2 ^ w) {e : Word w} {t : Fin n} {k : Nat}
    (hpeek : ∀ x, c.peek_element = some x → x = e) (hloaded : Loaded s t k e) (hexpect : c.expect_sn t = (k : Word w)) :
    c.check s e = { c with
      ndequeues := c.ndequeues + 1
      peek_element := none
      expect_sn := Function.update c.expect_sn t ((k + 1 : Nat) : Word w) } := by
  have hno := hloaded.threadno
  have hsn := hloaded.sequenceno
  unfold Dequeuer.check
  cases hp : c.peek_element with
  | none => simp only [hno, hsn, validThreadno_val hn, hexpect, ne_eq, not_true_eq_false, Bool.false_eq_true,
      reduceIte, Nat.cast_succ]
  | some x =>
    cases hpeek x hp
    simp only [hno, hsn, validThreadno_val hn, hexpect, ne_eq, not_true_eq_false, or_self, decide_false,
      Bool.false_eq_true, reduceIte, Nat.cast_succ]

/-- An element that is the expected one is checked and freed. -/
theorem DequeuerOk.check (h : DequeuerOk q niter s c)
    (hentries : EntriesOk q c.ndequeues s) (hn : 2 * n ≤ 2 ^ w) (hidle : s.ctl.pc none = .idle) {e : Word w}
    (hpeek : ∀ x, c.peek_element = some x → Next q c.ndequeues s x)
    (hlen : (s.ctl.dequeued q).length = c.ndequeues + 1) (hnext : Next q c.ndequeues s e)
    (howner : s.ctl.owner e = .held none) (herrors : c.nerrors = 0)
    (hs : privately (threadedConfig n w) none (.handOff none e) s = some s') :
    Moved q none s s' ∧ DequeuerOk q niter s' { c.check s e with stage := .loop, i := c.i + 1 } ∧
      s'.ctl.swapped q = s.ctl.swapped q ∧ (c.check s e).ndequeues = c.ndequeues + 1 := by
  obtain ⟨hkept, hfree, hmem⟩ := handOff_privately threadedConfig_base hs
  obtain ⟨p, hp, hpe⟩ : ∃ p, (s.ctl.swapped q)[c.ndequeues]? = some p ∧ p.2 = e := by
    unfold Next at hnext
    rw [List.getElem?_map] at hnext
    exact Option.map_eq_some_iff.1 hnext
  -- the element carries its thread and how many that thread had appended before it
  obtain ⟨t, ht, hloaded⟩ := hentries c.ndequeues p hp
  replace hloaded := hloaded (Nat.le_refl _)
  rw [hpe] at hloaded
  have hcheck := check_expected hn (fun x hx => (hpeek x hx).unique hnext) hloaded (h.expect t)
  have hswapped : s'.ctl.swapped q = s.ctl.swapped q := by rw [hkept.swapped]
  refine ⟨?_, ⟨fun t' => ?_, fun _ => ?_, ?_⟩, hswapped, by rw [hcheck]⟩
  · apply Moved.of_kept hkept
    · intro t' e' ht' he'
      have hne : e' ≠ e := by
        rintro rfl
        rw [howner] at he'
        cases he'
        exact ht' rfl
      rw [hfree, Function.update_of_ne hne, he']
    · exact fun k e' _ => hmem k e'
  · rw [hcheck, hswapped]
    -- the number expected of that thread goes up, and no other
    have htake : (s.ctl.swapped q).take (c.ndequeues + 1) = (s.ctl.swapped q).take c.ndequeues ++ [p] := by
      rw [List.take_add_one, hp]
      rfl
    show Function.update c.expect_sn t _ t' = (ofThread (some t') ((s.ctl.swapped q).take (c.ndequeues + 1))).length
    have hone : ∀ p' ∈ [p], p'.1 = some t := by
      rintro p' hp'
      rw [List.mem_singleton.1 hp', ht]
    rw [htake, ofThread_append]
    by_cases htt : t' = t
    · subst htt
      rw [Function.update_self, ofThread_all hone, List.length_append]
      rfl
    · rw [Function.update_of_ne htt, ofThread_none hone (fun heq => htt (Option.some.inj heq)), List.append_nil]
      exact h.expect t'
  · rw [hcheck]
    exact herrors
  · rw [hcheck]
    exact ⟨by rw [hkept.dequeued]; exact hlen, by rw [hkept.pc]; exact hidle, rfl⟩

/-- What the dequeuer does between calls. -/
theorem DequeuerOk.next (h : DequeuerOk q niter s c) (hentries : EntriesOk q c.ndequeues s) (hn : 2 * n ≤ 2 ^ w)
    (hidle : s.ctl.pc none = .idle) (hs : testQueueThreadedDequeue q niter c s = some (c', s')) :
    Moved q none s s' ∧ DequeuerOk q niter s' c' ∧ s'.ctl.swapped q = s.ctl.swapped q ∧
      c.ndequeues ≤ c'.ndequeues ∧ ∃ as, run (atomicStep (queueProgram (threadedConfig n w))) s as = some s' := by
  have hstage := h.stage
  have herrors := h.errors
  simp only [testQueueThreadedDequeue] at hs
  have hbusy : ∀ {p : Pc w}, p ≠ .idle → s.ctl.pc none ≠ p := fun hne hp => hne (hp.symm.trans hidle)
  -- it makes the call `a`
  have hcall : ∀ {a : Call (Option (Fin n)) w} {p : Pc w} {u : Shared n w} {d : Dequeuer n w},
      atomicStep (queueProgram (threadedConfig n w)) s (.call a) = some u → Entered q p s u →
      DequeuerOk q niter u d → d.ndequeues = c.ndequeues →
      Moved q none s u ∧ DequeuerOk q niter u d ∧ u.ctl.swapped q = s.ctl.swapped q ∧ c.ndequeues ≤ d.ndequeues ∧
        ∃ as, run (atomicStep (queueProgram (threadedConfig n w))) s as = some u :=
    fun {a} _ _ _ hu he hd hnd =>
      ⟨he.moved, hd, he.swapped, Nat.le_of_eq hnd.symm, [.call a], run_cons_some.2 ⟨_, hu, rfl⟩⟩
  cases hc : c.stage with
  | loop =>
    rw [hc] at hstage herrors
    simp only [hc] at hs
    obtain ⟨u, hu, heq⟩ := Option.map_eq_some_iff.1 hs
    obtain ⟨rfl, rfl⟩ := Prod.mk.inj heq
    obtain ⟨hlen, -, hpeek⟩ := hstage
    obtain ⟨he, -⟩ := call_isEmpty hu
    refine hcall hu he (h.unchanged he.swapped rfl rfl (fun _ => herrors nofun) ?_) rfl
    show DequeueStage.Ok q niter _ _ (if _ then _ else _)
    rw [← he.dequeued] at hlen
    split
    · exact ⟨hlen, hpeek, .inl ⟨_, he.pc, rfl⟩⟩
    · exact ⟨hlen, .inl ⟨_, he.pc, rfl, fun _ => .inl rfl⟩⟩
  | nonempty =>
    rw [hc] at hstage herrors
    obtain ⟨hlen, hpeek, ⟨p, hp, -⟩ | ⟨-, b, hb, hready⟩⟩ := hstage
    · exact absurd hp (hbusy nofun)
    · simp only [hc, hb] at hs
      cases b with
      | true =>
        obtain ⟨rfl, rfl⟩ := Prod.mk.inj (Option.some.inj hs)
        exact ⟨Moved.refl, h.unchanged rfl rfl rfl (fun _ => herrors nofun) ⟨hlen, hidle, hpeek⟩, rfl, Nat.le_refl _,
          [], rfl⟩
      | false =>
        simp only at hs
        split at hs
        · obtain ⟨u, hu, heq⟩ := Option.map_eq_some_iff.1 hs
          obtain ⟨rfl, rfl⟩ := Prod.mk.inj heq
          obtain ⟨he, hsame⟩ := call_peekHead hu
          refine hcall hu he (h.unchanged he.swapped rfl rfl (fun _ => herrors nofun)
            ⟨by rw [he.dequeued]; exact hlen, by rw [hsame]; exact hready rfl, .inl ⟨_, he.pc, rfl⟩⟩) rfl
        · obtain ⟨u, hu, heq⟩ := Option.map_eq_some_iff.1 hs
          obtain ⟨rfl, rfl⟩ := Prod.mk.inj heq
          have he := call_dequeue hu
          refine hcall hu he (h.unchanged he.swapped rfl rfl (fun _ => herrors nofun)
            ⟨fun x hx => ?_, .inl ⟨by rw [he.dequeued]; exact hlen, _, he.pc, rfl⟩⟩) rfl
          rw [hpeek] at hx
          cases hx
  | peeked =>
    rw [hc] at hstage herrors
    obtain ⟨hlen, hready, ⟨p, hp, -⟩ | ⟨-, x, hx, hnext⟩⟩ := hstage
    · exact absurd hp (hbusy nofun)
    · simp only [hc, hx] at hs
      obtain ⟨u, hu, heq⟩ := Option.map_eq_some_iff.1 hs
      obtain ⟨rfl, rfl⟩ := Prod.mk.inj heq
      obtain ⟨he, hsame⟩ := call_isEmpty hu
      refine hcall hu he (h.unchanged he.swapped rfl rfl (fun _ => ?_)
        ⟨by rw [he.dequeued]; exact hlen, by rw [hsame]; exact hready, ?_, .inl he.pc⟩) rfl
      · show (if some x = none then c.nerrors + 1 else c.nerrors) = 0
        rw [if_neg (Option.some_ne_none x)]
        exact herrors nofun
      · rintro y ⟨⟩
        exact he.next hnext
  | rechecked =>
    rw [hc] at hstage herrors
    obtain ⟨hlen, hready, hpeek, hp | ⟨-, hresult⟩⟩ := hstage
    · exact absurd hp (hbusy nofun)
    · simp only [hc, hresult] at hs
      obtain ⟨u, hu, heq⟩ := Option.map_eq_some_iff.1 hs
      obtain ⟨rfl, rfl⟩ := Prod.mk.inj heq
      have he := call_dequeue hu
      exact hcall hu he (h.unchanged he.swapped rfl rfl (fun _ => herrors nofun)
        ⟨fun x hx => he.next (hpeek x hx), .inl ⟨by rw [he.dequeued]; exact hlen, _, he.pc, rfl⟩⟩) rfl
  | dequeued =>
    rw [hc] at hstage herrors
    obtain ⟨hpeek, ⟨-, p, hp, -⟩ | ⟨hlen, -, e, he, hnext, howner⟩⟩ := hstage
    · exact absurd hp (hbusy nofun)
    · simp only [hc, he] at hs
      obtain ⟨u, hu, heq⟩ := Option.map_eq_some_iff.1 hs
      obtain ⟨rfl, rfl⟩ := Prod.mk.inj heq
      obtain ⟨hm, hok, hswapped, hndequeues⟩ :=
        h.check hentries hn hidle hpeek hlen hnext howner (herrors nofun) hu
      refine ⟨hm, hok, hswapped, ?_, _, hu⟩
      show c.ndequeues ≤ (c.check s e).ndequeues
      rw [hndequeues]
      exact Nat.le_succ _
  | final =>
    rw [hc] at hstage herrors
    obtain ⟨hlen, ⟨p, hp, -⟩ | ⟨-, b, hb, hall⟩⟩ := hstage
    · exact absurd hp (hbusy nofun)
    · simp only [hc, hb] at hs
      obtain ⟨rfl, rfl⟩ := Prod.mk.inj (Option.some.inj hs)
      refine ⟨Moved.refl, h.unchanged rfl rfl rfl (fun hne => absurd rfl (hne _)) ⟨hlen, hidle, rfl, fun hnd => ?_⟩, rfl,
        Nat.le_refl _, [], rfl⟩
      replace hnd : c.ndequeues = niter := hnd
      show (if b then (if c.ndequeues ≠ niter then c.nerrors + 1 else c.nerrors)
          else (if c.ndequeues ≠ niter then c.nerrors + 1 else c.nerrors) + 1) = 0
      rw [hall hnd, if_pos rfl, if_neg (not_not_intro hnd)]
      exact herrors nofun
  | exit =>
    simp only [hc] at hs
    cases hs

end

/-! ## Runs -/

structure ThreadedOk (q : Word w) (niter : Nat) (s : Threaded n w) : Prop where
  atomic : ∃ g, AtomicOk (threadedConfig n w) s.shared g
  entries : EntriesOk q s.dequeuer.ndequeues s.shared
  enqueuer : ∀ t, EnqueuerOk q niter s.shared t (s.enqueuer t)
  dequeuer : DequeuerOk q (niter * n) s.shared s.dequeuer

section

variable {q : Word w} {niter : Nat} {s s' : Threaded n w} {g : Ghost (Option (Fin n)) w}

theorem EntriesOk.mono {k k' : Nat} {s : Shared n w} (h : EntriesOk q k s) (hle : k ≤ k') : EntriesOk q k' s := by
  intro j p hp
  obtain ⟨t, ht, hloaded⟩ := h j p hp
  exact ⟨t, ht, fun hj => hloaded (hle.trans hj)⟩

theorem length_eq_sum : ∀ (l : List (Option (Fin n) × Word w)), (∀ p ∈ l, ∃ t, p.1 = some t) →
    l.length = ∑ t : Fin n, (ofThread (some t) l).length
  | [], _ => (Finset.sum_eq_zero fun _ _ => rfl).symm
  | p :: l, h => by
    obtain ⟨t, ht⟩ := h p (List.mem_cons_self ..)
    have hcons : ∀ t', (ofThread (some t') (p :: l)).length =
        (if t' = t then 1 else 0) + (ofThread (some t') l).length := by
      intro t'
      unfold ofThread
      rw [List.filter_cons, ht]
      by_cases htt : t' = t
      · subst htt
        rw [if_pos (decide_eq_true rfl), if_pos rfl, List.length_cons, Nat.add_comm]
      · rw [if_neg (fun hd => htt (Option.some.inj (of_decide_eq_true hd)).symm), if_neg htt, Nat.zero_add]
    rw [Finset.sum_congr rfl fun t' _ => hcons t', Finset.sum_add_distrib, Finset.sum_ite_eq',
      if_pos (Finset.mem_univ t), ← length_eq_sum l fun p hp => h p (List.mem_cons_of_mem _ hp), List.length_cons,
      Nat.add_comm]

/-- No thread has appended more elements than it enqueues. -/
theorem ThreadedOk.appended_le (h : ThreadedOk q niter s) (t : Fin n) :
    (ofThread (some t) (s.shared.ctl.swapped q)).length ≤ niter := by
  obtain ⟨g, hatomic⟩ := h.atomic
  have hok := h.enqueuer t
  have hcalls := congrArg List.length (hatomic.hist.calls q (some t))
  rw [List.length_append, ← hok.i] at hcalls
  have := hok.bound
  omega

theorem ThreadedOk.sum_appended (h : ThreadedOk q niter s) :
    (s.shared.ctl.swapped q).length = ∑ t : Fin n, (ofThread (some t) (s.shared.ctl.swapped q)).length := by
  apply length_eq_sum
  intro p hp
  obtain ⟨j, hj⟩ := List.getElem?_of_mem hp
  obtain ⟨t, ht, -⟩ := h.entries j p hj
  exact ⟨t, ht⟩

theorem ThreadedOk.room (h : ThreadedOk q niter s) : (s.shared.ctl.swapped q).length ≤ niter * n := by
  rw [h.sum_appended]
  have hle := Finset.sum_le_card_nsmul Finset.univ
    (fun t : Fin n => (ofThread (some t) (s.shared.ctl.swapped q)).length) niter fun t _ => h.appended_le t
  rwa [Finset.card_univ, Fintype.card_fin, smul_eq_mul, Nat.mul_comm] at hle

theorem ThreadedOk.step (hn : 2 * n ≤ 2 ^ w) (h : ThreadedOk q niter s) {a : Option (Fin n) × Word w}
    (hs : threadedStep q niter s a = some s') : ThreadedOk q niter s' := by
  obtain ⟨g, hatomic⟩ := h.atomic
  have hfrom : ∀ {as u}, run (atomicStep (queueProgram (threadedConfig n w))) s.shared as = some u →
      ∃ g, AtomicOk (threadedConfig n w) u g := AtomicOk.run_from threadedConfig_base hatomic
  have hunchecked := h.dequeuer.unchecked
  obtain ⟨_ | t, addr⟩ := a
  · -- the dequeuer
    unfold threadedStep at hs
    split at hs
    · rename_i hidle
      obtain ⟨⟨c, u⟩, hnext, rfl⟩ := Option.map_eq_some_iff.1 hs
      obtain ⟨hm, hok, hswapped, hle, as, hrun⟩ := h.dequeuer.next h.entries hn hidle hnext
      exact ⟨hfrom hrun, (h.entries.moved_same hatomic hunchecked hm hswapped).mono hle,
        fun t => (h.enqueuer t).moved hatomic hm nofun, hok⟩
    · rename_i hbusy
      obtain ⟨u, hu, rfl⟩ := Option.map_eq_some_iff.1 hs
      obtain ⟨hm, hok, hswapped⟩ := h.dequeuer.access hatomic h.room hbusy hu
      have hrun : run (atomicStep (queueProgram (threadedConfig n w))) s.shared [.step none] = some u :=
        run_cons_some.2 ⟨u, hu, rfl⟩
      exact ⟨hfrom hrun, h.entries.moved_same hatomic hunchecked hm hswapped,
        fun t => (h.enqueuer t).moved hatomic hm nofun, hok⟩
  · -- an enqueuer
    have hothers : ∀ {u : Shared n w} {t' : Fin n}, Moved q (some t) s.shared u → t' ≠ t →
        EnqueuerOk q niter u t' (s.enqueuer t') :=
      fun hm ht => (h.enqueuer _).moved hatomic hm fun heq => ht (Option.some.inj heq)
    unfold threadedStep at hs
    split at hs
    · rename_i hidle
      obtain ⟨⟨c, u⟩, hnext, rfl⟩ := Option.map_eq_some_iff.1 hs
      obtain ⟨hm, hok, hswapped, as, hrun⟩ := (h.enqueuer t).next hatomic hidle hnext
      refine ⟨hfrom hrun, h.entries.moved_same hatomic hunchecked hm hswapped, ?_,
        h.dequeuer.moved hatomic hm nofun⟩
      show ∀ t', EnqueuerOk q niter u t' (Function.update s.enqueuer t c t')
      rw [Function.forall_update_iff s.enqueuer fun t' c => EnqueuerOk q niter u t' c]
      exact ⟨hok, fun t' ht => hothers hm ht⟩
    · rename_i hbusy
      obtain ⟨u, hu, rfl⟩ := Option.map_eq_some_iff.1 hs
      obtain ⟨hm, hok, hnew⟩ := (h.enqueuer t).access hatomic hbusy hu
      have hrun : run (atomicStep (queueProgram (threadedConfig n w))) s.shared [.step (some t)] = some u :=
        run_cons_some.2 ⟨u, hu, rfl⟩
      refine ⟨hfrom hrun, h.entries.moved hatomic hunchecked hm hnew, fun t' => ?_,
        h.dequeuer.moved hatomic hm nofun⟩
      by_cases ht : t' = t
      · subst ht
        exact hok
      · exact hothers hm ht

theorem ThreadedOk.init {junk : Cell w → Word w} : ThreadedOk q niter (Threaded.init junk : Threaded n w) where
  atomic := ⟨_, AtomicOk.init⟩
  entries j p hp := by cases hp
  enqueuer t := ⟨rfl, Nat.zero_le _, .inl rfl, fun e he => by cases he⟩
  dequeuer := ⟨fun t => rfl, fun _ => rfl, rfl, rfl, rfl⟩

/-- A thread that has come to its end. -/
def Threaded.exited (s : Threaded n w) : Option (Fin n) → Prop
  | some t => ∃ ret, (s.enqueuer t).stage = .exit ret
  | none => ∃ ret, s.dequeuer.stage = .exit ret

end

end OpenPA.Test
