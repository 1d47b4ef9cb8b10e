/-
First in, first out: the elements that dequeues return are those of the tail swaps, in the same order,
from the first one on, and a peek returns the one that the next dequeue returns. At arbitrary bases the
segment goes through the states of the run at base 0, and an element comes out at the address that the
consumer's process has for it.
-/
import OpenPA.Queue.Reachable

namespace OpenPA.Queue

open OpenPA.Machine

variable {w : Nat} {T : Type}

/-- The offsets of the elements in a history. -/
def offsets (cfg : Config T w) (l : List (T × Word w)) : List (Word w) :=
  l.map fun p => shmAbsToRel (cfg.base p.1) p.2

/-- The queue a peek is called on. -/
def PeekHeadPc.qheadPtr : PeekHeadPc w → Word w
  | .testShadow q | .loadShadow q => q

theorem offsets_shift (cfg : Config T w) (l : List (T × Word w)) :
    offsets cfg (l.map (shiftPair cfg)) = l.map Prod.snd := by
  simp [offsets, shiftPair, Function.comp_def]

variable [DecidableEq T] {cfg : Config T w}

/-! ## At base 0 -/

section Zero

variable {s s' : Atomic (Cell w) (Word w) (Ctl T w)} {g : Ghost T w} {t : T}

/-- The elements not yet dequeued: the one in the consumer's hand and the queued ones. -/
theorem AtomicOk.order (h : AtomicOk cfg s g) (q : Word w) :
    (s.ctl.swapped q).map Prod.snd =
      (s.ctl.dequeued q).map Prod.snd ++ (s.ctl.pc (cfg.consumer q)).inHand q ++ g.chain q := h.hist.order q

/-- A peek that returns: it read `shadow_head`, which holds the front. -/
theorem AtomicOk.peek (hb : ∀ t, cfg.base t = 0#w) (h : AtomicOk cfg s g) {p : PeekHeadPc w}
    (hp : s.ctl.pc t = .peekHead p) (hs : atomicStep (queueProgram cfg) s (.step t) = some s')
    (hidle : s'.ctl.pc t = .idle) : t = cfg.consumer p.qheadPtr ∧
      ∃ x l, s'.ctl.result t = some (.peeked (some x)) ∧ g.chain p.qheadPtr = x :: l := by
  have hok := h.inv.ctl.pc t
  rw [hp] at hok
  obtain ⟨ht, x, hx⟩ : t = cfg.consumer p.qheadPtr ∧ ∃ x, g.front p.qheadPtr = .taken x := by
    cases p <;> exact hok
  obtain ⟨l, hl⟩ := h.inv.ctl.ghost.chain_front (q := p.qheadPtr) (e := x) (by rw [hx]; rfl)
  have hx0 : x ≠ 0#w := h.inv.ctl.front_ne_zero (q := p.qheadPtr) (by rw [hx]; rfl)
  have hsh := h.inv.flat_shadow p.qheadPtr
  rw [hx] at hsh
  refine ⟨ht, x, l, ?_, hl⟩
  obtain ⟨y, hy, rfl⟩ := Option.map_eq_some_iff.1 hs
  simp only [queueProgram, hp, Pc.code, Option.map_some, Option.some.injEq] at hy
  subst hy
  cases p with
  | testShadow q =>
    have hmem : s.mem ⟨.shadowHead, q⟩ = x := hsh
    simp [queueProgram, resume, hp, Pc.code, Stmt.inPc, queuePeekHead, hb, Access.retag, Access.exec, hmem, hx0,
      Ctl.goOn, Ctl.record, Ctl.count, Access.isStore] at hidle
  | loadShadow q =>
    have hmem : s.mem ⟨.shadowHead, q⟩ = x := hsh
    simp [queueProgram, resume, hp, Pc.code, Stmt.inPc, queuePeekHead, hb, Access.retag, Access.exec, hmem,
      Ctl.goOn]

/-- Tail swaps and returns are only ever added to the history. -/
theorem history_mono (hb : ∀ t, cfg.base t = 0#w) {as : List (Act T (Call T w))}
    (h : Machine.run (atomicStep (queueProgram cfg)) s as = some s') (q : Word w) :
    s.ctl.swapped q <+: s'.ctl.swapped q ∧ s.ctl.enqueued q <+: s'.ctl.enqueued q ∧
      s.ctl.dequeued q <+: s'.ctl.dequeued q := by
  refine run_mono (R := fun s s' => s.ctl.swapped q <+: s'.ctl.swapped q ∧ s.ctl.enqueued q <+: s'.ctl.enqueued q ∧
    s.ctl.dequeued q <+: s'.ctl.dequeued q)
    (fun s => ⟨List.prefix_refl _, List.prefix_refl _, List.prefix_refl _⟩) ?_ ?_ as h
  · rintro a b c ⟨h1, h2, h3⟩ ⟨h1', h2', h3'⟩
    exact ⟨h1.trans h1', h2.trans h2', h3.trans h3'⟩
  intro s a s' hs
  cases a with
  | call a =>
    obtain ⟨c, hc, rfl⟩ := Option.map_eq_some_iff.1 hs
    obtain ⟨h1, h2, h3⟩ := call_history hc
    rw [h1, h2, h3]; exact ⟨List.prefix_refl _, List.prefix_refl _, List.prefix_refl _⟩
  | step t =>
    obtain ⟨x, -, rfl⟩ := Option.map_eq_some_iff.1 hs
    obtain ⟨-, h1, h2, h3⟩ := resume_history hb s.ctl t (x.exec s.mem).2 q
    exact ⟨⟨_, h1.symm⟩, ⟨_, h2.symm⟩, ⟨_, h3.symm⟩⟩

/-- After a peek that returned `x`, the next dequeue to return returns `x`. -/
theorem AtomicOk.peek_next (hb : ∀ t, cfg.base t = 0#w) {p : PeekHeadPc w} (h : AtomicOk cfg s g)
    (hp : s.ctl.pc t = .peekHead p) (hs : atomicStep (queueProgram cfg) s (.step t) = some s')
    (hidle : s'.ctl.pc t = .idle) :
    ∃ x, s'.ctl.result t = some (.peeked (some x)) ∧
      ((s'.ctl.swapped p.qheadPtr).map Prod.snd)[(s'.ctl.dequeued p.qheadPtr).length]? = some x ∧
      ∀ bs s'', Machine.run (atomicStep (queueProgram cfg)) s' bs = some s'' →
        ∀ d, (s''.ctl.dequeued p.qheadPtr)[(s'.ctl.dequeued p.qheadPtr).length]? = some d → d = (t, x) := by
  obtain ⟨ht, x, l, hr, hl⟩ := h.peek hb hp hs hidle
  obtain ⟨v, h'⟩ := h.step hb hs
  have hswap : ((s'.ctl.swapped p.qheadPtr).map Prod.snd)[(s'.ctl.dequeued p.qheadPtr).length]? = some x := by
    rw [h'.order, ← ht, hidle, hp]
    simp [Pc.inHand, Ghost.record, hl]
  refine ⟨x, hr, hswap, fun bs s'' hrun d hd => ?_⟩
  obtain ⟨g'', h''⟩ := AtomicOk.run_from hb h' hrun
  obtain ⟨hsw, -⟩ := history_mono hb hrun p.qheadPtr
  have hd' := h''.hist.consumer p.qheadPtr d (List.mem_of_getElem? hd)
  refine Prod.ext (hd'.trans ht.symm) ?_
  have h1 : ((s''.ctl.swapped p.qheadPtr).map Prod.snd)[(s'.ctl.dequeued p.qheadPtr).length]? = some d.2 := by
    rw [h''.order, List.append_assoc, List.getElem?_append_left]
    · rw [List.getElem?_map, hd]; rfl
    · rw [List.length_map]; exact (List.getElem?_eq_some_iff.1 hd).1
  obtain ⟨new, hnew⟩ := hsw
  rw [← hnew, List.map_append, List.getElem?_append_left (List.getElem?_eq_some_iff.1 hswap).1, hswap] at h1
  cases h1; rfl

end Zero

/-! ## At arbitrary bases -/

theorem ofThread_shift (t : T) (l : List (T × Word w)) :
    ofThread t (l.map (shiftPair cfg)) = (ofThread t l).map (shiftPair cfg) := by
  unfold ofThread
  rw [List.filter_map]
  rfl

omit [DecidableEq T] in
theorem shift_peekHead {t : T} {x : Pc w} {p : PeekHeadPc w} (h : x.shift (cfg.base t) = .peekHead p) :
    ∃ p', x = .peekHead p' ∧ shmAbsToRel (cfg.base t) p.qheadPtr = p'.qheadPtr := by
  cases x with
  | peekHead p' =>
    simp only [Pc.shift, Pc.peekHead.injEq] at h
    subst h
    exact ⟨p', rfl, by cases p' <;> simp [PeekHeadPc.shift, PeekHeadPc.qheadPtr]⟩
  | _ => cases h

/-- The step of a renamed state is the renamed step of the state. -/
theorem shift_step {s : Atomic (Cell w) (Word w) (Ctl T w)} {s' : Atomic (Cell w) (Word w) (Ctl T w)} {t : T}
    (h : atomicStep (queueProgram cfg) (s.mapCtl (Ctl.shift cfg)) (.step t) = some s') :
    ∃ u, atomicStep (queueProgram cfg.atZero) s (.step t) = some u ∧ s' = u.mapCtl (Ctl.shift cfg) := by
  have := (queue_renames cfg).atomicStep s (.step t)
  rw [show Act.map (Call.shift cfg) (.step t) = .step t from rfl, h] at this
  obtain ⟨u, hu, hs'⟩ := Option.map_eq_some_iff.1 this.symm
  exact ⟨u, hu, hs'.symm⟩

/-- The elements that dequeues have returned are the first ones of the tail swaps, each thread's tail
swaps are the first ones of its calls, and a peek returns the address of the oldest element not yet
dequeued, which is what the next dequeue returns. -/
theorem queue_fifo (cfg : Config T w) (junk : Cell w → Word w) (as : List (Act T (Call T w)))
    (s : Atomic (Cell w) (Word w) (Ctl T w))
    (h : run (atomicStep (queueProgram cfg)) (initAtomic junk) as = some s) (q : Word w) :
    offsets cfg (s.ctl.dequeued q) <+: offsets cfg (s.ctl.swapped q) ∧
      (∀ t, ofThread t (s.ctl.swapped q) <+: ofThread t (s.ctl.called q)) ∧
      ∀ t p s', s.ctl.pc t = .peekHead p → shmAbsToRel (cfg.base t) p.qheadPtr = q →
        atomicStep (queueProgram cfg) s (.step t) = some s' → s'.ctl.pc t = .idle →
        ∃ o, s'.ctl.result t = some (.peeked (some (cfg.base t + o))) ∧
          (offsets cfg (s'.ctl.swapped q))[(s'.ctl.dequeued q).length]? = some o ∧
          ∀ bs s'', run (atomicStep (queueProgram cfg)) s' bs = some s'' →
            ∀ d, (s''.ctl.dequeued q)[(s'.ctl.dequeued q).length]? = some d → d = (t, cfg.base t + o) := by
  obtain ⟨as', s, hs, rfl⟩ := atomic_reached h
  have hb : ∀ t, cfg.atZero.base t = 0#w := fun t => rfl
  obtain ⟨g, hg⟩ := AtomicOk.run hb hs
  refine ⟨?_, fun t => ?_, fun t p s' hp hq hstep hidle => ?_⟩
  · show offsets cfg ((s.ctl.dequeued q).map (shiftPair cfg)) <+: offsets cfg ((s.ctl.swapped q).map (shiftPair cfg))
    rw [offsets_shift, offsets_shift, hg.order q, List.append_assoc]
    exact List.prefix_append ..
  · show ofThread t ((s.ctl.swapped q).map (shiftPair cfg)) <+: ofThread t ((s.ctl.called q).map (shiftPair cfg))
    rw [ofThread_shift, ofThread_shift, hg.hist.calls q t]
    exact List.IsPrefix.map _ (List.prefix_append ..)
  · obtain ⟨p', hp', hq'⟩ := shift_peekHead hp
    rw [hq] at hq'
    subst hq'
    obtain ⟨u, hu, rfl⟩ := shift_step hstep
    rw [show (u.mapCtl (Ctl.shift cfg)).ctl = u.ctl.shift cfg from rfl, pc_shift_idle] at hidle
    obtain ⟨x, hr, hx, hnext⟩ := hg.peek_next hb hp' hu hidle
    have hlen : ((u.mapCtl (Ctl.shift cfg)).ctl.dequeued p'.qheadPtr).length =
        (u.ctl.dequeued p'.qheadPtr).length := List.length_map _
    refine ⟨x, ?_, ?_, fun bs s'' hrun d hd => ?_⟩
    · show (u.ctl.result t).map (Ret.shift (cfg.base t)) = _
      rw [hr]; rfl
    · rw [hlen]
      show (offsets cfg ((u.ctl.swapped p'.qheadPtr).map (shiftPair cfg)))[_]? = _
      rw [offsets_shift]; exact hx
    · rw [atomic_atZero] at hrun
      obtain ⟨u', hu', rfl⟩ := Option.map_eq_some_iff.1 hrun
      rw [hlen] at hd
      replace hd : ((u'.ctl.dequeued p'.qheadPtr).map (shiftPair cfg))[_]? = some d := hd
      rw [List.getElem?_map] at hd
      obtain ⟨d', hd', rfl⟩ := Option.map_eq_some_iff.1 hd
      rw [hnext _ u' hu' d' hd']; rfl

/-- Two processes with different bases, one queue at offset 1; `false` is the consumer. -/
def demoConfig : Config Bool 8 where
  base := fun t => if t then 200#8 else 100#8
  consumer := fun _ => false
  readBarrierDrains := true

/-- The producer enqueues the elements at offsets 16 and 32, the consumer tests and peeks. -/
def demoActs : List (Act Bool (Call Bool 8)) :=
  [.call (.enqueue true 201#8 216#8), .step true, .step true, .step true, .step true,
    .call (.enqueue true 201#8 232#8), .step true, .step true, .step true, .step true,
    .call (.isEmpty false 101#8), .step false, .step false, .step false, .step false, .step false,
    .call (.peekHead false 101#8), .step false]

/-- The consumer then takes the peek's return step and dequeues, up to the read barrier. -/
def demoDequeue : List (Act Bool (Call Bool 8)) :=
  demoActs ++ .step false :: .call (.dequeue false 101#8) :: List.replicate 5 (.step false)

theorem queue_fifo_demo : ∃ s' s'', run (atomicStep (queueProgram demoConfig)) (initAtomic fun _ => 7#8)
      (demoActs ++ [.step false]) = some s' ∧ s'.ctl.result false = some (.peeked (some 116#8)) ∧
    (∀ bs s'', run (atomicStep (queueProgram demoConfig)) s' bs = some s'' →
      ∀ d, (s''.ctl.dequeued 1#8)[0]? = some d → d = (false, 116#8)) ∧
    run (atomicStep (queueProgram demoConfig)) (initAtomic fun _ => 7#8) (demoDequeue ++ [.step false]) = some s'' ∧
    s''.ctl.result false = some (.dequeued 116#8) ∧ s''.ctl.dequeued 1#8 = [(false, 116#8)] ∧
    [16#8] <+: offsets demoConfig (s''.ctl.swapped 1#8) := by
  have hpc : (run (atomicStep (queueProgram demoConfig)) (initAtomic fun _ => 7#8) demoActs).map
      (fun s => s.ctl.pc false) = some (.peekHead (.loadShadow 101#8)) := by decide
  have hlast : (run (atomicStep (queueProgram demoConfig)) (initAtomic fun _ => 7#8) (demoActs ++ [.step false])).map
      (fun s => (s.ctl.pc false, s.ctl.dequeued 1#8, (offsets demoConfig (s.ctl.swapped 1#8))[0]?)) =
        some (.idle, [], some 16#8) := by decide
  have hdequeue : (run (atomicStep (queueProgram demoConfig)) (initAtomic fun _ => 7#8)
      (demoDequeue ++ [.step false])).map (fun s => (s.ctl.result false, s.ctl.dequeued 1#8)) =
        some (some (.dequeued 116#8), [(false, 116#8)]) := by decide
  obtain ⟨s', hs', hd⟩ := Option.map_eq_some_iff.1 hlast
  obtain ⟨s'', hs'', hd''⟩ := Option.map_eq_some_iff.1 hdequeue
  obtain ⟨s, hs, hstep⟩ := run_append_some.1 hs'
  obtain ⟨u, hu, hnil⟩ := run_cons_some.1 hstep
  cases hnil
  rw [hs] at hpc
  simp only [Option.map_some, Option.some.injEq, Prod.mk.injEq] at hpc hd hd''
  obtain ⟨o, hr, ho, hnext⟩ := (queue_fifo demoConfig _ demoActs s hs 1#8).2.2 false _ s' hpc rfl hu hd.1
  rw [hd.2.1, List.length_nil, hd.2.2] at ho
  cases ho
  rw [hd.2.1] at hnext
  have hprefix := (queue_fifo demoConfig _ _ s'' hs'' 1#8).1
  rw [hd''.2] at hprefix
  exact ⟨s', s'', hs', hr, hnext, hs'', hd''.1, hd''.2, hprefix⟩

/-- Position independence: at every point of a schedule the segment is as in the run of the same
schedule with every base 0; and what thread `i` enqueued at its address of an offset, the consumer
dequeues and peeks at its own address of that offset. -/
theorem queue_position_independent (cfg : Config T w) (junk : Cell w → Word w) (as : List (Act T (Call T w))) :
    (∀ n, (run (atomicStep (queueProgram cfg)) (initAtomic junk) (as.take n)).map Atomic.mem =
      (run (atomicStep (queueProgram cfg.atZero)) (initAtomic junk)
        ((as.map (Act.map (Call.unshift cfg))).take n)).map Atomic.mem) ∧
    ∀ s : Atomic (Cell w) (Word w) (Ctl T w), run (atomicStep (queueProgram cfg)) (initAtomic junk) as = some s →
      (∀ (q : Word w) (k : Nat) (d : T × Word w), (s.ctl.dequeued q)[k]? = some d →
        ∃ i o, (s.ctl.swapped q)[k]? = some (i, cfg.base i + o) ∧
          d = (cfg.consumer q, cfg.base (cfg.consumer q) + o)) ∧
      ∀ t p s', s.ctl.pc t = .peekHead p → atomicStep (queueProgram cfg) s (.step t) = some s' →
        s'.ctl.pc t = .idle →
        ∃ i o, (s'.ctl.swapped (shmAbsToRel (cfg.base t) p.qheadPtr))[(s'.ctl.dequeued
            (shmAbsToRel (cfg.base t) p.qheadPtr)).length]? = some (i, cfg.base i + o) ∧
          s'.ctl.result t = some (.peeked (some (cfg.base t + o))) := by
  have hb : ∀ t, cfg.atZero.base t = 0#w := fun t => rfl
  refine ⟨fun n => ?_, fun s h => ?_⟩
  · rw [← initAtomic_shift cfg, atomic_atZero, Option.map_map, List.map_take]
    rfl
  · obtain ⟨as', s, hs, rfl⟩ := atomic_reached h
    obtain ⟨g, hg⟩ := AtomicOk.run hb hs
    refine ⟨fun q k d hd => ?_, fun t p s' hp hstep hidle => ?_⟩
    · replace hd : ((s.ctl.dequeued q).map (shiftPair cfg))[k]? = some d := hd
      rw [List.getElem?_map] at hd
      obtain ⟨d', hd', rfl⟩ := Option.map_eq_some_iff.1 hd
      have hk : k < ((s.ctl.dequeued q).map Prod.snd).length := by
        rw [List.length_map]; exact (List.getElem?_eq_some_iff.1 hd').1
      have hsw : ((s.ctl.swapped q).map Prod.snd)[k]? = some d'.2 := by
        rw [hg.order, List.append_assoc, List.getElem?_append_left hk, List.getElem?_map, hd']; rfl
      rw [List.getElem?_map] at hsw
      obtain ⟨y, hy, hyd⟩ := Option.map_eq_some_iff.1 hsw
      refine ⟨y.1, d'.2, ?_, ?_⟩
      · show ((s.ctl.swapped q).map (shiftPair cfg))[k]? = _
        rw [List.getElem?_map, hy, ← hyd]; rfl
      · rw [shiftPair, hg.hist.consumer q d' (List.mem_of_getElem? hd')]; rfl
    · obtain ⟨p', hp', hq'⟩ := shift_peekHead hp
      rw [hq']
      obtain ⟨u, hu, rfl⟩ := shift_step hstep
      rw [show (u.mapCtl (Ctl.shift cfg)).ctl = u.ctl.shift cfg from rfl, pc_shift_idle] at hidle
      obtain ⟨x, hr, hx, -⟩ := hg.peek_next hb hp' hu hidle
      rw [List.getElem?_map] at hx
      obtain ⟨y, hy, hyx⟩ := Option.map_eq_some_iff.1 hx
      refine ⟨y.1, x, ?_, ?_⟩
      · show ((u.ctl.swapped p'.qheadPtr).map (shiftPair cfg))[((u.ctl.dequeued p'.qheadPtr).map _).length]? = _
        rw [List.length_map, List.getElem?_map, hy, ← hyx]; rfl
      · show (u.ctl.result t).map (Ret.shift (cfg.base t)) = _
        rw [hr]; rfl

/-- The same schedule with one dequeue more: offset 16 went in at 216 and comes out at 116. -/
theorem queue_position_independent_demo : ∃ s, run (atomicStep (queueProgram demoConfig)) (initAtomic fun _ => 7#8)
      (demoDequeue ++ [.step false]) = some s ∧
    s.ctl.swapped 1#8 = [(true, 216#8), (true, 232#8)] ∧ s.ctl.dequeued 1#8 = [(false, 116#8)] ∧
    ∃ i o, (s.ctl.swapped 1#8)[0]? = some (i, demoConfig.base i + o) ∧ (false, 116#8) = (false, 100#8 + o) := by
  have hrun : (run (atomicStep (queueProgram demoConfig)) (initAtomic fun _ => 7#8)
      (demoDequeue ++ [.step false])).map
      (fun s => (s.ctl.swapped 1#8, s.ctl.dequeued 1#8)) =
        some ([(true, 216#8), (true, 232#8)], [(false, 116#8)]) := by decide
  obtain ⟨s, hs, hd⟩ := Option.map_eq_some_iff.1 hrun
  simp only [Prod.mk.injEq] at hd
  exact ⟨s, hs, hd.1, hd.2,
    ((queue_position_independent demoConfig _ _).2 s hs).1 1#8 0 (false, 116#8) (by rw [hd.2]; rfl)⟩

end OpenPA.Queue
