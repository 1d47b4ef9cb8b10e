/-
The history of a queue and its auxiliary state: the elements in the order of their tail swaps are those
that dequeues have returned, the one that a dequeue has detached and not returned yet, and the queued
ones (`History.order`); and each thread's calls, tail swaps and returns are the same list, but for the
call that is under way.
-/
import OpenPA.Queue.Segment

namespace OpenPA.Queue

open OpenPA.Machine

variable {w : Nat} {T : Type}

/-! ## The call under way -/

/-- The element that a dequeue of `q` has detached and not returned yet. -/
def Pc.inHand (q : Word w) : Pc w → List (Word w)
  | .dequeue (.clearNext q' e) | .dequeue (.readBarrier q' e) => if q' = q then [e] else []
  | _ => []

/-- An element in hand is one that the thread owns. -/
theorem Pc.token_of_inHand {p : Pc w} {q e : Word w} (h : e ∈ p.inHand q) : ∃ b, p.token = some (.leaving q e b) := by
  unfold Pc.inHand at h
  split at h
  · rw [List.mem_ite_nil_right, List.mem_singleton] at h
    obtain ⟨rfl, rfl⟩ := h
    exact ⟨false, rfl⟩
  · rw [List.mem_ite_nil_right, List.mem_singleton] at h
    obtain ⟨rfl, rfl⟩ := h
    exact ⟨true, rfl⟩
  · cases h

/-- The element of an enqueue on `q` before its tail swap. -/
def Pc.beforeSwap (q : Word w) (t : T) : Pc w → List (T × Word w)
  | .enqueue (.setNextNull q' e _) | .enqueue (.writeBarrier q' e _) | .enqueue (.swapTail q' e _) =>
    if q' = q then [(t, e)] else []
  | _ => []

/-- The element of an enqueue on `q` after its tail swap. -/
def Pc.afterSwap (q : Word w) (t : T) : Pc w → List (T × Word w)
  | .enqueue (.storeHead q' e _) | .enqueue (.storeLink q' e _ _) => if q' = q then [(t, e)] else []
  | _ => []

variable [DecidableEq T]

/-- The part of a history that is thread `t`'s. -/
def ofThread (t : T) (l : List (T × Word w)) : List (T × Word w) := l.filter fun p => p.1 = t

@[simp] theorem ofThread_append (t : T) (l l' : List (T × Word w)) :
    ofThread t (l ++ l') = ofThread t l ++ ofThread t l' := List.filter_append ..

theorem ofThread_all {t : T} {l : List (T × Word w)} (h : ∀ p ∈ l, p.1 = t) : ofThread t l = l := by
  simpa [ofThread] using h

theorem ofThread_none {t t' : T} {l : List (T × Word w)} (h : ∀ p ∈ l, p.1 = t) (ht : t' ≠ t) :
    ofThread t' l = [] := by
  rw [ofThread, List.filter_eq_nil_iff]
  intro p hp
  simpa [h p hp] using Ne.symm ht

/-- What the history of every queue has to do with the state. -/
structure History (cfg : Config T w) (c : Ctl T w) (g : Ghost T w) : Prop where
  order : ∀ q, (c.swapped q).map Prod.snd =
    (c.dequeued q).map Prod.snd ++ (c.pc (cfg.consumer q)).inHand q ++ g.chain q
  calls : ∀ q t, ofThread t (c.called q) = ofThread t (c.swapped q) ++ (c.pc t).beforeSwap q t
  returns : ∀ q t, ofThread t (c.swapped q) = ofThread t (c.enqueued q) ++ (c.pc t).afterSwap q t
  consumer : ∀ q p, p ∈ c.dequeued q → p.1 = cfg.consumer q

variable {cfg : Config T w} {c c' : Ctl T w} {g g' : Ghost T w} {t : T} {v : Word w}

/-! ## One access -/

/-- The tail swap that the next access of `t` does on `q`. -/
def Pc.swaps (q : Word w) (t : T) : Pc w → List (T × Word w)
  | .enqueue (.swapTail q' e _) => if q' = q then [(t, e)] else []
  | _ => []

/-- The enqueue on `q` that returns with the next access of `t`. -/
def Pc.enqueues (q : Word w) (t : T) : Pc w → List (T × Word w)
  | .enqueue (.storeHead q' e _) | .enqueue (.storeLink q' e _ _) => if q' = q then [(t, e)] else []
  | _ => []

/-- The dequeue on `q` that returns with the next access of `t`. -/
def Pc.dequeues (q : Word w) (t : T) : Pc w → List (T × Word w)
  | .dequeue (.readBarrier q' e) => if q' = q then [(t, e)] else []
  | _ => []

theorem goOn_history (c : Ctl T w) (t : T) (out : Pc w ⊕ Ret w) :
    (c.goOn t out).called = c.called ∧ (c.goOn t out).swapped = c.swapped ∧
      (c.goOn t out).enqueued = c.enqueued ∧ (c.goOn t out).dequeued = c.dequeued := by
  cases out <;> exact ⟨rfl, rfl, rfl, rfl⟩

theorem count_history (c : Ctl T w) (t : T) (x : Access (Cell w) (Word w) Nat) :
    (c.count t x).called = c.called ∧ (c.count t x).swapped = c.swapped ∧
      (c.count t x).enqueued = c.enqueued ∧ (c.count t x).dequeued = c.dequeued := by
  unfold Ctl.count; split <;> exact ⟨rfl, rfl, rfl, rfl⟩

omit [DecidableEq T] in
theorem record_history (hb : ∀ t, cfg.base t = 0#w) (c : Ctl T w) (t : T) {p : Pc w} {s : Stmt w (Pc w) (Ret w)}
    (hs : p.code cfg t = some s) (v q : Word w) :
    (c.record cfg t p (s.next v)).called q = c.called q ∧
      (c.record cfg t p (s.next v)).swapped q = c.swapped q ++ p.swaps q t ∧
      (c.record cfg t p (s.next v)).enqueued q = c.enqueued q ++ p.enqueues q t ∧
      (c.record cfg t p (s.next v)).dequeued q = c.dequeued q ++ p.dequeues q t := by
  have hsnoc : ∀ (h : Word w → List (T × Word w)) (q' e : Word w),
      Function.update h q' (h q' ++ [(t, e)]) q = h q ++ if q' = q then [(t, e)] else [] := by
    intro h q' e
    by_cases hq : q' = q
    · subst hq; simp
    · rw [Function.update_of_ne (Ne.symm hq)]; simp [hq]
  cases p with
  | idle => cases hs
  | enqueue p =>
    cases hs
    cases p <;> simp [Stmt.inPc, queueEnqueue, Ctl.record, hb, hsnoc, Pc.swaps, Pc.enqueues, Pc.dequeues,
      EnqueuePc.qheadPtr, EnqueuePc.eltPtr]
  | isEmpty p =>
    cases hs
    cases p <;> by_cases hv : v = 0#w <;>
      simp [Stmt.inPc, queueIsEmpty, hv, Ctl.record, Pc.swaps, Pc.enqueues, Pc.dequeues]
  | peekHead p =>
    simp [Ctl.record, Pc.swaps, Pc.enqueues, Pc.dequeues]
  | dequeue p =>
    cases hs
    cases p with
    | readBarrier q' e =>
      simp [Stmt.inPc, queueDequeue, Ctl.record, hb, hsnoc, Pc.swaps, Pc.enqueues, Pc.dequeues, DequeuePc.qheadPtr]
    | testNext q' r e | casTail q' r e | busyWait q' r e =>
      simp only [Stmt.inPc, queueDequeue]
      split <;> simp [Ctl.record, Pc.swaps, Pc.enqueues, Pc.dequeues]
    | _ => simp [Stmt.inPc, queueDequeue, Ctl.record, Pc.swaps, Pc.enqueues, Pc.dequeues]
  | client p => cases p <;> simp [Ctl.record, Pc.swaps, Pc.enqueues, Pc.dequeues]

/-- What an access of `t` adds to the history of `q`. -/
theorem resume_history (hb : ∀ t, cfg.base t = 0#w) (c : Ctl T w) (t : T) (v : Word w) (q : Word w) :
    (resume cfg c t v).called q = c.called q ∧
      (resume cfg c t v).swapped q = c.swapped q ++ (c.pc t).swaps q t ∧
      (resume cfg c t v).enqueued q = c.enqueued q ++ (c.pc t).enqueues q t ∧
      (resume cfg c t v).dequeued q = c.dequeued q ++ (c.pc t).dequeues q t := by
  unfold resume
  cases hs : (c.pc t).code cfg t with
  | none =>
    cases hp : c.pc t with
    | idle => simp [Pc.swaps, Pc.enqueues, Pc.dequeues]
    | _ => rw [hp] at hs; cases hs
  | some s =>
    obtain ⟨h1, h2, h3, h4⟩ := record_history hb c t hs v q
    obtain ⟨i1, i2, i3, i4⟩ := count_history (c.record cfg t (c.pc t) (s.next v)) t s.access
    obtain ⟨j1, j2, j3, j4⟩ := goOn_history ((c.record cfg t (c.pc t) (s.next v)).count t s.access) t (s.next v)
    exact ⟨by rw [j1, i1, h1], by rw [j2, i2, h2], by rw [j3, i3, h3], by rw [j4, i4, h4]⟩

omit [DecidableEq T] in
/-- Control only moves over a tail swap or a return by adding it to the history. -/
theorem Pc.after_swap (q : Word w) (t : T) (p : Pc w) (v : Word w) :
    p.beforeSwap q t = p.swaps q t ++ (p.after cfg t v).beforeSwap q t ∧
      p.afterSwap q t ++ p.swaps q t = p.enqueues q t ++ (p.after cfg t v).afterSwap q t := by
  cases p with
  | idle => exact ⟨rfl, rfl⟩
  | enqueue p =>
    cases p with
    | swapTail q' e r =>
      by_cases hv : v = 0#w <;>
        simp [Pc.after, Pc.code, Stmt.inPc, queueEnqueue, hv, beforeSwap, afterSwap, swaps, enqueues]
    | _ => simp [Pc.after, Pc.code, Stmt.inPc, queueEnqueue, beforeSwap, afterSwap, swaps, enqueues]
  | isEmpty p =>
    cases p <;> by_cases hv : v = 0#w <;>
      simp [Pc.after, Pc.code, Stmt.inPc, queueIsEmpty, hv, beforeSwap, afterSwap, swaps, enqueues]
  | peekHead p =>
    cases p <;> by_cases hv : v = 0#w <;>
      simp [Pc.after, Pc.code, Stmt.inPc, queuePeekHead, hv, beforeSwap, afterSwap, swaps, enqueues]
  | dequeue p =>
    cases p with
    | casTail q' r e =>
      by_cases hv : v = r <;>
        simp [Pc.after, Pc.code, Stmt.inPc, queueDequeue, hv, beforeSwap, afterSwap, swaps, enqueues]
    | _ =>
      by_cases hv : v = 0#w <;>
        simp [Pc.after, Pc.code, Stmt.inPc, queueDequeue, hv, beforeSwap, afterSwap, swaps, enqueues]
  | client p =>
    cases p <;> simp [Pc.after, Pc.code, Stmt.inPc, clientCode, beforeSwap, afterSwap, swaps, enqueues]

omit [DecidableEq T] in
theorem Pc.swaps_fst (q : Word w) (t : T) (p : Pc w) : ∀ x ∈ p.swaps q t, x.1 = t := by
  unfold Pc.swaps; split <;> simp

omit [DecidableEq T] in
theorem Pc.enqueues_fst (q : Word w) (t : T) (p : Pc w) : ∀ x ∈ p.enqueues q t, x.1 = t := by
  unfold Pc.enqueues; split <;> simp

omit [DecidableEq T] in
theorem Pc.dequeues_fst (q : Word w) (t : T) (p : Pc w) : ∀ x ∈ p.dequeues q t, x.1 = t := by
  unfold Pc.dequeues; split <;> simp

omit [DecidableEq T] in
/-- A thread that is not the consumer of `q` only appends to its queued elements. -/
theorem CtlOk.chain_other (h : CtlOk cfg c g) {q : Word w} (ht : cfg.consumer q ≠ t) (v : Word w) :
    (c.pc t).dequeues q t = [] ∧
      (g.record t v (c.pc t)).chain q = g.chain q ++ ((c.pc t).swaps q t).map Prod.snd := by
  have hp := h.pc t
  have htok := h.token t
  cases hct : c.pc t with
  | idle => simp [Pc.dequeues, Pc.swaps, Ghost.record]
  | enqueue p =>
    cases p with
    | swapTail q' e r =>
      by_cases hq : q' = q
      · subst hq; simp [Pc.dequeues, Pc.swaps, Ghost.record, Ghost.append]
      · simp [Pc.dequeues, Pc.swaps, Ghost.record, Ghost.append, hq, Ne.symm hq]
    | _ => simp [Pc.dequeues, Pc.swaps, Ghost.record, Ghost.setPlace, Ghost.setFront, Ghost.setLink]
  | isEmpty p =>
    cases p with
    | testHead q' =>
      simp only [Pc.dequeues, Pc.swaps, Ghost.record, List.map_nil, List.append_nil, true_and]
      split <;> rfl
    | _ => simp [Pc.dequeues, Pc.swaps, Ghost.record, Ghost.setFront]
  | peekHead p => simp [Pc.dequeues, Pc.swaps, Ghost.record]
  | dequeue p =>
    rw [hct] at hp htok
    -- a dequeue is from a queue of which `t` is the consumer
    have hne : ∀ {q'}, t = cfg.consumer q' → q' ≠ q := by rintro q' rfl rfl; exact ht rfl
    cases p with
    | loadShadow q' => simp [Pc.dequeues, Pc.swaps, Ghost.record]
    | testNext q' r e =>
      simp only [Pc.dequeues, Pc.swaps, Ghost.record, List.map_nil, List.append_nil, true_and]
      split <;> rfl
    | loadNext q' r e => simp [Pc.dequeues, Pc.swaps, Ghost.record]
    | storeShadow q' r e n =>
      simp [Pc.dequeues, Pc.swaps, Ghost.record, Ghost.detach, (hne hp.2.1).symm]
    | resetShadow q' r e => simp [Pc.dequeues, Pc.swaps, Ghost.record, Ghost.setFront]
    | casTail q' r e =>
      have := hne ((htok (.held q')).2 rfl).1
      simp only [Pc.dequeues, Pc.swaps, Ghost.record, List.map_nil, List.append_nil, true_and]
      split
      · simp [Ghost.detach, this.symm]
      · rfl
    | busyWait q' r e =>
      simp only [Pc.dequeues, Pc.swaps, Ghost.record, List.map_nil, List.append_nil, true_and]
      split <;> rfl
    | reloadNext q' r e => simp [Pc.dequeues, Pc.swaps, Ghost.record]
    | storeLateShadow q' r e n =>
      have := hne ((htok (.held q')).2 rfl).1
      simp [Pc.dequeues, Pc.swaps, Ghost.record, Ghost.detach, this.symm]
    | clearNext q' e => simp [Pc.dequeues, Pc.swaps, Ghost.record, Ghost.setPlace]
    | readBarrier q' e =>
      have := hne ((htok (.leaving q' e true)).2 rfl).1
      simp [Pc.dequeues, Pc.swaps, Ghost.record, Ghost.setPlace, this]
  | client p => simp [Pc.dequeues, Pc.swaps, Ghost.record]

omit [DecidableEq T] in
theorem GhostOk.detach_chain {o : Word w → Owner T} (h : GhostOk g o) {q e : Word w} (he : (g.front q).elt = some e)
    (f : Front T w) (q' : Word w) : g.chain q' = (if q = q' then [e] else []) ++ (g.detach q e f).chain q' := by
  obtain ⟨l, hl⟩ := h.chain_front he
  by_cases hq : q = q'
  · subst hq; simp [Ghost.detach, hl]
  · simp [Ghost.detach, hq, Ne.symm hq]

omit [DecidableEq T] in
/-- The consumer takes elements from the front only. -/
theorem CtlOk.chain_consumer (h : CtlOk cfg c g) (q : Word w) :
    (c.pc t).inHand q ++ g.chain q ++ ((c.pc t).swaps q t).map Prod.snd =
      ((c.pc t).dequeues q t).map Prod.snd ++ ((c.pc t).after cfg t v).inHand q ++
        (g.record t v (c.pc t)).chain q := by
  have hp := h.pc t
  have htok := h.token t
  cases hct : c.pc t with
  | idle => simp [Pc.dequeues, Pc.swaps, Ghost.record, Pc.inHand, Pc.after, Pc.code]
  | enqueue p =>
    cases p with
    | swapTail q' e r =>
      have hin : (Pc.after cfg t (.enqueue (.swapTail q' e r)) v).inHand q = [] := by
        by_cases hv : v = 0#w <;> simp [Pc.after, Pc.code, Stmt.inPc, queueEnqueue, hv, Pc.inHand]
      rw [hin]
      by_cases hq : q' = q
      · subst hq; simp [Pc.dequeues, Pc.swaps, Ghost.record, Ghost.append, Pc.inHand]
      · simp [Pc.dequeues, Pc.swaps, Ghost.record, Ghost.append, hq, Ne.symm hq, Pc.inHand]
    | _ => simp [Pc.dequeues, Pc.swaps, Ghost.record, Ghost.setPlace, Ghost.setFront, Ghost.setLink, Pc.inHand,
        Pc.after, Pc.code, Stmt.inPc, queueEnqueue]
  | isEmpty p =>
    cases p <;> by_cases hv : v = 0#w <;>
      simp [Pc.dequeues, Pc.swaps, Ghost.record, Ghost.setFront, Pc.inHand, hv,
        Pc.after, Pc.code, Stmt.inPc, queueIsEmpty]
  | peekHead p =>
    cases p <;> by_cases hv : v = 0#w <;>
      simp [Pc.dequeues, Pc.swaps, Ghost.record, Pc.inHand, hv, Pc.after, Pc.code, Stmt.inPc, queuePeekHead]
  | dequeue p =>
    rw [hct] at hp
    simp only [Pc.swaps, List.map_nil, List.append_nil]
    cases p with
    | storeShadow q' r e n =>
      -- the front goes from the chain to the consumer's hand, with any of the three ways on
      have hf : (g.front q').elt = some e := by rw [hp.2.2.1]; rfl
      simpa [Pc.dequeues, Pc.inHand, Ghost.record, Pc.after, Pc.code, Stmt.inPc, queueDequeue] using
        h.ghost.detach_chain hf (.taken n) q
    | storeLateShadow q' r e n =>
      have hf : (g.front q').elt = some e := by rw [hp.2.1]; rfl
      simpa [Pc.dequeues, Pc.inHand, Ghost.record, Pc.after, Pc.code, Stmt.inPc, queueDequeue] using
        h.ghost.detach_chain hf (.taken n) q
    | casTail q' r e =>
      have hf : (g.front q').elt = some e := by rw [hp.2]; rfl
      by_cases hv : v = r
      · simpa [Pc.dequeues, Pc.inHand, Ghost.record, Pc.after, Pc.code, Stmt.inPc, queueDequeue, hv] using
          h.ghost.detach_chain hf .none q
      · simp [Pc.dequeues, Pc.inHand, Ghost.record, Pc.after, Pc.code, Stmt.inPc, queueDequeue, hv]
    | readBarrier q' e =>
      -- and from its hand to the history
      by_cases hq : q' = q <;>
        simp [Pc.dequeues, Pc.inHand, Ghost.record, Ghost.setPlace, Pc.after, Pc.code, Stmt.inPc, queueDequeue, hq]
    | _ =>
      by_cases hv : v = 0#w <;>
        simp [Pc.dequeues, Pc.inHand, Ghost.record, Ghost.setPlace, Ghost.setFront, Ghost.setLink,
          Pc.after, Pc.code, Stmt.inPc, queueDequeue, hv]
  | client p =>
    cases p <;> simp [Pc.dequeues, Pc.swaps, Ghost.record, Pc.inHand, Pc.after, Pc.code, Stmt.inPc, clientCode]

/-- Every access keeps the history in step with the auxiliary state. -/
theorem History.step (hb : ∀ t, cfg.base t = 0#w) (h : CtlOk cfg c g) (hh : History cfg c g)
    (v : Word w) : History cfg (resume cfg c t v) (g.record t v (c.pc t)) := by
  have hpc := (resume_fields hb c t v).1
  have hhist := resume_history hb c t v
  generalize resume cfg c t v = c' at *
  have hne : ∀ t', t' ≠ t → c'.pc t' = c.pc t' := fun t' ht => by rw [hpc]; simp [ht]
  have hself : c'.pc t = (c.pc t).after cfg t v := by rw [hpc]; simp
  refine ⟨fun q => ?_, fun q t' => ?_, fun q t' => ?_, fun q p hp => ?_⟩
  · obtain ⟨-, hs, -, hd⟩ := hhist q
    rw [hs, hd, List.map_append, List.map_append, hh.order q]
    by_cases ht : cfg.consumer q = t
    · have hq := h.chain_consumer (t := t) (v := v) q
      rw [ht, hself]
      simp only [List.append_assoc] at hq ⊢
      rw [hq]
    · obtain ⟨h1, h2⟩ := h.chain_other ht v
      rw [h1, h2, hne _ ht]
      simp
  · obtain ⟨hc, hs, -, -⟩ := hhist q
    rw [hc, hs, ofThread_append, hh.calls q t']
    by_cases ht : t' = t
    · subst ht
      rw [hself, ofThread_all (Pc.swaps_fst _ _ _), List.append_assoc, ← (Pc.after_swap q t' (c.pc t') v).1]
    · rw [hne t' ht, ofThread_none (Pc.swaps_fst q t _) ht, List.append_nil]
  · obtain ⟨-, hs, he, -⟩ := hhist q
    rw [hs, he, ofThread_append, ofThread_append, hh.returns q t']
    by_cases ht : t' = t
    · subst ht
      rw [hself, ofThread_all (Pc.swaps_fst _ _ _), ofThread_all (Pc.enqueues_fst _ _ _), List.append_assoc,
        List.append_assoc, (Pc.after_swap q t' (c.pc t') v).2]
    · rw [hne t' ht, ofThread_none (Pc.swaps_fst q t _) ht, ofThread_none (Pc.enqueues_fst q t _) ht]
      simp
  · obtain ⟨-, -, -, hd⟩ := hhist q
    rw [hd, List.mem_append] at hp
    rcases hp with hp | hp
    · exact hh.consumer q p hp
    · by_cases ht : cfg.consumer q = t
      · rw [Pc.dequeues_fst q t _ p hp, ht]
      · rw [(h.chain_other ht v).1] at hp; cases hp

/-! ## Calls -/

theorem History.init : History cfg (initCtl : Ctl T w) initGhost where
  order q := rfl
  calls q t := rfl
  returns q t := rfl
  consumer q p hp := by cases hp

/-- A call other than an enqueue leaves no trace in the history. -/
theorem History.enter (hh : History cfg c g) (hidle : c.pc t = .idle) {p : Pc w}
    (hpc : c'.pc = Function.update c.pc t p)
    (hp : ∀ q, p.inHand q = [] ∧ p.beforeSwap q t = [] ∧ p.afterSwap q t = [])
    (hc : c'.called = c.called) (hs : c'.swapped = c.swapped) (he : c'.enqueued = c.enqueued)
    (hd : c'.dequeued = c.dequeued) : History cfg c' g := by
  refine ⟨fun q => ?_, fun q t' => ?_, fun q t' => ?_, fun q p hp => hh.consumer q p (hd ▸ hp)⟩
  · rw [hs, hd, hpc]
    by_cases ht : cfg.consumer q = t
    · have := hh.order q
      rw [ht, hidle] at this
      rw [ht, Function.update_self, (hp q).1]; exact this
    · rw [Function.update_of_ne ht]; exact hh.order q
  · rw [hc, hs, hpc]
    by_cases ht : t' = t
    · subst ht
      have := hh.calls q t'
      rw [hidle] at this
      rw [Function.update_self, (hp q).2.1]; exact this
    · rw [Function.update_of_ne ht]; exact hh.calls q t'
  · rw [hs, he, hpc]
    by_cases ht : t' = t
    · subst ht
      have := hh.returns q t'
      rw [hidle] at this
      rw [Function.update_self, (hp q).2.2]; exact this
    · rw [Function.update_of_ne ht]; exact hh.returns q t'

/-- Every call keeps the history in step with the auxiliary state. -/
theorem History.call (hb : ∀ t, cfg.base t = 0#w) (hh : History cfg c g) {a : Call T w}
    (hc : Queue.call cfg c a = some c') : History cfg c' (g.enter a) := by
  cases a with
  | enqueue t q e =>
    simp only [Queue.call, hb, shmAbsToRel_zero] at hc
    split at hc
    · rename_i hg
      obtain ⟨hidle, -, -⟩ := hg
      cases hc
      refine ⟨fun q' => ?_, fun q' t' => ?_, fun q' t' => ?_, hh.consumer⟩
      · have := hh.order q'
        by_cases ht : cfg.consumer q' = t
        · rw [ht, hidle] at this
          simpa [Ctl.enter, ht, EnqueuePc.start, Ghost.enter, Ghost.setPlace, Pc.inHand] using this
        · simpa [Ctl.enter, ht, Ghost.enter, Ghost.setPlace] using this
      · have := hh.calls q' t'
        by_cases ht : t' = t
        · subst ht
          rw [hidle] at this
          have hs : ofThread t' [(t', e)] = [(t', e)] := ofThread_all (by simp)
          by_cases hq : q' = q
          · subst hq; simp [Ctl.enter, EnqueuePc.start, Pc.beforeSwap, this, hs]
          · simp [Ctl.enter, EnqueuePc.start, Pc.beforeSwap, this, hq, Ne.symm hq]
        · have hn : ofThread t' [(t, e)] = [] := ofThread_none (by simp) ht
          by_cases hq : q' = q
          · subst hq; simp [Ctl.enter, ht, this, hn]
          · simp [Ctl.enter, ht, this, hq]
      · have := hh.returns q' t'
        by_cases ht : t' = t
        · subst ht
          rw [hidle] at this
          simpa [Ctl.enter, EnqueuePc.start, Pc.afterSwap] using this
        · simpa [Ctl.enter, ht] using this
    · cases hc
  | _ =>
    simp only [Queue.call] at hc
    split at hc
    · rename_i hg
      cases hc
      exact hh.enter (by first | exact hg.1 | exact hg) rfl (fun q => ⟨rfl, rfl, rfl⟩) rfl rfl rfl rfl
    · cases hc

theorem call_history {a : Call T w} (hc : Queue.call cfg c a = some c') :
    c'.swapped = c.swapped ∧ c'.enqueued = c.enqueued ∧ c'.dequeued = c.dequeued := by
  cases a <;> simp only [Queue.call] at hc <;> split at hc <;> cases hc <;> exact ⟨rfl, rfl, rfl⟩

end OpenPA.Queue
