/-
Who touches an element's `next`: an enqueue touches its own element's before the tail swap, and every
other access of a queue operation is to an element whose tail swap has happened and whose dequeue has not
returned (`CtlOk.next_access`). So an element that a dequeue has returned is out of every thread's reach
until it is enqueued again.
-/
import OpenPA.Queue.Fifo

namespace OpenPA.Queue

open OpenPA.Machine

variable {w : Nat} {T : Type} {cfg : Config T w} {c c' : Ctl T w} {g : Ghost T w} {t : T}

/-- An element whose tail swap on some queue has happened and whose dequeue has not returned. -/
def InQueue (cfg : Config T w) (c : Ctl T w) (e : Word w) : Prop :=
  ∃ q, (offsets cfg (c.dequeued q)).count e < (offsets cfg (c.swapped q)).count e

/-- A thread that is in an operation of the queue, not in the application's own code. -/
def Pc.inQueueCode : Pc w → Bool
  | .idle | .client _ => false
  | _ => true

variable [DecidableEq T]

/-! ## At base 0 -/

/-- The `next` cells that a queue operation touches. -/
theorem CtlOk.next_access (hb : ∀ t, cfg.base t = 0#w) (h : CtlOk cfg c g) {x : Access (Cell w) (Word w) Tag}
    {e : Word w} (hx : (queueProgram cfg).access c t = some x) (hl : x.loc? = some ⟨.next, e⟩)
    (hq : (c.pc t).inQueueCode = true) :
    (∃ q r, c.pc t = .enqueue (.setNextNull q e r)) ∨ ∃ q, g.place e = .queued q ∨ ∃ b, g.place e = .leaving q b := by
  obtain ⟨s, hs, rfl⟩ := queueProgram_access c t hx
  rw [Access.retag_loc?] at hl
  have hp := h.pc t
  have htok := h.token t
  have hfront : ∀ {q e'}, (g.front q).elt = some e' → (∃ q, g.place e' = .queued q ∨ ∃ b, g.place e' = .leaving q b) :=
    fun he => ⟨_, .inl (h.front_queued he)⟩
  cases hct : c.pc t with
  | idle => rw [hct] at hq; cases hq
  | client p => rw [hct] at hq; cases hq
  | peekHead p =>
    rw [hct] at hs; cases hs
    cases p <;> cases hl
  | isEmpty p =>
    rw [hct] at hs; cases hs
    cases p <;> cases hl
  | enqueue p =>
    rw [hct] at hs hp; cases hs
    simp only [Stmt.inPc, queueEnqueue, hb, cellAt_zero] at hl
    cases p with
    | setNextNull q e' r => cases hl; exact .inl ⟨q, r, rfl⟩
    | storeLink q e' r p => cases hl; exact .inr ⟨q, .inl hp.2⟩
    | _ => cases hl
  | dequeue p =>
    rw [hct] at hs hp htok; cases hs
    simp only [Stmt.inPc, queueDequeue, hb, cellAt_zero] at hl
    refine .inr ?_
    cases p with
    | testNext q r e' => cases hl; exact hfront (by rw [hp.2.2.2]; rfl)
    | loadNext q r e' => cases hl; exact hfront (by rw [hp.2.2.1]; rfl)
    | busyWait q r e' => cases hl; exact hfront (by rw [hp.2.1]; rfl)
    | reloadNext q r e' => cases hl; exact hfront (by rw [hp.2.1]; rfl)
    | clearNext q e' => cases hl; exact ⟨q, .inr ⟨false, ((htok (.leaving q e false)).2 rfl).2⟩⟩
    | _ => cases hl

omit [DecidableEq T] in
/-- The element a dequeue is about to return is in the consumer's hand. -/
theorem CtlOk.leaving_inHand (h : CtlOk cfg c g) {q e : Word w} {b : Bool} (he : g.place e = .leaving q b) :
    (c.pc (cfg.consumer q)).inHand q = [e] := by
  have htok := (h.token (cfg.consumer q) (.leaving q e b)).1 ⟨rfl, he⟩
  rcases Pc.of_token_leaving htok with hp | hp
  · rw [hp]
    simp [Pc.inHand]
  · rw [hp]
    simp [Pc.inHand]

/-- An element that is queued or leaving has more tail swaps than dequeues. -/
theorem History.inQueue (hh : History cfg c g) (h : CtlOk cfg c g) {e : Word w}
    (he : ∃ q, g.place e = .queued q ∨ ∃ b, g.place e = .leaving q b) :
    ∃ q, ((c.dequeued q).map Prod.snd).count e < ((c.swapped q).map Prod.snd).count e := by
  obtain ⟨q, he⟩ := he
  refine ⟨q, ?_⟩
  rw [hh.order q, List.append_assoc, List.count_append, List.count_append]
  rcases he with he | ⟨b, he⟩
  · have := List.count_pos_iff.2 (((h.chain q).mem e).2 he)
    omega
  · rw [h.leaving_inHand he, List.count_singleton_self]
    omega

/-- Only a call of `OPA_Queue_enqueue` makes an element busy. -/
theorem owner_busy_step (hb : ∀ t, cfg.base t = 0#w) (c : Ctl T w) (t : T) (v : Word w) {e : Word w}
    (h : c.owner e ≠ .busy) : (resume cfg c t v).owner e ≠ .busy := by
  have hset : ∀ e' (o : Owner T), o ≠ .busy → Function.update c.owner e' o e ≠ .busy := by
    intro e' o ho
    by_cases he : e = e'
    · subst he; rw [Function.update_self]; exact ho
    · rw [Function.update_of_ne he]; exact h
  rw [(resume_fields hb c t v).2.1]
  cases c.pc t with
  | dequeue p =>
    cases p with
    | readBarrier q e' => exact hset e' _ (by split <;> simp)
    | _ => exact h
  | client p =>
    cases p with
    | handOff e' => exact hset e' _ (by simp)
    | _ => exact h
  | _ => exact h

theorem owner_busy_call (hb : ∀ t, cfg.base t = 0#w) {a : Call T w} {e : Word w} (hc : call cfg c a = some c')
    (h : c.owner e ≠ .busy) (ha : ∀ t q, a ≠ .enqueue t q e) : c'.owner e ≠ .busy := by
  cases a with
  | enqueue t q e' =>
    have hne : e ≠ e' := by rintro rfl; exact ha t q rfl
    simp only [call, hb, shmAbsToRel_zero] at hc
    split at hc
    · cases hc; simpa [hne] using h
    · cases hc
  | reuse t e' v =>
    simp only [call, hb, shmAbsToRel_zero] at hc
    split at hc
    · cases hc
      by_cases he : e = e'
      · subst he; simp
      · simpa [he] using h
    · cases hc
  | _ =>
    simp only [call] at hc
    split at hc
    · cases hc; exact h
    · cases hc

/-! ## Over runs -/

section Zero

variable {s s' : Atomic (Cell w) (Word w) (Ctl T w)}

/-- The read barrier of a dequeue: the element is out, and its `next` is null. -/
theorem AtomicOk.returned (hb : ∀ t, cfg.base t = 0#w) (h : AtomicOk cfg s g) {q e : Word w}
    (hp : s.ctl.pc t = .dequeue (.readBarrier q e)) (hs : atomicStep (queueProgram cfg) s (.step t) = some s') :
    s'.mem ⟨.next, e⟩ = 0#w ∧ s'.ctl.owner e ≠ .busy := by
  have he : t = cfg.consumer q ∧ g.place e = .leaving q true := (h.inv.ctl.token t (.leaving q e true)).2 (by rw [hp]; rfl)
  have hn := h.inv.mem.next e
  rw [he.2] at hn
  obtain ⟨x, hx, rfl⟩ := Option.map_eq_some_iff.1 hs
  simp only [queueProgram, hp, Pc.code, Option.map_some, Option.some.injEq] at hx
  subst hx
  refine ⟨hn.2, ?_⟩
  show (resume cfg s.ctl t _).owner e ≠ .busy
  rw [(resume_fields hb s.ctl t _).2.1, hp]
  simp only [ownerAfter, Function.update_self]
  split <;> simp

/-- An element that is not busy stays so as long as it is not enqueued. -/
theorem owner_busy_run (hb : ∀ t, cfg.base t = 0#w) {as : List (Act T (Call T w))} {e : Word w}
    (hrun : run (atomicStep (queueProgram cfg)) s as = some s') (h : s.ctl.owner e ≠ .busy)
    (has : ∀ t q, Act.call (.enqueue t q e) ∉ as) : s'.ctl.owner e ≠ .busy := by
  refine run_inv_along (P := fun s => s.ctl.owner e ≠ .busy) (G := fun _ a => ∀ t q, a ≠ .call (.enqueue t q e))
    ?_ as h (Along.of_forall as s ?_) hrun
  · intro s a s' h ha hs
    cases a with
    | call a =>
      obtain ⟨c, hc, rfl⟩ := Option.map_eq_some_iff.1 hs
      exact owner_busy_call hb hc h fun t q e => ha t q (by rw [e])
    | step t =>
      obtain ⟨x, -, rfl⟩ := Option.map_eq_some_iff.1 hs
      exact owner_busy_step hb _ _ _ h
  · intro a ha t q hc
    rw [hc] at ha; exact has t q ha

end Zero

/-! ## At arbitrary bases -/

omit [DecidableEq T] in
theorem inQueueCode_shift (base : Word w) (p : Pc w) : (p.shift base).inQueueCode = p.inQueueCode := by
  cases p <;> rfl

omit [DecidableEq T] in
theorem shift_readBarrier {base q o : Word w} {p : Pc w}
    (h : p.shift base = .dequeue (.readBarrier q (base + o))) : ∃ q', p = .dequeue (.readBarrier q' o) := by
  refine ⟨-base + q, ?_⟩
  rw [← Pc.shift_neg base p, h]
  simp only [Pc.shift, DequeuePc.shift, neg_add_cancel_left]

omit [DecidableEq T] in
theorem unshift_enqueue {t : T} {q o : Word w} {bs : List (Act T (Call T w))}
    (h : Act.call (.enqueue t q o) ∈ bs.map (Act.map (Call.unshift cfg))) :
    ∃ q', Act.call (.enqueue t q' (cfg.base t + o)) ∈ bs := by
  obtain ⟨a, ha, hm⟩ := List.mem_map.1 h
  cases a with
  | step t => cases hm
  | call a =>
    cases a with
    | enqueue t' q' e =>
      simp only [Act.map, Call.unshift, Act.call.injEq, Call.enqueue.injEq] at hm
      obtain ⟨rfl, -, rfl⟩ := hm
      exact ⟨q', by simpa using ha⟩
    | _ => cases hm

/-- Ownership and reclamation. Every access of a queue operation to some element's `next` is the
enqueue's own reset of its element, or it is to an element whose tail swap has happened and whose
dequeue has not returned. When a dequeue returns an element its `next` is null, and until the element
is enqueued again no queue operation of any thread touches it. -/
theorem queue_reclaim (cfg : Config T w) (junk : Cell w → Word w) (as : List (Act T (Call T w)))
    (s : Atomic (Cell w) (Word w) (Ctl T w))
    (h : run (atomicStep (queueProgram cfg)) (initAtomic junk) as = some s) :
    (∀ t x o, (queueProgram cfg).access s.ctl t = some x → x.loc? = some ⟨.next, o⟩ →
      (s.ctl.pc t).inQueueCode = true →
      (∃ q r, s.ctl.pc t = .enqueue (.setNextNull q (cfg.base t + o) r)) ∨ InQueue cfg s.ctl o) ∧
    ∀ t q o s', s.ctl.pc t = .dequeue (.readBarrier q (cfg.base t + o)) →
      atomicStep (queueProgram cfg) s (.step t) = some s' →
      s'.ctl.result t = some (.dequeued (cfg.base t + o)) ∧ s'.mem ⟨.next, o⟩ = 0#w ∧
      ∀ bs s'', run (atomicStep (queueProgram cfg)) s' bs = some s'' →
        (∀ t' q', Act.call (.enqueue t' q' (cfg.base t' + o)) ∉ bs) →
        ∀ t' x, (queueProgram cfg).access s''.ctl t' = some x → (s''.ctl.pc t').inQueueCode = true →
          x.loc? ≠ some ⟨.next, o⟩ := by
  obtain ⟨as', s, hs, rfl⟩ := atomic_reached h
  have hb : ∀ t, cfg.atZero.base t = 0#w := fun t => rfl
  have hacc : ∀ (c : Ctl T w) t, (queueProgram cfg).access (c.shift cfg) t = (queueProgram cfg.atZero).access c t :=
    (queue_renames cfg).access
  obtain ⟨g, hg⟩ := AtomicOk.run hb hs
  refine ⟨fun t x o hx hl hq => ?_, fun t q o s' hp hstep => ?_⟩
  · replace hx : (queueProgram cfg.atZero).access s.ctl t = some x := (hacc s.ctl t).symm.trans hx
    replace hq : ((s.ctl.pc t).shift (cfg.base t)).inQueueCode = true := hq
    rw [inQueueCode_shift] at hq
    rcases hg.inv.ctl.next_access hb hx hl hq with ⟨q, r, hp⟩ | he
    · refine .inl ⟨cfg.base t + q, r, ?_⟩
      show (s.ctl.pc t).shift (cfg.base t) = _
      rw [hp]; rfl
    · obtain ⟨q, hq⟩ := hg.hist.inQueue hg.inv.ctl he
      refine .inr ⟨q, ?_⟩
      show (offsets cfg ((s.ctl.dequeued q).map (shiftPair cfg))).count o <
        (offsets cfg ((s.ctl.swapped q).map (shiftPair cfg))).count o
      rw [offsets_shift, offsets_shift]; exact hq
  · obtain ⟨q', hp'⟩ := shift_readBarrier (p := s.ctl.pc t) hp
    obtain ⟨u, hu, rfl⟩ := shift_step hstep
    obtain ⟨hnull, hown⟩ := hg.returned hb hp' hu
    refine ⟨?_, hnull, fun bs s'' hrun hbs t' x hx hq hl => ?_⟩
    · obtain ⟨y, -, rfl⟩ := Option.map_eq_some_iff.1 hu
      show ((resume cfg.atZero s.ctl t _).result t).map (Ret.shift (cfg.base t)) = _
      simp [resume, hp', Pc.code, Stmt.inPc, queueDequeue, Ctl.goOn, Ret.shift]
    · rw [atomic_atZero] at hrun
      obtain ⟨v, hv, rfl⟩ := Option.map_eq_some_iff.1 hrun
      replace hx : (queueProgram cfg.atZero).access v.ctl t' = some x := (hacc v.ctl t').symm.trans hx
      replace hq : ((v.ctl.pc t').shift (cfg.base t')).inQueueCode = true := hq
      rw [inQueueCode_shift] at hq
      have hown' := owner_busy_run hb hv hown fun t'' q'' hm => by
        obtain ⟨q₀, hq₀⟩ := unshift_enqueue hm
        exact hbs t'' q₀ hq₀
      obtain ⟨v', hg'⟩ := hg.step hb hu
      obtain ⟨g', hg''⟩ := hg'.run_from hb hv
      have hout := (hg''.inv.ctl.owner o).2 hown'
      rcases hg''.inv.ctl.next_access hb hx hl hq with ⟨q₁, r₁, hp₁⟩ | ⟨q₁, he | ⟨b, he⟩⟩
      · have := (hg''.inv.ctl.token t' (.entering o .raw)).2 (by rw [hp₁]; rfl)
        rw [show g'.place o = .entering t' .raw from this] at hout; cases hout
      · rw [he] at hout; cases hout
      · rw [he] at hout; cases hout

/-- Offset 16 comes out of the queue, and stays out of reach until it goes in again. -/
theorem queue_reclaim_demo : ∃ s', run (atomicStep (queueProgram demoConfig)) (initAtomic fun _ => 7#8)
      (demoDequeue ++ [.step false]) = some s' ∧ s'.mem ⟨.next, 16#8⟩ = 0#8 ∧
    ∀ bs s'', run (atomicStep (queueProgram demoConfig)) s' bs = some s'' →
      (∀ t' q', Act.call (.enqueue t' q' (demoConfig.base t' + 16#8)) ∉ bs) →
      ∀ t' x, (queueProgram demoConfig).access s''.ctl t' = some x → (s''.ctl.pc t').inQueueCode = true →
        x.loc? ≠ some ⟨.next, 16#8⟩ := by
  have hpc : (run (atomicStep (queueProgram demoConfig)) (initAtomic fun _ => 7#8) demoDequeue).map
      (fun s => s.ctl.pc false) = some (.dequeue (.readBarrier 101#8 116#8)) := by decide
  have hlast : (run (atomicStep (queueProgram demoConfig)) (initAtomic fun _ => 7#8)
      (demoDequeue ++ [.step false])).isSome := by decide
  obtain ⟨s', hs'⟩ := Option.isSome_iff_exists.1 hlast
  obtain ⟨s, hs, hstep⟩ := run_append_some.1 hs'
  obtain ⟨u, hu, hnil⟩ := run_cons_some.1 hstep
  cases hnil
  rw [hs] at hpc
  simp only [Option.map_some, Option.some.injEq] at hpc
  exact ⟨s', hs', ((queue_reclaim demoConfig _ demoDequeue s hs).2 false 101#8 16#8 s' hpc hu).2⟩

end OpenPA.Queue
