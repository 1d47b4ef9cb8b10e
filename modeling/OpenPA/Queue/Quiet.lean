/-
Quiescence: no enqueue on the queue is in progress and its consumer is between calls. Then the queued
elements are linked in memory from front to back (`Laid`), so that `OPA_Queue_is_empty` by itself finds
the queue empty exactly when it is, and the consumer alone drains it without ever waiting.
-/
import OpenPA.Queue.Reclaim
import OpenPA.Queue.Layout

namespace OpenPA.Queue

open OpenPA.Machine

variable {w : Nat} {T : Type} {cfg : Config T w}

/-- No enqueue on `q` is in progress, and the consumer of `q` is between calls. -/
structure Quiet (cfg : Config T w) (c : Ctl T w) (q : Word w) : Prop where
  producers : ∀ t p, c.pc t = .enqueue p → shmAbsToRel (cfg.base t) p.qheadPtr ≠ q
  consumer : c.pc (cfg.consumer q) = .idle

/-! ## The memory of a quiescent queue -/

section Zero

variable {c : Ctl T w} {g : Ghost T w} {m : Cell w → Word w} {q : Word w}

theorem Quiet.front (hb : ∀ t, cfg.base t = 0#w) (h : CtlOk cfg c g) (hq : Quiet cfg c q) :
    g.front q = .none ∨ (∃ x t, g.front q = .stored x t) ∨ ∃ x, g.front q = .taken x := by
  have htok : ∀ k, ¬g.Owns cfg (cfg.consumer q) k := fun k hk => by
    have := (h.token _ k).1 hk
    rw [hq.consumer] at this; cases this
  cases hf : g.front q with
  | none => exact .inl rfl
  | stored x t => exact .inr (.inl ⟨x, t, rfl⟩)
  | taken x => exact .inr (.inr ⟨x, rfl⟩)
  | seen x => exact absurd ⟨rfl, x, hf⟩ (htok (.seen q))
  | copied x => exact absurd ⟨rfl, x, hf⟩ (htok (.copied q))
  | held x => exact absurd ⟨rfl, x, hf⟩ (htok (.held q))
  | swapped x t =>
    obtain ⟨r, hp⟩ := Pc.of_token_head ((h.token t (.head q x)).1 hf)
    exact absurd (by simp [EnqueuePc.qheadPtr, hb]) (hq.producers t _ hp)

theorem Quiet.link (hb : ∀ t, cfg.base t = 0#w) (h : CtlOk cfg c g) (hq : Quiet cfg c q) {e : Word w}
    (he : g.place e = .queued q) (y : Word w) (t : T) : g.link e ≠ .swapped y t := by
  intro hl
  obtain ⟨q', r, hp⟩ := Pc.of_token_link ((h.token t (.link e y)).1 hl)
  have hok := h.pc t
  rw [hp] at hok
  have hplace := hok.2.symm.trans he
  simp only [Place.queued.injEq] at hplace
  exact hq.producers t _ hp (by simp [EnqueuePc.qheadPtr, hb, hplace])

/-- With nothing pending, the queued elements of a quiescent queue are linked in memory. -/
theorem Inv.laid (hb : ∀ t, cfg.base t = 0#w) (h : Inv true cfg c g (flat m)) (hq : Quiet cfg c q) :
    Laid m q (g.chain q) := by
  have hpos : ∀ e ∈ g.chain q, e ≠ 0#w := fun e he => h.ctl.pos e (by rw [((h.ctl.chain q).mem e).1 he]; simp)
  have hnext : ∀ e ∈ g.chain q, m ⟨.next, e⟩ = (g.link e).target.getD 0#w := by
    intro e he
    have hpl := ((h.ctl.chain q).mem e).1 he
    rw [h.flat_next hpl]
    cases hlink : g.link e with
    | swapped y t => exact absurd hlink (hq.link hb h.ctl hpl y t)
    | _ => rfl
  refine ⟨hpos, (h.ctl.chain q).nodup, ?_, (h.mem.tail q).2, ?_⟩
  · refine (h.ctl.chain q).path.congr fun e he => ?_
    rw [hnext e he]
    cases ht : (g.link e).target with
    | none => simp
    | some y => simp [hpos y ((h.ctl.chain q).path.succ_mem he ht)]
  · have hfr := (h.ctl.chain q).front
    rw [List.headD_eq_head?_getD, ← hfr, h.flat_shadow, h.flat_head]
    rcases hq.front hb h.ctl with hf | ⟨x, t, hf⟩ | ⟨x, hf⟩ <;> rw [hf]
    · exact .inl ⟨rfl, rfl⟩
    · exact .inl ⟨rfl, rfl⟩
    · exact .inr ⟨rfl, rfl⟩

end Zero

/-! ## Counting -/

section Count

variable [DecidableEq T]

theorem count_ofThread (p : T × Word w) (l : List (T × Word w)) : (ofThread p.1 l).count p = l.count p :=
  List.count_filter (by simp)

/-- Histories with the same entries by each thread have the same entries. -/
theorem perm_of_ofThread {l l' : List (T × Word w)} (h : ∀ t, ofThread t l = ofThread t l') : l.Perm l' := by
  refine List.perm_iff_count.2 fun p => ?_
  rw [← count_ofThread p l, ← count_ofThread p l', h]

/-- An enqueue that has returned has swapped the tail. -/
theorem History.enqueued_le {c : Ctl T w} {g : Ghost T w} (hh : History cfg c g) (q e : Word w) :
    ((c.enqueued q).map Prod.snd).count e ≤ ((c.swapped q).map Prod.snd).count e := by
  have hsub : (c.enqueued q).Subperm (c.swapped q) := by
    refine List.subperm_ext_iff.2 fun p _ => ?_
    rw [← count_ofThread p, ← count_ofThread p (c.swapped q), hh.returns q p.1, List.count_append]
    omega
  obtain ⟨l, hl, hs⟩ := hsub
  rw [← (hl.map Prod.snd).count_eq]
  exact (hs.map Prod.snd).count_le e

/-- With no enqueue in progress, every tail swap has returned. -/
theorem History.swapped_perm {c : Ctl T w} {g : Ghost T w} (hb : ∀ t, cfg.base t = 0#w) (hh : History cfg c g)
    {q : Word w} (hq : ∀ t p, c.pc t = .enqueue p → shmAbsToRel (cfg.base t) p.qheadPtr ≠ q) :
    (c.swapped q).Perm (c.enqueued q) := by
  refine perm_of_ofThread fun t => ?_
  rw [hh.returns q t]
  have : (c.pc t).afterSwap q t = [] := by
    cases hp : c.pc t with
    | enqueue p =>
      have hne := hq t p hp
      rw [hb, shmAbsToRel_zero] at hne
      cases p <;> first | rfl | exact if_neg hne
    | _ => rfl
  rw [this, List.append_nil]

/-- The queued elements of a quiescent queue are the enqueues that no dequeue has taken. -/
theorem History.quiet_length {c : Ctl T w} {g : Ghost T w} {q : Word w} (hb : ∀ t, cfg.base t = 0#w)
    (hh : History cfg c g) (hq : Quiet cfg c q) :
    (c.enqueued q).length = (c.dequeued q).length + (g.chain q).length := by
  have h1 := (hh.swapped_perm hb hq.producers).length_eq
  have h2 := congrArg List.length (hh.order q)
  rw [hq.consumer] at h2
  simp only [List.length_map, Pc.inHand, List.length_append, List.length_nil] at h2
  omega

end Count

/-! ## The consumer by itself -/

section Alone

variable [DecidableEq T]

/-- A call of `t` while no other thread moves, to its return: the control points it passes and the state
it leaves. -/
def callAlone (cfg : Config T w) (t : T) (fuel : Nat) (a : Call T w) (s : Atomic (Cell w) (Word w) (Ctl T w)) :
    Option (List (Pc w) × Atomic (Cell w) (Word w) (Ctl T w)) :=
  (atomicStep (queueProgram cfg) s (.call a)).bind
    (solo (fun s => atomicStep (queueProgram cfg) s (.step t)) (fun s => s.ctl.pc t = .idle) (fun s => s.ctl.pc t) fuel)

/-- `while (!OPA_Queue_is_empty(q)) OPA_Queue_dequeue(q, ..)` by the consumer alone: the elements it gets,
the control points it passes and the state it leaves. -/
def drain (cfg : Config T w) (q : Word w) : Nat → Atomic (Cell w) (Word w) (Ctl T w) →
    Option (List (Word w) × List (Pc w) × Atomic (Cell w) (Word w) (Ctl T w))
  | 0, _ => none
  | fuel + 1, s =>
    let t := cfg.consumer q
    (callAlone cfg t (fuel + 1) (.isEmpty t (cfg.base t + q)) s).bind fun (ps, s1) =>
      if s1.ctl.result t = some (.isEmpty true) then some ([], ps, s1)
      else (callAlone cfg t (fuel + 1) (.dequeue t (cfg.base t + q)) s1).bind fun (ps', s2) =>
        match s2.ctl.result t with
        | some (.dequeued e) => (drain cfg q fuel s2).map fun (es, ps'', s3) => (e :: es, ps ++ ps' ++ ps'', s3)
        | _ => none

variable {s : Atomic (Cell w) (Word w) (Ctl T w)} {t : T}

theorem goOn_self (c : Ctl T w) (t : T) (out : Pc w ⊕ Ret w) :
    (c.goOn t out).pc t = out.elim id (fun _ => .idle) ∧
      (c.goOn t out).result t = out.elim (fun _ => c.result t) some := by
  cases out <;> simp [Ctl.goOn]

/-- Where a thread is after an access, and what it has returned. -/
theorem resume_at {c : Ctl T w} {p : Pc w} {st : Stmt w (Pc w) (Ret w)} (hp : c.pc t = p)
    (hs : p.code cfg t = some st) (v : Word w) :
    (resume cfg c t v).pc t = (st.next v).elim id (fun _ => .idle) ∧
      (resume cfg c t v).result t = (st.next v).elim (fun _ => c.result t) some := by
  subst hp
  have hrec : (c.record cfg t (c.pc t) (st.next v)).result = c.result := by
    unfold Ctl.record; split <;> rfl
  have hcount : ((c.record cfg t (c.pc t) (st.next v)).count t st.access).result = c.result := by
    unfold Ctl.count; split <;> exact hrec
  unfold resume
  rw [hs]
  obtain ⟨h1, h2⟩ := goOn_self ((c.record cfg t (c.pc t) (st.next v)).count t st.access) t (st.next v)
  exact ⟨h1, by rw [h2, hcount]⟩

/-- The next access of a thread at a known control point. -/
theorem step_at (cfg : Config T w) {p : Pc w} {st : Stmt w (Pc w) (Ret w)} (hp : s.ctl.pc t = p)
    (hs : p.code cfg t = some st) :
    ∃ s', atomicStep (queueProgram cfg) s (.step t) = some s' ∧ s'.mem = (st.access.exec s.mem).1 ∧
      s'.ctl = resume cfg s.ctl t (st.access.exec s.mem).2 ∧
      s'.ctl.pc t = (st.next (st.access.exec s.mem).2).elim id (fun _ => .idle) ∧
      s'.ctl.result t = (st.next (st.access.exec s.mem).2).elim (fun _ => s.ctl.result t) some := by
  have hx : ∀ (f : Cell w → Nat → Tag), (st.access.retag f).exec s.mem = st.access.exec s.mem := by
    intro f; cases st.access <;> rfl
  obtain ⟨h1, h2⟩ := resume_at hp hs (st.access.exec s.mem).2
  refine ⟨⟨_, resume cfg s.ctl t (st.access.exec s.mem).2⟩, ?_, rfl, rfl, h1, h2⟩
  subst hp
  simp only [atomicStep, queueProgram, hs, Option.map_some, hx]

omit [DecidableEq T] in
theorem not_idle {p : Pc w} (hp : s.ctl.pc t = p) (hne : p ≠ .idle) : decide (s.ctl.pc t = .idle) = false := by
  rw [hp]; simpa using hne

/-- A thread in an operation of which a run by itself returns does the same while no other thread moves. -/
theorem solo_stmts (cfg : Config T w) (t : T) {P : Type} (f : P → Pc w) {code : P → Stmt w P (Ret w)}
    (hf : ∀ p, f p ≠ .idle) (hcode : ∀ p, (f p).code cfg t = some ((code p).inPc f)) :
    ∀ (fuel : Nat) {p : P} {s : Atomic (Cell w) (Word w) (Ctl T w)} {m' : Cell w → Word w} {ret : Ret w},
    s.ctl.pc t = f p → runStmts code fuel s.mem p = some (m', ret) →
    ∃ s', solo (fun s => atomicStep (queueProgram cfg) s (.step t)) (fun s => s.ctl.pc t = .idle) (fun s => s.ctl.pc t)
        (fuel + 1) s = some ((pathStmts code fuel s.mem p).map f, s') ∧
      s'.mem = m' ∧ s'.ctl.pc t = .idle ∧ s'.ctl.result t = some ret ∧
      ∃ c, ∃ p' ∈ pathStmts code fuel s.mem p, ∃ v, s'.ctl = resume cfg c t v ∧ c.pc t = f p' ∧
        (code p').next v = .inr ret
  | 0, _, _, _, _, _, hrun => by cases hrun
  | fuel + 1, p, s, m', ret, hp, hrun => by
    obtain ⟨s₁, hstep, hmem, hctl, hpc, hres⟩ := step_at cfg hp (hcode p)
    have hbusy := not_idle hp (hf p)
    simp only [Stmt.inPc] at hmem hctl hpc hres
    unfold runStmts at hrun
    unfold pathStmts
    cases hnext : (code p).next ((code p).access.exec s.mem).2 with
    | inl p₁ =>
      rw [hnext] at hrun hpc
      rw [← hmem] at hrun
      obtain ⟨s', hsolo, hm', hidle, hret, c, p', hp', v, hend⟩ := solo_stmts cfg t f hf hcode fuel hpc hrun
      refine ⟨s', ?_, hm', hidle, hret, c, p', ?_, v, hend⟩
      · rw [List.map_cons, ← hp, ← hmem]
        exact solo_step hbusy hstep hsolo
      · rw [← hmem]
        exact List.mem_cons_of_mem _ hp'
    | inr r =>
      rw [hnext] at hrun hpc hres
      obtain ⟨rfl, rfl⟩ := Prod.mk.inj (Option.some.inj hrun)
      refine ⟨s₁, ?_, hmem, hpc, hres, s.ctl, p, List.mem_singleton_self p, _, hctl, hp, hnext⟩
      rw [List.map_singleton, ← hp]
      exact solo_step hbusy hstep (solo_done (by simpa using hpc))

/-- Once `OPA_Queue_is_empty` has returned 0, an element is ready. -/
theorem resume_ready {c : Ctl T w} {p : IsEmptyPc w} {q v : Word w} (hp : c.pc t = .isEmpty p)
    (hq : p.qhead = cfg.base t + q) (hnext : (queueIsEmpty (cfg.base t) p).next v = .inr (.isEmpty false)) :
    (resume cfg c t v).ready q = true := by
  have hout : ((queueIsEmpty (cfg.base t) p).inPc .isEmpty).next v = .inr (.isEmpty false) := by
    simp only [Stmt.inPc, hnext]
    rfl
  have hrecord : (c.record cfg t (.isEmpty p) (.inr (.isEmpty false))).ready q = true := by
    cases p with
    | storeShadow q' h => cases hnext
    | _ => simp [Ctl.record, hq]
  unfold resume
  rw [hp]
  simp only [Pc.code, hout]
  rw [(goOn_fields _ t _).2.2.1, (count_fields _ t _).2.2.1, hrecord]

/-- The consumer's `OPA_Queue_is_empty` on its own. -/
theorem isEmpty_alone {q : Word w} {l : List (Word w)} (hidle : s.ctl.pc t = .idle) (ht : t = cfg.consumer q)
    (hL : Laid s.mem q l) :
    ∃ ps s', callAlone cfg t 6 (.isEmpty t (cfg.base t + q)) s = some (ps, s') ∧ s'.ctl.pc t = .idle ∧
      s'.ctl.result t = some (.isEmpty (decide (l = []))) ∧ (l ≠ [] → s'.ctl.ready q = true) ∧
      (∀ p ∈ ps, p.waits = false) ∧ Laid s'.mem q l ∧ s'.mem ⟨.shadowHead, q⟩ = l.headD 0#w := by
  obtain ⟨s₀, hcall, hmem, hpc⟩ : ∃ s₀,
      atomicStep (queueProgram cfg) s (.call (.isEmpty t (cfg.base t + q))) = some s₀ ∧ s₀.mem = s.mem ∧
      s₀.ctl.pc t = .isEmpty (.testShadow (cfg.base t + q)) := by
    refine ⟨⟨s.mem, s.ctl.enter t (.isEmpty (.testShadow (cfg.base t + q)))⟩, ?_, rfl, by simp [Ctl.enter]⟩
    simp [atomicStep, queueProgram, call, hidle, ← ht]
  rw [← hmem] at hL
  obtain ⟨m', hrun, hL', hshadow⟩ := runIsEmpty (cfg.base t) 0 hL
  obtain ⟨s', hsolo, rfl, hidle', hret, c, p, hp, v, hctl, hcp, hnext⟩ :=
    solo_stmts cfg t .isEmpty (by simp) (fun _ => rfl) 5 hpc hrun
  refine ⟨_, s', by rw [callAlone, hcall]; exact hsolo, hidle', hret, ?_, ?_, hL', hshadow⟩
  · intro hne
    rw [hctl]
    apply resume_ready hcp (path_qhead _ _ _ _ _ hp)
    rw [hnext, decide_eq_false hne]
  · intro p hp
    obtain ⟨p', -, rfl⟩ := List.mem_map.1 hp
    rfl

/-- The consumer's `OPA_Queue_dequeue` on its own, after `OPA_Queue_is_empty` has copied the front. -/
theorem dequeue_alone {q x : Word w} {l : List (Word w)} (hidle : s.ctl.pc t = .idle) (ht : t = cfg.consumer q)
    (hready : s.ctl.ready q = true) (hL : Laid s.mem q (x :: l)) (hx : s.mem ⟨.shadowHead, q⟩ = x) :
    ∃ ps s', callAlone cfg t 7 (.dequeue t (cfg.base t + q)) s = some (ps, s') ∧ s'.ctl.pc t = .idle ∧
      s'.ctl.result t = some (.dequeued (cfg.base t + x)) ∧ (∀ p ∈ ps, p.waits = false) ∧ Laid s'.mem q l := by
  obtain ⟨s₀, hcall, hmem, hpc⟩ : ∃ s₀,
      atomicStep (queueProgram cfg) s (.call (.dequeue t (cfg.base t + q))) = some s₀ ∧ s₀.mem = s.mem ∧
      s₀.ctl.pc t = .dequeue (.loadShadow (cfg.base t + q)) := by
    refine ⟨⟨s.mem, { s.ctl.enter t (.dequeue (.loadShadow (cfg.base t + q))) with
      ready := Function.update s.ctl.ready q false }⟩, ?_, rfl, by simp [Ctl.enter]⟩
    simp [atomicStep, queueProgram, call, hidle, ← ht, hready]
  rw [← hmem] at hL hx
  obtain ⟨m', hrun, hwaits, hL'⟩ := runDequeue (cfg.base t) cfg.readBarrierDrains 0 hL hx
  obtain ⟨s', hsolo, rfl, hidle', hret, -⟩ :=
    solo_stmts cfg t .dequeue (by simp) (fun _ => rfl) 6 hpc hrun
  refine ⟨_, s', by rw [callAlone, hcall]; exact hsolo, hidle', hret, ?_, hL'⟩
  intro p hp
  obtain ⟨p', hp', rfl⟩ := List.mem_map.1 hp
  exact hwaits p' hp'

theorem callAlone_mono {t : T} {n m : Nat} {a : Call T w} {s : Atomic (Cell w) (Word w) (Ctl T w)}
    {r : List (Pc w) × Atomic (Cell w) (Word w) (Ctl T w)} (h : callAlone cfg t n a s = some r) (hm : n ≤ m) :
    callAlone cfg t m a s = some r := by
  obtain ⟨s0, h0, hr⟩ := Option.bind_eq_some_iff.1 h
  exact Option.bind_eq_some_iff.2 ⟨s0, h0, solo_mono hr hm⟩

/-- The consumer alone gets the queued elements in order, without waiting, and leaves the queue empty. -/
theorem drain_alone {q : Word w} : ∀ (l : List (Word w)) {s : Atomic (Cell w) (Word w) (Ctl T w)} (fuel : Nat),
    l.length + 7 ≤ fuel → s.ctl.pc (cfg.consumer q) = .idle → Laid s.mem q l →
    ∃ ps s', drain cfg q fuel s = some (l.map (cfg.base (cfg.consumer q) + ·), ps, s') ∧
      (∀ p ∈ ps, p.waits = false) ∧ s'.mem ⟨.head, q⟩ = 0#w ∧ s'.mem ⟨.tail, q⟩ = 0#w ∧
      s'.mem ⟨.shadowHead, q⟩ = 0#w
  | [], s, fuel + 1, hf, hidle, hL => by
    obtain ⟨ps, s1, h1, -, r1, -, hps, hL1, hsh⟩ := isEmpty_alone hidle rfl hL
    have h1 := callAlone_mono h1 (show 6 ≤ fuel + 1 by omega)
    refine ⟨ps, s1, ?_, hps, ?_, hL1.tail, hsh⟩
    · simp [drain, h1, r1]
    · rcases hL1.front with ⟨-, h⟩ | ⟨-, h⟩ <;> exact h
  | x :: l, s, fuel + 1, hf, hidle, hL => by
    simp only [List.length_cons] at hf
    obtain ⟨ps, s1, h1, id1, r1, hready, hps, hL1, hsh⟩ := isEmpty_alone hidle rfl hL
    obtain ⟨ps', s2, h2, id2, r2, hps', hL2⟩ := dequeue_alone id1 rfl (hready (by simp)) hL1 hsh
    obtain ⟨ps'', s3, h3, hps'', hend⟩ := drain_alone l fuel (by omega) id2 hL2
    have h1 := callAlone_mono h1 (show 6 ≤ fuel + 1 by omega)
    have h2 := callAlone_mono h2 (show 7 ≤ fuel + 1 by omega)
    refine ⟨ps ++ ps' ++ ps'', s3, ?_, fun p hp => ?_, hend⟩
    · simp [drain, h1, r1, h2, r2, h3]
    · simp only [List.mem_append] at hp
      rcases hp with (hp | hp) | hp
      · exact hps p hp
      · exact hps' p hp
      · exact hps'' p hp

end Alone

/-! ## Quiescent states at arbitrary bases -/

section Bases

variable [DecidableEq T]

omit [DecidableEq T] in
theorem Quiet.unshift {c : Ctl T w} {q : Word w} (h : Quiet cfg (c.shift cfg) q) : Quiet cfg.atZero c q where
  producers t p hp := by
    have := h.producers t (p.shift (cfg.base t)) (by simp only [Ctl.shift, hp]; rfl)
    cases p <;> simpa [EnqueuePc.shift, EnqueuePc.qheadPtr, Config.atZero] using this
  consumer := by
    have h := h.consumer
    rw [pc_shift_idle] at h
    exact h

/-- Nothing is stranded. In a quiescent state `OPA_Queue_is_empty` by itself returns 1 exactly when as
many dequeues as enqueues have been completed; and the loop that dequeues until the queue is empty, by
the consumer alone, gets the remaining elements in tail-swap order, one dequeue each, never enters the
busy wait, and leaves `head`, `tail` and `shadow_head` null. -/
theorem queue_quiescent (cfg : Config T w) (junk : Cell w → Word w) (as : List (Act T (Call T w)))
    (s : Atomic (Cell w) (Word w) (Ctl T w))
    (h : run (atomicStep (queueProgram cfg)) (initAtomic junk) as = some s) (q : Word w)
    (hq : Quiet cfg s.ctl q) :
    (∀ fuel, 6 ≤ fuel → ∃ ps s', callAlone cfg (cfg.consumer q) fuel
        (.isEmpty (cfg.consumer q) (cfg.base (cfg.consumer q) + q)) s = some (ps, s') ∧
      s'.ctl.result (cfg.consumer q) =
        some (.isEmpty (decide ((s.ctl.dequeued q).length = (s.ctl.enqueued q).length)))) ∧
    ∃ es, es = (offsets cfg (s.ctl.swapped q)).drop (s.ctl.dequeued q).length ∧
      (s.ctl.dequeued q).length + es.length = (s.ctl.enqueued q).length ∧
      ∀ fuel, es.length + 7 ≤ fuel → ∃ ps s',
        drain cfg q fuel s = some (es.map (cfg.base (cfg.consumer q) + ·), ps, s') ∧
        (∀ p ∈ ps, p.waits = false) ∧ s'.mem ⟨.head, q⟩ = 0#w ∧ s'.mem ⟨.tail, q⟩ = 0#w ∧
        s'.mem ⟨.shadowHead, q⟩ = 0#w := by
  obtain ⟨as', s, hs, rfl⟩ := atomic_reached h
  have hb : ∀ t, cfg.atZero.base t = 0#w := fun t => rfl
  obtain ⟨g, hg⟩ := AtomicOk.run hb hs
  have hq0 : Quiet cfg.atZero s.ctl q := hq.unshift
  have hL : Laid (s.mapCtl (Ctl.shift cfg)).mem q (g.chain q) := hg.inv.laid hb hq0
  have hlen := hg.hist.quiet_length hb hq0
  have hd : ((s.mapCtl (Ctl.shift cfg)).ctl.dequeued q).length = (s.ctl.dequeued q).length := List.length_map _
  have he : ((s.mapCtl (Ctl.shift cfg)).ctl.enqueued q).length = (s.ctl.enqueued q).length := List.length_map _
  have hes : (offsets cfg ((s.mapCtl (Ctl.shift cfg)).ctl.swapped q)).drop (s.ctl.dequeued q).length = g.chain q := by
    show (offsets cfg ((s.ctl.swapped q).map (shiftPair cfg))).drop _ = _
    rw [offsets_shift, hg.order q, hq0.consumer]
    simp [Pc.inHand]
  rw [hd, he]
  refine ⟨fun fuel hf => ?_, g.chain q, hes.symm, hlen.symm, fun fuel hf => drain_alone _ fuel hf hq.consumer hL⟩
  obtain ⟨ps, s1, h1, -, r1, -⟩ := isEmpty_alone hq.consumer rfl hL
  refine ⟨ps, s1, callAlone_mono h1 hf, ?_⟩
  rw [r1]
  congr 3
  rw [eq_iff_iff, hlen, ← List.length_eq_zero_iff]
  omega

end Bases

/-- Two elements in, two out. -/
theorem queue_quiescent_demo : ∃ s, run (atomicStep (queueProgram demoConfig)) (initAtomic fun _ => 7#8)
      (demoActs.take 10) = some s ∧ ∃ ps s', drain demoConfig 1#8 9 s = some ([116#8, 132#8], ps, s') ∧
        s'.mem ⟨.tail, 1#8⟩ = 0#8 := by
  have hrun : (run (atomicStep (queueProgram demoConfig)) (initAtomic fun _ => 7#8) (demoActs.take 10)).map
      (fun s => (s.ctl.pc false, s.ctl.pc true, s.ctl.dequeued 1#8, offsets demoConfig (s.ctl.swapped 1#8))) =
        some (.idle, .idle, [], [16#8, 32#8]) := by decide
  obtain ⟨s, hs, hd⟩ := Option.map_eq_some_iff.1 hrun
  simp only [Prod.mk.injEq] at hd
  have hq : Quiet demoConfig s.ctl 1#8 := by
    refine ⟨fun t p hp => ?_, hd.1⟩
    cases t
    · rw [hd.1] at hp; cases hp
    · rw [hd.2.1] at hp; cases hp
  obtain ⟨-, es, hes, -, hdrain⟩ := queue_quiescent demoConfig _ (demoActs.take 10) s hs 1#8 hq
  rw [hd.2.2.1, hd.2.2.2] at hes
  subst hes
  obtain ⟨ps, s', hrun, -, -, htail, -⟩ := hdrain 9 (by simp)
  exact ⟨s, hs, ps, s', hrun, htail⟩

end OpenPA.Queue
