/-
What the application sees of one access, at base 0: what it leaves alone (`Accessed`), where the calls of the
consumer go and what they return, and the application's own accesses, which are one call and one access each
(`privately`).
-/
import OpenPA.Queue.Quiet

namespace OpenPA.Queue

open OpenPA.Machine

variable {w : Nat} {T : Type} [DecidableEq T] {cfg : Config T w} {s s' : Atomic (Cell w) (Word w) (Ctl T w)}
  {g : Ghost T w} {t : T}

/-! ## One access -/

/-- What an access of `t` that returned `v` does to the control state and to the application's data. -/
structure Accessed (cfg : Config T w) (t : T) (v : Word w) (s s' : Atomic (Cell w) (Word w) (Ctl T w)) : Prop where
  pc : s'.ctl.pc = Function.update s.ctl.pc t ((s.ctl.pc t).after cfg t v)
  result : ∀ t', t' ≠ t → s'.ctl.result t' = s.ctl.result t'
  owner : s'.ctl.owner = ownerAfter cfg t s.ctl.owner (s.ctl.pc t)
  ready : s'.ctl.ready = readyAfter v s.ctl.ready (s.ctl.pc t)
  called : ∀ q, s'.ctl.called q = s.ctl.called q
  swapped : ∀ q, s'.ctl.swapped q = s.ctl.swapped q ++ (s.ctl.pc t).swaps q t
  dequeued : ∀ q, s'.ctl.dequeued q = s.ctl.dequeued q ++ (s.ctl.pc t).dequeues q t
  payload : ∀ k e, (∀ v, s.ctl.pc t ≠ .client (.write e k v)) → s'.mem ⟨.payload k, e⟩ = s.mem ⟨.payload k, e⟩

theorem resume_result_other (c : Ctl T w) (v : Word w) {t' : T} (ht : t' ≠ t) :
    (resume cfg c t v).result t' = c.result t' := by
  unfold resume
  split
  · rfl
  · rename_i st _
    have hrecord : (c.record cfg t (c.pc t) (st.next v)).result = c.result := by
      unfold Ctl.record
      split <;> rfl
    have hcount : ((c.record cfg t (c.pc t) (st.next v)).count t st.access).result = c.result := by
      unfold Ctl.count
      split <;> exact hrecord
    rw [← hcount]
    cases st.next v with
    | inl p => rfl
    | inr r => exact Function.update_of_ne ht _ _

/-- The only access to the application's data is its own. -/
theorem payload_unwritten (hb : ∀ t, cfg.base t = 0#w) {c : Ctl T w} {x : Access (Cell w) (Word w) Tag} {k : Nat}
    {e : Word w} (hx : (queueProgram cfg).access c t = some x) (hne : ∀ v, c.pc t ≠ .client (.write e k v)) :
    x.written? ≠ some ⟨.payload k, e⟩ := by
  obtain ⟨st, hst, rfl⟩ := queueProgram_access c t hx
  cases hp : c.pc t with
  | idle =>
    rw [hp] at hst
    cases hst
  | enqueue p =>
    rw [hp] at hst
    cases hst
    cases p <;> rintro ⟨⟩
  | isEmpty p =>
    rw [hp] at hst
    cases hst
    cases p <;> rintro ⟨⟩
  | peekHead p =>
    rw [hp] at hst
    cases hst
    cases p <;> rintro ⟨⟩
  | dequeue p =>
    rw [hp] at hst
    cases hst
    cases p <;> rintro ⟨⟩
  | client p =>
    rw [hp] at hst
    cases hst
    cases p with
    | write e' k' v' =>
      intro hw
      simp only [Stmt.inPc, clientCode, hb, cellAt_zero, Access.retag, Access.written?, Option.some.injEq,
        Cell.mk.injEq, Field.payload.injEq] at hw
      obtain ⟨rfl, rfl⟩ := hw
      exact hne v' hp
    | _ => rintro ⟨⟩

theorem accessed (hb : ∀ t, cfg.base t = 0#w) (hs : atomicStep (queueProgram cfg) s (.step t) = some s') :
    ∃ v, Accessed cfg t v s s' := by
  obtain ⟨x, hx, rfl⟩ := Option.map_eq_some_iff.1 hs
  obtain ⟨hpc, howner, hready, -⟩ := resume_fields hb s.ctl t (x.exec s.mem).2
  have hhist := resume_history hb s.ctl t (x.exec s.mem).2
  exact ⟨(x.exec s.mem).2, hpc, fun t' ht => resume_result_other _ _ ht, howner, hready, fun q => (hhist q).1,
    fun q => (hhist q).2.1, fun q => (hhist q).2.2.2,
    fun k e hne => Access.exec_unwritten (payload_unwritten hb hx hne)⟩

theorem enqueue_step {p : EnqueuePc w} (hp : s.ctl.pc t = .enqueue p)
    (hs : atomicStep (queueProgram cfg) s (.step t) = some s') :
    s'.ctl.pc t = .idle ∨ ∃ p', s'.ctl.pc t = .enqueue p' ∧ p'.qheadPtr = p.qheadPtr := by
  obtain ⟨s₁, hs₁, -, -, hpc, -⟩ := step_at cfg hp rfl
  obtain rfl : s₁ = s' := Option.some.inj (hs₁.symm.trans hs)
  rw [hpc]
  cases p with
  | setNextNull => exact .inr ⟨_, rfl, rfl⟩
  | writeBarrier => exact .inr ⟨_, rfl, rfl⟩
  | swapTail q e r =>
    simp only [Stmt.inPc, queueEnqueue]
    split
    · exact .inr ⟨_, rfl, rfl⟩
    · exact .inr ⟨_, rfl, rfl⟩
  | storeHead => exact .inl rfl
  | storeLink => exact .inl rfl

/-- `OPA_Queue_is_empty` goes on, or returns; when it has returned 0, an element is ready. -/
theorem isEmpty_step {p : IsEmptyPc w} (hb : ∀ t, cfg.base t = 0#w) (hp : s.ctl.pc t = .isEmpty p)
    (hs : atomicStep (queueProgram cfg) s (.step t) = some s') :
    (∃ p', s'.ctl.pc t = .isEmpty p' ∧ p'.qhead = p.qhead) ∨
    s'.ctl.pc t = .idle ∧ ∃ b, s'.ctl.result t = some (.isEmpty b) ∧ (b = false → s'.ctl.ready p.qhead = true) := by
  obtain ⟨s₁, hs₁, -, hctl, hpc, hres⟩ := step_at cfg hp rfl
  obtain rfl : s₁ = s' := Option.some.inj (hs₁.symm.trans hs)
  generalize hv : (Access.exec s.mem _).2 = v at hctl hpc hres
  have hq : p.qhead = cfg.base t + p.qhead := by rw [hb, BitVec.zero_add]
  rw [hpc, hres]
  cases hnext : (queueIsEmpty (cfg.base t) p).next v with
  | inl p' =>
    simp only [Stmt.inPc, hnext]
    refine .inl ⟨p', rfl, ?_⟩
    cases p with
    | testShadow q =>
      simp only [queueIsEmpty] at hnext
      split at hnext <;> cases hnext
      rfl
    | testHead q =>
      simp only [queueIsEmpty] at hnext
      split at hnext <;> cases hnext
      rfl
    | _ =>
      cases hnext
      try rfl
  | inr r =>
    simp only [Stmt.inPc, hnext]
    refine .inr ⟨rfl, ?_⟩
    obtain ⟨b, rfl⟩ : ∃ b, r = .isEmpty b := by
      cases p with
      | testShadow q =>
        simp only [queueIsEmpty] at hnext
        split at hnext <;> cases hnext
        exact ⟨_, rfl⟩
      | testHead q =>
        simp only [queueIsEmpty] at hnext
        split at hnext <;> cases hnext
        exact ⟨_, rfl⟩
      | _ =>
        cases hnext
        try exact ⟨_, rfl⟩
    refine ⟨b, rfl, ?_⟩
    rintro rfl
    rw [hctl]
    exact resume_ready hp hq hnext

/-- As long as an element is ready, `OPA_Queue_is_empty` returns 0 again. -/
theorem AtomicOk.isEmpty_ready (hb : ∀ t, cfg.base t = 0#w) (h : AtomicOk cfg s g) {q : Word w}
    (hp : s.ctl.pc t = .isEmpty (.testShadow q)) (hready : s.ctl.ready q = true)
    (hs : atomicStep (queueProgram cfg) s (.step t) = some s') :
    s'.ctl.pc t = .idle ∧ s'.ctl.result t = some (.isEmpty false) := by
  obtain ⟨x, hx⟩ := h.inv.ctl.ready q hready
  have hshadow : s.mem ⟨.shadowHead, q⟩ = x := by
    rw [h.inv.flat_shadow q, hx]
    rfl
  have hx0 : x ≠ 0#w := h.inv.ctl.front_ne_zero (q := q) (by rw [hx]; rfl)
  obtain ⟨s₁, hs₁, -, -, hpc, hres⟩ := step_at cfg hp rfl
  obtain rfl : s₁ = s' := Option.some.inj (hs₁.symm.trans hs)
  simp only [Stmt.inPc, queueIsEmpty, hb, cellAt_zero, Access.exec, hshadow, if_neg hx0] at hpc hres
  exact ⟨hpc, hres⟩

/-- `OPA_Queue_is_empty` on a queue with no element in it. -/
theorem AtomicOk.isEmpty_none (hb : ∀ t, cfg.base t = 0#w) (h : AtomicOk cfg s g) {p : IsEmptyPc w} {q : Word w}
    (hp : s.ctl.pc t = .isEmpty p) (hfirst : p = .testShadow q ∨ p = .testHead q) (hchain : g.chain q = [])
    (hs : atomicStep (queueProgram cfg) s (.step t) = some s') :
    s'.ctl.pc t = .isEmpty (.testHead q) ∨ s'.ctl.pc t = .idle ∧ s'.ctl.result t = some (.isEmpty true) := by
  have hfront : g.front q = .none := h.inv.ctl.ghost.front_none (List.getLast?_eq_none_iff.2 hchain)
  obtain ⟨s₁, hs₁, -, -, hpc, hres⟩ := step_at cfg hp rfl
  obtain rfl : s₁ = s' := Option.some.inj (hs₁.symm.trans hs)
  rcases hfirst with rfl | rfl
  · have hshadow : s.mem ⟨.shadowHead, q⟩ = 0#w := by
      rw [h.inv.flat_shadow q, hfront]
      rfl
    left
    simp only [Stmt.inPc, queueIsEmpty, hb, cellAt_zero, Access.exec, hshadow, if_pos] at hpc
    exact hpc
  · have hhead : s.mem ⟨.head, q⟩ = 0#w := by
      rw [h.inv.flat_head q, hfront]
      rfl
    right
    simp only [Stmt.inPc, queueIsEmpty, hb, cellAt_zero, Access.exec, hhead, if_pos] at hpc hres
    exact ⟨hpc, hres⟩

theorem peekHead_step {p : PeekHeadPc w} (hp : s.ctl.pc t = .peekHead p)
    (hs : atomicStep (queueProgram cfg) s (.step t) = some s') :
    s'.ctl.pc t = .idle ∨ ∃ p', s'.ctl.pc t = .peekHead p' ∧ p'.qheadPtr = p.qheadPtr := by
  obtain ⟨s₁, hs₁, -, -, hpc, -⟩ := step_at cfg hp rfl
  obtain rfl : s₁ = s' := Option.some.inj (hs₁.symm.trans hs)
  rw [hpc]
  cases p with
  | testShadow q =>
    simp only [Stmt.inPc, queuePeekHead]
    split
    · exact .inl rfl
    · exact .inr ⟨_, rfl, rfl⟩
  | loadShadow => exact .inl rfl

/-- `OPA_Queue_dequeue` goes on, or it is at its read barrier and returns its element. -/
theorem dequeue_step {p : DequeuePc w} (hp : s.ctl.pc t = .dequeue p)
    (hs : atomicStep (queueProgram cfg) s (.step t) = some s') :
    (∃ p', s'.ctl.pc t = .dequeue p' ∧ p'.qheadPtr = p.qheadPtr) ∧ (∀ q, (Pc.dequeue p).dequeues q t = []) ∨
    ∃ e, p = .readBarrier p.qheadPtr e ∧ s'.ctl.pc t = .idle ∧ s'.ctl.result t = some (.dequeued e) := by
  obtain ⟨s₁, hs₁, -, -, hpc, hres⟩ := step_at cfg hp rfl
  obtain rfl : s₁ = s' := Option.some.inj (hs₁.symm.trans hs)
  rw [hpc, hres]
  cases p with
  | testNext | casTail | busyWait =>
    left
    simp only [Stmt.inPc, queueDequeue]
    split
    · exact ⟨⟨_, rfl, rfl⟩, fun _ => rfl⟩
    · exact ⟨⟨_, rfl, rfl⟩, fun _ => rfl⟩
  | readBarrier q e => exact .inr ⟨e, rfl, rfl, rfl⟩
  | _ => exact .inl ⟨⟨_, rfl, rfl⟩, fun _ => rfl⟩

/-! ## The application's own accesses -/

/-- A call of `t` and the one access that it makes. -/
def privately (cfg : Config T w) (t : T) (a : Call T w) (s : Atomic (Cell w) (Word w) (Ctl T w)) :
    Option (Atomic (Cell w) (Word w) (Ctl T w)) :=
  run (atomicStep (queueProgram cfg)) s [.call a, .step t]

/-- What they leave. -/
structure Kept (t : T) (s s' : Atomic (Cell w) (Word w) (Ctl T w)) : Prop where
  pc : s'.ctl.pc = s.ctl.pc
  result : ∀ t', t' ≠ t → s'.ctl.result t' = s.ctl.result t'
  ready : s'.ctl.ready = s.ctl.ready
  called : s'.ctl.called = s.ctl.called
  swapped : s'.ctl.swapped = s.ctl.swapped
  dequeued : s'.ctl.dequeued = s.ctl.dequeued

/-- An access of the application, once the call is made. -/
theorem client_privately (hb : ∀ t, cfg.base t = 0#w) {c : Ctl T w} {p : ClientPc w} {o : Word w → Owner T}
    (hidle : c.pc t = .idle)
    (hs : atomicStep (queueProgram cfg) ⟨s.mem, { c.enter t (.client p) with owner := o }⟩ (.step t) = some s')
    (hc : s.ctl = c) :
    Kept t s s' ∧ s'.ctl.owner = ownerAfter cfg t o (.client p) ∧
      (∀ k e, (∀ v, p ≠ .write e k v) → s'.mem ⟨.payload k, e⟩ = s.mem ⟨.payload k, e⟩) ∧
      ∀ e k v, p = .write e k v → s'.mem = Function.update s.mem ⟨.payload k, e⟩ v := by
  subst hc
  set s₁ : Atomic (Cell w) (Word w) (Ctl T w) := ⟨s.mem, { s.ctl.enter t (.client p) with owner := o }⟩ with hs₁
  have hpc : s₁.ctl.pc t = .client p := Function.update_self ..
  obtain ⟨v, hacc⟩ := accessed hb hs
  have hswaps : ∀ q, (Pc.client p).swaps q t = [] ∧ (Pc.client p).dequeues q t = [] := fun _ => ⟨rfl, rfl⟩
  refine ⟨⟨?_, fun t' ht => ?_, ?_, ?_, ?_, ?_⟩, ?_, fun k e hne => ?_, ?_⟩
  · rw [hacc.pc, hpc]
    show Function.update (Function.update s.ctl.pc t _) t _ = s.ctl.pc
    rw [Function.update_idem]
    have hafter : (Pc.client p).after cfg t v = .idle := by cases p <;> rfl
    rw [hafter, ← hidle, Function.update_eq_self]
  · rw [hacc.result t' ht]
    exact Function.update_of_ne ht _ _
  · rw [hacc.ready, hpc]
    rfl
  · funext q
    exact hacc.called q
  · funext q
    rw [hacc.swapped, hpc, (hswaps q).1, List.append_nil]
    rfl
  · funext q
    rw [hacc.dequeued, hpc, (hswaps q).2, List.append_nil]
    rfl
  · rw [hacc.owner, hpc]
  · rw [hacc.payload k e]
    intro v hw
    rw [hpc] at hw
    exact hne v (Pc.client.inj hw)
  · rintro e k v rfl
    obtain ⟨s₂, hs₂, hmem, -⟩ := step_at cfg hpc rfl
    obtain rfl : s₂ = s' := Option.some.inj (hs₂.symm.trans hs)
    rw [hmem]
    simp only [Stmt.inPc, clientCode, hb, cellAt_zero, Access.exec]
    rfl

/-- The application writes its data. -/
theorem write_privately (hb : ∀ t, cfg.base t = 0#w) {e v : Word w} {k : Nat}
    (h : privately cfg t (.write t e k v) s = some s') :
    Kept t s s' ∧ s'.ctl.owner = s.ctl.owner ∧ s'.mem = Function.update s.mem ⟨.payload k, e⟩ v := by
  obtain ⟨s₁, hcall, hstep⟩ := run_cons_some.1 h
  obtain ⟨s₂, hstep, hnil⟩ := run_cons_some.1 hstep
  cases hnil
  obtain ⟨c, hc, rfl⟩ := Option.map_eq_some_iff.1 hcall
  simp only [queueProgram, call] at hc
  split at hc
  · rename_i hidle
    cases hc
    obtain ⟨hkept, howner, -, hmem⟩ := client_privately (o := s.ctl.owner) hb hidle hstep rfl
    exact ⟨hkept, howner, hmem e k v rfl⟩
  · cases hc

/-- It makes an element its own. -/
theorem reuse_privately (hb : ∀ t, cfg.base t = 0#w) {e v : Word w} (h : privately cfg t (.reuse t e v) s = some s') :
    Kept t s s' ∧ s'.ctl.owner = Function.update s.ctl.owner e (.held t) ∧
      ∀ k e', s'.mem ⟨.payload k, e'⟩ = s.mem ⟨.payload k, e'⟩ := by
  obtain ⟨s₁, hcall, hstep⟩ := run_cons_some.1 h
  obtain ⟨s₂, hstep, hnil⟩ := run_cons_some.1 hstep
  cases hnil
  obtain ⟨c, hc, rfl⟩ := Option.map_eq_some_iff.1 hcall
  simp only [queueProgram, call, hb, shmAbsToRel_zero] at hc
  split at hc
  · rename_i hguard
    cases hc
    obtain ⟨hkept, howner, hmem, -⟩ := client_privately hb hguard.1 hstep rfl
    exact ⟨hkept, howner, fun k e' => hmem k e' fun v hw => by cases hw⟩
  · cases hc

/-- It gives up an element of its own. -/
theorem handOff_privately (hb : ∀ t, cfg.base t = 0#w) {e : Word w} (h : privately cfg t (.handOff t e) s = some s') :
    Kept t s s' ∧ s'.ctl.owner = Function.update s.ctl.owner e .free ∧
      ∀ k e', s'.mem ⟨.payload k, e'⟩ = s.mem ⟨.payload k, e'⟩ := by
  obtain ⟨s₁, hcall, hstep⟩ := run_cons_some.1 h
  obtain ⟨s₂, hstep, hnil⟩ := run_cons_some.1 hstep
  cases hnil
  obtain ⟨c, hc, rfl⟩ := Option.map_eq_some_iff.1 hcall
  simp only [queueProgram, call, hb, shmAbsToRel_zero] at hc
  split at hc
  · rename_i hguard
    cases hc
    obtain ⟨hkept, howner, hmem, -⟩ := client_privately (o := s.ctl.owner) hb hguard.1 hstep rfl
    exact ⟨hkept, howner, fun k e' => hmem k e' fun v hw => by cases hw⟩
  · cases hc

end OpenPA.Queue
