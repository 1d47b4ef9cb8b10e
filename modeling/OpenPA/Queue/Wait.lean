/-
The busy wait of `OPA_Queue_dequeue` (line 275). The consumer waits for the `next` field of an element to be
stored: whenever it finds the field null there is exactly one producer whose tail swap returned that element and
whose store to the field is its next access; nobody else can write the field before, and the wait ends at the
first test after that store (`dequeue_wait`).
-/
import OpenPA.Queue.Visible

namespace OpenPA.Queue

open OpenPA.Machine

variable {w : Nat} {T : Type} {cfg : Config T w}

/-- A producer before its store to the `next` field of the element that its tail swap returned: the queue and
that element. -/
def Pc.linking : Pc w → Option (Word w × Word w)
  | .enqueue (.storeLink q _ _ abs_prev) => some (q, abs_prev)
  | _ => none

/-- A consumer before its test of the `next` field in the loop of line 275: the queue and the element. -/
def Pc.waiting : Pc w → Option (Word w × Word w)
  | .dequeue (.busyWait q _ e) => some (q, e)
  | _ => none

/-- Thread `t` has swapped the tail of the queue at `q`, got the element at `o` and has not linked it yet. -/
def Links (cfg : Config T w) (c : Ctl T w) (t : T) (q o : Word w) : Prop :=
  (c.pc t).linking = some (cfg.base t + q, cfg.base t + o)

/-- Thread `t` is in the loop of line 275, dequeuing the element at `o` from the queue at `q`. -/
def Waits (cfg : Config T w) (c : Ctl T w) (t : T) (q o : Word w) : Prop :=
  (c.pc t).waiting = some (cfg.base t + q, cfg.base t + o)

theorem Pc.linking_iff {p : Pc w} {q x : Word w} :
    p.linking = some (q, x) ↔ ∃ e r, p = .enqueue (.storeLink q e r x) := by
  constructor
  · intro h
    unfold Pc.linking at h
    split at h
    · cases h
      exact ⟨_, _, rfl⟩
    · cases h
  · rintro ⟨e, r, rfl⟩
    rfl

theorem Pc.waiting_iff {p : Pc w} {q e : Word w} :
    p.waiting = some (q, e) ↔ ∃ r, p = .dequeue (.busyWait q r e) := by
  constructor
  · intro h
    unfold Pc.waiting at h
    split at h
    · cases h
      exact ⟨_, rfl⟩
    · cases h
  · rintro ⟨r, rfl⟩
    rfl

/-! ## In one state, at base 0 -/

section Zero

variable {c : Ctl T w} {g : Ghost T w} {t p : T} {q o : Word w}

/-- The producers before such a store are those that own a link. -/
theorem CtlOk.links_iff (hb : ∀ t, cfg.base t = 0#w) (h : CtlOk cfg c g) :
    Links cfg c t q o ↔ (∃ y, g.link o = .swapped y t) ∧ g.place o = .queued q := by
  rw [Links, hb, BitVec.zero_add, BitVec.zero_add, Pc.linking_iff]
  constructor
  · rintro ⟨e, r, hp⟩
    have htok := h.token t (.link o e)
    have hok := h.pc t
    rw [hp] at htok hok
    exact ⟨⟨e, htok.2 rfl⟩, hok.2⟩
  · rintro ⟨⟨y, hl⟩, hq⟩
    obtain ⟨q', r, hp⟩ := Pc.of_token_link ((h.token t (.link o y)).1 hl)
    have hok := h.pc t
    rw [hp] at hok
    have hplace := hok.2.symm.trans hq
    cases hplace
    exact ⟨y, r, hp⟩

/-- The element that a consumer waits on is the front of its queue, and has a successor. -/
theorem CtlOk.waits (hb : ∀ t, cfg.base t = 0#w) (h : CtlOk cfg c g) (hw : Waits cfg c t q o) :
    t = cfg.consumer q ∧ g.place o = .queued q ∧ g.link o ≠ .none := by
  rw [Waits, hb, BitVec.zero_add, BitVec.zero_add, Pc.waiting_iff] at hw
  obtain ⟨r, hp⟩ := hw
  have htok := h.token t (.held q)
  have hok := h.pc t
  rw [hp] at htok hok
  obtain ⟨-, hfront, hlink⟩ := hok
  refine ⟨(htok.2 rfl).1, h.front_queued (q := q) ?_, hlink⟩
  rw [hfront]
  rfl

/-- A link leads to an element. -/
theorem CtlOk.target_ne_zero (h : CtlOk cfg c g) (hq : g.place o = .queued q) {y : Word w}
    (hy : (g.link o).target = some y) : y ≠ 0#w := by
  have hmem := (h.chain q).path.succ_mem (((h.chain q).mem o).2 hq) hy
  apply h.pos
  rw [((h.chain q).mem y).1 hmem]
  simp

variable [DecidableEq T] {s s' : Atomic (Cell w) (Word w) (Ctl T w)}

/-- While a consumer waits, the field is null exactly as long as some producer has not stored to it. -/
theorem AtomicOk.wait_null (hb : ∀ t, cfg.base t = 0#w) (h : AtomicOk cfg s g) (hw : Waits cfg s.ctl t q o) :
    s.mem ⟨.next, o⟩ = 0#w ↔ ∃ p, Links cfg s.ctl p q o := by
  obtain ⟨-, hq, hlink⟩ := h.inv.ctl.waits hb hw
  have hpos : ∀ y, (g.link o).target = some y → y ≠ 0#w := fun y hy => h.inv.ctl.target_ne_zero hq hy
  rw [h.inv.flat_next hq]
  simp only [h.inv.ctl.links_iff hb, hq, and_true]
  cases hk : g.link o with
  | none => exact absurd hk hlink
  | swapped y p =>
    constructor
    · intro _
      exact ⟨p, y, rfl⟩
    · intro _
      rfl
  | stored y p =>
    rw [hk] at hpos
    constructor
    · intro hnull
      exact absurd hnull (hpos y rfl)
    · rintro ⟨p', y', hy⟩
      cases hy
  | seen y =>
    rw [hk] at hpos
    constructor
    · intro hnull
      exact absurd hnull (hpos y rfl)
    · rintro ⟨p', y', hy⟩
      cases hy

/-- What the producer stores is an element. -/
theorem AtomicOk.links_store (hb : ∀ t, cfg.base t = 0#w) (h : AtomicOk cfg s g) (hp : Links cfg s.ctl p q o) :
    ∃ y tag, (queueProgram cfg).access s.ctl p = some (.store ⟨.next, o⟩ y tag) ∧ y ≠ 0#w := by
  obtain ⟨⟨y, hlink⟩, hq⟩ := (h.inv.ctl.links_iff hb).1 hp
  rw [Links, hb, BitVec.zero_add, BitVec.zero_add, Pc.linking_iff] at hp
  obtain ⟨e, r, hpc⟩ := hp
  have htok := h.inv.ctl.token p (.link o y)
  have hok := h.inv.ctl.pc p
  rw [hpc] at htok hok
  have hey := htok.1 hlink
  obtain ⟨rfl, -⟩ := hok
  cases hey
  refine ⟨y, ⟨236, s.ctl.issued p, s.ctl.life o⟩, ?_, h.inv.ctl.target_ne_zero hq (by rw [hlink]; rfl)⟩
  simp only [queueProgram, hpc, Pc.code, Stmt.inPc, queueEnqueue, hb, cellAt_zero, Option.map_some, Access.retag]

/-- Only a producer that has it from its tail swap writes the `next` field of a queued element. -/
theorem AtomicOk.next_writer (hb : ∀ t, cfg.base t = 0#w) (h : AtomicOk cfg s g) (hq : g.place o = .queued q)
    {x : Access (Cell w) (Word w) Tag} (hx : (queueProgram cfg).access s.ctl p = some x)
    (hwr : x.written? = some ⟨.next, o⟩) : Links cfg s.ctl p q o := by
  have htok := h.inv.ctl.token p
  have hok := h.inv.ctl.pc p
  -- the other writers find the element at a place where it is not queued
  cases NextWrite.of_access hx hwr with
  | setNextNull hp =>
    rw [hb, BitVec.zero_add] at hp
    rw [hp] at htok
    have hplace : g.place o = .entering p .raw := (htok (.entering o .raw)).2 rfl
    rw [hq] at hplace
    cases hplace
  | @storeLink qa e r hp =>
    rw [hb, BitVec.zero_add] at hp
    rw [hp] at htok
    exact (h.inv.ctl.links_iff hb).2 ⟨⟨e, (htok (.link o e)).2 rfl⟩, hq⟩
  | @clearNext qa hp =>
    rw [hb, BitVec.zero_add] at hp
    rw [hp] at htok
    have hplace : g.place o = .leaving qa false := ((htok (.leaving qa o false)).2 rfl).2
    rw [hq] at hplace
    cases hplace
  | reuse hp =>
    rw [hp, hb, BitVec.zero_add] at hok
    have hout : g.place o = .out := by
      apply (h.inv.ctl.owner o).2
      rw [show s.ctl.owner o = .held p from hok]
      simp
    rw [hq] at hout
    cases hout

/-- Nobody gets an element that has a successor from a tail swap. -/
theorem AtomicOk.swap_last (h : AtomicOk cfg s g) (hlink : g.link o ≠ .none)
    (ho : o ≠ 0#w) (q' : Word w) : s.mem ⟨.tail, q'⟩ ≠ o := by
  intro htail
  have hmem := (h.inv.mem.tail q').2
  rw [show (flat s.mem ⟨.tail, q'⟩).mem = s.mem ⟨.tail, q'⟩ from rfl, htail] at hmem
  apply hlink
  apply h.inv.ctl.ghost.link_last (q := q')
  cases hl : (g.chain q').getLast? with
  | none =>
    rw [List.getLastD_eq_getLast?, hl] at hmem
    exact absurd hmem ho
  | some e =>
    rw [List.getLastD_eq_getLast?, hl] at hmem
    exact congrArg some hmem.symm

end Zero

/-! ## In one state, at arbitrary bases -/

theorem linking_shift (b : Word w) (p : Pc w) :
    (p.shift b).linking = p.linking.map fun x => (b + x.1, b + x.2) := by
  cases p with
  | enqueue p => cases p <;> rfl
  | _ => rfl

theorem waiting_shift (b : Word w) (p : Pc w) :
    (p.shift b).waiting = p.waiting.map fun x => (b + x.1, b + x.2) := by
  cases p with
  | dequeue p => cases p <;> rfl
  | _ => rfl

theorem map_add_eq_some {b q o : Word w} {x : Option (Word w × Word w)} :
    x.map (fun x => (b + x.1, b + x.2)) = some (b + q, b + o) ↔ x = some (0#w + q, 0#w + o) := by
  cases x with
  | none => simp
  | some x =>
    obtain ⟨x, y⟩ := x
    simp only [Option.map_some, Option.some.injEq, Prod.mk.injEq, add_right_inj, BitVec.zero_add]

theorem links_shift {c : Ctl T w} {t : T} {q o : Word w} :
    Links cfg (c.shift cfg) t q o ↔ Links cfg.atZero c t q o := by
  unfold Links
  rw [show (c.shift cfg).pc t = (c.pc t).shift (cfg.base t) from rfl, linking_shift]
  exact map_add_eq_some

theorem waits_shift {c : Ctl T w} {t : T} {q o : Word w} :
    Waits cfg (c.shift cfg) t q o ↔ Waits cfg.atZero c t q o := by
  unfold Waits
  rw [show (c.shift cfg).pc t = (c.pc t).shift (cfg.base t) from rfl, waiting_shift]
  exact map_add_eq_some

section Reached

variable [DecidableEq T] {s s' : Atomic (Cell w) (Word w) (Ctl T w)} {t p p' : T} {q q' o : Word w}

/-- A state that atomic accesses reach. -/
def Reached (cfg : Config T w) (s : Atomic (Cell w) (Word w) (Ctl T w)) : Prop :=
  ∃ junk as, run (atomicStep (queueProgram cfg)) (initAtomic junk) as = some s

theorem Reached.run {as : List (Act T (Call T w))} (h : Reached cfg s)
    (hs : Machine.run (atomicStep (queueProgram cfg)) s as = some s') : Reached cfg s' := by
  obtain ⟨junk, as', h⟩ := h
  exact ⟨junk, as' ++ as, run_append_some.2 ⟨s, h, hs⟩⟩

theorem Reached.step {a : Act T (Call T w)} (h : Reached cfg s)
    (hs : atomicStep (queueProgram cfg) s a = some s') : Reached cfg s' := by
  have hrun : Machine.run (atomicStep (queueProgram cfg)) s [a] = some s' := by
    rw [run_cons, hs]
    rfl
  exact h.run hrun

/-- It is the renaming of a state that meets the protocol. -/
theorem Reached.protocol (h : Reached cfg s) :
    ∃ s₀ g, AtomicOk cfg.atZero s₀ g ∧ s = s₀.mapCtl (Ctl.shift cfg) := by
  obtain ⟨junk, as, h⟩ := h
  obtain ⟨as', s₀, hs₀, hs⟩ := atomic_reached h
  have hbase : ∀ t, cfg.atZero.base t = 0#w := fun _ => rfl
  obtain ⟨g, hg⟩ := AtomicOk.run hbase hs₀
  exact ⟨s₀, g, hg, hs⟩

theorem Reached.wait_null (h : Reached cfg s) (hw : Waits cfg s.ctl t q o) :
    s.mem ⟨.next, o⟩ = 0#w ↔ ∃ p, Links cfg s.ctl p q o := by
  obtain ⟨s₀, g, hg, rfl⟩ := h.protocol
  have hnull := hg.wait_null (fun _ => rfl) (waits_shift.1 hw)
  constructor
  · intro hm
    obtain ⟨p, hp⟩ := hnull.1 hm
    exact ⟨p, links_shift.2 hp⟩
  · rintro ⟨p, hp⟩
    exact hnull.2 ⟨p, links_shift.1 hp⟩

theorem Reached.links_unique (h : Reached cfg s) (hp : Links cfg s.ctl p q o) (hp' : Links cfg s.ctl p' q' o) :
    p' = p ∧ q' = q := by
  obtain ⟨s₀, g, hg, rfl⟩ := h.protocol
  obtain ⟨⟨y, hl⟩, hq⟩ := (hg.inv.ctl.links_iff fun _ => rfl).1 (links_shift.1 hp)
  obtain ⟨⟨y', hl'⟩, hq'⟩ := (hg.inv.ctl.links_iff fun _ => rfl).1 (links_shift.1 hp')
  rw [hl] at hl'
  rw [hq] at hq'
  cases hl'
  cases hq'
  exact ⟨rfl, rfl⟩

theorem Reached.links_store (h : Reached cfg s) (hp : Links cfg s.ctl p q o) :
    ∃ y tag, (queueProgram cfg).access s.ctl p = some (.store ⟨.next, o⟩ y tag) ∧ y ≠ 0#w := by
  obtain ⟨s₀, g, hg, rfl⟩ := h.protocol
  obtain ⟨y, tag, hx, hy⟩ := hg.links_store (fun _ => rfl) (links_shift.1 hp)
  exact ⟨y, tag, ((queue_renames cfg).access s₀.ctl p).trans hx, hy⟩

theorem Reached.next_writer (h : Reached cfg s) (hw : Waits cfg s.ctl t q o)
    {x : Access (Cell w) (Word w) Tag} (hx : (queueProgram cfg).access s.ctl p = some x)
    (hwr : x.written? = some ⟨.next, o⟩) : Links cfg s.ctl p q o := by
  obtain ⟨s₀, g, hg, rfl⟩ := h.protocol
  have hq := (hg.inv.ctl.waits (fun _ => rfl) (waits_shift.1 hw)).2.1
  exact links_shift.2 (hg.next_writer (fun _ => rfl) hq (((queue_renames cfg).access s₀.ctl p).symm.trans hx) hwr)

theorem Reached.swap_last (h : Reached cfg s) (hw : Waits cfg s.ctl t q o) (q' : Word w) :
    s.mem ⟨.tail, q'⟩ ≠ o := by
  obtain ⟨s₀, g, hg, rfl⟩ := h.protocol
  obtain ⟨-, hq, hlink⟩ := hg.inv.ctl.waits (fun _ => rfl) (waits_shift.1 hw)
  refine hg.swap_last hlink (hg.inv.ctl.pos o ?_) q'
  rw [hq]
  simp

/-! ## Runs -/

theorem call_idle {c c' : Ctl T w} {a : Call T w} (hc : call cfg c a = some c') :
    c.pc a.thread = .idle ∧ (c'.pc a.thread).linking = none := by
  cases a <;> simp only [call] at hc <;> split at hc <;> cases hc <;> rename_i hg <;>
    exact ⟨by first | exact hg.1 | exact hg, by simp [Ctl.enter, Call.thread, EnqueuePc.start, Pc.linking]⟩

theorem resume_pc_other (c : Ctl T w) {t t' : T} (v : Word w) (ht : t' ≠ t) :
    (resume cfg c t v).pc t' = c.pc t' := by
  unfold resume
  split
  · rfl
  · rename_i st hst
    have hrec : (c.record cfg t (c.pc t) (st.next v)).pc = c.pc := by
      unfold Ctl.record
      split <;> rfl
    rw [(goOn_fields _ t (st.next v)).1, Function.update_of_ne ht, (count_fields _ t st.access).1, hrec]

/-- A thread under way stays where it is while others move. -/
theorem step_pc_other {a : Act T (Call T w)} (hs : atomicStep (queueProgram cfg) s a = some s')
    (ha : a ≠ .step t) (hbusy : s.ctl.pc t ≠ .idle) : s'.ctl.pc t = s.ctl.pc t := by
  cases a with
  | call a =>
    obtain ⟨c, hc, rfl⟩ := Option.map_eq_some_iff.1 hs
    apply call_pc hc
    rintro rfl
    exact hbusy (call_idle hc).1
  | step t' =>
    obtain ⟨x, hx, rfl⟩ := Option.map_eq_some_iff.1 hs
    apply resume_pc_other
    rintro rfl
    exact ha rfl

omit [DecidableEq T] in
/-- A thread comes to such a store from its tail swap. -/
theorem Pc.after_linking {pc : Pc w} {st : Stmt w (Pc w) (Ret w)} (hst : pc.code cfg t = some st) {v q x : Word w}
    (h : ((st.next v).elim id fun _ => .idle).linking = some (q, x)) :
    ∃ e r, pc = .enqueue (.swapTail q e r) ∧ x = shmRelToAbs (cfg.base t) v := by
  cases pc with
  | idle => cases hst
  | enqueue pc =>
    cases hst
    cases pc with
    | swapTail qa e r =>
      simp only [Stmt.inPc, queueEnqueue] at h
      split at h
      · cases h
      · cases h
        exact ⟨e, r, rfl, rfl⟩
    | _ => cases h
  | isEmpty pc =>
    cases hst
    cases pc <;> simp only [Stmt.inPc, queueIsEmpty] at h <;> (try split at h) <;> cases h
  | peekHead pc =>
    cases hst
    cases pc <;> simp only [Stmt.inPc, queuePeekHead] at h <;> (try split at h) <;> cases h
  | dequeue pc =>
    cases hst
    cases pc <;> simp only [Stmt.inPc, queueDequeue] at h <;> (try split at h) <;> cases h
  | client pc =>
    cases hst
    cases pc <;> cases h

/-- While a consumer waits, no producer gets its element from a tail swap. -/
theorem Reached.links_step (h : Reached cfg s) (hw : Waits cfg s.ctl t q o) {a : Act T (Call T w)}
    (hs : atomicStep (queueProgram cfg) s a = some s') (hp : Links cfg s'.ctl p q' o) : Links cfg s.ctl p q' o := by
  cases a with
  | call a =>
    obtain ⟨c, hc, rfl⟩ := Option.map_eq_some_iff.1 hs
    by_cases hpa : p = a.thread
    · subst hpa
      have hstart := (call_idle hc).2
      rw [Links, hstart] at hp
      cases hp
    · rw [Links, call_pc hc hpa] at hp
      exact hp
  | step u =>
    by_cases hpu : p = u
    · subst hpu
      obtain ⟨x, hx, -⟩ := Option.map_eq_some_iff.1 hs
      obtain ⟨st, hst, -⟩ := queueProgram_access s.ctl p hx
      obtain ⟨s₁, h₁, -, -, hpc, -⟩ := step_at cfg rfl hst
      cases hs.symm.trans h₁
      rw [Links, hpc] at hp
      obtain ⟨e, r, hswap, ho⟩ := Pc.after_linking hst hp
      rw [hswap] at hst
      cases hst
      -- the swap returned the element at `o`, which is not the last one
      exact absurd (add_left_cancel ho).symm (h.swap_last hw _)
    · obtain ⟨x, -, rfl⟩ := Option.map_eq_some_iff.1 hs
      replace hp : ((resume cfg s.ctl u (x.exec s.mem).2).pc p).linking = _ := hp
      rw [resume_pc_other _ _ hpu] at hp
      exact hp

omit [DecidableEq T] in
theorem Waits.busy {c : Ctl T w} (hw : Waits cfg c t q o) : c.pc t ≠ .idle := by
  intro hidle
  rw [Waits, hidle] at hw
  cases hw

omit [DecidableEq T] in
theorem Links.busy {c : Ctl T w} (hp : Links cfg c p q o) : c.pc p ≠ .idle := by
  intro hidle
  rw [Links, hidle] at hp
  cases hp

/-- The test of line 275: it goes on waiting exactly if the field is null. -/
theorem Waits.step (hw : Waits cfg s.ctl t q o) : ∃ s', atomicStep (queueProgram cfg) s (.step t) = some s' ∧
    (s.mem ⟨.next, o⟩ = 0#w → s'.ctl.pc t = s.ctl.pc t) ∧
    (s.mem ⟨.next, o⟩ ≠ 0#w → ∃ r, s'.ctl.pc t = .dequeue (.reloadNext (cfg.base t + q) r (cfg.base t + o))) := by
  obtain ⟨r, hpc⟩ := Pc.waiting_iff.1 hw
  obtain ⟨s', hs', -, -, hpc', -⟩ := step_at cfg hpc rfl
  refine ⟨s', hs', fun hnull => ?_, fun hne => ⟨r, ?_⟩⟩
  · rw [hpc', hpc]
    simp [Stmt.inPc, queueDequeue, Access.exec, cellAt_add, hnull]
  · rw [hpc']
    simp [Stmt.inPc, queueDequeue, Access.exec, cellAt_add, hne]

/-- Before the producer's store the consumer goes on waiting, whatever the other threads do. -/
theorem Reached.wait_on (h : Reached cfg s) (hw : Waits cfg s.ctl t q o) (hp : Links cfg s.ctl p q o)
    {as : List (Act T (Call T w))} (has : ∀ a ∈ as, a ≠ .step p)
    (hs : Machine.run (atomicStep (queueProgram cfg)) s as = some s') :
    Waits cfg s'.ctl t q o ∧ Links cfg s'.ctl p q o := by
  have hrun := run_inv_along (P := fun s => Reached cfg s ∧ Waits cfg s.ctl t q o ∧ Links cfg s.ctl p q o)
    (G := fun _ a => a ≠ .step p) ?_ as ⟨h, hw, hp⟩ (Along.of_forall as s has) hs
  · exact hrun.2
  rintro u a u' ⟨hu, hwu, hpu⟩ ha hstep
  have hp' : Links cfg u'.ctl p q o := by
    rw [Links, step_pc_other hstep ha hpu.busy]
    exact hpu
  refine ⟨hu.step hstep, ?_, hp'⟩
  by_cases hat : a = .step t
  · subst hat
    obtain ⟨v, hv, hstay, -⟩ := hwu.step
    cases hstep.symm.trans hv
    rw [Waits, hstay ((hu.wait_null hwu).2 ⟨p, hpu⟩)]
    exact hwu
  · rw [Waits, step_pc_other hstep hat hwu.busy]
    exact hwu

/-- Once no producer is left to link the element, its field stays stored while the consumer does not move. -/
theorem Reached.wait_over (h : Reached cfg s) (hw : Waits cfg s.ctl t q o) (hp : ∀ p, ¬Links cfg s.ctl p q o)
    {as : List (Act T (Call T w))} (has : ∀ a ∈ as, a ≠ .step t)
    (hs : Machine.run (atomicStep (queueProgram cfg)) s as = some s') :
    Waits cfg s'.ctl t q o ∧ s'.mem ⟨.next, o⟩ ≠ 0#w := by
  have hrun := run_inv_along (P := fun s => Reached cfg s ∧ Waits cfg s.ctl t q o ∧ ∀ p, ¬Links cfg s.ctl p q o)
    (G := fun _ a => a ≠ .step t) ?_ as ⟨h, hw, hp⟩ (Along.of_forall as s has) hs
  · obtain ⟨h', hw', hp'⟩ := hrun
    refine ⟨hw', fun hnull => ?_⟩
    obtain ⟨p, hlink⟩ := (h'.wait_null hw').1 hnull
    exact hp' p hlink
  · rintro u a u' ⟨hu, hwu, hpu⟩ ha hstep
    refine ⟨hu.step hstep, ?_, fun p hlink => hpu p (hu.links_step hwu hstep hlink)⟩
    rw [Waits, step_pc_other hstep ha hwu.busy]
    exact hwu

/-- The busy wait of `OPA_Queue_dequeue`. In every reachable state in which a consumer is in the loop of line 275
with the `next` field of its element null, there is exactly one producer whose tail swap returned that element
and which has not stored to the field; that store is its next access, and it is of an element. Until it makes that
access, and whatever the others do, the consumer goes on waiting and nobody else can write the field; and after it
the consumer leaves the loop with its next test, whatever the others have done in between. -/
theorem dequeue_wait (cfg : Config T w) (junk : Cell w → Word w) (as : List (Act T (Call T w)))
    (s : Atomic (Cell w) (Word w) (Ctl T w)) (t : T) (q o : Word w)
    (h : Machine.run (atomicStep (queueProgram cfg)) (initAtomic junk) as = some s)
    (hw : Waits cfg s.ctl t q o) (hnull : s.mem ⟨.next, o⟩ = shmRelNull) :
    ∃ p, (∀ p' q', Links cfg s.ctl p' q' o ↔ p' = p ∧ q' = q) ∧
      (∃ y tag, (queueProgram cfg).access s.ctl p = some (.store ⟨.next, o⟩ y tag) ∧ y ≠ shmRelNull) ∧
      ∀ bs s₁, (∀ a ∈ bs, a ≠ .step p) → Machine.run (atomicStep (queueProgram cfg)) s bs = some s₁ →
        (Waits cfg s₁.ctl t q o ∧ s₁.mem ⟨.next, o⟩ = shmRelNull ∧
          ∀ p' x, (queueProgram cfg).access s₁.ctl p' = some x → x.written? = some ⟨.next, o⟩ → p' = p) ∧
        ∃ s₂, atomicStep (queueProgram cfg) s₁ (.step p) = some s₂ ∧
          ∀ bs' s₃, (∀ a ∈ bs', a ≠ .step t) → Machine.run (atomicStep (queueProgram cfg)) s₂ bs' = some s₃ →
            Waits cfg s₃.ctl t q o ∧ ∃ s₄, atomicStep (queueProgram cfg) s₃ (.step t) = some s₄ ∧
              ∃ r, s₄.ctl.pc t = .dequeue (.reloadNext (cfg.base t + q) r (cfg.base t + o)) := by
  have hr : Reached cfg s := ⟨junk, as, h⟩
  obtain ⟨p, hp⟩ := (hr.wait_null hw).1 hnull
  refine ⟨p, fun p' q' => ⟨hr.links_unique hp, ?_⟩, hr.links_store hp, fun bs s₁ hbs h₁ => ?_⟩
  · rintro ⟨rfl, rfl⟩
    exact hp
  have hr₁ := hr.run h₁
  obtain ⟨hw₁, hp₁⟩ := hr.wait_on hw hp hbs h₁
  refine ⟨⟨hw₁, (hr₁.wait_null hw₁).2 ⟨p, hp₁⟩, fun p' x hx hwr => ?_⟩, ?_⟩
  · exact (hr₁.links_unique hp₁ (hr₁.next_writer hw₁ hx hwr)).1
  -- the producer's store
  obtain ⟨e, r, hpc⟩ := Pc.linking_iff.1 hp₁
  obtain ⟨s₂, h₂, -, -, hidle, -⟩ := step_at cfg hpc rfl
  refine ⟨s₂, h₂, fun bs' s₃ hbs' h₃ => ?_⟩
  have htp : Act.step (A := Call T w) p ≠ .step t := by
    intro htp
    cases htp
    rw [Waits, hpc] at hw₁
    cases hw₁
  have hw₂ : Waits cfg s₂.ctl t q o := by
    rw [Waits, step_pc_other h₂ htp hw₁.busy]
    exact hw₁
  have hp₂ : ∀ p', ¬Links cfg s₂.ctl p' q o := by
    intro p' hp'
    obtain ⟨rfl, -⟩ := hr₁.links_unique hp₁ (hr₁.links_step hw₁ h₂ hp')
    exact hp'.busy hidle
  obtain ⟨hw₃, hstored⟩ := (hr₁.step h₂).wait_over hw₂ hp₂ hbs' h₃
  obtain ⟨s₄, h₄, -, hexit⟩ := hw₃.step
  exact ⟨hw₃, s₄, h₄, hexit hstored⟩

end Reached

/-- Thread 0 is the consumer, and the segment is mapped elsewhere in each thread. -/
def waitConfig : Config Nat 8 where
  base := fun t => if t = 0 then 100#8 else if t = 1 then 200#8 else 50#8
  consumer := fun _ => 0
  readBarrierDrains := true

/-- Producer 2 has swapped the tail and not linked its element when the consumer dequeues the one before it. -/
def waitActs : List (Act Nat (Call Nat 8)) :=
  .call (.enqueue 1 201#8 216#8) :: List.replicate 4 (.step 1) ++ .call (.isEmpty 0 101#8) :: List.replicate 5 (.step 0) ++
    .call (.enqueue 2 51#8 82#8) :: List.replicate 3 (.step 2) ++ .call (.dequeue 0 101#8) :: List.replicate 5 (.step 0)

theorem dequeue_wait_demo : ∃ s, run (atomicStep (queueProgram waitConfig)) (initAtomic fun _ => 7#8) waitActs = some s ∧
    Waits waitConfig s.ctl 0 1#8 16#8 ∧ ∀ p q, Links waitConfig s.ctl p q 16#8 ↔ p = 2 ∧ q = 1#8 := by
  have h : (run (atomicStep (queueProgram waitConfig)) (initAtomic fun _ => 7#8) waitActs).map
      (fun s => ((s.ctl.pc 0).waiting, (s.ctl.pc 2).linking, s.mem ⟨.next, 16#8⟩)) =
        some (some (101#8, 116#8), some (51#8, 66#8), 0#8) := by decide
  obtain ⟨s, hs, hd⟩ := Option.map_eq_some_iff.1 h
  obtain ⟨hwait, hd⟩ := Prod.mk.inj hd
  obtain ⟨hlink, hnull⟩ := Prod.mk.inj hd
  obtain ⟨p, hp, -⟩ := dequeue_wait waitConfig _ waitActs s 0 1#8 16#8 hs hwait hnull
  obtain ⟨rfl, -⟩ := (hp 2 1#8).1 hlink
  exact ⟨s, hs, hwait, hp⟩

end OpenPA.Queue
