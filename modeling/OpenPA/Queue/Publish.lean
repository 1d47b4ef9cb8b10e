/-
Publication order under buffering. A producer passes the write barrier of line 227 with nothing pending,
so the stores it issued before are in memory long before the consumer gets to the element, whichever way
it comes to it (`Published`). And the stores to an element's `next` reach memory life by life, in each life
line 225 first, then the successor's link of line 236, then line 281 (`Tag.rank`): a null never lands on
a link.
-/
import OpenPA.Machine.Order
import OpenPA.Queue.Visible

namespace OpenPA.Queue

open OpenPA.Machine

variable {w : Nat} {T : Type}

/-- The place of a store to an element's `next` among all of them: by the life of the element, and in one
life lines 225, 236 and 281, and then the application's own stores. -/
def Tag.rank (tag : Tag) : Nat :=
  4 * tag.life + if tag.line = 225 then 0 else if tag.line = 236 then 1 else if tag.line = 281 then 2 else 3

/-- The ranks of the stores issued so far are below this, by where the element is. -/
def Place.rankBound (life : Nat) : Place T w → Nat
  | .entering _ .raw => 4 * life
  | .entering _ _ | .queued _ | .leaving _ false => 4 * life + 2
  | .leaving _ true | .out => 4 * life + 4

variable [DecidableEq T] {cfg : Config T w} {c c' : Ctl T w} {g : Ghost T w} {t : T} {v : Word w}
  {s s' : Buffered T (Cell w) (Word w) Tag (Ctl T w)}

/-- The marks of the write barriers after an access of `t`. -/
def barrierAfter (issued : T → Nat) (t : T) (b : Word w → Option (T × Nat)) : Pc w → Word w → Option (T × Nat)
  | .enqueue (.writeBarrier _ e _) => Function.update b e (some (t, issued t))
  | _ => b

omit [DecidableEq T] in
theorem barrierAfter_of_ne {n : T → Nat} {b : Word w → Option (T × Nat)} {p : Pc w} {e : Word w}
    (h : ∀ q r, p ≠ .enqueue (.writeBarrier q e r)) : barrierAfter n t b p e = b e := by
  unfold barrierAfter
  split
  · rename_i q e' r
    apply Function.update_of_ne
    rintro rfl
    exact h q r rfl
  · rfl

omit [DecidableEq T] in
/-- A mark is an old one, or it is set at a write barrier. -/
theorem barrierAfter_some {n : T → Nat} {b : Word w → Option (T × Nat)} {p : Pc w} {e : Word w} {m : T × Nat}
    (h : barrierAfter n t b p e = some m) :
    b e = some m ∨ (∃ q r, p = .enqueue (.writeBarrier q e r)) ∧ m = (t, n t) := by
  by_cases hp : ∃ q r, p = .enqueue (.writeBarrier q e r)
  · obtain ⟨q, r, rfl⟩ := hp
    simp only [barrierAfter, Function.update_self, Option.some.injEq] at h
    exact .inr ⟨⟨q, r, rfl⟩, h.symm⟩
  · rw [barrierAfter_of_ne fun q r hq => hp ⟨q, r, hq⟩] at h
    exact .inl h

omit [DecidableEq T] in
theorem record_marks (cfg : Config T w) (c : Ctl T w) (t : T) (p : Pc w) (out : Pc w ⊕ Ret w) :
    (c.record cfg t p out).life = c.life ∧ (c.record cfg t p out).issued = c.issued := by
  unfold Ctl.record
  split <;> exact ⟨rfl, rfl⟩

omit [DecidableEq T] in
theorem record_barrier (hb : ∀ t, cfg.base t = 0#w) (c : Ctl T w) (t : T) (p : Pc w) (out : Pc w ⊕ Ret w) :
    (c.record cfg t p out).barrier = barrierAfter c.issued t c.barrier p := by
  by_cases hp : ∃ q e r, p = .enqueue (.writeBarrier q e r)
  · obtain ⟨q, e, r, rfl⟩ := hp
    simp [Ctl.record, hb, barrierAfter]
  · funext e
    rw [barrierAfter_of_ne fun q r h => hp ⟨q, e, r, h⟩]
    unfold Ctl.record
    split
    · exact absurd ⟨_, _, _, rfl⟩ hp
    all_goals rfl

theorem goOn_marks (c : Ctl T w) (t : T) (out : Pc w ⊕ Ret w) :
    (c.goOn t out).life = c.life ∧ (c.goOn t out).issued = c.issued ∧ (c.goOn t out).barrier = c.barrier := by
  cases out <;> exact ⟨rfl, rfl, rfl⟩

theorem count_marks (c : Ctl T w) (t : T) (x : Access (Cell w) (Word w) Nat) :
    (c.count t x).life = c.life ∧ (∀ t', c.issued t' ≤ (c.count t x).issued t') ∧ (c.count t x).barrier = c.barrier := by
  unfold Ctl.count
  split
  · refine ⟨rfl, fun t' => ?_, rfl⟩
    show c.issued t' ≤ Function.update c.issued t (c.issued t + 1) t'
    by_cases ht : t' = t
    · subst ht
      rw [Function.update_self]
      omega
    · rw [Function.update_of_ne ht]
  · exact ⟨rfl, fun _ => Nat.le_refl _, rfl⟩

/-- An access of `t` starts no life and forgets no store. -/
theorem resume_counts (cfg : Config T w) (c : Ctl T w) (t : T) (v : Word w) :
    (resume cfg c t v).life = c.life ∧ ∀ t', c.issued t' ≤ (resume cfg c t v).issued t' := by
  unfold resume
  cases hs : (c.pc t).code cfg t with
  | none => exact ⟨rfl, fun _ => Nat.le_refl _⟩
  | some st =>
    obtain ⟨h1, h2⟩ := record_marks cfg c t (c.pc t) (st.next v)
    obtain ⟨i1, i2, -⟩ := count_marks (c.record cfg t (c.pc t) (st.next v)) t st.access
    obtain ⟨j1, j2, -⟩ := goOn_marks ((c.record cfg t (c.pc t) (st.next v)).count t st.access) t (st.next v)
    simp only
    rw [j1, j2, i1, h1]
    refine ⟨rfl, fun t' => ?_⟩
    have := i2 t'
    rw [h2] at this
    exact this

/-- An access of `t` sets a mark when it is a write barrier. -/
theorem resume_barrier (hb : ∀ t, cfg.base t = 0#w) (c : Ctl T w) (t : T) (v : Word w) :
    (resume cfg c t v).barrier = barrierAfter c.issued t c.barrier (c.pc t) := by
  unfold resume
  cases hs : (c.pc t).code cfg t with
  | none =>
    cases hp : c.pc t with
    | idle => rfl
    | _ => rw [hp] at hs; cases hs
  | some st =>
    obtain ⟨-, -, i3⟩ := count_marks (c.record cfg t (c.pc t) (st.next v)) t st.access
    obtain ⟨-, -, j3⟩ := goOn_marks ((c.record cfg t (c.pc t) (st.next v)).count t st.access) t (st.next v)
    simp only
    rw [j3, i3, record_barrier hb]

/-! ## Who has passed the barrier -/

omit [DecidableEq T] in
/-- The access before a tail swap is the write barrier. -/
theorem Pc.after_swapTail {p : Pc w} {q e r : Word w} (h : p.after cfg t v = .enqueue (.swapTail q e r)) :
    p = .enqueue (.writeBarrier q e r) := by
  cases p with
  | enqueue p =>
    cases p with
    | writeBarrier q' e' r' => simpa [Pc.after, Pc.code, Stmt.inPc, queueEnqueue] using h
    | swapTail q' e' r' =>
      simp only [Pc.after, Pc.code, Stmt.inPc, queueEnqueue] at h
      split at h <;> cases h
    | _ => cases h
  | isEmpty p =>
    rcases isEmpty_after p v with h' | ⟨p', h', -⟩
    · rw [h'] at h
      cases h
    · rw [h'] at h
      cases h
  | peekHead p =>
    cases p with
    | testShadow q' =>
      simp only [Pc.after, Pc.code, Stmt.inPc, queuePeekHead] at h
      split at h <;> cases h
    | loadShadow q' => cases h
  | dequeue p =>
    cases p with
    | testNext q' r' e' =>
      simp only [Pc.after, Pc.code, Stmt.inPc, queueDequeue] at h
      split at h <;> cases h
    | casTail q' r' e' =>
      simp only [Pc.after, Pc.code, Stmt.inPc, queueDequeue] at h
      split at h <;> cases h
    | busyWait q' r' e' =>
      simp only [Pc.after, Pc.code, Stmt.inPc, queueDequeue] at h
      split at h <;> cases h
    | _ => cases h
  | client p => cases p <;> cases h
  | idle => cases h

/-- An element whose tail swap is next, or has happened with no dequeue of it returned, is marked with the
thread that enqueues it. -/
structure BarrierOk (c : Ctl T w) : Prop where
  passed : ∀ t q e r, c.pc t = .enqueue (.swapTail q e r) → ∃ n, c.barrier e = some (t, n)
  producer : ∀ q k t e, (c.swapped q)[k]? = some (t, e) → (c.dequeued q).length ≤ k → ∃ n, c.barrier e = some (t, n)
  counted : ∀ e t n, c.barrier e = some (t, n) → n ≤ c.issued t

omit [DecidableEq T] in
theorem BarrierOk.init : BarrierOk (initCtl : Ctl T w) where
  passed t q e r h := by cases h
  producer q k t e h := by cases h
  counted e t n h := by cases h

/-- An element of the history that no dequeue has returned is queued or leaving. -/
theorem History.undequeued (hh : History cfg c g) (h : CtlOk cfg c g) {q e : Word w} {k : Nat}
    (hk : (c.swapped q)[k]? = some (t, e)) (hle : (c.dequeued q).length ≤ k) :
    g.place e = .queued q ∨ ∃ b, g.place e = .leaving q b := by
  have hget : ((c.swapped q).map Prod.snd)[k]? = some e := by rw [List.getElem?_map, hk]; rfl
  rw [hh.order q, List.append_assoc, List.getElem?_append_right (by simpa using hle)] at hget
  rcases List.mem_append.1 (List.mem_of_getElem? hget) with he | he
  · obtain ⟨b, htok⟩ := Pc.token_of_inHand he
    exact .inr ⟨b, ((h.token (cfg.consumer q) (.leaving q e b)).2 htok).2⟩
  · exact .inl (((h.chain q).mem e).1 he)

/-- One access keeps the marks. -/
theorem BarrierOk.step (hb : ∀ t, cfg.base t = 0#w) (h : BarrierOk c) (hc : CtlOk cfg c g) (hh : History cfg c g)
    (v : Word w) : BarrierOk (resume cfg c t v) := by
  obtain ⟨-, hissued⟩ := resume_counts cfg c t v
  have hbar := resume_barrier hb c t v
  have hpc := (resume_fields hb c t v).1
  have hkeep : ∀ {e : Word w} {m : T × Nat}, (∀ q r, c.pc t ≠ .enqueue (.writeBarrier q e r)) → c.barrier e = some m →
      (resume cfg c t v).barrier e = some m := by
    intro e m hne hm
    rw [hbar, barrierAfter_of_ne hne]
    exact hm
  constructor
  · -- an enqueuer past its barrier: either it has just passed it, or its mark stays
    intro t' q e r hp
    rw [hpc] at hp
    by_cases ht : t' = t
    · subst ht
      rw [Function.update_self] at hp
      have hwb := Pc.after_swapTail hp
      refine ⟨c.issued t', ?_⟩
      rw [hbar, hwb]
      exact Function.update_self ..
    · rw [Function.update_of_ne ht] at hp
      obtain ⟨n, hn⟩ := h.passed t' q e r hp
      refine ⟨n, hkeep ?_ hn⟩
      intro q' r' hwb
      have h1 : g.place e = .entering t .nulled := (hc.token t (.entering e .nulled)).2 (by rw [hwb]; rfl)
      have h2 : g.place e = .entering t' .drained := (hc.token t' (.entering e .drained)).2 (by rw [hp]; rfl)
      rw [h1] at h2
      cases h2
  · -- an element appended before, or appended by this very step
    intro q k t' e hk hle
    obtain ⟨-, hsw, -, hdq⟩ := resume_history hb c t v q
    rw [hsw] at hk
    rw [hdq, List.length_append] at hle
    by_cases hlt : k < (c.swapped q).length
    · rw [List.getElem?_append_left hlt] at hk
      obtain ⟨n, hn⟩ := h.producer q k t' e hk (by omega)
      refine ⟨n, hkeep ?_ hn⟩
      intro q' r' hwb
      have h1 : g.place e = .entering t .nulled := (hc.token t (.entering e .nulled)).2 (by rw [hwb]; rfl)
      rcases hh.undequeued hc hk (by omega) with h2 | ⟨b, h2⟩
      · rw [h1] at h2
        cases h2
      · rw [h1] at h2
        cases h2
    · rw [List.getElem?_append_right (by omega)] at hk
      have hmem := List.mem_of_getElem? hk
      unfold Pc.swaps at hmem
      split at hmem
      · rename_i q' e' r hp
        simp only [List.mem_ite_nil_right, List.mem_singleton, Prod.mk.injEq] at hmem
        obtain ⟨-, rfl, rfl⟩ := hmem
        obtain ⟨n, hn⟩ := h.passed t' q' e r hp
        exact ⟨n, hkeep (by rw [hp]; simp) hn⟩
      · cases hmem
  · intro e t' n hn
    rw [hbar] at hn
    rcases barrierAfter_some hn with hn | ⟨-, hm⟩
    · exact (h.counted e t' n hn).trans (hissued t')
    · cases hm
      exact hissued t

/-- What a call does to the lives of the elements and to the marks: an enqueue starts a life with no mark. -/
theorem call_marks (hb : ∀ t, cfg.base t = 0#w) {a : Call T w} (hc : Queue.call cfg c a = some c') :
    c'.issued = c.issued ∧
      ((∃ t q e, a = .enqueue t q e ∧ c.available t e = true ∧ c'.life = Function.update c.life e (c.life e + 1) ∧
        c'.barrier = Function.update c.barrier e none) ∨
      ((∀ t q e, a ≠ .enqueue t q e) ∧ c'.life = c.life ∧ c'.barrier = c.barrier)) := by
  cases a with
  | enqueue t q e =>
    simp only [Queue.call, hb, shmAbsToRel_zero] at hc
    split at hc
    · rename_i hg
      cases hc
      exact ⟨rfl, .inl ⟨t, q, e, rfl, hg.2.2, rfl, rfl⟩⟩
    · cases hc
  | _ =>
    simp only [Queue.call] at hc
    split at hc
    · cases hc
      exact ⟨rfl, .inr ⟨by simp, rfl, rfl⟩⟩
    · cases hc

/-- A call keeps the marks. -/
theorem BarrierOk.call (hb : ∀ t, cfg.base t = 0#w) (h : BarrierOk c) (hc : CtlOk cfg c g) (hh : History cfg c g)
    {a : Call T w} (hcall : Queue.call cfg c a = some c') : BarrierOk c' := by
  obtain ⟨hissued, hmarks⟩ := call_marks hb hcall
  obtain ⟨hsw, -, hdq⟩ := call_history hcall
  -- the mark of an element that is in use is not the one that is removed
  have hkeep : ∀ {e : Word w} {m : T × Nat}, g.place e ≠ .out → c.barrier e = some m → c'.barrier e = some m := by
    intro e m he hm
    rcases hmarks with ⟨t, q, e', -, ha, -, hbar⟩ | ⟨-, -, hbar⟩
    · rw [hbar, Function.update_of_ne]
      · exact hm
      · rintro rfl
        exact he (hc.available_out ha)
    · rw [hbar]
      exact hm
  constructor
  · intro t q e r hp
    have hpc : c.pc t = .enqueue (.swapTail q e r) := by
      by_cases ht : t = a.thread
      · subst ht
        cases a <;> simp only [Queue.call] at hcall <;> split at hcall <;> cases hcall <;>
          simp [Call.thread, Ctl.enter, EnqueuePc.start] at hp
      · rw [← call_pc hcall ht]
        exact hp
    obtain ⟨n, hn⟩ := h.passed t q e r hpc
    have hpl : g.place e = .entering t .drained := (hc.token t (.entering e .drained)).2 (by rw [hpc]; rfl)
    exact ⟨n, hkeep (by rw [hpl]; simp) hn⟩
  · intro q k t e hk hle
    rw [hsw] at hk
    rw [hdq] at hle
    obtain ⟨n, hn⟩ := h.producer q k t e hk hle
    refine ⟨n, hkeep ?_ hn⟩
    rcases hh.undequeued hc hk hle with hpl | ⟨b, hpl⟩
    · rw [hpl]
      simp
    · rw [hpl]
      simp
  · intro e t n hn
    rw [hissued]
    apply h.counted e t n
    rcases hmarks with ⟨t', q, e', -, -, -, hbar⟩ | ⟨-, -, hbar⟩
    · rw [hbar] at hn
      by_cases he : e = e'
      · subst he
        rw [Function.update_self] at hn
        cases hn
      · rw [Function.update_of_ne he] at hn
        exact hn
    · rw [hbar] at hn
      exact hn

/-! ## What a mark means -/

/-- The stores a thread issued before its mark have reached memory. -/
def Drained (s : Buffered T (Cell w) (Word w) Tag (Ctl T w)) : Prop :=
  ∀ e t n, s.ctl.barrier e = some (t, n) → s.Past Tag.seq t n

theorem past_step (cfg : Config T w) {n : Nat} {a : BufferedAct T (Cell w) (Call T w)}
    (hn : n ≤ s.ctl.issued t) (h : s.Past Tag.seq t n) (hs : bufferedStep (queueProgram cfg) s a = some s') :
    n ≤ s'.ctl.issued t ∧ s'.Past Tag.seq t n := by
  cases a with
  | call a =>
    obtain ⟨c, hc, rfl⟩ := Option.map_eq_some_iff.1 hs
    refine ⟨?_, h⟩
    have : c.issued = s.ctl.issued := by
      cases a <;> simp only [queueProgram, Queue.call] at hc <;> split at hc <;> cases hc <;> rfl
    rw [this]
    exact hn
  | commit t' l =>
    obtain ⟨p, rest, -, -, -, -, -, hctl, -⟩ := Buffered.commit_spec hs
    refine ⟨?_, h.commit hs⟩
    rw [hctl]
    exact hn
  | step t' =>
    obtain ⟨x, v, hx, -, hc⟩ := bufferedStep_moves hs
    obtain ⟨-, hpend, -⟩ := bufferedStep_issued hs hx
    constructor
    · rw [hc]
      exact hn.trans ((resume_counts cfg s.ctl t' v).2 t)
    · intro p hp
      rw [hpend] at hp
      by_cases ht : t = t'
      · subst ht
        rw [Function.update_self, List.mem_append] at hp
        rcases hp with hp | hp
        · exact h p hp
        · -- the new store has the number of the stores so far
          obtain ⟨st, -, rfl⟩ := queueProgram_access s.ctl t hx
          cases hst : st.access <;> rw [hst] at hp <;> simp only [Access.retag, Access.issued, List.not_mem_nil,
            List.mem_singleton] at hp
          subst hp
          exact hn
      · rw [Function.update_of_ne ht] at hp
        exact h p hp

/-- Nothing undoes what a mark means. -/
theorem past_run (cfg : Config T w) {n : Nat} {as : List (BufferedAct T (Cell w) (Call T w))}
    (hn : n ≤ s.ctl.issued t) (h : s.Past Tag.seq t n) (hrun : run (bufferedStep (queueProgram cfg)) s as = some s') :
    s'.Past Tag.seq t n :=
  (run_inv (P := fun s => n ≤ s.ctl.issued t ∧ s.Past Tag.seq t n) (fun _ _ _ h hs => past_step cfg h.1 h.2 hs) as
    ⟨hn, h⟩ hrun).2

/-- One step keeps every mark, and a new one is set with nothing pending. -/
theorem Drained.step (hb : ∀ t, cfg.base t = 0#w) (h : Drained s) (hcount : BarrierOk s.ctl)
    {a : BufferedAct T (Cell w) (Call T w)} (hs : bufferedStep (queueProgram cfg) s a = some s') : Drained s' := by
  intro e t n hn
  -- an old mark
  have hold : s.ctl.barrier e = some (t, n) → s'.Past Tag.seq t n := fun hn =>
    (past_step cfg (hcount.counted e t n hn) (h e t n hn) hs).2
  cases a with
  | call a =>
    obtain ⟨c, hc, rfl⟩ := Option.map_eq_some_iff.1 hs
    apply hold
    obtain ⟨-, ⟨t', q, e', -, -, -, hbar⟩ | ⟨-, -, hbar⟩⟩ := call_marks hb hc
    · replace hn : c.barrier e = some (t, n) := hn
      rw [hbar] at hn
      by_cases he : e = e'
      · subst he
        rw [Function.update_self] at hn
        cases hn
      · rw [Function.update_of_ne he] at hn
        exact hn
    · rw [← hbar]
      exact hn
  | commit t' l =>
    obtain ⟨p, rest, -, -, -, -, -, hctl, -⟩ := Buffered.commit_spec hs
    apply hold
    rw [← hctl]
    exact hn
  | step t' =>
    obtain ⟨x, v, hx, -, hc⟩ := bufferedStep_moves hs
    replace hc : s'.ctl = resume cfg s.ctl t' v := hc
    rw [hc, resume_barrier hb] at hn
    rcases barrierAfter_some hn with hn | ⟨⟨q, r, hp⟩, hm⟩
    · exact hold hn
    · cases hm
      obtain ⟨-, hpend, hfence⟩ := bufferedStep_issued hs hx
      obtain ⟨st, hst, rfl⟩ := queueProgram_access s.ctl t hx
      rw [hp] at hst
      cases hst
      intro a ha
      rw [hpend, Function.update_self, hfence rfl] at ha
      cases ha

/-! ## The stores to `next` -/

/-- The stores to every element's `next` reach it in the order of their ranks. -/
def NextOrder (s : Buffered T (Cell w) (Word w) Tag (Ctl T w)) (g : Ghost T w) : Prop :=
  ∀ e, s.Ranked Tag.rank ((g.place e).rankBound (s.ctl.life e)) ⟨.next, e⟩

omit [DecidableEq T] in
/-- An element moves on: more stores may have been issued. -/
theorem rankBound_update {pl : Word w → Place T w} {e e' : Word w} {p : Place T w} {k : Nat}
    (h : (pl e').rankBound k ≤ p.rankBound k) : (pl e).rankBound k ≤ (Function.update pl e' p e).rankBound k := by
  by_cases he : e = e'
  · subst he
    rw [Function.update_self]
    exact h
  · rw [Function.update_of_ne he]

omit [DecidableEq T] in
/-- A thread moves an element from one place to the next, in the order of its life. -/
theorem CtlOk.rankBound_record (h : CtlOk cfg c g) (v : Word w) (e : Word w) (k : Nat) :
    (g.place e).rankBound k ≤ ((g.record t v (c.pc t)).place e).rankBound k := by
  have hok := h.pc t
  have htok := h.token t
  -- an element that its dequeue detaches was queued
  have hdetach : ∀ {q e' f}, (g.front q).elt = some e' →
      (g.place e).rankBound k ≤ ((g.detach q e' f).place e).rankBound k := by
    intro q e' f he'
    apply rankBound_update
    rw [h.front_queued he']
    simp [Place.rankBound]
  cases hct : c.pc t with
  | idle => exact Nat.le_refl _
  | enqueue p =>
    rw [hct] at htok
    cases p with
    | setNextNull q e' r =>
      have hpl : g.place e' = .entering t .raw := (htok (.entering e' .raw)).2 rfl
      apply rankBound_update
      rw [hpl]
      simp [Place.rankBound]
    | writeBarrier q e' r =>
      have hpl : g.place e' = .entering t .nulled := (htok (.entering e' .nulled)).2 rfl
      apply rankBound_update
      rw [hpl]
      simp [Place.rankBound]
    | swapTail q e' r =>
      have hpl : g.place e' = .entering t .drained := (htok (.entering e' .drained)).2 rfl
      apply rankBound_update
      rw [hpl]
      simp [Place.rankBound]
    | storeHead q e' r => exact Nat.le_refl _
    | storeLink q e' r p => exact Nat.le_refl _
  | isEmpty p =>
    cases p with
    | testHead q =>
      simp only [Ghost.record]
      split <;> exact Nat.le_refl _
    | _ => exact Nat.le_refl _
  | peekHead p => exact Nat.le_refl _
  | client p => exact Nat.le_refl _
  | dequeue p =>
    rw [hct] at htok hok
    cases p with
    | testNext q r e' =>
      simp only [Ghost.record]
      split <;> exact Nat.le_refl _
    | busyWait q r e' =>
      simp only [Ghost.record]
      split <;> exact Nat.le_refl _
    | storeShadow q r e' n => exact hdetach (by rw [hok.2.2.1]; rfl)
    | storeLateShadow q r e' n => exact hdetach (by rw [hok.2.1]; rfl)
    | casTail q r e' =>
      simp only [Ghost.record]
      split
      · exact hdetach (by rw [hok.2]; rfl)
      · exact Nat.le_refl _
    | clearNext q e' =>
      have hpl : g.place e' = .leaving q false := ((htok (.leaving q e' false)).2 rfl).2
      apply rankBound_update
      rw [hpl]
      simp [Place.rankBound]
    | readBarrier q e' =>
      have hpl : g.place e' = .leaving q true := ((htok (.leaving q e' true)).2 rfl).2
      apply rankBound_update
      rw [hpl]
      simp [Place.rankBound]
    | _ => exact Nat.le_refl _

/-- A store to `next` has the rank of the element's place: no store to it has a higher one. -/
theorem CtlOk.next_store (hb : ∀ t, cfg.base t = 0#w) (h : CtlOk cfg c g) {e val : Word w} {tag : Tag}
    (hx : (queueProgram cfg).access c t = some (.store ⟨.next, e⟩ val tag)) (v : Word w) :
    (g.place e).rankBound (c.life e) ≤ tag.rank + 1 ∧
      tag.rank < ((g.record t v (c.pc t)).place e).rankBound (c.life e) := by
  have hok := h.pc t
  have htok := h.token t
  cases NextWrite.of_access hx rfl with
  | setNextNull hp =>
    rw [hb, BitVec.zero_add] at hp
    rw [hp] at htok ⊢
    have hpl : g.place e = .entering t .raw := (htok (.entering e .raw)).2 rfl
    simp [hpl, Ghost.record, Ghost.setPlace, Place.rankBound, Tag.rank]
  | @storeLink q y r hp =>
    rw [hb, BitVec.zero_add] at hp
    rw [hp] at hok ⊢
    have hpl : g.place e = .queued q := hok.2
    simp [hpl, Ghost.record, Ghost.setLink, Place.rankBound, Tag.rank]
  | @clearNext q hp =>
    rw [hb, BitVec.zero_add] at hp
    rw [hp] at htok ⊢
    have hpl : g.place e = .leaving q false := ((htok (.leaving q e false)).2 rfl).2
    simp [hpl, Ghost.record, Ghost.setPlace, Place.rankBound, Tag.rank]
  | reuse hp =>
    rw [hb, BitVec.zero_add] at hp
    rw [hp] at hok ⊢
    have hpl : g.place e = .out := by
      apply (h.owner e).2
      rw [hok]
      simp
    simp [hpl, Ghost.record, Place.rankBound, Tag.rank]

/-- At most one thread has stores to an element's `next` pending. -/
theorem NextOk.one_writer {sl : Slot T (Word w)} {e : Word w} {t' : T} (h : CtlOk cfg c g)
    (hn : NextOk cfg sl (c.owner e) (g.link e) (g.place e)) (ht : sl.pend t ≠ []) (hne : t' ≠ t) :
    sl.pend t' = [] := by
  have hclean : ¬sl.Clean := fun hcl => ht (hcl t)
  -- if only `u` can have stores pending, then `u` is `t`
  have honly : ∀ {u}, sl.Only u → sl.pend t' = [] := by
    intro u hu
    by_cases h' : t = u
    · exact hu t' (by rw [← h']; exact hne)
    · exact absurd (hu t h') ht
  cases hp : g.place e with
  | out =>
    rw [hp] at hn
    cases ho : c.owner e with
    | free =>
      rw [ho] at hn
      exact absurd hn hclean
    | held u =>
      rw [ho] at hn
      exact honly hn
    | busy => exact absurd ho ((h.owner e).1 hp)
  | entering u st =>
    rw [hp] at hn
    cases st with
    | raw => exact honly hn
    | nulled => exact honly hn.1
    | drained => exact absurd hn.1 hclean
  | queued q =>
    rw [hp] at hn
    cases hl : g.link e with
    | none =>
      rw [hl] at hn
      exact absurd hn.1 hclean
    | swapped y u =>
      rw [hl] at hn
      exact absurd hn.1 hclean
    | stored y u =>
      rw [hl] at hn
      rcases hn with hn | hn
      · exact honly hn.2.1
      · exact honly hn.1
    | seen y =>
      rw [hl] at hn
      exact honly hn.1
  | leaving q b =>
    rw [hp] at hn
    cases b with
    | false => exact honly hn
    | true => exact honly hn.1

theorem NextOrder.call (hb : ∀ t, cfg.base t = 0#w) (h : NextOrder s g) (hc : CtlOk cfg s.ctl g) {a : Call T w}
    (hs : bufferedStep (queueProgram cfg) s (.call a) = some s') : NextOrder s' (g.enter a) := by
  obtain ⟨c, hcall, rfl⟩ := Option.map_eq_some_iff.1 hs
  obtain ⟨-, ⟨t, q, e, rfl, ha, hlife, -⟩ | ⟨hne, hlife, -⟩⟩ := call_marks hb hcall
  · intro e'
    show Buffered.Ranked Tag.rank ((Function.update g.place e (.entering t .raw) e').rankBound (c.life e')) _ _
    rw [hlife]
    refine Buffered.Ranked.congr (s := s) ((h e').mono ?_) rfl (fun _ => rfl)
    by_cases he : e' = e
    · -- the last rank of the life before is below the first of the new one
      subst he
      rw [Function.update_self, Function.update_self, hc.available_out ha]
      simp only [Place.rankBound]
      omega
    · rw [Function.update_of_ne he, Function.update_of_ne he]
  · intro e'
    have hg : g.enter a = g := by
      cases a with
      | enqueue t q e => exact absurd rfl (hne t q e)
      | _ => rfl
    show Buffered.Ranked Tag.rank (((g.enter a).place e').rankBound (c.life e')) _ _
    rw [hg, hlife]
    exact (h e').congr rfl fun _ => rfl

theorem NextOrder.access (hb : ∀ t, cfg.base t = 0#w) (h : NextOrder s g) (hc : CtlOk cfg s.ctl g)
    {x : Access (Cell w) (Word w) Tag} (hx : (queueProgram cfg).access s.ctl t = some x)
    (hctl : s'.ctl = resume cfg s.ctl t v) (hs : bufferedStep (queueProgram cfg) s (.step t) = some s') :
    NextOrder s' (g.record t v (s.ctl.pc t)) := by
  obtain ⟨hlog, hpend, -⟩ := bufferedStep_issued hs hx
  have hother : ∀ l t', t' ≠ t → s'.on t' l = s.on t' l := by
    intro l t' ht
    apply Buffered.on_of_pend
    rw [hpend, Function.update_of_ne ht]
  intro e
  have hlife : s'.ctl.life = s.ctl.life := by
    rw [hctl]
    exact (resume_counts cfg s.ctl t v).1
  rw [hlife]
  have hmono := hc.rankBound_record (t := t) v e (s.ctl.life e)
  by_cases hstore : ∃ val tag, x = .store ⟨.next, e⟩ val tag
  · obtain ⟨val, tag, rfl⟩ := hstore
    obtain ⟨hle, hlt⟩ := hc.next_store hb hx v
    refine (h e).issue (p := ⟨⟨.next, e⟩, val, tag⟩) hlog ?_ (hother _) hle hlt hmono
    simp [Buffered.on, hpend, Access.issued]
  · -- what it issues, if anything, goes to another cell
    refine ((h e).mono hmono).congr hlog fun t' => ?_
    by_cases ht : t' = t
    · subst ht
      have hnone : x.issued.filter (fun p => decide (p.loc = (⟨.next, e⟩ : Cell w))) = [] := by
        rw [List.filter_eq_nil_iff]
        intro p hp
        cases x with
        | store l val tag =>
          simp only [Access.issued, List.mem_singleton] at hp
          subst hp
          simp only [decide_eq_true_eq]
          rintro rfl
          exact hstore ⟨val, tag, rfl⟩
        | _ => cases hp
      simp [Buffered.on, hpend, hnone]
    · exact hother _ t' ht

theorem NextOrder.commit {l : Cell w} (h : NextOrder s g) (hok : BufferedOk false cfg s g)
    (hs : bufferedStep (queueProgram cfg) s (.commit t l) = some s') : NextOrder s' g := by
  obtain ⟨p, rest, -, hon, -, -, -, hctl, -⟩ := Buffered.commit_spec hs
  intro e
  rw [hctl]
  refine (h e).commit hs ?_
  rintro rfl t' ht
  have hne : (s.slots ⟨.next, e⟩).pend t ≠ [] := by
    rw [Ne, Buffered.slots_pend_nil, hon]
    simp
  rw [← Buffered.slots_pend_nil]
  exact NextOk.one_writer hok.inv.ctl (hok.inv.mem.next e) hne ht

/-! ## Whole runs -/

/-- The protocol with what it says about publication. -/
structure PublishOk (cfg : Config T w) (s : Buffered T (Cell w) (Word w) Tag (Ctl T w)) (g : Ghost T w) : Prop where
  ok : BufferedOk false cfg s g
  marks : BarrierOk s.ctl
  drained : Drained s
  order : NextOrder s g

theorem PublishOk.init {junk : Cell w → Word w} : PublishOk cfg (initBuffered junk) initGhost where
  ok := BufferedOk.init false
  marks := BarrierOk.init
  drained e t n h := by cases h
  order e := by
    constructor
    · intro t
      exact List.Pairwise.nil
    · intro t p hp
      cases hp

theorem PublishOk.step (hb : ∀ t, cfg.base t = 0#w) (h : PublishOk cfg s g) {a : BufferedAct T (Cell w) (Call T w)}
    (hs : bufferedStep (queueProgram cfg) s a = some s') : ∃ g', PublishOk cfg s' g' := by
  have hctl := h.ok.inv.ctl
  cases a with
  | call a =>
    refine ⟨g.enter a, h.ok.call hb hs, ?_, h.drained.step hb h.marks hs, h.order.call hb hctl hs⟩
    obtain ⟨c, hc, rfl⟩ := Option.map_eq_some_iff.1 hs
    exact h.marks.call hb hctl h.ok.hist hc
  | step t =>
    obtain ⟨x, v, hx, hc, -, hok⟩ := h.ok.access hb (by simp) hs
    refine ⟨_, hok, ?_, h.drained.step hb h.marks hs, h.order.access hb hctl hx hc hs⟩
    rw [hc]
    exact h.marks.step hb hctl h.ok.hist v
  | commit t l =>
    refine ⟨g, h.ok.commit (by simp) hs, ?_, h.drained.step hb h.marks hs, h.order.commit h.ok hs⟩
    obtain ⟨p, rest, -, -, -, -, -, hc, -⟩ := Buffered.commit_spec hs
    rw [hc]
    exact h.marks

theorem PublishOk.run (hb : ∀ t, cfg.base t = 0#w) {junk : Cell w → Word w}
    {as : List (BufferedAct T (Cell w) (Call T w))}
    (h : Machine.run (bufferedStep (queueProgram cfg)) (initBuffered junk) as = some s) : ∃ g, PublishOk cfg s g :=
  run_inv (P := fun s => ∃ g, PublishOk cfg s g) (fun _ _ _ ⟨_, hg⟩ hs => hg.step hb hs) as ⟨_, PublishOk.init⟩ h

/-- The `k`-th element to be swapped into `q` has the offset `o`, and every store that its producer issued
before the write barrier of that enqueue has reached memory for good. -/
def Published (cfg : Config T w) (s : Buffered T (Cell w) (Word w) Tag (Ctl T w)) (q : Word w) (k : Nat) (o : Word w) :
    Prop :=
  ∃ t n, (s.ctl.swapped q)[k]? = some (t, cfg.base t + o) ∧ s.ctl.barrier o = some (t, n) ∧ n ≤ s.ctl.issued t ∧
    ∀ bs s', run (bufferedStep (queueProgram cfg)) s bs = some s' → s'.Past Tag.seq t n

/-- The elements that no dequeue has returned are published. -/
theorem PublishOk.published (hb : ∀ t, cfg.base t = 0#w) (h : PublishOk cfg s g) {q e : Word w} {k : Nat}
    (hk : ((s.ctl.swapped q).map Prod.snd)[k]? = some e) (hle : (s.ctl.dequeued q).length ≤ k) :
    Published cfg s q k e := by
  rw [List.getElem?_map, Option.map_eq_some_iff] at hk
  obtain ⟨⟨t, e'⟩, hk, rfl⟩ := hk
  obtain ⟨n, hn⟩ := h.marks.producer q k t e' hk hle
  have hcount := h.marks.counted e' t n hn
  refine ⟨t, n, ?_, hn, hcount, fun bs s' hrun => past_run cfg hcount (h.drained e' t n hn) hrun⟩
  rw [hb, hk, BitVec.zero_add]

/-- What the consumer stores in `shadow_head`, other than null, is a queued element. -/
theorem CtlOk.shadow_store (hb : ∀ t, cfg.base t = 0#w) (h : CtlOk cfg c g) {q e : Word w} {tag : Tag}
    (hx : (queueProgram cfg).access c t = some (.store ⟨.shadowHead, q⟩ e tag)) (he : e ≠ 0#w) : e ∈ g.chain q := by
  have hok := h.pc t
  have hsecond : ∀ {q e' n}, (g.front q).elt = some e' → g.link e' = .seen n → n ∈ g.chain q := by
    intro q e' n hf hl
    obtain ⟨l, hchain⟩ := h.ghost.chain_second hf (by rw [hl]; rfl)
    rw [hchain]
    simp
  cases ShadowWrite.of_access hx rfl with
  | copy hp =>
    rw [hp, hb, BitVec.zero_add] at hok
    have hf : g.front q = .seen e := hok
    exact ((h.chain q).mem e).2 (h.front_queued (by rw [hf]; rfl))
  | advance hp =>
    rw [hp, hb, BitVec.zero_add] at hok
    obtain ⟨-, -, hf, hl⟩ := hok
    exact hsecond (by rw [hf]; rfl) hl
  | reset hp => exact absurd rfl he
  | advanceLate hp =>
    rw [hp, hb, BitVec.zero_add] at hok
    obtain ⟨-, hf, hl⟩ := hok
    exact hsecond (by rw [hf]; rfl) hl

/-- The queued elements come after those that dequeues have returned. -/
theorem History.queued_index (hh : History cfg c g) {q e : Word w} (he : e ∈ g.chain q) :
    ∃ k, (c.dequeued q).length ≤ k ∧ ((c.swapped q).map Prod.snd)[k]? = some e := by
  obtain ⟨i, hi⟩ := List.mem_iff_getElem?.1 he
  refine ⟨(c.dequeued q).length + ((c.pc (cfg.consumer q)).inHand q).length + i, by omega, ?_⟩
  rw [hh.order q, List.getElem?_append_right]
  · rw [← hi]
    congr 1
    simp
  · simp

/-- The element a dequeue is about to return is the first that none has returned. -/
theorem History.returning (hh : History cfg c g) (h : CtlOk cfg c g) {q e : Word w}
    (hp : c.pc t = .dequeue (.readBarrier q e)) : ((c.swapped q).map Prod.snd)[(c.dequeued q).length]? = some e := by
  obtain ⟨ht, -⟩ : t = cfg.consumer q ∧ g.place e = .leaving q true :=
    (h.token t (.leaving q e true)).2 (by rw [hp]; rfl)
  rw [hh.order q, ← ht, hp]
  simp [Pc.inHand]

/-! ## At arbitrary bases -/

theorem Published.shift {q o : Word w} {k : Nat} (h : Published cfg.atZero s q k o) :
    Published cfg (s.mapCtl (Ctl.shift cfg)) q k o := by
  obtain ⟨t, n, hk, hbar, hcount, hpast⟩ := h
  refine ⟨t, n, ?_, hbar, hcount, fun bs s' hrun => ?_⟩
  · show ((s.ctl.swapped q).map (shiftPair cfg))[k]? = _
    rw [List.getElem?_map, hk]
    simp [shiftPair, Config.atZero]
  · exact past_run (s := s.mapCtl (Ctl.shift cfg)) cfg hcount (hpast [] s rfl) hrun

/-- Publication order. Whenever the consumer is to set `shadow_head` to an element, and whenever a dequeue
returns one, the stores its producer issued before the write barrier of that enqueue have all reached memory
(the ones to the application's data and line 225 are among them). And after the link of line 236 no store of
null to the same `next` reaches memory, neither line 225 of that life or an earlier one, nor line 281 of an
earlier one. -/
theorem queue_publication (cfg : Config T w) (junk : Cell w → Word w) (as : List (BufferedAct T (Cell w) (Call T w)))
    (s : Buffered T (Cell w) (Word w) Tag (Ctl T w))
    (h : run (bufferedStep (queueProgram cfg)) (initBuffered junk) as = some s) :
    (∀ t q o tag, (queueProgram cfg).access s.ctl t = some (.store ⟨.shadowHead, q⟩ o tag) → o ≠ 0#w →
      ∃ k, (s.ctl.dequeued q).length ≤ k ∧ Published cfg s q k o) ∧
    (∀ t q e s', bufferedStep (queueProgram cfg) s (.step t) = some s' →
      s'.ctl.dequeued q = s.ctl.dequeued q ++ [(t, e)] →
      Published cfg s q (s.ctl.dequeued q).length (shmAbsToRel (cfg.base t) e)) ∧
    ∀ o, (s.logOn ⟨.next, o⟩).Pairwise fun a b => a.tag.line = 236 →
      (b.tag.line = 225 → a.tag.life < b.tag.life) ∧ (b.tag.line = 281 → a.tag.life ≤ b.tag.life) := by
  obtain ⟨s, hs, rfl⟩ := buffered_reached h
  have hb : ∀ t, cfg.atZero.base t = 0#w := fun t => rfl
  obtain ⟨g, hg⟩ := PublishOk.run hb hs
  have hctl := hg.ok.inv.ctl
  have hlen : ∀ q, ((s.mapCtl (Ctl.shift cfg)).ctl.dequeued q).length = (s.ctl.dequeued q).length :=
    fun q => List.length_map _
  refine ⟨fun t q o tag hx ho => ?_, fun t q e s' hstep hd => ?_, fun o => ?_⟩
  · have hx0 : (queueProgram cfg.atZero).access s.ctl t = some (.store ⟨.shadowHead, q⟩ o tag) := by
      rw [← (queue_renames cfg).access]
      exact hx
    obtain ⟨k, hk, hget⟩ := hg.ok.hist.queued_index (hctl.shadow_store hb hx0 ho)
    rw [hlen]
    exact ⟨k, hk, (hg.published hb hget hk).shift⟩
  · have hren := (queue_renames cfg).bufferedStep s (.step t)
    rw [show BufferedAct.map (Call.shift cfg) (.step t) = .step t from rfl, hstep] at hren
    obtain ⟨u, hu, rfl⟩ := Option.map_eq_some_iff.1 hren.symm
    obtain ⟨x, v, -, -, hc⟩ := bufferedStep_moves hu
    have hdq := (resume_history hb s.ctl t v q).2.2.2
    replace hc : u.ctl = resume cfg.atZero s.ctl t v := hc
    rw [← hc] at hdq
    -- what the step adds to the history, at base 0
    replace hd : (u.ctl.dequeued q).map (shiftPair cfg) = (s.ctl.dequeued q).map (shiftPair cfg) ++ [(t, e)] := hd
    rw [hdq, List.map_append, List.append_cancel_left_eq] at hd
    unfold Pc.dequeues at hd
    split at hd
    · rename_i q' e' hp
      split at hd
      · rename_i hq
        subst hq
        simp only [List.map_cons, List.map_nil, shiftPair, List.cons.injEq, Prod.mk.injEq, and_true, true_and] at hd
        subst hd
        rw [hlen, shmAbsToRel_add]
        exact (hg.published hb (hg.ok.hist.returning hctl hp) (Nat.le_refl _)).shift
      · cases hd
    · cases hd
  · have hsorted := (hg.order o).sorted (cfg.consumer o)
    unfold Buffered.writes at hsorted
    apply (List.pairwise_append.1 hsorted).1.imp
    intro a b hab ha
    simp only [Tag.rank, ha] at hab
    constructor
    · intro hb'
      simp [hb'] at hab
      omega
    · intro hb'
      simp [hb'] at hab
      omega

/-- `demoConfig` on a machine where only the write barrier waits for pending stores. -/
def weakConfig : Config Bool 8 := { demoConfig with readBarrierDrains := false }

/-- The producer writes its data in the element at offset 16 and enqueues it; the stores reach memory in
the other order. The consumer dequeues the element, up to the read barrier. -/
def publishActs : List (BufferedAct Bool (Cell 8) (Call Bool 8)) :=
  [.call (.write true 216#8 0 42#8), .step true, .call (.enqueue true 201#8 216#8), .step true,
    .commit true ⟨.next, 16#8⟩, .commit true ⟨.payload 0, 16#8⟩, .step true, .step true, .step true,
    .commit true ⟨.head, 1#8⟩,
    .call (.isEmpty false 101#8), .step false, .step false, .step false, .step false, .step false,
    .call (.dequeue false 101#8), .step false, .step false, .step false, .step false, .step false]

theorem queue_publication_demo : ∃ s, run (bufferedStep (queueProgram weakConfig)) (initBuffered fun _ => 7#8)
      publishActs = some s ∧ s.ctl.barrier 16#8 = some (true, 2) ∧ Published weakConfig s 1#8 0 16#8 := by
  have h : (run (bufferedStep (queueProgram weakConfig)) (initBuffered fun _ => 7#8) publishActs).map
      (fun s => (s.ctl.barrier 16#8, s.ctl.dequeued 1#8)) = some (some (true, 2), []) := by decide
  have h' : (run (bufferedStep (queueProgram weakConfig)) (initBuffered fun _ => 7#8)
      (publishActs ++ [.step false])).map (fun s => s.ctl.dequeued 1#8) = some [(false, 116#8)] := by decide
  obtain ⟨s', hs', hd'⟩ := Option.map_eq_some_iff.1 h'
  obtain ⟨s, hs, hstep⟩ := run_append_some.1 hs'
  obtain ⟨u, hu, hnil⟩ := run_cons_some.1 hstep
  cases hnil
  rw [hs] at h
  simp only [Option.map_some, Option.some.injEq, Prod.mk.injEq] at h
  have hpub := (queue_publication weakConfig _ publishActs s hs).2.1 false 1#8 116#8 s' hu (by rw [hd', h.2]; rfl)
  rw [h.2] at hpub
  exact ⟨s, hs, h.1, hpub⟩

end OpenPA.Queue
