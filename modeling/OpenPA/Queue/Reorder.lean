/-
Store reordering and lost elements. Between line 175, which resets `head`, and the compare-and-swap that
frees `tail` there is no barrier, so the reset may reach memory after a new producer has stored `head`,
and the new element is lost (`reset_overwrites_head`). Nothing else goes wrong: as long as every reset
reaches memory in time, `OPA_Queue_is_empty` is right in every quiescent state (`queue_no_loss`).
-/
import OpenPA.Queue.Visible

namespace OpenPA.Queue

open OpenPA.Machine

variable {w : Nat} {T : Type} [DecidableEq T] {cfg : Config T w}

/-! ## The consumer's test by itself -/

/-- A step of `t` alone: its next access, or a pending store that reaches memory. -/
def BufferedAct.By (t : T) : BufferedAct T (Cell w) (Call T w) → Prop
  | .step t' => t' = t
  | .commit _ _ => True
  | .call _ => False

/-- Where `OPA_Queue_is_empty` of `t` on `q` has come to by itself, when the queue holds `l` in the memory
`m` and nothing was pending at the call. -/
inductive Testing (cfg : Config T w) (t : T) (q : Word w) (l : List (Word w)) (m : Cell w → Word w)
    (s : Buffered T (Cell w) (Word w) Tag (Ctl T w)) : Prop
  | testShadow : s.slots = flat m → s.ctl.pc t = .isEmpty (.testShadow (cfg.base t + q)) → Testing cfg t q l m s
  | testHead : s.slots = flat m → m ⟨.shadowHead, q⟩ = 0#w →
      s.ctl.pc t = .isEmpty (.testHead (cfg.base t + q)) → Testing cfg t q l m s
  | copying : l ≠ [] → (s.ctl.pc t = .isEmpty (.loadHead (cfg.base t + q)) ∨
      (∃ h, s.ctl.pc t = .isEmpty (.storeShadow (cfg.base t + q) h)) ∨
      s.ctl.pc t = .isEmpty (.resetHead (cfg.base t + q))) → Testing cfg t q l m s
  | returned : s.ctl.pc t = .idle → s.ctl.result t = some (.isEmpty (decide (l = []))) → Testing cfg t q l m s

variable {s s' : Buffered T (Cell w) (Word w) Tag (Ctl T w)} {t : T} {q : Word w} {l : List (Word w)}
  {m : Cell w → Word w}

/-- One access of the test. -/
theorem Testing.step (hL : Laid m q l) (h : Testing cfg t q l m s)
    (hs : bufferedStep (queueProgram cfg) s (.step t) = some s') : Testing cfg t q l m s' := by
  obtain ⟨x, v, hx, hm, hc⟩ := bufferedStep_moves hs
  obtain ⟨st, hst, rfl⟩ := queueProgram_access s.ctl t hx
  obtain ⟨hpc, hres⟩ := resume_at rfl hst v
  replace hc : s'.ctl = resume cfg s.ctl t v := hc
  rw [← hc] at hpc hres
  cases h with
  | testShadow hflat hp =>
    rw [hp] at hst
    cases hst
    simp only [Stmt.inPc, queueIsEmpty, cellAt_add, Access.retag] at hm hpc hres
    rw [hflat] at hm
    obtain ⟨hsl, hvm⟩ := hm.load_flat
    by_cases hv : v = 0#w
    · rw [if_pos hv] at hpc
      exact .testHead hsl (hvm.symm.trans hv) hpc
    · rw [if_neg hv] at hpc hres
      -- a shadow that is not null belongs to an element
      have hne : l ≠ [] := by
        rintro rfl
        rcases hL.front with ⟨h, -⟩ | ⟨h, -⟩
        · exact hv (hvm.trans h)
        · exact hv (hvm.trans h)
      apply Testing.returned hpc
      simpa [hne] using hres
  | testHead hflat hsh hp =>
    rw [hp] at hst
    cases hst
    simp only [Stmt.inPc, queueIsEmpty, cellAt_add, Access.retag] at hm hpc hres
    rw [hflat] at hm
    obtain ⟨-, hvm⟩ := hm.load_flat
    -- with no shadow, `head` holds the first element, if there is one
    have hhead : v = l.headD 0#w := by
      rw [hvm]
      rcases hL.front with ⟨-, h⟩ | ⟨h, h'⟩
      · exact h
      · exact h'.trans (hsh.symm.trans h)
    cases l with
    | nil =>
      rw [if_pos (show v = 0#w from hhead)] at hpc hres
      exact .returned hpc hres
    | cons y l =>
      have hy : v ≠ 0#w := by
        rw [hhead]
        exact hL.nz y (List.mem_cons_self ..)
      rw [if_neg hy] at hpc
      exact .copying (by simp) (.inl hpc)
  | copying hne hp =>
    rcases hp with hp | ⟨h, hp⟩ | hp
    · rw [hp] at hst
      cases hst
      exact .copying hne (.inr (.inl ⟨v, hpc⟩))
    · rw [hp] at hst
      cases hst
      exact .copying hne (.inr (.inr hpc))
    · rw [hp] at hst
      cases hst
      exact .returned hpc (by simpa [Stmt.inPc, queueIsEmpty, hne] using hres)
  | returned hp =>
    rw [hp] at hst
    cases hst

/-- A store that reaches memory: there is none before the queue is known to have elements. -/
theorem Testing.commit {t' : T} {c : Cell w} (h : Testing cfg t q l m s)
    (hs : bufferedStep (queueProgram cfg) s (.commit t' c) = some s') : Testing cfg t q l m s' := by
  obtain ⟨v, rest, hp, -, hc⟩ := Buffered.commit_slots hs
  have hnone : s.slots ≠ flat m := by
    intro hflat
    rw [hflat] at hp
    cases hp
  cases h with
  | testShadow hflat => exact absurd hflat hnone
  | testHead hflat => exact absurd hflat hnone
  | copying hne hp => rw [← hc] at hp; exact .copying hne hp
  | returned hp hr => rw [← hc] at hp hr; exact .returned hp hr

/-- The test by itself, however its stores reach memory. -/
theorem Testing.run (hL : Laid m q l) {bs : List (BufferedAct T (Cell w) (Call T w))}
    (hbs : ∀ a ∈ bs, BufferedAct.By t a) (h : Testing cfg t q l m s)
    (hrun : Machine.run (bufferedStep (queueProgram cfg)) s bs = some s') : Testing cfg t q l m s' := by
  refine run_inv_along (G := fun _ a => BufferedAct.By t a) ?_ bs h (Along.of_forall bs s hbs) hrun
  intro s a s' h ha hs
  cases a with
  | call a => cases ha
  | step t' => cases ha; exact h.step hL hs
  | commit t' c => exact h.commit hs

/-- The number of accesses the test has before it. -/
def IsEmptyPc.left : IsEmptyPc w → Nat
  | .testShadow _ => 5
  | .testHead _ => 4
  | .loadHead _ => 3
  | .storeShadow _ _ => 2
  | .resetHead _ => 1

/-- The test by itself returns. -/
theorem isEmpty_returns (cfg : Config T w) (t : T) : ∀ (n : Nat) {s : Buffered T (Cell w) (Word w) Tag (Ctl T w)},
    (s.ctl.pc t = .idle ∨ ∃ p, s.ctl.pc t = .isEmpty p ∧ p.left ≤ n) →
    ∃ k s', Machine.run (bufferedStep (queueProgram cfg)) s (List.replicate k (.step t)) = some s' ∧
      s'.ctl.pc t = .idle
  | 0, s, h => by
    rcases h with h | ⟨p, -, hp⟩
    · exact ⟨0, s, rfl, h⟩
    · cases p <;> simp [IsEmptyPc.left] at hp
  | n + 1, s, h => by
    rcases h with h | ⟨p, hpc, hp⟩
    · exact ⟨0, s, rfl, h⟩
    obtain ⟨s1, h1, v, hv⟩ : ∃ s1, bufferedStep (queueProgram cfg) s (.step t) = some s1 ∧
        ∃ v, s1.ctl = resume cfg s.ctl t v := by
      cases p <;> exact ⟨_, by simp only [bufferedStep, queueProgram, hpc]; rfl, _, rfl⟩
    have hpc1 : (resume cfg s.ctl t v).pc t = _ := (resume_at hpc rfl v).1
    obtain ⟨k, s', hk, hidle⟩ := isEmpty_returns cfg t n (s := s1) (by
      rw [hv, hpc1]
      cases p <;> simp only [Stmt.inPc, queueIsEmpty] <;> try split
      all_goals simp_all [IsEmptyPc.left])
    exact ⟨k + 1, s', by rw [List.replicate_succ, run_cons_some]; exact ⟨s1, h1, hk⟩, hidle⟩

/-! ## Runs whose resets are in time -/

omit [DecidableEq T] in
theorem resetInTime_shift {s : Buffered T (Cell w) (Word w) Tag (Ctl T w)} {a : BufferedAct T (Cell w) (Call T w)}
    (h : ResetInTime cfg (s.mapCtl (Ctl.shift cfg)) (a.map (Call.shift cfg))) : ResetInTime cfg.atZero s a := by
  cases a with
  | commit t l => exact h
  | _ => trivial

theorem inTime_atZero {junk : Cell w → Word w} {as : List (BufferedAct T (Cell w) (Call T w))}
    (h : Along (bufferedStep (queueProgram cfg)) (ResetInTime cfg) (initBuffered junk) as) :
    Along (bufferedStep (queueProgram cfg.atZero)) (ResetInTime cfg.atZero) (initBuffered junk)
      (as.map (BufferedAct.map (Call.unshift cfg))) := by
  apply Along.of_map (·.mapCtl (Ctl.shift cfg)) (BufferedAct.map (Call.shift cfg)) (queue_renames cfg).bufferedStep
    (fun _ _ => resetInTime_shift)
  rw [buffered_acts_shift]
  exact h

/-- No element is lost while every reset of `head` reaches memory in time: in a quiescent state with
nothing pending, `OPA_Queue_is_empty` by itself returns, and it returns 1 exactly when as many dequeues as
enqueues have been completed. -/
theorem queue_no_loss (cfg : Config T w) (hdrains : cfg.readBarrierDrains = true) (junk : Cell w → Word w)
    (as : List (BufferedAct T (Cell w) (Call T w))) (s : Buffered T (Cell w) (Word w) Tag (Ctl T w))
    (hreset : Along (bufferedStep (queueProgram cfg)) (ResetInTime cfg) (initBuffered junk) as)
    (h : run (bufferedStep (queueProgram cfg)) (initBuffered junk) as = some s) (q : Word w)
    (hq : Quiet cfg s.ctl q) (hpend : ∀ t, s.pend t = []) :
    ∃ s₁, bufferedStep (queueProgram cfg) s
        (.call (.isEmpty (cfg.consumer q) (cfg.base (cfg.consumer q) + q))) = some s₁ ∧
      (∀ bs s', (∀ a ∈ bs, BufferedAct.By (cfg.consumer q) a) →
        run (bufferedStep (queueProgram cfg)) s₁ bs = some s' → s'.ctl.pc (cfg.consumer q) = .idle →
        s'.ctl.result (cfg.consumer q) =
          some (.isEmpty (decide ((s.ctl.dequeued q).length = (s.ctl.enqueued q).length)))) ∧
      ∃ k s', run (bufferedStep (queueProgram cfg)) s₁ (List.replicate k (.step (cfg.consumer q))) = some s' ∧
        s'.ctl.pc (cfg.consumer q) = .idle := by
  obtain ⟨s, hs, rfl⟩ := buffered_reached h
  have hb : ∀ t, cfg.atZero.base t = 0#w := fun t => rfl
  obtain ⟨g, hg⟩ := BufferedOk.run_strict hb hdrains (inTime_atZero hreset) hs
  -- with nothing pending, every thread sees memory
  have hflat : s.slots = flat s.mem := by
    funext l
    have hon : ∀ t, s.on t l = [] := fun t => Buffered.on_nil (hpend t) l
    simp [Buffered.slots, hon, flat]
  have hL : Laid s.mem q (g.chain q) := by
    apply Inv.laid hb _ hq.unshift
    rw [← hflat]
    exact hg.inv
  have hlen := hg.hist.quiet_length hb hq.unshift
  have hd : ((s.mapCtl (Ctl.shift cfg)).ctl.dequeued q).length = (s.ctl.dequeued q).length := List.length_map _
  have he : ((s.mapCtl (Ctl.shift cfg)).ctl.enqueued q).length = (s.ctl.enqueued q).length := List.length_map _
  rw [hd, he]
  obtain ⟨s₁, hs₁, hslots, hpc⟩ : ∃ s₁, bufferedStep (queueProgram cfg) (s.mapCtl (Ctl.shift cfg))
        (.call (.isEmpty (cfg.consumer q) (cfg.base (cfg.consumer q) + q))) = some s₁ ∧ s₁.slots = s.slots ∧
      s₁.ctl.pc (cfg.consumer q) = .isEmpty (.testShadow (cfg.base (cfg.consumer q) + q)) := by
    have hidle : (s.ctl.shift cfg).pc (cfg.consumer q) = .idle := hq.consumer
    refine ⟨{ s.mapCtl (Ctl.shift cfg) with
      ctl := (s.ctl.shift cfg).enter (cfg.consumer q) (.isEmpty (.testShadow (cfg.base (cfg.consumer q) + q))) },
      ?_, rfl, ?_⟩
    · simp [bufferedStep, queueProgram, call, Buffered.mapCtl, hidle]
    · simp [Ctl.enter]
  refine ⟨s₁, hs₁, ?_, isEmpty_returns cfg (cfg.consumer q) 5 (.inr ⟨_, hpc, Nat.le_refl 5⟩)⟩
  intro bs s' hbs hrun hidle
  have htest := Testing.run hL hbs (.testShadow (hslots.trans hflat) hpc) hrun
  -- empty means that all that was enqueued has been dequeued
  have hempty : decide (g.chain q = []) = decide ((s.ctl.dequeued q).length = (s.ctl.enqueued q).length) := by
    rw [decide_eq_decide, hlen, ← List.length_eq_zero_iff]
    omega
  rw [← hempty]
  cases htest with
  | returned _ hr => exact hr
  | testShadow _ hp => rw [hidle] at hp; cases hp
  | testHead _ _ hp => rw [hidle] at hp; cases hp
  | copying _ hp => rw [hidle] at hp; rcases hp with hp | ⟨_, hp⟩ | hp <;> cases hp

/-! ## A reset that is late -/

/-- The producer enqueues the element at offset 16 and the consumer dequeues it up to line 281: it has
freed `tail`, while its reset of `head` is pending. -/
def pendingReset : List (BufferedAct Bool (Cell 8) (Call Bool 8)) :=
  [.call (.enqueue true 201#8 216#8), .step true, .commit true ⟨.next, 16#8⟩, .step true, .step true,
    .step true, .commit true ⟨.head, 1#8⟩,
    .call (.isEmpty false 101#8), .step false, .step false, .step false, .step false, .step false,
    .call (.dequeue false 101#8), .step false, .step false, .step false, .step false]

/-- The producer enqueues the element at offset 32, and its store to `head` reaches memory. -/
def secondEnqueue : List (BufferedAct Bool (Cell 8) (Call Bool 8)) :=
  [.call (.enqueue true 201#8 232#8), .step true, .commit true ⟨.next, 32#8⟩, .step true, .step true,
    .step true, .commit true ⟨.head, 1#8⟩]

/-- The consumer's stores reach memory, and its dequeue returns. -/
def finishDequeue : List (BufferedAct Bool (Cell 8) (Call Bool 8)) :=
  [.commit false ⟨.head, 1#8⟩, .commit false ⟨.shadowHead, 1#8⟩, .commit false ⟨.shadowHead, 1#8⟩, .step false,
    .commit false ⟨.next, 16#8⟩, .step false]

/-- What the demonstrations read off a state. -/
def summary (s : Buffered Bool (Cell 8) (Word 8) Tag (Ctl Bool 8)) : (Pc 8 × Pc 8) × (Bool × Bool) × Nat × Nat :=
  ((s.ctl.pc true, s.ctl.pc false), ((s.pend true).isEmpty, (s.pend false).isEmpty),
    (s.ctl.enqueued 1#8).length, (s.ctl.dequeued 1#8).length)

theorem quiet_of_summary {s : Buffered Bool (Cell 8) (Word 8) Tag (Ctl Bool 8)} {n k : Nat}
    (h : summary s = ((.idle, .idle), (true, true), n, k)) : Quiet demoConfig s.ctl 1#8 ∧ (∀ t, s.pend t = []) ∧
      (s.ctl.enqueued 1#8).length = n ∧ (s.ctl.dequeued 1#8).length = k := by
  simp only [summary, Prod.mk.injEq, List.isEmpty_iff] at h
  obtain ⟨⟨hp, hc⟩, ⟨hpt, hpf⟩, hn, hk⟩ := h
  refine ⟨⟨fun t p ht => ?_, hc⟩, fun t => ?_, hn, hk⟩
  · cases t
    · rw [hc] at ht; cases ht
    · rw [hp] at ht; cases ht
  · cases t
    · exact hpf
    · exact hpt

/-- Two enqueues and one dequeue have been completed, nothing is in progress and nothing is pending, but
`OPA_Queue_is_empty` returns 1: the reset of `head` has overwritten the second element. -/
theorem reset_overwrites_head : ∃ s s', run (bufferedStep (queueProgram demoConfig)) (initBuffered fun _ => 7#8)
      (pendingReset ++ secondEnqueue ++ finishDequeue) = some s ∧ Quiet demoConfig s.ctl 1#8 ∧
    (∀ t, s.pend t = []) ∧ (s.ctl.enqueued 1#8).length = 2 ∧ (s.ctl.dequeued 1#8).length = 1 ∧
    run (bufferedStep (queueProgram demoConfig)) s [.call (.isEmpty false 101#8), .step false, .step false] =
      some s' ∧ s'.ctl.result false = some (.isEmpty true) := by
  have h : (run (bufferedStep (queueProgram demoConfig)) (initBuffered fun _ => 7#8)
      (pendingReset ++ secondEnqueue ++ finishDequeue)).map summary =
        some ((.idle, .idle), (true, true), 2, 1) := by decide
  have h' : (run (bufferedStep (queueProgram demoConfig)) (initBuffered fun _ => 7#8)
      ((pendingReset ++ secondEnqueue ++ finishDequeue) ++
        [.call (.isEmpty false 101#8), .step false, .step false])).map (fun s => s.ctl.result false) =
        some (some (.isEmpty true)) := by decide
  obtain ⟨s', hs', hr⟩ := Option.map_eq_some_iff.1 h'
  obtain ⟨s, hs, htest⟩ := run_append_some.1 hs'
  rw [hs] at h
  obtain ⟨hq, hpend, hn, hk⟩ := quiet_of_summary (Option.some.inj h)
  exact ⟨s, s', hs, hq, hpend, hn, hk, htest, hr⟩

/-- The same operations with the reset in time: the second element is there. -/
theorem queue_no_loss_demo : ∃ s s₁ k s', run (bufferedStep (queueProgram demoConfig)) (initBuffered fun _ => 7#8)
      (pendingReset ++ finishDequeue ++ secondEnqueue) = some s ∧
    bufferedStep (queueProgram demoConfig) s (.call (.isEmpty false 101#8)) = some s₁ ∧
    run (bufferedStep (queueProgram demoConfig)) s₁ (List.replicate k (.step false)) = some s' ∧
    s'.ctl.result false = some (.isEmpty false) := by
  have h : (run (bufferedStep (queueProgram demoConfig)) (initBuffered fun _ => 7#8)
      (pendingReset ++ finishDequeue ++ secondEnqueue)).map summary =
        some ((.idle, .idle), (true, true), 2, 1) := by decide
  have hreset : Along (bufferedStep (queueProgram demoConfig)) (ResetInTime demoConfig) (initBuffered fun _ => 7#8)
      (pendingReset ++ finishDequeue ++ secondEnqueue) := by decide
  obtain ⟨s, hs, hsum⟩ := Option.map_eq_some_iff.1 h
  obtain ⟨hq, hpend, hn, hk⟩ := quiet_of_summary hsum
  obtain ⟨s₁, hs₁, hresult, k, s', hk', hidle⟩ := queue_no_loss demoConfig rfl _ _ s hreset hs 1#8 hq hpend
  refine ⟨s, s₁, k, s', hs, hs₁, hk', ?_⟩
  have := hresult _ s' (fun a ha => by rw [List.eq_of_mem_replicate ha]; rfl) hk' hidle
  rw [hn, hk] at this
  exact this

end OpenPA.Queue
