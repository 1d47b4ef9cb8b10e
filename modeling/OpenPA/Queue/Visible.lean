/-
When a completed enqueue shows: `OPA_Queue_is_empty` reads only `shadow_head` and `head`, so an element
that is in the queue is not seen as long as the producer that found the queue empty has not stored
`head`. That is the only case (`queue_visible`), and it does occur (`completed_enqueue_hidden`).
-/
import OpenPA.Queue.Quiet

namespace OpenPA.Queue

open OpenPA.Machine

variable {w : Nat} {T : Type} {cfg : Config T w}

/-- A producer before its store to `head` (line 232): the queue. -/
def Pc.storingHead : Pc w → Option (Word w)
  | .enqueue (.storeHead q _ _) => some q
  | _ => none

/-- Thread `t` has swapped the tail of the queue at `q`, got null and has not stored to `head` yet. -/
def StoresHead (cfg : Config T w) (c : Ctl T w) (t : T) (q : Word w) : Prop :=
  (c.pc t).storingHead = some (cfg.base t + q)

/-- A producer is between a tail swap on `q` that returned null and its store to `head`. -/
def Stalled (cfg : Config T w) (c : Ctl T w) (q : Word w) : Prop :=
  ∃ t qa e r, c.pc t = .enqueue (.storeHead qa e r) ∧ shmAbsToRel (cfg.base t) qa = q

/-- The thread that makes a call. -/
def Call.thread : Call T w → T
  | .enqueue t _ _ | .isEmpty t _ | .peekHead t _ | .dequeue t _ | .write t _ _ _ | .reuse t _ _ | .handOff t _ => t

theorem Pc.storingHead_iff {p : Pc w} {q : Word w} :
    p.storingHead = some q ↔ ∃ e r, p = .enqueue (.storeHead q e r) := by
  constructor
  · intro h
    unfold Pc.storingHead at h
    split at h
    · cases h
      exact ⟨_, _, rfl⟩
    · cases h
  · rintro ⟨e, r, rfl⟩
    rfl

theorem stalled_iff {c : Ctl T w} {q : Word w} : Stalled cfg c q ↔ ∃ t, StoresHead cfg c t q := by
  constructor
  · rintro ⟨t, qa, e, r, hp, rfl⟩
    refine ⟨t, ?_⟩
    rw [StoresHead, hp, add_shmAbsToRel]
    rfl
  · rintro ⟨t, hp⟩
    obtain ⟨e, r, hp⟩ := Pc.storingHead_iff.1 hp
    exact ⟨t, cfg.base t + q, e, r, hp, shmAbsToRel_add _ _⟩

variable [DecidableEq T]

section Zero

variable {s s' : Atomic (Cell w) (Word w) (Ctl T w)} {g : Ghost T w} {t : T} {q : Word w}

omit [DecidableEq T] in
theorem CtlOk.storesHead_iff {c : Ctl T w} (hb : ∀ t, cfg.base t = 0#w) (h : CtlOk cfg c g) :
    StoresHead cfg c t q ↔ ∃ x, g.front q = .swapped x t := by
  rw [StoresHead, hb, BitVec.zero_add, Pc.storingHead_iff]
  constructor
  · rintro ⟨e, r, hp⟩
    have htok := h.token t (.head q e)
    rw [hp] at htok
    exact ⟨e, htok.2 rfl⟩
  · rintro ⟨x, hf⟩
    obtain ⟨r, hp⟩ := Pc.of_token_head ((h.token t (.head q x)).1 hf)
    exact ⟨x, r, hp⟩

omit [DecidableEq T] in
theorem CtlOk.stalled_front {c : Ctl T w} (hb : ∀ t, cfg.base t = 0#w) (h : CtlOk cfg c g) :
    Stalled cfg c q ↔ ∃ x t, g.front q = .swapped x t := by
  simp only [stalled_iff, h.storesHead_iff hb]
  exact exists_comm

/-- An `OPA_Queue_is_empty` that returns while the queue has elements. -/
theorem AtomicOk.isEmpty_return (hb : ∀ t, cfg.base t = 0#w) (h : AtomicOk cfg s g) {p : IsEmptyPc w}
    (hp : s.ctl.pc t = .isEmpty p) (hs : atomicStep (queueProgram cfg) s (.step t) = some s')
    (hidle : s'.ctl.pc t = .idle) (hne : g.chain p.qhead ≠ []) :
    ∃ b, s'.ctl.result t = some (.isEmpty b) ∧ (b = true ↔ Stalled cfg s.ctl p.qhead) := by
  rw [h.inv.ctl.stalled_front hb]
  have hok := h.inv.ctl.pc t
  have htok := h.inv.ctl.token t
  rw [hp] at hok htok
  obtain ⟨s1, h1, -, -, p1, r1⟩ := step_at cfg hp rfl
  cases hs.symm.trans h1
  rw [hidle] at p1
  cases p with
  | testShadow q =>
    simp only [Stmt.inPc, queueIsEmpty, hb, cellAt_zero, Access.exec] at p1 r1
    split at p1
    · cases p1
    · rename_i hv
      rw [if_neg hv] at r1
      refine ⟨false, r1, iff_of_false (by simp) ?_⟩
      rintro ⟨x, t', hf⟩
      replace hf : g.front q = .swapped x t' := hf
      have hshadow := h.inv.flat_shadow q
      rw [hf] at hshadow
      exact hv hshadow
  | testHead q =>
    simp only [Stmt.inPc, queueIsEmpty, hb, cellAt_zero, Access.exec] at p1 r1
    obtain ⟨ht, hsh⟩ := hok
    split at p1
    · rename_i hv
      rw [if_pos hv] at r1
      refine ⟨true, r1, iff_of_true rfl ?_⟩
      -- `head` is null though there are elements: of all fronts, one that has been swapped in only
      have hhead := (h.inv.flat_head q).symm.trans hv
      cases hf : g.front q with
      | swapped x t' => exact ⟨x, t', hf⟩
      | none =>
        have := (h.inv.ctl.chain q).front
        rw [hf] at this
        exact absurd (List.head?_eq_none_iff.1 this.symm) hne
      | stored x t' =>
        rw [hf] at hhead
        exact absurd hhead (h.inv.ctl.front_ne_zero (q := q) (by rw [hf]; rfl))
      | seen x => cases (htok (.seen q)).1 ⟨ht, x, hf⟩
      | copied x => cases (htok (.copied q)).1 ⟨ht, x, hf⟩
      | held x => cases (htok (.held q)).1 ⟨ht, x, hf⟩
      | taken x =>
        rw [hf] at hsh
        exact absurd hsh (h.inv.ctl.front_ne_zero (q := q) (by rw [hf]; rfl))
    · cases p1
  | loadHead q => cases p1
  | storeShadow q x => cases p1
  | resetHead q =>
    obtain ⟨-, y, hf⟩ := (htok (.copied q)).2 rfl
    refine ⟨false, r1, iff_of_false (by simp) ?_⟩
    rintro ⟨x, t', hf'⟩
    replace hf' : g.front q = .swapped x t' := hf'
    rw [hf] at hf'; cases hf'

omit [DecidableEq T] in
theorem isEmpty_after (p : IsEmptyPc w) (v : Word w) : Pc.after cfg t (.isEmpty p) v = .idle ∨
    ∃ p', Pc.after cfg t (.isEmpty p) v = .isEmpty p' ∧ p'.qhead = p.qhead := by
  cases p <;> by_cases hv : v = 0#w <;> simp [Pc.after, Pc.code, Stmt.inPc, queueIsEmpty, hv, IsEmptyPc.qhead]

theorem call_pc {c c' : Ctl T w} {a : Call T w} (hc : call cfg c a = some c') (ht : t ≠ a.thread) :
    c'.pc t = c.pc t := by
  cases a <;> simp only [call] at hc <;> split at hc <;> cases hc <;>
    exact Function.update_of_ne ht _ _

/-- While the consumer of `q` is in `OPA_Queue_is_empty`, nothing is dequeued from `q`. -/
theorem isEmpty_run (hb : ∀ t, cfg.base t = 0#w) (h : AtomicOk cfg s g) (ht : t = cfg.consumer q)
    (hp : ∃ p, s.ctl.pc t = .isEmpty p ∧ p.qhead = q) {bs : List (Act T (Call T w))}
    (hbs : ∀ a, Act.call a ∈ bs → a.thread ≠ t) (hrun : run (atomicStep (queueProgram cfg)) s bs = some s') :
    s'.ctl.dequeued q = s.ctl.dequeued q ∧
      (s'.ctl.pc t = .idle ∨ ∃ p, s'.ctl.pc t = .isEmpty p ∧ p.qhead = q) := by
  refine (run_inv_along (P := fun s' => (∃ g, AtomicOk cfg s' g) ∧ s'.ctl.dequeued q = s.ctl.dequeued q ∧
      (s'.ctl.pc t = .idle ∨ ∃ p, s'.ctl.pc t = .isEmpty p ∧ p.qhead = q))
    (G := fun _ a => ∀ c, a = .call c → c.thread ≠ t) ?_ bs ⟨⟨g, h⟩, rfl, .inr hp⟩
    (Along.of_forall bs s fun a ha c hc => hbs c (by rw [← hc]; exact ha)) hrun).2
  rintro s₁ a s₂ ⟨⟨g₁, hg₁⟩, hd, hpc⟩ ha hs
  cases a with
  | call a =>
    refine ⟨⟨_, hg₁.call hb hs⟩, ?_⟩
    obtain ⟨c, hc, rfl⟩ := Option.map_eq_some_iff.1 hs
    obtain ⟨-, -, hd'⟩ := call_history hc
    refine ⟨by rw [hd']; exact hd, ?_⟩
    rw [show c.pc t = s₁.ctl.pc t from call_pc hc (ha a rfl).symm]
    exact hpc
  | step t' =>
    obtain ⟨v, hv⟩ := hg₁.step hb hs
    refine ⟨⟨_, hv⟩, ?_⟩
    obtain ⟨x, hx, rfl⟩ := Option.map_eq_some_iff.1 hs
    have hd' := (resume_history hb s₁.ctl t' (x.exec s₁.mem).2 q).2.2.2
    have hpc' := (resume_fields hb s₁.ctl t' (x.exec s₁.mem).2).1
    by_cases htt : t' = t
    · subst htt
      rcases hpc with hpc | ⟨p, hpc, hq⟩
      · simp [queueProgram, hpc, Pc.code] at hx
      · rw [hpc] at hpc' hd'
        refine ⟨hd'.trans (by simpa [Pc.dequeues] using hd), ?_⟩
        show (resume cfg s₁.ctl t' _).pc t' = .idle ∨ ∃ p, (resume cfg s₁.ctl t' _).pc t' = .isEmpty p ∧ p.qhead = q
        rw [hpc', Function.update_self]
        -- it has returned, or is at another point of the same call
        rcases isEmpty_after p (x.exec s₁.mem).2 with h | ⟨p', h, h'⟩
        · exact .inl h
        · exact .inr ⟨p', h, h'.trans hq⟩
    · rw [(hg₁.inv.ctl.chain_other (fun h => htt (h.symm.trans ht.symm)) v).1, List.append_nil] at hd'
      refine ⟨hd'.trans hd, ?_⟩
      show (resume cfg s₁.ctl t' _).pc t = .idle ∨ ∃ p, (resume cfg s₁.ctl t' _).pc t = .isEmpty p ∧ p.qhead = q
      rw [hpc', Function.update_of_ne (Ne.symm htt)]
      exact hpc

end Zero

/-! ## At arbitrary bases -/

omit [DecidableEq T] in
theorem unshift_thread {t : T} {bs : List (Act T (Call T w))} (h : ∀ a, Act.call a ∈ bs → a.thread ≠ t)
    {a : Call T w} (ha : Act.call a ∈ bs.map (Act.map (Call.unshift cfg))) : a.thread ≠ t := by
  obtain ⟨b, hb, hm⟩ := List.mem_map.1 ha
  cases b with
  | step t => cases hm
  | call b =>
    simp only [Act.map, Act.call.injEq] at hm
    subst hm
    have := h b hb
    cases b <;> exact this

omit [DecidableEq T] in
theorem storingHead_shift (b : Word w) (p : Pc w) : (p.shift b).storingHead = p.storingHead.map (b + ·) := by
  cases p with
  | enqueue p => cases p <;> rfl
  | _ => rfl

omit [DecidableEq T] in
theorem map_base_eq_some {b q : Word w} {x : Option (Word w)} :
    x.map (b + ·) = some (b + q) ↔ x = some (0#w + q) := by
  cases x with
  | none => simp
  | some x => simp only [Option.map_some, Option.some.injEq, add_right_inj, BitVec.zero_add]

omit [DecidableEq T] in
theorem storesHead_shift {c : Ctl T w} {t : T} {q : Word w} :
    StoresHead cfg (c.shift cfg) t q ↔ StoresHead cfg.atZero c t q := by
  unfold StoresHead
  rw [show (c.shift cfg).pc t = (c.pc t).shift (cfg.base t) from rfl, storingHead_shift]
  exact map_base_eq_some

omit [DecidableEq T] in
theorem stalled_shift {c : Ctl T w} {q : Word w} : Stalled cfg (c.shift cfg) q ↔ Stalled cfg.atZero c q := by
  simp only [stalled_iff, storesHead_shift]

theorem shift_call {s s' : Atomic (Cell w) (Word w) (Ctl T w)} {a : Call T w}
    (h : atomicStep (queueProgram cfg) (s.mapCtl (Ctl.shift cfg)) (.call (a.shift cfg)) = some s') :
    ∃ u, atomicStep (queueProgram cfg.atZero) s (.call a) = some u ∧ s' = u.mapCtl (Ctl.shift cfg) := by
  have := (queue_renames cfg).atomicStep s (.call a)
  rw [show Act.map (Call.shift cfg) (.call a) = .call (a.shift cfg) from rfl, h] at this
  obtain ⟨u, hu, hs'⟩ := Option.map_eq_some_iff.1 this.symm
  exact ⟨u, hu, hs'.symm⟩

/-- An `OPA_Queue_is_empty` that is called when a completed enqueue has not been dequeued returns 0,
unless a producer is stalled between a tail swap that returned null and its store to `head` at the
moment it returns (for a return of 1, the moment it reads `head`); then it returns 1. -/
theorem queue_visible (cfg : Config T w) (junk : Cell w → Word w) (as : List (Act T (Call T w)))
    (s₀ s₁ s₂ s₃ : Atomic (Cell w) (Word w) (Ctl T w)) (q o : Word w)
    (h₀ : run (atomicStep (queueProgram cfg)) (initAtomic junk) as = some s₀)
    (hpending : (offsets cfg (s₀.ctl.dequeued q)).count o < (offsets cfg (s₀.ctl.enqueued q)).count o)
    (h₁ : atomicStep (queueProgram cfg) s₀
      (.call (.isEmpty (cfg.consumer q) (cfg.base (cfg.consumer q) + q))) = some s₁)
    (bs : List (Act T (Call T w))) (hbs : ∀ a, Act.call a ∈ bs → a.thread ≠ cfg.consumer q)
    (h₂ : run (atomicStep (queueProgram cfg)) s₁ bs = some s₂) (hbusy : s₂.ctl.pc (cfg.consumer q) ≠ .idle)
    (h₃ : atomicStep (queueProgram cfg) s₂ (.step (cfg.consumer q)) = some s₃)
    (hidle : s₃.ctl.pc (cfg.consumer q) = .idle) :
    ∃ b, s₃.ctl.result (cfg.consumer q) = some (.isEmpty b) ∧ (b = true ↔ Stalled cfg s₂.ctl q) := by
  obtain ⟨as', s₀, hs₀, rfl⟩ := atomic_reached h₀
  have hb : ∀ t, cfg.atZero.base t = 0#w := fun t => rfl
  obtain ⟨g₀, hg₀⟩ := AtomicOk.run hb hs₀
  obtain ⟨s₁, hs₁, rfl⟩ := shift_call (a := .isEmpty (cfg.consumer q) q) h₁
  rw [atomic_atZero] at h₂
  obtain ⟨s₂, hs₂, rfl⟩ := Option.map_eq_some_iff.1 h₂
  obtain ⟨s₃, hs₃, rfl⟩ := shift_step h₃
  have hg₁ := hg₀.call hb hs₁
  obtain ⟨g₂, hg₂⟩ := hg₁.run_from hb hs₂
  -- the call, and what it leaves as it was
  obtain ⟨c, hc, rfl⟩ := Option.map_eq_some_iff.1 hs₁
  replace hc : call cfg.atZero s₀.ctl (.isEmpty (cfg.consumer q) q) = some c := hc
  have hcall := call_history hc
  have hpc₁ : c.pc (cfg.consumer q) = .isEmpty (.testShadow q) := by
    simp only [call, hb, shmAbsToRel_zero] at hc
    split at hc
    · cases hc; simp [Ctl.enter]
    · cases hc
  obtain ⟨hdeq, hpc₂⟩ := isEmpty_run hb hg₁ rfl ⟨_, hpc₁, rfl⟩ (fun a ha => unshift_thread hbs ha) hs₂
  have hpc₂ : ∃ p, s₂.ctl.pc (cfg.consumer q) = .isEmpty p ∧ p.qhead = q := by
    refine hpc₂.resolve_left fun hi => hbusy ?_
    show (s₂.ctl.shift cfg).pc _ = _
    rw [pc_shift_idle]; exact hi
  obtain ⟨p, hp, rfl⟩ := hpc₂
  -- the element is still there when `OPA_Queue_is_empty` returns
  have hne : g₂.chain p.qhead ≠ [] := by
    intro hnil
    replace hpending : (offsets cfg ((s₀.ctl.dequeued p.qhead).map (shiftPair cfg))).count o <
      (offsets cfg ((s₀.ctl.enqueued p.qhead).map (shiftPair cfg))).count o := hpending
    rw [offsets_shift, offsets_shift] at hpending
    have hle := hg₂.hist.enqueued_le p.qhead o
    have hord := hg₂.order p.qhead
    rw [show cfg.atZero.consumer p.qhead = cfg.consumer p.qhead from rfl, hp, hnil, hdeq,
      show c.dequeued p.qhead = s₀.ctl.dequeued p.qhead from congrFun hcall.2.2 _] at hord
    have hmono := ((history_mono hb hs₂ p.qhead).2.1.map Prod.snd).sublist.count_le o
    rw [show c.enqueued p.qhead = s₀.ctl.enqueued p.qhead from congrFun hcall.2.1 _] at hmono
    rw [hord] at hle
    simp only [Pc.inHand, List.append_nil] at hle
    omega
  rw [show (s₃.mapCtl (Ctl.shift cfg)).ctl = s₃.ctl.shift cfg from rfl, pc_shift_idle] at hidle
  obtain ⟨b, hr, hiff⟩ := hg₂.isEmpty_return hb hp hs₃ hidle hne
  refine ⟨b, ?_, hiff.trans stalled_shift.symm⟩
  show (s₃.ctl.result _).map (Ret.shift _) = _
  rw [hr]; rfl

/-! ## A stalled producer -/

/-- A consumer and two producers. -/
def stallConfig : Config (Fin 3) 8 where
  base := fun t => if t = 0 then 100#8 else if t = 1 then 200#8 else 50#8
  consumer := fun _ => 0
  readBarrierDrains := true

/-- Producer 1 finds the queue empty and stalls before line 232; producer 2 completes its enqueue. -/
def stallActs : List (Act (Fin 3) (Call (Fin 3) 8)) :=
  [.call (.enqueue 1 201#8 216#8), .step 1, .step 1, .step 1,
    .call (.enqueue 2 51#8 82#8), .step 2, .step 2, .step 2, .step 2]

/-- `OPA_Queue_is_empty`, called after producer 2 has returned, returns 1: its element can be reached
only through the one that producer 1 has not stored in `head` yet. -/
theorem completed_enqueue_hidden : ∃ s₀ s₁, run (atomicStep (queueProgram stallConfig)) (initAtomic fun _ => 7#8)
      stallActs = some s₀ ∧ s₀.ctl.result 2 = some .enqueued ∧ s₀.ctl.enqueued 1#8 = [(2, 82#8)] ∧
    s₀.ctl.dequeued 1#8 = [] ∧ run (atomicStep (queueProgram stallConfig)) s₀
      [.call (.isEmpty 0 101#8), .step 0, .step 0] = some s₁ ∧ s₁.ctl.result 0 = some (.isEmpty true) := by
  have h₀ : (run (atomicStep (queueProgram stallConfig)) (initAtomic fun _ => 7#8) stallActs).map
      (fun s => (s.ctl.result 2, s.ctl.enqueued 1#8, s.ctl.dequeued 1#8)) =
        some (some .enqueued, [(2, 82#8)], []) := by decide
  have h₁ : (run (atomicStep (queueProgram stallConfig)) (initAtomic fun _ => 7#8)
      (stallActs ++ [.call (.isEmpty 0 101#8), .step 0, .step 0])).map
      (fun s => s.ctl.result 0) = some (some (.isEmpty true)) := by decide
  obtain ⟨s₁, hs₁, hr⟩ := Option.map_eq_some_iff.1 h₁
  obtain ⟨s₀, hs₀, hs₁⟩ := run_append_some.1 hs₁
  rw [hs₀] at h₀
  simp only [Option.map_some, Option.some.injEq, Prod.mk.injEq] at h₀
  exact ⟨s₀, s₁, hs₀, h₀.1, h₀.2.1, h₀.2.2, hs₁, hr⟩

/-- Producer 1 goes on while `OPA_Queue_is_empty` runs: it then returns 0. -/
theorem queue_visible_demo : ∃ s₂ s₃, run (atomicStep (queueProgram stallConfig)) (initAtomic fun _ => 7#8)
      (stallActs ++ .call (.isEmpty 0 101#8) :: .step 0 :: .step 1 :: List.replicate 3 (.step 0)) = some s₂ ∧
    atomicStep (queueProgram stallConfig) s₂ (.step 0) = some s₃ ∧
    s₃.ctl.result 0 = some (.isEmpty false) ∧
    ∃ b, s₃.ctl.result 0 = some (.isEmpty b) ∧ (b = true ↔ Stalled stallConfig s₂.ctl 1#8) := by
  have h₀ : (run (atomicStep (queueProgram stallConfig)) (initAtomic fun _ => 7#8) stallActs).map
      (fun s => ((offsets stallConfig (s.ctl.dequeued 1#8)).count 32#8,
        (offsets stallConfig (s.ctl.enqueued 1#8)).count 32#8)) = some (0, 1) := by decide
  have h₂ : (run (atomicStep (queueProgram stallConfig)) (initAtomic fun _ => 7#8)
      (stallActs ++ .call (.isEmpty 0 101#8) :: .step 0 :: .step 1 :: List.replicate 3 (.step 0))).map
      (fun s => s.ctl.pc 0) = some (.isEmpty (.resetHead 101#8)) := by decide
  have h₃ : (run (atomicStep (queueProgram stallConfig)) (initAtomic fun _ => 7#8)
      (stallActs ++ .call (.isEmpty 0 101#8) :: .step 0 :: .step 1 :: List.replicate 3 (.step 0) ++ [.step 0])).map
      (fun s => (s.ctl.pc 0, s.ctl.result 0)) = some (.idle, some (.isEmpty false)) := by decide
  obtain ⟨s₃, hs₃, hr⟩ := Option.map_eq_some_iff.1 h₃
  obtain ⟨s₂, hs₂, hstep⟩ := run_append_some.1 hs₃
  obtain ⟨u, hu, hnil⟩ := run_cons_some.1 hstep
  cases hnil
  obtain ⟨s₀, hs₀, hrest⟩ := run_append_some.1 hs₂
  obtain ⟨s₁, hs₁, hrest⟩ := run_cons_some.1 hrest
  rw [hs₀] at h₀
  rw [hs₂] at h₂
  simp only [Option.map_some, Option.some.injEq, Prod.mk.injEq] at h₀ h₂ hr
  refine ⟨s₂, s₃, hs₂, hu, hr.2, queue_visible stallConfig _ stallActs s₀ s₁ s₂ s₃ 1#8 32#8 hs₀
    (by rw [h₀.1, h₀.2]; decide) hs₁ _ ?_ hrest (by rw [show stallConfig.consumer 1#8 = 0 from rfl, h₂]; simp)
    hu hr.1⟩
  intro a ha
  simp at ha

end OpenPA.Queue
