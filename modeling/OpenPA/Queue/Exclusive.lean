/-
The hand-over of the front element through `head`. A producer whose tail swap returned null stores to `head`; the
consumer, in `OPA_Queue_is_empty`, tests `head`, reads it again, copies it to `shadow_head` and resets it, in four
accesses that nothing protects. There is one such producer at a time, and none while the consumer is between its
test and its reset (`head_exclusive`).
-/
import OpenPA.Queue.Wait

namespace OpenPA.Queue

open OpenPA.Machine

variable {w : Nat} {T : Type} {cfg : Config T w}

/-- A consumer between its test of `head`, which was not null, and its reset of `head` (lines 174 and 175): the
queue. -/
def Pc.takingHead : Pc w → Option (Word w)
  | .isEmpty (.loadHead q) | .isEmpty (.storeShadow q _) | .isEmpty (.resetHead q) => some q
  | _ => none

/-- Thread `t` has found `head` of the queue at `q` to be not null and has not reset it yet. -/
def TakesHead (cfg : Config T w) (c : Ctl T w) (t : T) (q : Word w) : Prop :=
  (c.pc t).takingHead = some (cfg.base t + q)

/-- The action is not the reset of `head` of the queue at `q` by `t`. -/
def KeepsHead (cfg : Config T w) (t : T) (q : Word w) (s : Atomic (Cell w) (Word w) (Ctl T w)) :
    Act T (Call T w) → Prop
  | .call _ => True
  | .step t' => t' = t → s.ctl.pc t ≠ .isEmpty (.resetHead (cfg.base t + q))

instance KeepsHead.decidable [DecidableEq T] (cfg : Config T w) (t : T) (q : Word w)
    (s : Atomic (Cell w) (Word w) (Ctl T w)) : ∀ a, Decidable (KeepsHead cfg t q s a)
  | .call _ => isTrue trivial
  | .step t' => inferInstanceAs (Decidable (t' = t → s.ctl.pc t ≠ .isEmpty (.resetHead (cfg.base t + q))))

theorem Pc.takingHead_iff {p : Pc w} {q : Word w} : p.takingHead = some q ↔
    p = .isEmpty (.loadHead q) ∨ (∃ h, p = .isEmpty (.storeShadow q h)) ∨ p = .isEmpty (.resetHead q) := by
  constructor
  · intro h
    unfold Pc.takingHead at h
    split at h <;> cases h
    · exact .inl rfl
    · exact .inr (.inl ⟨_, rfl⟩)
    · exact .inr (.inr rfl)
  · rintro (rfl | ⟨h, rfl⟩ | rfl) <;> rfl

theorem Pc.of_token_seen {p : Pc w} {q : Word w} (h : p.token = some (.seen q)) :
    p = .isEmpty (.loadHead q) ∨ ∃ x, p = .isEmpty (.storeShadow q x) := by
  unfold Pc.token at h
  split at h <;> cases h
  · exact .inl rfl
  · exact .inr ⟨_, rfl⟩

theorem Pc.of_token_copied {p : Pc w} {q : Word w} (h : p.token = some (.copied q)) :
    p = .isEmpty (.resetHead q) := by
  unfold Pc.token at h
  split at h <;> cases h
  rfl

/-! ## In one state, at base 0 -/

section Zero

variable {c : Ctl T w} {g : Ghost T w} {t : T} {q : Word w}

theorem CtlOk.resetHead_iff (h : CtlOk cfg c g) :
    c.pc t = .isEmpty (.resetHead q) ↔ t = cfg.consumer q ∧ ∃ x, g.front q = .copied x := by
  have htok := h.token t (.copied q)
  constructor
  · intro hp
    rw [hp] at htok
    exact htok.2 rfl
  · intro hc
    exact Pc.of_token_copied (htok.1 hc)

theorem CtlOk.takesHead_iff (hb : ∀ t, cfg.base t = 0#w) (h : CtlOk cfg c g) :
    TakesHead cfg c t q ↔ t = cfg.consumer q ∧ ∃ x, g.front q = .seen x ∨ g.front q = .copied x := by
  rw [TakesHead, hb, BitVec.zero_add, Pc.takingHead_iff]
  have htok := h.token t (.seen q)
  constructor
  · intro hp
    rw [← or_assoc] at hp
    rcases hp with hp | hp
    · have hseen : (c.pc t).token = some (.seen q) := by
        rcases hp with hp | ⟨x, hp⟩ <;> rw [hp] <;> rfl
      obtain ⟨ht, x, hf⟩ := htok.2 hseen
      exact ⟨ht, x, .inl hf⟩
    · obtain ⟨ht, x, hf⟩ := h.resetHead_iff.1 hp
      exact ⟨ht, x, .inr hf⟩
  · rintro ⟨ht, x, hf | hf⟩
    · rw [← or_assoc]
      exact .inl (Pc.of_token_seen (htok.1 ⟨ht, x, hf⟩))
    · exact .inr (.inr (h.resetHead_iff.2 ⟨ht, x, hf⟩))

variable [DecidableEq T] {s : Atomic (Cell w) (Word w) (Ctl T w)}

/-- Both head pointers are stored exactly between the copy and the reset. -/
theorem AtomicOk.both_heads (h : AtomicOk cfg s g) (q : Word w) :
    (s.mem ⟨.head, q⟩ ≠ 0#w ∧ s.mem ⟨.shadowHead, q⟩ ≠ 0#w) ↔ ∃ x, g.front q = .copied x := by
  rw [h.inv.flat_head, h.inv.flat_shadow]
  constructor
  · rintro ⟨hh, hs⟩
    cases hf : g.front q with
    | copied x => exact ⟨x, rfl⟩
    | stored x p =>
      rw [hf] at hs
      exact absurd rfl hs
    | seen x =>
      rw [hf] at hs
      exact absurd rfl hs
    | _ =>
      rw [hf] at hh
      exact absurd rfl hh
  · rintro ⟨x, hf⟩
    have hx := h.inv.ctl.front_ne_zero (q := q) (x := x) (by rw [hf]; rfl)
    rw [hf]
    exact ⟨hx, hx⟩

end Zero

/-! ## In one state, at arbitrary bases -/

theorem takingHead_shift (b : Word w) (p : Pc w) : (p.shift b).takingHead = p.takingHead.map (b + ·) := by
  cases p with
  | isEmpty p => cases p <;> rfl
  | _ => rfl

theorem takesHead_shift {c : Ctl T w} {t : T} {q : Word w} :
    TakesHead cfg (c.shift cfg) t q ↔ TakesHead cfg.atZero c t q := by
  unfold TakesHead
  rw [show (c.shift cfg).pc t = (c.pc t).shift (cfg.base t) from rfl, takingHead_shift]
  exact map_base_eq_some

section Reached

variable [DecidableEq T] {s s' : Atomic (Cell w) (Word w) (Ctl T w)} {t p p' : T} {q x : Word w}

theorem Reached.storesHead_unique (h : Reached cfg s) (hp : StoresHead cfg s.ctl p q)
    (hp' : StoresHead cfg s.ctl p' q) : p' = p := by
  obtain ⟨s₀, g, hg, rfl⟩ := h.protocol
  obtain ⟨x, hf⟩ := (hg.inv.ctl.storesHead_iff fun _ => rfl).1 (storesHead_shift.1 hp)
  obtain ⟨x', hf'⟩ := (hg.inv.ctl.storesHead_iff fun _ => rfl).1 (storesHead_shift.1 hp')
  rw [hf] at hf'
  cases hf'
  rfl

/-- Before the producer's store `head` is null, and the consumer is not taking it. -/
theorem Reached.storesHead_alone (h : Reached cfg s) (hp : StoresHead cfg s.ctl p q) :
    s.mem ⟨.head, q⟩ = 0#w ∧ ∀ t, ¬TakesHead cfg s.ctl t q := by
  obtain ⟨s₀, g, hg, rfl⟩ := h.protocol
  obtain ⟨x, hf⟩ := (hg.inv.ctl.storesHead_iff fun _ => rfl).1 (storesHead_shift.1 hp)
  constructor
  · have hhead := hg.inv.flat_head q
    rw [hf] at hhead
    exact hhead
  · intro t ht
    obtain ⟨-, y, hy | hy⟩ := (hg.inv.ctl.takesHead_iff fun _ => rfl).1 (takesHead_shift.1 ht) <;>
      rw [hf] at hy <;> cases hy

theorem Reached.takesHead_consumer (h : Reached cfg s) (ht : TakesHead cfg s.ctl t q) : t = cfg.consumer q := by
  obtain ⟨s₀, g, hg, rfl⟩ := h.protocol
  exact ((hg.inv.ctl.takesHead_iff fun _ => rfl).1 (takesHead_shift.1 ht)).1

/-- What the consumer is about to copy is what `head` holds. -/
theorem Reached.storeShadow_head (h : Reached cfg s)
    (hp : s.ctl.pc t = .isEmpty (.storeShadow (cfg.base t + q) x)) : s.mem ⟨.head, q⟩ = x := by
  obtain ⟨s₀, g, hg, rfl⟩ := h.protocol
  have hok := hg.inv.ctl.pc t
  rw [(pc_shift_iff (p := .isEmpty (.storeShadow q x))).1 hp] at hok
  have hhead := hg.inv.flat_head q
  rw [show g.front q = .seen x from hok] at hhead
  exact hhead

/-- What the consumer is about to erase has been copied. -/
theorem Reached.resetHead_shadow (h : Reached cfg s)
    (hp : s.ctl.pc t = .isEmpty (.resetHead (cfg.base t + q))) : s.mem ⟨.shadowHead, q⟩ = s.mem ⟨.head, q⟩ := by
  obtain ⟨s₀, g, hg, rfl⟩ := h.protocol
  obtain ⟨-, x, hf⟩ := hg.inv.ctl.resetHead_iff.1 ((pc_shift_iff (p := .isEmpty (.resetHead q))).1 hp)
  have hhead := hg.inv.flat_head q
  have hshadow := hg.inv.flat_shadow q
  rw [hf] at hhead hshadow
  exact hshadow.trans hhead.symm

theorem Reached.both_heads (h : Reached cfg s) (q : Word w) :
    (s.mem ⟨.head, q⟩ ≠ 0#w ∧ s.mem ⟨.shadowHead, q⟩ ≠ 0#w) ↔
      ∃ t, s.ctl.pc t = .isEmpty (.resetHead (cfg.base t + q)) := by
  obtain ⟨s₀, g, hg, rfl⟩ := h.protocol
  rw [show (s₀.mapCtl (Ctl.shift cfg)).mem = s₀.mem from rfl, hg.both_heads q]
  constructor
  · intro hf
    refine ⟨cfg.consumer q, (pc_shift_iff (p := .isEmpty (.resetHead q))).2 ?_⟩
    exact hg.inv.ctl.resetHead_iff.2 ⟨rfl, hf⟩
  · rintro ⟨t, hp⟩
    exact (hg.inv.ctl.resetHead_iff.1 ((pc_shift_iff (p := .isEmpty (.resetHead q))).1 hp)).2

/-! ## Runs -/

omit [DecidableEq T] in
theorem TakesHead.busy {c : Ctl T w} (ht : TakesHead cfg c t q) : c.pc t ≠ .idle := by
  intro hidle
  rw [TakesHead, hidle] at ht
  cases ht

/-- Of its accesses after the test, only the reset ends it. -/
theorem TakesHead.step (ht : TakesHead cfg s.ctl t q)
    (hkeep : s.ctl.pc t ≠ .isEmpty (.resetHead (cfg.base t + q)))
    (hs : atomicStep (queueProgram cfg) s (.step t) = some s') : TakesHead cfg s'.ctl t q := by
  rcases Pc.takingHead_iff.1 ht with hp | ⟨x, hp⟩ | hp
  · obtain ⟨s₁, h₁, -, -, hpc, -⟩ := step_at cfg hp rfl
    cases hs.symm.trans h₁
    rw [TakesHead, hpc]
    rfl
  · obtain ⟨s₁, h₁, -, -, hpc, -⟩ := step_at cfg hp rfl
    cases hs.symm.trans h₁
    rw [TakesHead, hpc]
    rfl
  · exact absurd hp hkeep

/-- Whatever happens before the reset, `head` stays as the consumer found it. -/
theorem Reached.takesHead_step (h : Reached cfg s) (ht : TakesHead cfg s.ctl t q) {a : Act T (Call T w)}
    (ha : KeepsHead cfg t q s a) (hs : atomicStep (queueProgram cfg) s a = some s') :
    TakesHead cfg s'.ctl t q ∧ s'.mem ⟨.head, q⟩ = s.mem ⟨.head, q⟩ := by
  constructor
  · by_cases hat : a = .step t
    · subst hat
      exact ht.step (ha rfl) hs
    · rw [TakesHead, step_pc_other hs hat ht.busy]
      exact ht
  · cases a with
    | call a =>
      obtain ⟨c, -, rfl⟩ := Option.map_eq_some_iff.1 hs
      rfl
    | step p =>
      obtain ⟨a, hx, rfl⟩ := Option.map_eq_some_iff.1 hs
      apply Access.exec_unwritten
      intro hwr
      cases HeadWrite.of_access hx hwr with
      | @storeHead e r hp =>
        have hstores : StoresHead cfg s.ctl p q := Pc.storingHead_iff.2 ⟨e, r, hp⟩
        exact (h.storesHead_alone hstores).2 t ht
      | resetHead hp =>
        -- nobody but the consumer resets `head`
        have hpt : TakesHead cfg s.ctl p q := Pc.takingHead_iff.2 (.inr (.inr hp))
        have hpc := (h.takesHead_consumer hpt).trans (h.takesHead_consumer ht).symm
        subst hpc
        exact ha rfl hp

theorem Reached.takesHead_run (h : Reached cfg s) (ht : TakesHead cfg s.ctl t q) {as : List (Act T (Call T w))}
    (has : Along (atomicStep (queueProgram cfg)) (KeepsHead cfg t q) s as)
    (hs : Machine.run (atomicStep (queueProgram cfg)) s as = some s') :
    TakesHead cfg s'.ctl t q ∧ s'.mem ⟨.head, q⟩ = s.mem ⟨.head, q⟩ := by
  have hrun := run_inv_along (P := fun u => Reached cfg u ∧ TakesHead cfg u.ctl t q ∧
    u.mem ⟨.head, q⟩ = s.mem ⟨.head, q⟩) (G := KeepsHead cfg t q) ?_ as ⟨h, ht, rfl⟩ has hs
  · exact hrun.2
  rintro u a u' ⟨hu, htu, hmem⟩ ha hstep
  obtain ⟨htu', hmem'⟩ := hu.takesHead_step htu ha hstep
  exact ⟨hu.step hstep, htu', hmem'.trans hmem⟩

/-- The test of line 170. -/
theorem testHead_step (hp : s.ctl.pc t = .isEmpty (.testHead (cfg.base t + q))) (hne : s.mem ⟨.head, q⟩ ≠ 0#w)
    (hs : atomicStep (queueProgram cfg) s (.step t) = some s') : TakesHead cfg s'.ctl t q ∧ s'.mem = s.mem := by
  obtain ⟨s₁, h₁, hmem, -, hpc, -⟩ := step_at cfg hp rfl
  cases hs.symm.trans h₁
  refine ⟨?_, hmem⟩
  rw [TakesHead, hpc]
  simp [Stmt.inPc, queueIsEmpty, Access.exec, cellAt_add, hne, Pc.takingHead]

/-- The hand-over through `head`, in every reachable state, for any number of threads and queues. At most one
producer is between a tail swap that returned null and its store to `head`; while there is one, `head` is null and
nobody is between a test of `head` that was not null and the reset of `head`. From such a test on, whatever the
others do and as long as the consumer has not reset `head`, `head` keeps the value that was tested, which is the
one that line 174 copies; so the reset erases what has been copied. And both head pointers are stored exactly
between the copy and the reset. -/
theorem head_exclusive (cfg : Config T w) (junk : Cell w → Word w) (as : List (Act T (Call T w)))
    (s : Atomic (Cell w) (Word w) (Ctl T w)) (q : Word w)
    (h : Machine.run (atomicStep (queueProgram cfg)) (initAtomic junk) as = some s) :
    (∀ p p', StoresHead cfg s.ctl p q → StoresHead cfg s.ctl p' q → p' = p) ∧
    (∀ p, StoresHead cfg s.ctl p q → s.mem ⟨.head, q⟩ = shmRelNull ∧ ∀ t, ¬TakesHead cfg s.ctl t q) ∧
    (∀ t s₁, s.ctl.pc t = .isEmpty (.testHead (cfg.base t + q)) → s.mem ⟨.head, q⟩ ≠ shmRelNull →
      atomicStep (queueProgram cfg) s (.step t) = some s₁ →
      ∀ bs s₂, Along (atomicStep (queueProgram cfg)) (KeepsHead cfg t q) s₁ bs →
        Machine.run (atomicStep (queueProgram cfg)) s₁ bs = some s₂ →
          TakesHead cfg s₂.ctl t q ∧ s₂.mem ⟨.head, q⟩ = s.mem ⟨.head, q⟩ ∧
          (∀ x, s₂.ctl.pc t = .isEmpty (.storeShadow (cfg.base t + q) x) → x = s.mem ⟨.head, q⟩) ∧
          (s₂.ctl.pc t = .isEmpty (.resetHead (cfg.base t + q)) → s₂.mem ⟨.shadowHead, q⟩ = s.mem ⟨.head, q⟩)) ∧
    (∀ t, s.ctl.pc t = .isEmpty (.resetHead (cfg.base t + q)) → s.mem ⟨.shadowHead, q⟩ = s.mem ⟨.head, q⟩) ∧
    ((s.mem ⟨.head, q⟩ ≠ shmRelNull ∧ s.mem ⟨.shadowHead, q⟩ ≠ shmRelNull) ↔
      ∃ t, s.ctl.pc t = .isEmpty (.resetHead (cfg.base t + q))) := by
  have hr : Reached cfg s := ⟨junk, as, h⟩
  refine ⟨fun p p' => hr.storesHead_unique, fun p => hr.storesHead_alone, ?_, fun t => hr.resetHead_shadow,
    hr.both_heads q⟩
  intro t s₁ hp hne h₁ bs s₂ hbs h₂
  obtain ⟨ht₁, hmem⟩ := testHead_step hp hne h₁
  have hr₂ := (hr.step h₁).run h₂
  obtain ⟨ht₂, hhead⟩ := (hr.step h₁).takesHead_run ht₁ hbs h₂
  rw [hmem] at hhead
  refine ⟨ht₂, hhead, fun x hx => ?_, fun hreset => ?_⟩
  · exact (hr₂.storeShadow_head hx).symm.trans hhead
  · exact (hr₂.resetHead_shadow hreset).trans hhead

end Reached

/-- Producer 1 has found the queue empty and not stored to `head`. -/
def storingActs : List (Act Nat (Call Nat 8)) :=
  .call (.enqueue 1 201#8 216#8) :: List.replicate 3 (.step 1)

/-- It stores, and the consumer comes to the test of line 170. -/
def testingActs : List (Act Nat (Call Nat 8)) :=
  .step 1 :: .call (.isEmpty 0 101#8) :: [.step 0]

/-- After the test, the consumer goes on to its reset while producer 2 completes an enqueue. -/
def takingActs : List (Act Nat (Call Nat 8)) :=
  .step 0 :: .call (.enqueue 2 51#8 82#8) :: List.replicate 4 (.step 2) ++ [.step 0]

theorem head_exclusive_demo : ∃ s s₁ s₂ s₃,
    run (atomicStep (queueProgram waitConfig)) (initAtomic fun _ => 7#8) storingActs = some s ∧
    StoresHead waitConfig s.ctl 1 1#8 ∧ (∀ p, StoresHead waitConfig s.ctl p 1#8 → p = 1) ∧
    s.mem ⟨.head, 1#8⟩ = shmRelNull ∧
    run (atomicStep (queueProgram waitConfig)) s testingActs = some s₁ ∧ s₁.mem ⟨.head, 1#8⟩ = 16#8 ∧
    atomicStep (queueProgram waitConfig) s₁ (.step 0) = some s₂ ∧
    run (atomicStep (queueProgram waitConfig)) s₂ takingActs = some s₃ ∧
    s₃.ctl.pc 0 = .isEmpty (.resetHead 101#8) ∧ s₃.mem ⟨.shadowHead, 1#8⟩ = 16#8 := by
  have h : (run (atomicStep (queueProgram waitConfig)) (initAtomic fun _ => 7#8) storingActs).map
      (fun s => (s.ctl.pc 1).storingHead) = some (some 201#8) := by decide
  have h₁ : (run (atomicStep (queueProgram waitConfig)) (initAtomic fun _ => 7#8) (storingActs ++ testingActs)).map
      (fun s => (s.ctl.pc 0, s.mem ⟨.head, 1#8⟩)) = some (.isEmpty (.testHead 101#8), 16#8) := by decide
  have h₂ : (run (atomicStep (queueProgram waitConfig)) (initAtomic fun _ => 7#8)
      (storingActs ++ testingActs ++ [.step 0])).map
      (fun s => decide (Along (atomicStep (queueProgram waitConfig)) (KeepsHead waitConfig 0 1#8) s takingActs)) =
        some true := by decide
  have h₃ : (run (atomicStep (queueProgram waitConfig)) (initAtomic fun _ => 7#8)
      (storingActs ++ testingActs ++ [.step 0] ++ takingActs)).map (fun s => s.ctl.pc 0) =
        some (.isEmpty (.resetHead 101#8)) := by decide
  obtain ⟨s₃, hs₃, hreset⟩ := Option.map_eq_some_iff.1 h₃
  obtain ⟨s₂, hs₂, hs₃⟩ := run_append_some.1 hs₃
  rw [hs₂] at h₂
  have hkeep := of_decide_eq_true (Option.some.inj h₂)
  obtain ⟨s₁, hs₁, hstep⟩ := run_append_some.1 hs₂
  rw [hs₁] at h₁
  obtain ⟨htest, hhead⟩ := Prod.mk.inj (Option.some.inj h₁)
  obtain ⟨s, hs, hs₁'⟩ := run_append_some.1 hs₁
  rw [hs] at h
  have hstores : StoresHead waitConfig s.ctl 1 1#8 := Option.some.inj h
  obtain ⟨s₂', hs₂', hnil⟩ := run_cons_some.1 hstep
  cases hnil
  obtain ⟨hunique, hnull, -⟩ := head_exclusive waitConfig _ _ s 1#8 hs
  obtain ⟨-, -, hrun, -⟩ := head_exclusive waitConfig _ _ s₁ 1#8 hs₁
  have hne : s₁.mem ⟨.head, 1#8⟩ ≠ shmRelNull := by
    rw [hhead]
    decide
  obtain ⟨-, -, -, hshadow⟩ := hrun 0 s₂ htest hne hs₂' takingActs s₃ hkeep hs₃
  exact ⟨s, s₁, s₂, s₃, hs, hstores, fun p hp => hunique 1 p hstores hp, (hnull 1 hstores).1, hs₁', hhead, hs₂', hs₃,
    hreset, (hshadow hreset).trans hhead⟩

end OpenPA.Queue
