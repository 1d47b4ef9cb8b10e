/-
The retries of `OPA_swap_ptr_by_cas`, `OPA_swap_int_by_cas` and `OPA_fetch_and_add_int_by_cas`
(`opa_emulated.h`) are other threads' progress (`cas_progress`).
-/
import OpenPA.Machine.Progress
import OpenPA.Atomic.ByCas

namespace OpenPA.Atomic

open OpenPA.Machine

variable {w : Nat} {A B T : Type}

/-- The call is one of an emulated operation. -/
def CasOp.isByCas : CasOp w A B → Bool
  | .fetchAndAddIntByCas _ _ | .swapPtrByCas _ _ | .swapIntByCas _ _ => true
  | .atomic _ => false

/-- The cell of a call. -/
def CasOp.cell (c : CasOp w A B) : Loc A B := (casCode c).rmw.cell

theorem CasOp.isByCas_loop {c : CasOp w A B} (h : c.isByCas = true) : ∃ p, casCode c = .loop p ∧ c.cell = p.cell := by
  cases c with
  | atomic op => cases h
  | _ => exact ⟨_, rfl, rfl⟩

variable [DecidableEq A] [DecidableEq B] [DecidableEq T]

/-- After the initial load the loop expects some value. -/
theorem casOp_loaded {s s₁ : CasSystem T (Val w) (CasOp w A B) (Ret w)} {t : T} {b : Bool} {op : CasOp w A B}
    {p : Rmw (Loc A B) (Val w) (Ret w)} {before : List (SystemAct T (CasOp w A B))} (hop : casCode op = .loop p)
    (hbefore : ∀ a ∈ before, a.thread ≠ t)
    (hload : run (systemStep (casObject casCode)) s (.call t op :: before ++ [.step t b]) = some s₁) :
    s₁.running t = some ⟨op, s.clock, .cas p (s₁.shared p.cell)⟩ := by
  rw [List.cons_append] at hload
  obtain ⟨s₂, hcall, hload⟩ := run_cons_some.1 hload
  obtain ⟨s₃, hwait, hload⟩ := run_append_some.1 hload
  obtain ⟨s₄, hstep, hload⟩ := run_cons_some.1 hload
  cases hload
  have hr₂ : s₂.running t = some ⟨op, s.clock, .load p⟩ := by
    simp only [systemStep] at hcall
    split at hcall
    · cases hcall
      simp [System.put, casObject, hop]
    · cases hcall
  have hr₃ : s₃.running t = some ⟨op, s.clock, .load p⟩ := by
    refine run_inv_along (G := fun _ a => a.thread ≠ t) (P := fun s' => s'.running t = some ⟨op, s.clock, .load p⟩)
      (fun s a s' hr ht hs => ?_) before hr₂ (Along.of_forall before _ hbefore) hwait
    rw [systemStep_other hs ht, hr]
  exact casStep_load hr₃ hstep

/-- Progress. Any number of threads call the emulated operations, and write to the cells in single accesses as they
like. Of a call of an emulated operation, from its initial load on: the accesses, each a compare-and-swap that goes once
round the loop, are at most one more than the steps with which other threads have changed the value of the cell, and no
more than these as long as the call is under way. And the call returns in every infinite execution in which its thread
is scheduled as long as it is under way and other threads change the cell only finitely often while it is. -/
theorem cas_progress (s s₁ : CasSystem T (Val w) (CasOp w A B) (Ret w)) (t : T) (b : Bool) (op : CasOp w A B)
    (before : List (SystemAct T (CasOp w A B))) (hop : op.isByCas = true) (hbefore : ∀ a ∈ before, a.thread ≠ t)
    (hload : run (systemStep (casObject casCode)) s (.call t op :: before ++ [.step t b]) = some s₁) :
    (∀ as s₂, NoCall t as → run (systemStep (casObject casCode)) s₁ as = some s₂ →
      steps t as ≤ 1 + countAlong (systemStep (casObject casCode)) (changes (casObject casCode) t op.cell) s₁ as ∧
      (s₂.running t ≠ none →
        steps t as ≤ countAlong (systemStep (casObject casCode)) (changes (casObject casCode) t op.cell) s₁ as)) ∧
    ∀ state act, Execution (systemStep (casObject casCode)) state act → state 0 = s₁ →
      (∀ N, (state N).running t ≠ none → ∃ n b, N ≤ n ∧ act n = some (.step t b)) →
      (∃ N, ∀ n a, N ≤ n → (state n).running t ≠ none → act n = some a →
        changes (casObject casCode) t op.cell (state n) a = false) →
      ∃ n, (state n).running t = none := by
  obtain ⟨p, hp, hcell⟩ := CasOp.isByCas_loop hop
  have hr := casOp_loaded hp hbefore hload
  rw [hcell]
  refine ⟨fun as s₂ hcall hrun => ?_, fun state act hexec hstart hfair hquiet => ?_⟩
  · have hle := cas_steps_le as hr hcall hrun
    rw [if_pos rfl] at hle
    constructor
    · split at hle <;> omega
    · intro hrunning
      rw [if_neg hrunning] at hle
      omega
  · rw [← hstart] at hr
    exact cas_returns hexec hr hfair hquiet

/-- After the initial load of one thread's fetch-and-add another one stores 5. -/
def interferingActs : List (SystemAct Bool (CasOp 8 Bool Bool)) :=
  [.call false (.atomic (.storeInt true 5)), .step false false, .step true false, .step true false]

/-- The first compare-and-swap fails, and the second does not; without the store the first one would not. -/
theorem cas_progress_demo : ∃ s₁ s₂ s₃ : CasSystem Bool (Val 8) (CasOp 8 Bool Bool) (Ret 8),
    run (systemStep (casObject casCode)) (System.init zeroCells)
      [.call true (.fetchAndAddIntByCas true 7), .step true false] = some s₁ ∧
    run (systemStep (casObject casCode)) s₁ interferingActs = some s₂ ∧
    systemStep (casObject casCode) s₁ (.step true false) = some s₃ ∧
    steps true interferingActs = 2 ∧
    steps true interferingActs ≤
      1 + countAlong (systemStep (casObject casCode)) (changes (casObject casCode) true (.int true)) s₁ interferingActs ∧
    ∃ n : Nat, (if n = 0 then s₁ else s₃).running true = none := by
  have h : ((run (systemStep (casObject casCode)) (System.init zeroCells)
      [.call true (CasOp.fetchAndAddIntByCas (w := 8) (A := Bool) (B := Bool) true 7), .step true false]).bind fun s₁ =>
        (run (systemStep (casObject casCode)) s₁ interferingActs).bind fun _ =>
          (systemStep (casObject casCode) s₁ (.step true false)).map fun s₃ => (s₃.running true).isNone) =
      some true := by decide
  obtain ⟨s₁, hs₁, h⟩ := Option.bind_eq_some_iff.1 h
  obtain ⟨s₂, hs₂, h⟩ := Option.bind_eq_some_iff.1 h
  obtain ⟨s₃, hs₃, h⟩ := Option.map_eq_some_iff.1 h
  rw [Option.isNone_iff_eq_none] at h
  obtain ⟨hbound, hends⟩ := cas_progress (System.init zeroCells) s₁ true false (.fetchAndAddIntByCas true 7) [] rfl
    (by simp) hs₁
  have hcall : NoCall true interferingActs := by
    intro op hop
    simp [interferingActs] at hop
  refine ⟨s₁, s₂, s₃, hs₁, hs₂, hs₃, rfl, (hbound _ s₂ hcall hs₂).1, ?_⟩
  refine hends (fun n => if n = 0 then s₁ else s₃) (fun n => if n = 0 then some (.step true false) else none) ?_ rfl ?_ ?_
  · intro n
    cases n with
    | zero => exact hs₃
    | succ n => rfl
  · intro N hN
    cases N with
    | zero => exact ⟨0, false, Nat.le_refl 0, rfl⟩
    | succ N => exact absurd h hN
  · refine ⟨0, fun n a _ _ ha => ?_⟩
    cases n with
    | zero =>
      cases ha
      rfl
    | succ n => cases ha

end OpenPA.Atomic
