/-
The retries of a compare-and-swap loop are other threads' progress. A compare-and-swap fails only if the
cell does not have the value read last, and then reads the value it has; so between two failures in a row
another thread has changed the value. A loop goes round at most once more often than that
(`cas_steps_le`), and ends if it happens only finitely often (`cas_returns`).
-/
import OpenPA.Machine.Retry

namespace OpenPA.Machine

variable {T S P L Op R Ret : Type} {V : L → Type}

/-! ## Counting -/

/-- The number of accesses of `t` in a schedule. -/
def steps [DecidableEq T] (t : T) (as : List (SystemAct T Op)) : Nat :=
  as.countP fun a => match a with
    | .call _ _ => false
    | .step t' _ => decide (t' = t)

/-- No call of `t` in a schedule. -/
def NoCall (t : T) (as : List (SystemAct T Op)) : Prop := ∀ op, SystemAct.call t op ∉ as

section

variable [DecidableEq T]

omit [DecidableEq T] in
theorem NoCall.tail {t : T} {a : SystemAct T Op} {as : List (SystemAct T Op)} (h : NoCall t (a :: as)) : NoCall t as :=
  fun op hop => h op (List.mem_cons_of_mem a hop)

theorem steps_own (t : T) (b : Bool) (as : List (SystemAct T Op)) : steps t (.step t b :: as) = steps t as + 1 := by
  simp [steps]

theorem steps_other {t : T} {a : SystemAct T Op} (ha : a.thread ≠ t) (as : List (SystemAct T Op)) :
    steps t (a :: as) = steps t as := by
  cases a with
  | call t' op => simp [steps]
  | step t' b =>
    have ht : t' ≠ t := ha
    simp [steps, ht]

theorem SystemAct.own_or_other (a : SystemAct T Op) (t : T) :
    (∃ op, a = .call t op) ∨ (∃ b, a = .step t b) ∨ a.thread ≠ t := by
  by_cases ht : a.thread = t
  · subst ht
    cases a with
    | call t op => exact .inl ⟨op, rfl⟩
    | step t b => exact .inr (.inl ⟨b, rfl⟩)
  · exact .inr (.inr ht)

/-- A thread that is in no call, and makes none, makes no access. -/
theorem steps_idle {O : Object T S P Op Ret} {t : T} : ∀ (as : List (SystemAct T Op)) {s s' : System T S P Op Ret},
    s.running t = none → NoCall t as → run (systemStep O) s as = some s' → steps t as = 0 ∧ s'.running t = none
  | [], s, s', hidle, _, hrun => by
    cases hrun
    exact ⟨rfl, hidle⟩
  | a :: as, s, s', hidle, hcall, hrun => by
    obtain ⟨u, hu, hrun⟩ := run_cons_some.1 hrun
    rcases a.own_or_other t with ⟨op, rfl⟩ | ⟨b, rfl⟩ | ht
    · exact absurd (List.mem_cons_self ..) (hcall op)
    · simp [systemStep, hidle] at hu
    · rw [steps_other ht]
      apply steps_idle as _ hcall.tail hrun
      rw [systemStep_other hu ht, hidle]

/-- Another thread than `t` changes the value of the cell `l`. -/
def changes [DecidableEq L] [∀ l, DecidableEq (V l)] (O : Object T ((l : L) → V l) P Op Ret) (t : T) (l : L)
    (s : System T ((l : L) → V l) P Op Ret) (a : SystemAct T Op) : Bool :=
  decide (a.thread ≠ t) && (systemStep O s a).any fun s' => decide (s'.shared l ≠ s.shared l)

end

/-! ## The loop -/

section Cas

variable [DecidableEq T] [DecidableEq L] [∀ l, DecidableEq (V l)]

abbrev CasSystem (T : Type) (V : L → Type) (Op R : Type) := System T ((l : L) → V l) (CasPc L V R) Op R

variable {code : Op → Code L V R} {t : T} {b : Bool} {s s' : CasSystem T V Op R} {op : Op} {n : Nat} {p : Rmw L V R}
  {cmp : V p.cell}

/-- The initial load. -/
theorem casStep_load (hr : s.running t = some ⟨op, n, .load p⟩)
    (hstep : systemStep (casObject code) s (.step t b) = some s') :
    s'.running t = some ⟨op, n, .cas p (s'.shared p.cell)⟩ := by
  simp only [systemStep, hr, Option.map_some, casObject, CasPc.access, Option.some.injEq] at hstep
  subst hstep
  exact Function.update_self _ _ _

/-- The compare-and-swap succeeds, and the call returns. -/
theorem casStep_succeeds (hr : s.running t = some ⟨op, n, .cas p cmp⟩) (hcmp : s.shared p.cell = cmp)
    (hstep : systemStep (casObject code) s (.step t b) = some s') : s'.running t = none := by
  simp only [systemStep, hr, Option.map_some, casObject, CasPc.access, hcmp, ne_eq, not_true_eq_false, if_true,
    if_false, Option.some.injEq] at hstep
  subst hstep
  exact Function.update_self _ _ _

/-- The compare-and-swap fails, and the loop expects the value that it found. -/
theorem casStep_fails (hr : s.running t = some ⟨op, n, .cas p cmp⟩) (hcmp : s.shared p.cell ≠ cmp)
    (hstep : systemStep (casObject code) s (.step t b) = some s') :
    s'.running t = some ⟨op, n, .cas p (s'.shared p.cell)⟩ := by
  simp only [systemStep, hr, Option.map_some, casObject, CasPc.access, ne_eq, hcmp, not_false_eq_true, if_true,
    if_false, Option.some.injEq] at hstep
  subst hstep
  exact Function.update_self _ _ _

/-- Each compare-and-swap is charged to a change of the value, except the one that returns; and except the first one,
if the cell has already another value than the one expected. -/
theorem cas_steps_le : ∀ (as : List (SystemAct T Op)) {s s' : CasSystem T V Op R} {cmp : V p.cell},
    s.running t = some ⟨op, n, .cas p cmp⟩ → NoCall t as → run (systemStep (casObject code)) s as = some s' →
    steps t as ≤ (if s.shared p.cell = cmp then 0 else 1) +
      countAlong (systemStep (casObject code)) (changes (casObject code) t p.cell) s as +
      (if s'.running t = none then 1 else 0)
  | [], s, s', cmp, _, _, _ => Nat.zero_le _
  | a :: as, s, s', cmp, hr, hcall, hrun => by
    obtain ⟨u, hu, hrest⟩ := run_cons_some.1 hrun
    have hcount : countAlong (systemStep (casObject code)) (changes (casObject code) t p.cell) s (a :: as) =
        (if changes (casObject code) t p.cell s a then 1 else 0) +
          countAlong (systemStep (casObject code)) (changes (casObject code) t p.cell) u as := by
      rw [countAlong, hu]
    rcases a.own_or_other t with ⟨op', rfl⟩ | ⟨b, rfl⟩ | ht
    · exact absurd (List.mem_cons_self ..) (hcall op')
    · rw [steps_own, hcount]
      by_cases hcmp : s.shared p.cell = cmp
      · obtain ⟨hsteps, hdone⟩ := steps_idle as (casStep_succeeds hr hcmp hu) hcall.tail hrest
        rw [hsteps, if_pos hdone]
        omega
      · have hle := cas_steps_le as (casStep_fails hr hcmp hu) hcall.tail hrest
        rw [if_pos rfl] at hle
        rw [if_neg hcmp]
        omega
    · have hr' : u.running t = some ⟨op, n, .cas p cmp⟩ := by
        rw [systemStep_other hu ht, hr]
      have hle := cas_steps_le as hr' hcall.tail hrest
      rw [steps_other ht, hcount]
      have hchanges : changes (casObject code) t p.cell s a = decide (u.shared p.cell ≠ s.shared p.cell) := by
        simp [changes, ht, hu]
      rw [hchanges]
      by_cases hsame : u.shared p.cell = s.shared p.cell
      · rw [hsame] at hle
        omega
      · have hlag : (if u.shared p.cell = cmp then 0 else 1) ≤ 1 := by
          split <;> omega
        rw [if_pos (decide_eq_true hsame)]
        omega

/-- While the loop runs it expects some value. -/
theorem casStep_runs {a : SystemAct T Op} (hr : s.running t = some ⟨op, n, .cas p cmp⟩)
    (hstep : systemStep (casObject code) s a = some s') (hrun : s'.running t ≠ none) :
    ∃ cmp, s'.running t = some ⟨op, n, .cas p cmp⟩ := by
  rcases a.own_or_other t with ⟨op', rfl⟩ | ⟨b, rfl⟩ | ht
  · simp [systemStep, hr] at hstep
  · by_cases hcmp : s.shared p.cell = cmp
    · exact absurd (casStep_succeeds hr hcmp hstep) hrun
    · exact ⟨_, casStep_fails hr hcmp hstep⟩
  · exact ⟨cmp, by rw [systemStep_other hstep ht, hr]⟩

/-- If it expects the value that the cell has, it still does after a step with which nobody else changes that. -/
theorem casStep_expects {a : SystemAct T Op} (hr : s.running t = some ⟨op, n, .cas p (s.shared p.cell)⟩)
    (hstep : systemStep (casObject code) s a = some s') (hrun : s'.running t ≠ none)
    (hquiet : changes (casObject code) t p.cell s a = false) :
    s'.running t = some ⟨op, n, .cas p (s'.shared p.cell)⟩ := by
  rcases a.own_or_other t with ⟨op', rfl⟩ | ⟨b, rfl⟩ | ht
  · simp [systemStep, hr] at hstep
  · exact absurd (casStep_succeeds hr rfl hstep) hrun
  · have hsame : s'.shared p.cell = s.shared p.cell := by
      simpa [changes, ht, hstep] using hquiet
    rw [systemStep_other hstep ht, hr, hsame]

/-- A loop whose thread is scheduled as long as it runs ends if from some time on nobody else changes the cell
while it runs. -/
theorem cas_returns {state : Nat → CasSystem T V Op R} {act : Nat → Option (SystemAct T Op)}
    (h : Execution (systemStep (casObject code)) state act) (hr : (state 0).running t = some ⟨op, n, .cas p cmp⟩)
    (hfair : ∀ N, (state N).running t ≠ none → ∃ n b, N ≤ n ∧ act n = some (.step t b))
    (hquiet : ∃ N, ∀ n a, N ≤ n → (state n).running t ≠ none → act n = some a →
      changes (casObject code) t p.cell (state n) a = false) : ∃ n, (state n).running t = none := by
  by_contra hnever
  have hruns : ∀ n, (state n).running t ≠ none := fun n hn => hnever ⟨n, hn⟩
  obtain ⟨N, hquiet⟩ := hquiet
  have hstep : ∀ {n a}, act n = some a → systemStep (casObject code) (state n) a = some (state (n + 1)) := by
    intro n a ha
    have hn := h n
    rwa [ha] at hn
  -- the first compare-and-swap after the last change: it fails, and reads the value that stays
  obtain ⟨n₁, b₁, hn₁, hact₁⟩ := hfair N (hruns N)
  obtain ⟨cmp₁, hr₁⟩ := h.inv (P := fun s => ∃ cmp, s.running t = some ⟨op, n, .cas p cmp⟩) ⟨cmp, hr⟩
    (fun m a _ _ hm ⟨_, hr⟩ => casStep_runs hr hm (hruns _)) (Nat.zero_le n₁)
  have hr₂ : (state (n₁ + 1)).running t = some ⟨op, n, .cas p ((state (n₁ + 1)).shared p.cell)⟩ := by
    by_cases hcmp : (state n₁).shared p.cell = cmp₁
    · exact absurd (casStep_succeeds hr₁ hcmp (hstep hact₁)) (hruns _)
    · exact casStep_fails hr₁ hcmp (hstep hact₁)
  -- so the next one succeeds
  obtain ⟨n₂, b₂, hn₂, hact₂⟩ := hfair (n₁ + 1) (hruns _)
  have hr₃ := h.inv (P := fun s => s.running t = some ⟨op, n, .cas p (s.shared p.cell)⟩) hr₂
    (fun m a hm ha hs hr => casStep_expects hr hs (hruns _) (hquiet m a (by omega) (hruns m) ha)) hn₂
  exact hruns _ (casStep_succeeds hr₃ rfl (hstep hact₂))

end Cas

end OpenPA.Machine
