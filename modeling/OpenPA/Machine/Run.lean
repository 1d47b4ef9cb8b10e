/-
Runs of a partial transition function: the state a schedule leads to, the inductions that carry an
invariant along a run and that count its steps, and how a map that commutes with every step relates the
runs of one machine to those of another.
-/
import Mathlib.Data.Option.Basic
import Mathlib.Data.List.Basic

namespace OpenPA.Machine

variable {σ τ α β : Type}

/-- The state after a schedule; `none` when some action of it is not enabled. -/
def run (step : σ → α → Option σ) : σ → List α → Option σ
  | s, [] => some s
  | s, a :: as => (step s a).bind fun s' => run step s' as

@[simp] theorem run_nil (step : σ → α → Option σ) (s : σ) : run step s [] = some s := rfl

@[simp] theorem run_cons (step : σ → α → Option σ) (s : σ) (a : α) (as : List α) :
    run step s (a :: as) = (step s a).bind fun s' => run step s' as := rfl

theorem run_append (step : σ → α → Option σ) :
    ∀ (as bs : List α) (s : σ), run step s (as ++ bs) = (run step s as).bind fun s' => run step s' bs
  | [], bs, s => rfl
  | a :: as, bs, s => by
    simp only [List.cons_append, run_cons, Option.bind_assoc]
    congr 1; funext s'
    exact run_append step as bs s'

theorem run_append_some {step : σ → α → Option σ} {as bs : List α} {s s' : σ} :
    run step s (as ++ bs) = some s' ↔ ∃ u, run step s as = some u ∧ run step u bs = some s' := by
  rw [run_append, Option.bind_eq_some_iff]

theorem run_cons_some {step : σ → α → Option σ} {a : α} {as : List α} {s s' : σ} :
    run step s (a :: as) = some s' ↔ ∃ u, step s a = some u ∧ run step u as = some s' := by
  rw [run_cons, Option.bind_eq_some_iff]

/-- An invariant of every step holds after every run. -/
theorem run_inv {step : σ → α → Option σ} {P : σ → Prop}
    (hstep : ∀ s a s', P s → step s a = some s' → P s') :
    ∀ (as : List α) {s s' : σ}, P s → run step s as = some s' → P s'
  | [], s, s', hs, h => by cases h; exact hs
  | a :: as, s, s', hs, h => by
    obtain ⟨u, hu, h⟩ := run_cons_some.1 h
    exact run_inv hstep as (hstep s a u hs hu) h

/-- Every step of the run from `s` under the schedule meets `G`. -/
def Along (step : σ → α → Option σ) (G : σ → α → Prop) : σ → List α → Prop
  | _, [] => True
  | s, a :: as => G s a ∧ ∀ s', step s a = some s' → Along step G s' as

instance Along.decidable {step : σ → α → Option σ} {G : σ → α → Prop} [∀ s a, Decidable (G s a)] :
    ∀ (s : σ) (as : List α), Decidable (Along step G s as)
  | _, [] => isTrue trivial
  | s, a :: as =>
    match h : step s a with
    | none => decidable_of_iff (G s a) ⟨fun hG => ⟨hG, by simp [h]⟩, And.left⟩
    | some u =>
      have : Decidable (Along step G u as) := Along.decidable u as
      decidable_of_iff (G s a ∧ Along step G u as) (by simp [Along, h])

/-- A condition on the actions alone. -/
theorem Along.of_forall {step : σ → α → Option σ} {G : α → Prop} :
    ∀ (as : List α) (s : σ), (∀ a ∈ as, G a) → Along step (fun _ a => G a) s as
  | [], _, _ => trivial
  | a :: as, _, h => ⟨h a (List.mem_cons_self ..),
      fun s' _ => of_forall as s' fun b hb => h b (List.mem_cons_of_mem _ hb)⟩

/-- An invariant of the steps that meet `G` holds after every run whose steps all do. -/
theorem run_inv_along {step : σ → α → Option σ} {G : σ → α → Prop} {P : σ → Prop}
    (hstep : ∀ s a s', P s → G s a → step s a = some s' → P s') :
    ∀ (as : List α) {s s' : σ}, P s → Along step G s as → run step s as = some s' → P s'
  | [], s, s', hs, _, h => by cases h; exact hs
  | a :: as, s, s', hs, hG, h => by
    obtain ⟨u, hu, h⟩ := run_cons_some.1 h
    exact run_inv_along hstep as (hstep s a u hs hG.1 hu) (hG.2 u hu) h

/-- The number of steps of the run from `s` under the schedule that meet `f`. -/
def countAlong (step : σ → α → Option σ) (f : σ → α → Bool) : σ → List α → Nat
  | _, [] => 0
  | s, a :: as =>
    (if f s a then 1 else 0) + match step s a with
      | none => 0
      | some s' => countAlong step f s' as

/-- A measure that grows by one with the steps that meet `f`, and with no others, counts them. -/
theorem run_count {step : σ → α → Option σ} {f : σ → α → Bool} {P : σ → Prop} {m : σ → Nat}
    (hstep : ∀ s a s', P s → step s a = some s' → P s' ∧ m s' = m s + if f s a then 1 else 0) :
    ∀ (as : List α) {s s' : σ}, P s → run step s as = some s' → m s' = m s + countAlong step f s as
  | [], s, s', _, h => by
    cases h
    rfl
  | a :: as, s, s', hs, h => by
    obtain ⟨u, hu, h⟩ := run_cons_some.1 h
    obtain ⟨hPu, hm⟩ := hstep s a u hs hu
    have hcount : countAlong step f s (a :: as) = (if f s a then 1 else 0) + countAlong step f u as := by
      rw [countAlong, hu]
    rw [run_count hstep as hPu h, hm, hcount, Nat.add_assoc]

/-- A relation to the start that every step keeps: what only grows along a run. -/
theorem run_mono {step : σ → α → Option σ} {R : σ → σ → Prop} (hrefl : ∀ s, R s s)
    (htrans : ∀ {a b c}, R a b → R b c → R a c) (hstep : ∀ s a s', step s a = some s' → R s s') :
    ∀ (as : List α) {s s' : σ}, run step s as = some s' → R s s'
  | [], s, s', h => by cases h; exact hrefl s
  | a :: as, s, s', h => by
    obtain ⟨u, hu, h⟩ := run_cons_some.1 h
    exact htrans (hstep s a u hu) (run_mono hrefl htrans hstep as h)

/-- A map of states and actions that commutes with every step commutes with every run. -/
theorem run_map {step : σ → α → Option σ} {step' : τ → β → Option τ} (f : σ → τ) (g : α → β)
    (hstep : ∀ s a, step' (f s) (g a) = (step s a).map f) :
    ∀ (as : List α) (s : σ), run step' (f s) (as.map g) = (run step s as).map f
  | [], s => rfl
  | a :: as, s => by
    rw [List.map_cons, run_cons, hstep, run_cons]
    cases step s a with
    | none => rfl
    | some u => simpa using run_map f g hstep as u

/-- What holds along the image of a run holds along the run. -/
theorem Along.of_map {step : σ → α → Option σ} {step' : τ → β → Option τ} {G : σ → α → Prop} {G' : τ → β → Prop}
    (f : σ → τ) (g : α → β) (hstep : ∀ s a, step' (f s) (g a) = (step s a).map f)
    (hG : ∀ s a, G' (f s) (g a) → G s a) :
    ∀ (as : List α) (s : σ), Along step' G' (f s) (as.map g) → Along step G s as
  | [], _, _ => trivial
  | a :: as, s, h => by
    constructor
    · exact hG s a h.1
    · intro s' hs'
      apply Along.of_map f g hstep hG as s'
      apply h.2
      rw [hstep, hs']; rfl

/-! ## Infinite executions -/

/-- An infinite execution; it may pause, so it may also end. -/
def Execution (step : σ → α → Option σ) (state : Nat → σ) (act : Nat → Option α) : Prop :=
  ∀ n, match act n with
    | none => state (n + 1) = state n
    | some a => step (state n) a = some (state (n + 1))

/-- What every step from `N` on keeps holds from `N` on. -/
theorem Execution.inv {step : σ → α → Option σ} {state : Nat → σ} {act : Nat → Option α}
    (h : Execution step state act) {P : σ → Prop} {N : Nat} (hN : P (state N))
    (hstep : ∀ n a, N ≤ n → act n = some a → step (state n) a = some (state (n + 1)) → P (state n) →
      P (state (n + 1))) {n : Nat} (hn : N ≤ n) : P (state n) := by
  induction hn with
  | refl => exact hN
  | @step n hn ih =>
    have hstate := h n
    cases hact : act n with
    | none =>
      rw [hact] at hstate
      rw [hstate]
      exact ih
    | some a =>
      rw [hact] at hstate
      exact hstep n a hn hact hstate ih

/-- Every step lowers a rank or changes nothing, and until all threads have left one of them can only lower it. Then
they leave, if each makes further steps until it has. -/
theorem Execution.ends {state : Nat → σ} {act : Nat → Option α} (h : Execution step state act) {P : σ → Prop}
    {rank : σ → Nat} {thread : α → τ} {left : σ → τ → Prop} (hP : P (state 0))
    (hstep : ∀ s a s', P s → step s a = some s' → P s' ∧ (s' = s ∨ rank s' < rank s))
    (hlower : ∀ s, P s → (∃ t, ¬left s t) →
      ∃ t, ¬left s t ∧ ∀ a s', thread a = t → step s a = some s' → rank s' < rank s)
    (hfair : ∀ t N, ∃ n, N ≤ n ∧ (left (state n) t ∨ ∃ a, act n = some a ∧ thread a = t)) :
    ∃ n, ∀ t, left (state n) t := by
  have hall : ∀ n, P (state n) := fun n =>
    h.inv hP (fun n a _ _ hs hn => (hstep (state n) a _ hn hs).1) (Nat.zero_le n)
  have hsame : ∀ N n, N ≤ n → state n = state N ∨ ∃ m, rank (state m) < rank (state N) := by
    intro N n hn
    induction hn with
    | refl => exact .inl rfl
    | @step n hn ih =>
      rcases ih with ih | ih
      · have hexec := h n
        cases ha : act n with
        | none =>
          rw [ha] at hexec
          exact .inl (hexec.trans ih)
        | some a =>
          rw [ha] at hexec
          rcases (hstep (state n) a _ (hall n) hexec).2 with heq | hlt
          · exact .inl (heq.trans ih)
          · exact .inr ⟨n + 1, ih ▸ hlt⟩
      · exact .inr ih
  -- by induction on the rank: while it stays, so does the state, and the thread that can only lower it makes a step
  suffices hends : ∀ r N, rank (state N) = r → ∃ n, ∀ t, left (state n) t from hends _ 0 rfl
  intro r
  induction r using Nat.strongRecOn with
  | ind r ih =>
    rintro N rfl
    by_cases hleft : ∃ t, ¬left (state N) t
    · obtain ⟨t, ht, hlt⟩ := hlower (state N) (hall N) hleft
      obtain ⟨n, hn, hmoves⟩ := hfair t N
      rcases hsame N n hn with heq | ⟨m, hm⟩
      · rw [heq] at hmoves
        obtain ⟨a, ha, hthread⟩ := hmoves.resolve_left ht
        have hexec := h n
        rw [ha, heq] at hexec
        exact ih _ (hlt a _ hthread hexec) (n + 1) rfl
      · exact ih _ hm m rfl
    · exact ⟨N, fun t => Classical.not_not.1 fun ht => hleft ⟨t, ht⟩⟩

/-! ## By itself -/

/-- Repeat a step until `done`, with at most `fuel` tests, and note `obs` at each state left behind. -/
def solo (step : σ → Option σ) (done : σ → Bool) (obs : σ → β) : Nat → σ → Option (List β × σ)
  | 0, _ => none
  | fuel + 1, s =>
    if done s then some ([], s)
    else (step s).bind fun s' => (solo step done obs fuel s').map fun r => (obs s :: r.1, r.2)

section Solo

variable {step : σ → Option σ} {done : σ → Bool} {obs : σ → β} {s s' u : σ} {l : List β} {n : Nat}

theorem solo_done (h : done s = true) : solo step done obs (n + 1) s = some ([], s) := by
  simp [solo, h]

theorem solo_step (h : done s = false) (hs : step s = some s') (hr : solo step done obs n s' = some (l, u)) :
    solo step done obs (n + 1) s = some (obs s :: l, u) := by
  simp [solo, h, hs, hr]

/-- More fuel does not change the result. -/
theorem solo_mono : ∀ {n m : Nat} {s : σ} {r : List β × σ}, solo step done obs n s = some r → n ≤ m →
    solo step done obs m s = some r
  | n + 1, m + 1, s, r, h, hm => by
    unfold solo at h ⊢
    split
    · rename_i hd; rw [if_pos hd] at h; exact h
    · rename_i hd
      rw [if_neg hd] at h
      obtain ⟨s', hs', h⟩ := Option.bind_eq_some_iff.1 h
      obtain ⟨r', hr, h⟩ := Option.map_eq_some_iff.1 h
      rw [hs', Option.bind_some, solo_mono hr (Nat.le_of_succ_le_succ hm)]
      exact congrArg some h

end Solo

end OpenPA.Machine
