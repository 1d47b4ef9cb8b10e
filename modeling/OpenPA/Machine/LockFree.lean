/-
Lock-freedom. A measure says how many accesses a thread can make at most before some call returns: it shrinks with
every access of the thread that no return goes with, and does not grow with the steps of the others. Then, in any
window in which a thread makes that many accesses, some call returns, and where it makes infinitely many, infinitely
many calls do (`LockFree.window`, `LockFree.forever`). The retry loops of load-link and store-conditional and of
compare-and-swap have the measure 3 (`llsc_lockFree`, `casObject_lockFree`): without a return no cell changes and no
reservation is lost.
-/
import OpenPA.Machine.Progress

namespace OpenPA.Machine

variable {T S P L Op R Ret : Type} {V : L → Type}

/-! ## The measure -/

/-- The access does not fail spuriously. -/
def SystemAct.Steady : SystemAct T Op → Prop
  | .call _ _ => True
  | .step _ spurious => spurious = false

section Measure

variable [DecidableEq T]

/-- The accesses that thread `t` makes with an action. -/
def SystemAct.own (t : T) : SystemAct T Op → Nat
  | .call _ _ => 0
  | .step t' _ => if t' = t then 1 else 0

theorem steps_cons (t : T) (a : SystemAct T Op) (as : List (SystemAct T Op)) :
    steps t (a :: as) = a.own t + steps t as := by
  cases a with
  | call t' op => simp [steps, SystemAct.own]
  | step t' b =>
    by_cases ht : t' = t
    · simp [steps, SystemAct.own, ht, Nat.add_comm]
    · simp [steps, SystemAct.own, ht]

/-- What is to be shown of a measure, of steps that are good. -/
structure LockFree (O : Object T S P Op Ret) (good : SystemAct T Op → Prop) (bound : Nat)
    (left : System T S P Op Ret → T → Nat) : Prop where
  pos : ∀ s t, 0 < left s t
  le : ∀ s t, left s t ≤ bound
  step : ∀ s a s' t, systemStep O s a = some s' → good a → s'.done = s.done → left s' t + a.own t ≤ left s t

variable {O : Object T S P Op Ret} {good : SystemAct T Op → Prop} {bound : Nat} {left : System T S P Op Ret → T → Nat}
  {s s' : System T S P Op Ret} {t : T}

/-- A step adds one call to those that have returned, or none. -/
theorem systemStep_done {a : SystemAct T Op} (h : systemStep O s a = some s') :
    s'.done = s.done ∨ s'.done.length = s.done.length + 1 := by
  cases a with
  | call t op =>
    simp only [systemStep] at h
    split at h
    · cases h
      exact .inl rfl
    · cases h
  | step t flag =>
    simp only [systemStep, Option.map_eq_some_iff] at h
    obtain ⟨r, -, h⟩ := h
    split at h
    · subst h
      exact .inl rfl
    · subst h
      exact .inr (List.length_append ..)

/-- A step with which no call returns. -/
theorem systemStep_goesOn {b : Bool} (h : systemStep O s (.step t b) = some s') (hdone : s'.done = s.done) :
    ∃ r u p, s.running t = some r ∧ O.access t b r.pc s.shared = (u, .inl p) ∧ s'.shared = u ∧
      s'.running = Function.update s.running t (some { r with pc := p }) := by
  simp only [systemStep, Option.map_eq_some_iff] at h
  obtain ⟨r, hr, h⟩ := h
  split at h
  · rename_i u p hacc
    subst h
    exact ⟨r, u, p, hr, hacc, rfl, rfl⟩
  · subst h
    have hlen := congrArg List.length hdone
    simp at hlen

theorem systemStep_call {op : Op} (h : systemStep O s (.call t op) = some s') :
    s.running t = none ∧ s'.shared = s.shared ∧
      s'.running = Function.update s.running t (some ⟨op, s.clock, O.start op⟩) := by
  simp only [systemStep] at h
  split at h
  · rename_i hidle
    cases h
    exact ⟨hidle, rfl, rfl⟩
  · cases h

theorem run_done : ∀ (as : List (SystemAct T Op)) {s : System T S P Op Ret}, run (systemStep O) s as = some s' →
    s.done.length ≤ s'.done.length
  | [], s, h => by
    cases h
    exact Nat.le_refl _
  | a :: as, s, h => by
    obtain ⟨u, hu, h⟩ := run_cons_some.1 h
    have hle := run_done as h
    rcases systemStep_done hu with hdone | hdone
    · rw [← hdone]
      exact hle
    · omega

/-- Without a return, the accesses of a thread use up its measure. -/
theorem LockFree.steps_le (h : LockFree O good bound left) : ∀ (as : List (SystemAct T Op)) {s : System T S P Op Ret},
    run (systemStep O) s as = some s' → (∀ a ∈ as, good a) → s'.done.length = s.done.length →
      steps t as + left s' t ≤ left s t
  | [], s, hrun, _, _ => by
    cases hrun
    exact Nat.le_of_eq (Nat.zero_add _)
  | a :: as, s, hrun, hgood, hlen => by
    obtain ⟨u, hu, hrun⟩ := run_cons_some.1 hrun
    have hle := run_done as hrun
    rcases systemStep_done hu with hdone | hdone
    · have hstep := h.step s a u t hu (hgood a (List.mem_cons_self ..)) hdone
      have hrest := h.steps_le as hrun (fun b hb => hgood b (List.mem_cons_of_mem _ hb)) (by rw [hlen, hdone])
      rw [steps_cons]
      omega
    · omega

/-- In any window of good steps in which a thread makes as many accesses as the bound, some call returns. -/
theorem LockFree.window (h : LockFree O good bound left) {as : List (SystemAct T Op)}
    (hrun : run (systemStep O) s as = some s') (hgood : ∀ a ∈ as, good a) (hsteps : bound ≤ steps t as) :
    s.done.length < s'.done.length := by
  have hle := run_done as hrun
  by_contra hlt
  have hsteps' := h.steps_le (t := t) as hrun hgood (by omega)
  have hpos := h.pos s' t
  have hbound := h.le s t
  omega

/-- In an infinite execution in which a thread makes infinitely many accesses, and only finitely many steps are not
good, infinitely many calls return. -/
theorem LockFree.forever (h : LockFree O good bound left) {state : Nat → System T S P Op Ret}
    {act : Nat → Option (SystemAct T Op)} (hexec : Execution (systemStep O) state act)
    (hoften : ∀ N, ∃ n b, N ≤ n ∧ act n = some (.step t b)) (hgood : ∃ N, ∀ n a, N ≤ n → act n = some a → good a)
    (k : Nat) : ∃ n, k ≤ (state n).done.length := by
  obtain ⟨N, hgood⟩ := hgood
  have hmono : ∀ {n m}, n ≤ m → (state n).done.length ≤ (state m).done.length := by
    intro n m hnm
    refine hexec.inv (P := fun s => (state n).done.length ≤ s.done.length) (Nat.le_refl _) ?_ hnm
    intro m a _ _ hstep hle
    rcases systemStep_done hstep with hdone | hdone <;> rw [hdone] <;> omega
  -- as long as no call returns, the measure does not grow
  have hkeep : ∀ {n m}, N ≤ n → n ≤ m → (state n).done.length < (state m).done.length ∨
      (state m).done.length = (state n).done.length ∧ left (state m) t ≤ left (state n) t := by
    intro n m hn hnm
    refine hexec.inv (P := fun s => (state n).done.length < s.done.length ∨
      s.done.length = (state n).done.length ∧ left s t ≤ left (state n) t) (.inr ⟨rfl, Nat.le_refl _⟩) ?_ hnm
    rintro m a hm hact hstep (hlt | ⟨hlen, hle⟩)
    · left
      rcases systemStep_done hstep with hdone | hdone <;> rw [hdone] <;> omega
    · rcases systemStep_done hstep with hdone | hdone
      · right
        have hown := h.step _ _ _ t hstep (hgood m a (by omega) hact) hdone
        rw [hdone]
        exact ⟨hlen, by omega⟩
      · left
        omega
  have hnext : ∀ d n, N ≤ n → left (state n) t ≤ d → ∃ m, n ≤ m ∧ (state n).done.length < (state m).done.length := by
    intro d
    induction d with
    | zero =>
      intro n _ hd
      have hpos := h.pos (state n) t
      omega
    | succ d ih =>
      intro n hn hd
      obtain ⟨m, b, hm, hact⟩ := hoften n
      have hstep := hexec m
      rw [hact] at hstep
      rcases hkeep hn hm with hlt | ⟨hlen, hle⟩
      · exact ⟨m, hm, hlt⟩
      rcases systemStep_done hstep with hdone | hdone
      · have hown := h.step _ _ _ t hstep (hgood m _ (by omega) hact) hdone
        rw [SystemAct.own, if_pos rfl] at hown
        obtain ⟨i, hi, hlt⟩ := ih (m + 1) (by omega) (by omega)
        rw [hdone, hlen] at hlt
        exact ⟨i, by omega, hlt⟩
      · exact ⟨m + 1, by omega, by omega⟩
  induction k with
  | zero => exact ⟨0, Nat.zero_le _⟩
  | succ k ih =>
    obtain ⟨n, hn⟩ := ih
    obtain ⟨m, hm, hlt⟩ := hnext _ (max N n) (Nat.le_max_left ..) (Nat.le_refl _)
    have hle := hmono (Nat.le_max_right N n)
    exact ⟨m, by omega⟩

end Measure

/-! ## The loops -/

section Llsc

variable [DecidableEq T] [DecidableEq L]

/-- At a store-conditional whose reservation is lost, a thread makes that access, and the loop once. -/
def llscLeft (u : Linked T L V) (t : T) : Option (Running (LlscPc L V R) Op) → Nat
  | none => 3
  | some ⟨_, _, .once _⟩ => 1
  | some ⟨_, _, .ll _⟩ => 2
  | some ⟨_, _, .sc p _⟩ => if u.valid t p.cell then 1 else 3

omit [DecidableEq T] [DecidableEq L] in
theorem llscLeft_bounds (u : Linked T L V) (t : T) (x : Option (Running (LlscPc L V R) Op)) :
    0 < llscLeft u t x ∧ llscLeft u t x ≤ 3 := by
  unfold llscLeft
  constructor
  · split <;> try split
    all_goals omega
  · split <;> try split
    all_goals omega

omit [DecidableEq T] [DecidableEq L] in
/-- The measure only depends on the thread's reservations. -/
theorem llscLeft_congr {u u' : Linked T L V} {t : T} (h : u'.valid t = u.valid t)
    (x : Option (Running (LlscPc L V R) Op)) : llscLeft u' t x = llscLeft u t x := by
  rcases x with _ | ⟨op, n, p | p | ⟨p, prev⟩⟩
  · rfl
  · rfl
  · rfl
  · unfold llscLeft
    rw [h]

/-- An access with which the call goes on keeps the reservations of the others, and brings the thread nearer to a
return. -/
theorem LlscPc.access_left {u u' : Linked T L V} {t : T} {r : Running (LlscPc L V R) Op} {pc : LlscPc L V R}
    (h : r.pc.access t false u = (u', .inl pc)) :
    llscLeft u' t (some { r with pc := pc }) < llscLeft u t (some r) ∧ ∀ t', t' ≠ t → u'.valid t' = u.valid t' := by
  obtain ⟨op, n, p | p | ⟨p, prev⟩⟩ := r
  · cases h
  · simp only [LlscPc.access] at h
    split at h
    · cases h
      constructor
      · simp [llscLeft, Linked.ll]
      · intro t' ht
        funext l
        simp [Linked.ll, ht]
    · cases h
  · by_cases hv : (u.valid t p.cell && !false) = true
    · rw [LlscPc.access_stores hv] at h
      cases h
    · rw [LlscPc.access_fails hv] at h
      cases h
      have hlost : u.valid t p.cell = false := by simpa using hv
      exact ⟨by simp [llscLeft, hlost], fun _ _ => rfl⟩

/-- Load-link/store-conditional loops are lock-free. -/
theorem llsc_lockFree (code : Op → Code L V R) :
    LockFree (llscObject (T := T) code) SystemAct.Steady 3 fun s t => llscLeft s.shared t (s.running t) where
  pos s t := (llscLeft_bounds ..).1
  le s t := (llscLeft_bounds ..).2
  step s a s' t hstep hgood hdone := by
    cases a with
    | call t' op =>
      obtain ⟨hidle, hshared, hrunning⟩ := systemStep_call hstep
      rw [hshared, hrunning]
      by_cases ht : t = t'
      · subst ht
        rw [hidle]
        exact (llscLeft_bounds ..).2
      · rw [Function.update_of_ne ht]
        exact Nat.le_refl _
    | step t' b =>
      obtain rfl : b = false := hgood
      obtain ⟨r, u, pc, hr, hacc, hshared, hrunning⟩ := systemStep_goesOn hstep hdone
      obtain ⟨hless, hother⟩ := LlscPc.access_left hacc
      rw [hshared, hrunning]
      by_cases ht : t = t'
      · subst ht
        rw [Function.update_self, hr, SystemAct.own, if_pos rfl]
        exact hless
      · rw [Function.update_of_ne ht, llscLeft_congr (hother t ht), SystemAct.own, if_neg (Ne.symm ht)]
        exact Nat.le_refl _

end Llsc

section Cas

variable [DecidableEq T] [DecidableEq L] [∀ l, DecidableEq (V l)]

/-- At a compare-and-swap that expects another value than the cell has, a thread makes that access, and another one. -/
def casLeft (m : (l : L) → V l) : Option (Running (CasPc L V R) Op) → Nat
  | none => 3
  | some ⟨_, _, .once _⟩ => 1
  | some ⟨_, _, .load _⟩ => 2
  | some ⟨_, _, .cas p cmp⟩ => if m p.cell = cmp then 1 else 2

omit [DecidableEq L] in
theorem casLeft_bounds (m : (l : L) → V l) (x : Option (Running (CasPc L V R) Op)) :
    0 < casLeft m x ∧ casLeft m x ≤ 3 := by
  unfold casLeft
  constructor
  · split <;> try split
    all_goals omega
  · split <;> try split
    all_goals omega

/-- An access with which the call goes on changes no cell, and brings the thread nearer to a return. -/
theorem CasPc.access_left {m m' : (l : L) → V l} {r : Running (CasPc L V R) Op} {pc : CasPc L V R}
    (h : r.pc.access m = (m', .inl pc)) : casLeft m' (some { r with pc := pc }) < casLeft m (some r) ∧ m' = m := by
  obtain ⟨op, n, p | p | ⟨p, cmp⟩⟩ := r
  · cases h
  · cases h
    exact ⟨by simp [casLeft], rfl⟩
  · simp only [CasPc.access] at h
    by_cases hp : m p.cell = cmp
    · rw [if_neg (not_not.2 hp)] at h
      cases h
    · rw [if_pos hp, if_neg hp] at h
      cases h
      exact ⟨by simp [casLeft, hp], rfl⟩

/-- Compare-and-swap loops are lock-free. -/
theorem casObject_lockFree (code : Op → Code L V R) :
    LockFree (casObject (T := T) code) (fun _ => True) 3 fun s t => casLeft s.shared (s.running t) where
  pos s t := (casLeft_bounds ..).1
  le s t := (casLeft_bounds ..).2
  step s a s' t hstep hgood hdone := by
    cases a with
    | call t' op =>
      obtain ⟨hidle, hshared, hrunning⟩ := systemStep_call hstep
      rw [hshared, hrunning]
      by_cases ht : t = t'
      · subst ht
        rw [hidle]
        exact (casLeft_bounds ..).2
      · rw [Function.update_of_ne ht]
        exact Nat.le_refl _
    | step t' b =>
      obtain ⟨r, m, pc, hr, hacc, hshared, hrunning⟩ := systemStep_goesOn hstep hdone
      obtain ⟨hless, hsame⟩ := CasPc.access_left hacc
      rw [hshared, hrunning]
      by_cases ht : t = t'
      · subst ht
        rw [Function.update_self, hr, SystemAct.own, if_pos rfl]
        exact hless
      · rw [Function.update_of_ne ht, hsame, SystemAct.own, if_neg (Ne.symm ht)]
        exact Nat.le_refl _

end Cas

end OpenPA.Machine
