/-
`OPA_Interprocess_lock_init` and the critical sections of `opa_by_lock.h`, over a group of processes that
share one mutex: what a call leaves behind, whatever it returns, and which entries lock a mutex that has been
initialized.
-/
import OpenPA.Machine.Run
import Mathlib.Logic.Function.Basic
import Mathlib.Tactic.Common

namespace OpenPA.Atomic.LockInit

open OpenPA.Machine

/-! ## The processes and the mutex -/

/-- Where a process is: `init` before a pthread call of the leader, `done` once its call has returned, and
`inside` between `OPA_IPC_SINGLE_CS_ENTER` and `OPA_IPC_SINGLE_CS_EXIT`. -/
inductive Pc where
  | start
  | attrInit
  | attrSetpshared
  | mutexInit
  | ret (mpi_errno : Nat)
  | done (mpi_errno : Nat)
  | inside
  deriving DecidableEq

/-- What the call of the process has returned; a process runs primitives only after a 0. -/
def Pc.result : Pc → Option Nat
  | .done mpi_errno => some mpi_errno
  | .inside => some 0
  | _ => none

/-- The memory `shm_lock` points to; `raw` until `pthread_mutex_init` has succeeded. -/
inductive Mutex (T : Type) where
  | raw
  | free
  | held (t : T)
  deriving DecidableEq

structure State (T A : Type) where
  pc : T → Pc
  OPA_emulation_lock : T → Option A
  mutex : Mutex T
  /-- What the pthread calls of the leader have returned, in their order. -/
  pthread : List Int

inductive Act (T : Type) where
  | call (t : T)
  | pthread (rc : Int)
  | ret (t : T)
  | enter (t : T)
  | exit (t : T)

variable {T A : Type}

/-- No call yet: `OPA_emulation_lock` is `NULL` everywhere. -/
def State.init : State T A where
  pc _ := .start
  OPA_emulation_lock _ := none
  mutex := .raw
  pthread := []

variable [DecidableEq T]

def State.goto (s : State T A) (t : T) (pc : Pc) : State T A :=
  { s with pc := Function.update s.pc t pc }

/-- A call up to its first pthread call: `OPA_emulation_lock` is set before `isLeader` is looked at. -/
def call (leader : T) (shm_lock : T → A) (s : State T A) (t : T) : State T A :=
  { s with
    OPA_emulation_lock := Function.update s.OPA_emulation_lock t (some (shm_lock t))
    pc := Function.update s.pc t (if t = leader then .attrInit else .ret 0) }

/-- A pthread call of the leader returns `rc`; the three are joined by `||`, so the first that is not 0 is
the last. -/
def pthread (leader : T) (s : State T A) (rc : Int) : Option (State T A) :=
  let s' := { s with pthread := s.pthread ++ [rc] }
  match s.pc leader with
  | .attrInit => some (s'.goto leader (if rc ≠ 0 then .ret 16 else .attrSetpshared))
  | .attrSetpshared => some (s'.goto leader (if rc ≠ 0 then .ret 16 else .mutexInit))
  | .mutexInit =>
    if rc ≠ 0 then some (s'.goto leader (.ret 16))
    else some { s'.goto leader (.ret 0) with mutex := .free }
  | _ => none

/-- `OPA_IPC_SINGLE_CS_ENTER` of any primitive: `OPA_assert` is empty, and the mutex is locked. To lock a raw
mutex is undefined; here it does not keep the process out. -/
def enter (s : State T A) (t : T) : Option (State T A) :=
  match s.mutex with
  | .raw => some (s.goto t .inside)
  | .free => some { s.goto t .inside with mutex := .held t }
  | .held _ => none

/-- `OPA_IPC_SINGLE_CS_EXIT`. -/
def exit (s : State T A) (t : T) : State T A :=
  { s.goto t (.done 0) with mutex := if s.mutex = .held t then .free else s.mutex }

/-- One step of the group: every process calls `OPA_Interprocess_lock_init` once, the leader with `isLeader`,
and runs primitives when its call has returned 0. -/
def step (leader : T) (shm_lock : T → A) (s : State T A) : Act T → Option (State T A)
  | .call t => if s.pc t = .start then some (call leader shm_lock s t) else none
  | .pthread rc => pthread leader s rc
  | .ret t =>
    match s.pc t with
    | .ret mpi_errno => some (s.goto t (.done mpi_errno))
    | _ => none
  | .enter t => if s.pc t = .done 0 then enter s t else none
  | .exit t => if s.pc t = .inside then some (exit s t) else none

/-! ## What a step keeps -/

/-- Where the leader is, by what its pthread calls have returned. -/
def LeaderAt (pthread : List Int) : Pc → Prop
  | .start | .attrInit => pthread = []
  | .attrSetpshared => pthread = [0]
  | .mutexInit => pthread = [0, 0]
  | .ret mpi_errno | .done mpi_errno =>
    mpi_errno = 0 ∧ pthread = [0, 0, 0] ∨ mpi_errno = 16 ∧ ∃ rc ∈ pthread, rc ≠ 0
  | .inside => pthread = [0, 0, 0]

/-- Where the others can be. -/
def FollowerAt : Pc → Prop
  | .start | .inside => True
  | .ret mpi_errno | .done mpi_errno => mpi_errno = 0
  | _ => False

structure Inv (leader : T) (shm_lock : T → A) (s : State T A) : Prop where
  lock_set : ∀ t, s.pc t ≠ .start → s.OPA_emulation_lock t = some (shm_lock t)
  leader_at : LeaderAt s.pthread (s.pc leader)
  follower_at : ∀ t, t ≠ leader → FollowerAt (s.pc t)
  mutex_init : s.mutex ≠ .raw ↔ s.pthread = [0, 0, 0]

section Step

variable {leader : T} {shm_lock : T → A} {s s' : State T A} {t : T} {pc : Pc} {rc : Int}

/-- One process moves. Only the leader's pthread calls can initialize the mutex. -/
theorem Inv.move (h : Inv leader shm_lock s) (hpc : s'.pc = Function.update s.pc t pc)
    (hset : s'.OPA_emulation_lock t = some (shm_lock t))
    (hother : ∀ u, u ≠ t → s'.OPA_emulation_lock u = s.OPA_emulation_lock u)
    (hleader : t = leader → LeaderAt s'.pthread pc)
    (hfollower : t ≠ leader → s'.pthread = s.pthread ∧ FollowerAt pc)
    (hmutex : s'.mutex ≠ .raw ↔ s'.pthread = [0, 0, 0]) : Inv leader shm_lock s' := by
  constructor
  · intro u hu
    by_cases hut : u = t
    · rw [hut]
      exact hset
    · rw [hpc, Function.update_of_ne hut] at hu
      rw [hother u hut]
      exact h.lock_set u hu
  · by_cases ht : t = leader
    · rw [hpc, ← ht, Function.update_self]
      exact hleader ht
    · rw [hpc, Function.update_of_ne (Ne.symm ht), (hfollower ht).1]
      exact h.leader_at
  · intro u hu
    by_cases hut : u = t
    · subst hut
      rw [hpc, Function.update_self]
      exact (hfollower hu).2
    · rw [hpc, Function.update_of_ne hut]
      exact h.follower_at u hu
  · exact hmutex

theorem Inv.call (h : Inv leader shm_lock s) (hpc : s.pc t = .start) :
    Inv leader shm_lock (call leader shm_lock s t) := by
  refine h.move rfl (Function.update_self ..) (fun u hu => Function.update_of_ne hu ..) ?_ ?_ h.mutex_init
  · intro ht
    have hat := h.leader_at
    rw [← ht, hpc] at hat
    rw [if_pos ht]
    exact hat
  · intro ht
    rw [if_neg ht]
    exact ⟨rfl, rfl⟩

/-- A pthread call of the leader, from where `prev` have returned 0. -/
theorem Inv.leader_moves (h : Inv leader shm_lock s) {m : Mutex T} (hstart : s.pc leader ≠ .start)
    (hat : LeaderAt (s.pthread ++ [rc]) pc) (hm : m ≠ .raw ↔ s.pthread ++ [rc] = [0, 0, 0]) :
    Inv leader shm_lock { s.goto leader pc with pthread := s.pthread ++ [rc], mutex := m } := by
  refine h.move rfl (h.lock_set leader hstart) (fun _ _ => rfl) (fun _ => hat) ?_ hm
  intro hne
  exact absurd rfl hne

/-- A pthread call fails, and the ones before it did not. -/
theorem Inv.leader_fails (h : Inv leader shm_lock s) (hstart : s.pc leader ≠ .start) (hrc : rc ≠ 0)
    (hbefore : s.pthread ≠ [0, 0, 0]) :
    Inv leader shm_lock { s.goto leader (.ret 16) with pthread := s.pthread ++ [rc] } := by
  apply h.leader_moves hstart
  · exact Or.inr ⟨rfl, rc, by simp, hrc⟩
  · have hcalls : s.pthread ++ [rc] ≠ [0, 0, 0] := by
      intro hcalls
      have hlast := congrArg List.getLast? hcalls
      simp [hrc] at hlast
    exact iff_of_false (fun hm => hbefore (h.mutex_init.1 hm)) hcalls

theorem Inv.pthread (h : Inv leader shm_lock s) (hs : pthread leader s rc = some s') : Inv leader shm_lock s' := by
  have hat := h.leader_at
  -- until all three calls have returned 0 the mutex is not initialized
  have hraw : s.pthread ≠ [0, 0, 0] → s.mutex = .raw := by
    intro hne
    by_contra hm
    exact hne (h.mutex_init.1 hm)
  unfold LockInit.pthread at hs
  split at hs
  · rename_i hpc
    rw [hpc, LeaderAt] at hat
    cases hs
    split
    · exact h.leader_fails (by simp [hpc]) ‹_› (by simp [hat])
    · apply h.leader_moves (by simp [hpc]) <;> simp_all [LeaderAt]
  · rename_i hpc
    rw [hpc, LeaderAt] at hat
    cases hs
    split
    · exact h.leader_fails (by simp [hpc]) ‹_› (by simp [hat])
    · apply h.leader_moves (by simp [hpc]) <;> simp_all [LeaderAt]
  · rename_i hpc
    rw [hpc, LeaderAt] at hat
    split at hs
    · cases hs
      exact h.leader_fails (by simp [hpc]) ‹_› (by simp [hat])
    · cases hs
      apply h.leader_moves (by simp [hpc]) <;> simp_all [LeaderAt]
  · cases hs

omit [DecidableEq T] in
/-- A process whose call has returned 0 stays where it can be. -/
theorem Inv.result_zero (h : Inv leader shm_lock s) (hr : (s.pc t).result = some 0) :
    s.pc t ≠ .start ∧ (t = leader → s.pthread = [0, 0, 0]) := by
  constructor
  · intro hpc
    rw [hpc] at hr
    cases hr
  · intro ht
    have hat := h.leader_at
    rw [← ht] at hat
    revert hat
    cases hpc : s.pc t <;> simp_all [Pc.result, LeaderAt]

/-- Entries and exits: the mutex is locked and unlocked, and initialized it stays. -/
theorem Inv.lock_moves (h : Inv leader shm_lock s) {m : Mutex T} (hr : (s.pc t).result = some 0)
    (hpc : pc.result = some 0) (hm : m ≠ .raw ↔ s.mutex ≠ .raw) :
    Inv leader shm_lock { s.goto t pc with mutex := m } := by
  obtain ⟨hstart, hcalls⟩ := h.result_zero hr
  refine h.move rfl (h.lock_set t hstart) (fun _ _ => rfl) ?_ ?_ (hm.trans h.mutex_init)
  · intro ht
    cases pc <;> simp_all [Pc.result, LeaderAt, State.goto]
  · intro _
    refine ⟨rfl, ?_⟩
    cases pc <;> simp_all [Pc.result, FollowerAt]

theorem Inv.step (h : Inv leader shm_lock s) {a : Act T} (hs : step leader shm_lock s a = some s') :
    Inv leader shm_lock s' := by
  cases a with
  | call t =>
    obtain ⟨hpc, hs⟩ := Option.ite_none_right_eq_some.1 hs
    cases hs
    exact h.call hpc
  | pthread rc => exact h.pthread hs
  | ret t =>
    simp only [LockInit.step] at hs
    split at hs
    · rename_i hpc
      cases hs
      refine h.move rfl (h.lock_set t (by simp [hpc])) (fun _ _ => rfl) ?_ ?_ h.mutex_init
      · intro ht
        have hat := h.leader_at
        rw [← ht, hpc] at hat
        exact hat
      · intro ht
        have hat := h.follower_at t ht
        rw [hpc] at hat
        exact ⟨rfl, hat⟩
    · cases hs
  | enter t =>
    obtain ⟨hpc, hs⟩ := Option.ite_none_right_eq_some.1 hs
    have hr : (s.pc t).result = some 0 := by rw [hpc]; rfl
    unfold enter at hs
    split at hs
    · rename_i hm
      cases hs
      exact h.lock_moves hr rfl Iff.rfl
    · rename_i hm
      cases hs
      exact h.lock_moves hr rfl (by simp [hm])
    · cases hs
  | exit t =>
    obtain ⟨hpc, hs⟩ := Option.ite_none_right_eq_some.1 hs
    cases hs
    have hr : (s.pc t).result = some 0 := by rw [hpc]; rfl
    apply h.lock_moves hr rfl
    split
    · simp [*]
    · exact Iff.rfl

end Step

/-! ## Every run -/

section Run

variable {leader : T} {shm_lock : T → A} {s u : State T A} {t : T} {as bs : List (Act T)}

theorem inv_run (h : run (step leader shm_lock) s as = some u) (hs : Inv leader shm_lock s) : Inv leader shm_lock u :=
  run_inv (fun _ _ _ hs h => hs.step h) as hs h

omit [DecidableEq T] in
theorem Inv.init (leader : T) (shm_lock : T → A) : Inv leader shm_lock State.init where
  lock_set _ h := absurd rfl h
  leader_at := rfl
  follower_at _ _ := trivial
  mutex_init := by simp [State.init]

/-- Initialized once, the mutex stays so. -/
theorem step_initialized {a : Act T} (hm : s.mutex ≠ .raw) (h : step leader shm_lock s a = some u) :
    u.mutex ≠ .raw := by
  cases a with
  | call t =>
    obtain ⟨_, h⟩ := Option.ite_none_right_eq_some.1 h
    cases h
    exact hm
  | pthread rc =>
    simp only [step, pthread] at h
    split at h
    · cases h
      exact hm
    · cases h
      exact hm
    · split at h
      · cases h
        exact hm
      · cases h
        simp
    · cases h
  | ret t =>
    simp only [step] at h
    split at h
    · cases h
      exact hm
    · cases h
  | enter t =>
    obtain ⟨_, h⟩ := Option.ite_none_right_eq_some.1 h
    unfold enter at h
    split at h
    · exact absurd ‹_› hm
    · cases h
      simp
    · cases h
  | exit t =>
    obtain ⟨_, h⟩ := Option.ite_none_right_eq_some.1 h
    cases h
    unfold exit
    split
    · simp
    · exact hm

omit [DecidableEq T] in
/-- What a call returns: only the leader's can fail, and it does when one of its pthread calls has. -/
theorem Inv.result_ne_zero (h : Inv leader shm_lock s) {r : Nat} (hr : (s.pc t).result = some r) :
    r ≠ 0 ↔ t = leader ∧ ∃ rc ∈ s.pthread, rc ≠ 0 := by
  by_cases ht : t = leader
  · have hat := h.leader_at
    rw [← ht] at hat
    cases hpc : s.pc t with
    | inside =>
      rw [hpc] at hr hat
      cases hr
      simp_all [LeaderAt]
    | done mpi_errno =>
      rw [hpc] at hr hat
      cases hr
      obtain ⟨rfl, hcalls⟩ | ⟨rfl, hcalls⟩ := hat
      · simp [hcalls]
      · exact iff_of_true (by decide) ⟨ht, hcalls⟩
    | _ => simp [hpc, Pc.result] at hr
  · have hat := h.follower_at t ht
    cases hpc : s.pc t <;> simp_all [FollowerAt, Pc.result]

/-- After any run: a call leaves `OPA_emulation_lock` at `shm_lock` whatever it returns, and only the leader's
returns an error, when one of its pthread calls has failed. A process whose call has returned 0 never locks
`NULL`, and locks an initialized mutex exactly when the leader's pthread calls have all returned 0; once the
leader's call has returned 0, the mutex stays initialized. -/
theorem lock_init (leader : T) (shm_lock : T → A) (as : List (Act T)) (s : State T A)
    (h : run (step leader shm_lock) State.init as = some s) :
    (∀ t r, (s.pc t).result = some r →
      s.OPA_emulation_lock t = some (shm_lock t) ∧ (r ≠ 0 ↔ t = leader ∧ ∃ rc ∈ s.pthread, rc ≠ 0)) ∧
    (∀ t s', step leader shm_lock s (.enter t) = some s' →
      s.OPA_emulation_lock t = some (shm_lock t) ∧ (s.mutex ≠ .raw ↔ s.pthread = [0, 0, 0])) ∧
    ((s.pc leader).result = some 0 →
      ∀ bs u, run (step leader shm_lock) s bs = some u → u.mutex ≠ .raw) := by
  have hinv := inv_run h (Inv.init leader shm_lock)
  refine ⟨?_, ?_, ?_⟩
  · intro t r hr
    refine ⟨?_, hinv.result_ne_zero hr⟩
    apply hinv.lock_set t
    intro hpc
    rw [hpc] at hr
    cases hr
  · intro t s' hs'
    obtain ⟨hpc, _⟩ := Option.ite_none_right_eq_some.1 hs'
    exact ⟨hinv.lock_set t (by simp [hpc]), hinv.mutex_init⟩
  · intro hr bs u hu
    have hm : s.mutex ≠ .raw := hinv.mutex_init.2 ((hinv.result_zero hr).2 rfl)
    exact run_inv (fun _ _ _ hm h => step_initialized hm h) bs hm hu

/-- Two processes make their calls, the leader last. -/
def leaderLast : List (Act Bool) :=
  [.call false, .ret false, .call true, .pthread 0, .pthread 0, .pthread 0, .ret true]

theorem lock_init_demo : ∃ s u : State Bool Nat, run (step true fun _ => 64) State.init leaderLast = some s ∧
    run (step true fun _ => 64) s [.enter false, .exit false, .enter true] = some u ∧
    s.OPA_emulation_lock false = some 64 ∧ u.mutex ≠ .raw := by
  refine ⟨_, _, rfl, rfl, ?_, ?_⟩
  · exact ((lock_init true (fun _ => 64) leaderLast _ rfl).1 false 0 rfl).1
  · exact (lock_init true (fun _ => 64) leaderLast _ rfl).2.2 rfl [.enter false, .exit false, .enter true] _ rfl

/-- The leader's `pthread_mutexattr_init` fails, and `OPA_emulation_lock` is no longer `NULL`; the call of
another process has returned 0 before the leader begins its own, and its first primitive locks a mutex that
is not initialized. -/
theorem lock_init_leaves_lock :
    (State.init : State Bool Nat).OPA_emulation_lock true = none ∧
    ((run (step true fun _ => 64) State.init [.call true, .pthread 12, .ret true]).map fun s =>
      ((s.pc true).result, s.OPA_emulation_lock true)) = some (some 16, some 64) ∧
    ((run (step true fun _ => 64) State.init [.call false, .ret false]).map fun s =>
      ((s.pc false).result, s.mutex, (step true (fun _ => 64) s (.enter false)).isSome)) =
        some (some 0, .raw, true) := by
  decide

end Run

end OpenPA.Atomic.LockInit
