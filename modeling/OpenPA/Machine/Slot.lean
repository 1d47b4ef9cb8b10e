/-
One memory cell under store buffering: the value in memory and, for each thread, the values that
thread has stored and that have not reached memory yet, oldest first. Stores of one thread to one
cell reach memory in the order they were issued; a thread reads its own newest pending store.
-/
import Mathlib.Logic.Function.Basic
import Mathlib.Data.List.Basic

namespace OpenPA.Machine

variable {T V : Type}

/-- A cell: its value in memory and the pending values of each thread. -/
@[ext] structure Slot (T V : Type) where
  mem : V
  pend : T → List V

namespace Slot

/-- What thread `t` reads. -/
def view (s : Slot T V) (t : T) : V := (s.pend t).getLastD s.mem

/-- No store to the cell is pending. -/
def Clean (s : Slot T V) : Prop := ∀ t, s.pend t = []

/-- Only `t` may have pending stores to the cell. -/
def Only (s : Slot T V) (t : T) : Prop := ∀ t', t' ≠ t → s.pend t' = []

/-- An atomic write to memory. -/
def write (s : Slot T V) (v : V) : Slot T V := { s with mem := v }

@[simp] theorem write_mem (s : Slot T V) (v : V) : (s.write v).mem = v := rfl
@[simp] theorem write_pend (s : Slot T V) (v : V) : (s.write v).pend = s.pend := rfl

/-! ## Who may write the cell -/

theorem Clean.only {s : Slot T V} (h : s.Clean) (t : T) : s.Only t := fun t' _ => h t'

theorem Clean.view {s : Slot T V} (h : s.Clean) (t : T) : s.view t = s.mem := by
  simp [Slot.view, h t]

theorem Clean.write {s : Slot T V} (h : s.Clean) (v : V) : (s.write v).Clean := h

/-- A cell that only `t` writes is clean once nothing of `t` is pending. -/
theorem Only.clean {s : Slot T V} {t : T} (h : s.Only t) (ht : s.pend t = []) : s.Clean := by
  intro t'
  by_cases e : t' = t
  · rw [e, ht]
  · exact h t' e

/-- A thread that is not the cell's writer reads memory. -/
theorem Only.view_ne {s : Slot T V} {t t' : T} (h : s.Only t) (ht : t' ≠ t) : s.view t' = s.mem := by
  simp [Slot.view, h t' ht]

theorem Clean.not_pending {s : Slot T V} (h : s.Clean) {t : T} {v : V} {rest : List V} :
    s.pend t ≠ v :: rest := by
  rw [h t]; simp

/-- Only the cell's writer has a store that can reach memory. -/
theorem Only.pending {s : Slot T V} {t t' : T} (h : s.Only t) {v : V} {rest : List V}
    (hp : s.pend t' = v :: rest) : t' = t := by
  by_contra e
  rw [h t' e] at hp; cases hp

/-! ## Issuing a store, and a store reaching memory -/

section Update

variable [DecidableEq T]

/-- Thread `t` stores `v`. -/
def issue (s : Slot T V) (t : T) (v : V) : Slot T V :=
  { s with pend := Function.update s.pend t (s.pend t ++ [v]) }

/-- The value `v`, thread `t`'s oldest, reaches memory and leaves `rest` pending. -/
def commit (t : T) (v : V) (rest : List V) (s : Slot T V) : Slot T V :=
  { mem := v, pend := Function.update s.pend t rest }

@[simp] theorem issue_mem (s : Slot T V) (t : T) (v : V) : (s.issue t v).mem = s.mem := rfl
@[simp] theorem commit_mem (t : T) (v : V) (rest : List V) (s : Slot T V) : (commit t v rest s).mem = v := rfl

@[simp] theorem issue_pend_self (s : Slot T V) (t : T) (v : V) : (s.issue t v).pend t = s.pend t ++ [v] := by
  simp [issue]

theorem issue_pend_ne (s : Slot T V) {t t' : T} (v : V) (h : t' ≠ t) : (s.issue t v).pend t' = s.pend t' := by
  simp [issue, h]

@[simp] theorem commit_pend_self (t : T) (v : V) (rest : List V) (s : Slot T V) :
    (commit t v rest s).pend t = rest := by
  simp [commit]

theorem commit_pend_ne {t t' : T} (v : V) (rest : List V) (s : Slot T V) (h : t' ≠ t) :
    (commit t v rest s).pend t' = s.pend t' := by
  simp [commit, h]

@[simp] theorem issue_view_self (s : Slot T V) (t : T) (v : V) : (s.issue t v).view t = v := by
  simp [view]

theorem issue_view_ne (s : Slot T V) {t t' : T} (v : V) (h : t' ≠ t) : (s.issue t v).view t' = s.view t' := by
  simp [view, issue_pend_ne s v h]

theorem commit_view_ne {t t' : T} (v : V) {rest : List V} {s : Slot T V} (h : t' ≠ t) :
    (commit t v rest s).view t' = (s.pend t').getLastD v := by
  simp [view, commit_pend_ne v rest s h]

theorem Only.issue {s : Slot T V} {t : T} (h : s.Only t) (v : V) : (s.issue t v).Only t :=
  fun t' ht => (issue_pend_ne s v ht).trans (h t' ht)

theorem Only.commit {s : Slot T V} {t t' : T} (h : s.Only t) {v : V} {rest : List V}
    (hp : s.pend t' = v :: rest) : (Slot.commit t' v rest s).Only t := by
  have := h.pending hp; subst this
  intro t'' ht
  rw [commit_pend_ne v rest s ht]; exact h t'' ht

/-- A thread's own store reaching memory does not change what it reads. -/
theorem commit_view_self {s : Slot T V} {t : T} {v : V} {rest : List V} (hp : s.pend t = v :: rest) :
    (commit t v rest s).view t = s.view t := by
  simp only [view, commit_pend_self, commit_mem, hp, List.getLastD_cons]

/-- In a cell that only `t` writes, a store reaching memory does not change what `t` reads. -/
theorem Only.commit_view {s : Slot T V} {t t' : T} (h : s.Only t) {v : V} {rest : List V}
    (hp : s.pend t' = v :: rest) : (Slot.commit t' v rest s).view t = s.view t := by
  have := h.pending hp; subst this
  exact commit_view_self hp

end Update

end Slot

end OpenPA.Machine
