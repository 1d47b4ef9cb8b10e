/-
An operation on a queue run by itself, without the other threads: what it returns, the accesses it passes and the
memory it leaves, when the elements of the queue are linked in memory from front to back (`Laid`).
-/
import OpenPA.Machine.Path
import OpenPA.Queue.Rebase

namespace OpenPA.Queue

open OpenPA.Machine

variable {w : Nat}

/-! ## Operations by themselves -/

/-- Run an operation to its return, with at most `fuel` accesses. -/
def runStmts {P R : Type} (code : P → Stmt w P R) : Nat → (Cell w → Word w) → P → Option ((Cell w → Word w) × R)
  | 0, _, _ => none
  | fuel + 1, m, p =>
    match (code p).next ((code p).access.exec m).2 with
    | .inl p' => runStmts code fuel ((code p).access.exec m).1 p'
    | .inr ret => some (((code p).access.exec m).1, ret)

/-- The accesses it passes. -/
def pathStmts {P R : Type} (code : P → Stmt w P R) : Nat → (Cell w → Word w) → P → List P
  | 0, _, _ => []
  | fuel + 1, m, p =>
    match (code p).next ((code p).access.exec m).2 with
    | .inl p' => p :: pathStmts code fuel ((code p).access.exec m).1 p'
    | .inr _ => [p]

/-- A control point in the busy wait of a dequeue. -/
def Pc.waits : Pc w → Bool
  | .dequeue (.busyWait ..) => true
  | _ => false

/-! ## The elements in memory -/

/-- The elements of `l` are linked in memory, from the one that `head` or `shadow_head` holds to the one
that `tail` holds. -/
structure Laid (m : Cell w → Word w) (q : Word w) (l : List (Word w)) : Prop where
  nz : ∀ e ∈ l, e ≠ 0#w
  nodup : l.Nodup
  links : Path (fun e => if m ⟨.next, e⟩ = 0#w then none else some (m ⟨.next, e⟩)) l
  tail : m ⟨.tail, q⟩ = l.getLastD 0#w
  front : (m ⟨.shadowHead, q⟩ = 0#w ∧ m ⟨.head, q⟩ = l.headD 0#w) ∨
    (m ⟨.shadowHead, q⟩ = l.headD 0#w ∧ m ⟨.head, q⟩ = 0#w)

/-! ## The operations on a queue that is laid out in memory -/

section

variable {q : Word w} {m : Cell w → Word w} {l : List (Word w)}

/-- Whichever field holds the front, the queue is empty when both are null. -/
theorem Laid.front_null (hL : Laid m q l) : (m ⟨.shadowHead, q⟩ = 0#w ∧ m ⟨.head, q⟩ = 0#w) ↔ l = [] := by
  constructor
  · rintro ⟨hs, hh⟩
    cases l with
    | nil => rfl
    | cons x l =>
      have hx : x ≠ 0#w := hL.nz x (List.mem_cons_self ..)
      rcases hL.front with ⟨-, h⟩ | ⟨h, -⟩
      · exact absurd (h.symm.trans hh) hx
      · exact absurd (h.symm.trans hs) hx
  · rintro rfl
    rcases hL.front with ⟨hs, hh⟩ | ⟨hs, hh⟩
    · exact ⟨hs, hh⟩
    · exact ⟨hs, hh⟩

/-- The front leads to the next element, or nowhere. -/
theorem Laid.next_front {x : Word w} (hL : Laid m q (x :: l)) : m ⟨.next, x⟩ = l.headD 0#w := by
  have hl : (if m ⟨.next, x⟩ = 0#w then none else some (m ⟨.next, x⟩)) = l.head? := hL.links.1
  by_cases hn : m ⟨.next, x⟩ = 0#w
  · rw [if_pos hn] at hl
    rw [hn, List.head?_eq_none_iff.1 hl.symm]
    rfl
  · rw [if_neg hn] at hl
    rw [List.headD_eq_head?_getD, ← hl]
    rfl

/-- `OPA_Queue_is_empty` copies the front to `shadow_head`. -/
theorem runIsEmpty (base : Word w) (fuel : Nat) (hL : Laid m q l) :
    ∃ m', runStmts (queueIsEmpty base) (fuel + 5) m (.testShadow (base + q)) = some (m', .isEmpty (decide (l = []))) ∧
      Laid m' q l ∧ m' ⟨.shadowHead, q⟩ = l.headD 0#w := by
  by_cases hs : m ⟨.shadowHead, q⟩ = 0#w
  · have hhead : m ⟨.head, q⟩ = l.headD 0#w := by
      rcases hL.front with ⟨-, h⟩ | ⟨h, h'⟩
      · exact h
      · exact h'.trans (hs.symm.trans h)
    cases l with
    | nil =>
      refine ⟨m, ?_, hL, hs⟩
      have hnull : m ⟨.head, q⟩ = 0#w := hhead
      simp [runStmts, queueIsEmpty, Access.exec, cellAt_add, hs, hnull]
    | cons x l =>
      have hx : x ≠ 0#w := hL.nz x (List.mem_cons_self ..)
      rw [List.headD_cons] at hhead
      refine ⟨Function.update (Function.update m ⟨.shadowHead, q⟩ x) ⟨.head, q⟩ 0#w, ?_, ?_, ?_⟩
      · simp [runStmts, queueIsEmpty, Access.exec, cellAt_add, hs, hhead, hx]
      · refine ⟨hL.nz, hL.nodup, hL.links.congr fun e _ => by simp, by simpa using hL.tail, .inr ⟨?_, ?_⟩⟩ <;> simp
      · simp
  · have hfront : m ⟨.shadowHead, q⟩ = l.headD 0#w := by
      rcases hL.front with ⟨h, -⟩ | ⟨h, -⟩
      · exact absurd h hs
      · exact h
    have hne : l ≠ [] := by
      rintro rfl
      exact hs hfront
    refine ⟨m, ?_, hL, hfront⟩
    simp [runStmts, queueIsEmpty, Access.exec, cellAt_add, hs, hne]

/-- `OPA_Queue_is_empty` stays with its queue. -/
theorem path_qhead (base : Word w) : ∀ (fuel : Nat) (m : Cell w → Word w) (p : IsEmptyPc w),
    ∀ p' ∈ pathStmts (queueIsEmpty base) fuel m p, p'.qhead = p.qhead
  | 0, _, _, _, hp' => by cases hp'
  | fuel + 1, m, p, p', hp' => by
    unfold pathStmts at hp'
    split at hp'
    · rename_i p₁ hnext
      rcases List.mem_cons.1 hp' with rfl | hp'
      · rfl
      · have hq : p₁.qhead = p.qhead := by
          cases p <;> simp only [queueIsEmpty] at hnext <;> (try split at hnext) <;> cases hnext <;> rfl
        rw [path_qhead base fuel _ p₁ p' hp', hq]
    · rw [List.mem_singleton.1 hp']

/-- `OPA_Queue_enqueue` appends to the end. -/
theorem runEnqueue (base : Word w) (fuel : Nat) {o : Word w} (hL : Laid m q l) (ho : o ∉ l) (hz : o ≠ 0#w) :
    ∃ m', runStmts (queueEnqueue base) (fuel + 4) m (EnqueuePc.start base (base + q) (base + o)) =
      some (m', .enqueued) ∧ Laid m' q (l ++ [o]) ∧ m' ⟨.shadowHead, q⟩ = m ⟨.shadowHead, q⟩ := by
  have hnodup : (l ++ [o]).Nodup := List.nodup_append.2 ⟨hL.nodup, List.nodup_singleton o, by
    rintro a ha b hb rfl
    rw [List.mem_singleton] at hb
    exact ho (hb ▸ ha)⟩
  have hnz : ∀ e ∈ l ++ [o], e ≠ 0#w := by
    intro e he
    rcases List.mem_append.1 he with he | he
    · exact hL.nz e he
    · rw [List.mem_singleton.1 he]
      exact hz
  have htail := hL.tail
  cases hlast : l.getLast? with
  | none =>
    -- the queue was empty, so the element becomes its head
    rw [List.getLast?_eq_none_iff] at hlast
    subst hlast
    rw [List.getLastD_nil] at htail
    have hfront := hL.front_null.2 rfl
    refine ⟨Function.update (Function.update (Function.update m ⟨.next, o⟩ 0#w) ⟨.tail, q⟩ o) ⟨.head, q⟩ o, ?_, ?_, ?_⟩
    · simp [runStmts, queueEnqueue, EnqueuePc.start, Access.exec, cellAt_add, htail]
    · refine ⟨hnz, hnodup, ⟨by simp, trivial⟩, by simp, .inl ⟨?_, ?_⟩⟩
      · simpa using hfront.1
      · simp
    · simp
  | some p =>
    have hp : p ∈ l := List.mem_of_getLast? hlast
    have hp0 : p ≠ 0#w := hL.nz p hp
    have hpo : p ≠ o := fun h => ho (h ▸ hp)
    have htailp : m ⟨.tail, q⟩ = p := by
      rw [htail, List.getLastD_eq_getLast?, hlast]
      rfl
    refine ⟨Function.update (Function.update (Function.update m ⟨.next, o⟩ 0#w) ⟨.tail, q⟩ o) ⟨.next, p⟩ o, ?_, ?_, ?_⟩
    · simp [runStmts, queueEnqueue, EnqueuePc.start, Access.exec, cellAt_add, shmRelToAbs, htailp, hp0]
    · refine ⟨hnz, hnodup, ?_, by simp, ?_⟩
      · -- the old last element leads to the new one
        have hold := (hL.links.congr (g := fun e => if e = o then none else
          if m ⟨.next, e⟩ = 0#w then none else some (m ⟨.next, e⟩)) fun e he =>
            if_neg fun h : e = o => ho (h ▸ he)).snoc hL.nodup ho (if_pos rfl) hlast
        refine hold.congr fun e _ => ?_
        by_cases hep : e = p
        · subst hep
          simp [hz]
        · by_cases heo : e = o
          · subst heo
            simp [hep]
          · simp [hep, heo]
      · have hhead : (l ++ [o]).headD 0#w = l.headD 0#w := by
          cases l with
          | nil => cases hp
          | cons x l => rfl
        rw [hhead]
        simpa using hL.front
    · simp

/-- `OPA_Queue_dequeue` takes the front from `shadow_head`, and waits for nobody. -/
theorem runDequeue (base : Word w) (drains : Bool) (fuel : Nat) {x : Word w} (hL : Laid m q (x :: l))
    (hx : m ⟨.shadowHead, q⟩ = x) :
    ∃ m', runStmts (queueDequeue base drains) (fuel + 6) m (.loadShadow (base + q)) = some (m', .dequeued (base + x)) ∧
      (∀ p ∈ pathStmts (queueDequeue base drains) (fuel + 6) m (.loadShadow (base + q)), (Pc.dequeue p).waits = false) ∧
      Laid m' q l := by
  have hx0 : x ≠ 0#w := hL.nz x (List.mem_cons_self ..)
  have hhead : m ⟨.head, q⟩ = 0#w := by
    rcases hL.front with ⟨h, -⟩ | ⟨-, h⟩
    · exact absurd (hx.symm.trans h) hx0
    · exact h
  have hnext := hL.next_front
  have hxl : x ∉ l := (List.nodup_cons.1 hL.nodup).1
  have hother : ∀ e ∈ l, e ≠ x := fun e he h => hxl (h ▸ he)
  cases l with
  | nil =>
    -- the only element: the compare-and-swap on the tail succeeds
    have htail : m ⟨.tail, q⟩ = x := hL.tail
    rw [List.headD_nil] at hnext
    refine ⟨Function.update (Function.update (Function.update m ⟨.shadowHead, q⟩ 0#w) ⟨.tail, q⟩ 0#w) ⟨.next, x⟩ 0#w,
      ?_, ?_, ?_⟩
    · simp [runStmts, queueDequeue, Access.exec, cellAt_add, shmRelToAbs, hx, hnext, htail]
    · simp [pathStmts, queueDequeue, Access.exec, cellAt_add, shmRelToAbs, hx, hnext, htail, Pc.waits]
    · refine ⟨by simp, List.nodup_nil, trivial, by simp, .inl ⟨?_, ?_⟩⟩
      · simp
      · simpa using hhead
  | cons y l =>
    have hy : y ≠ 0#w := hL.nz y (by simp)
    rw [List.headD_cons] at hnext
    refine ⟨Function.update (Function.update m ⟨.shadowHead, q⟩ y) ⟨.next, x⟩ 0#w, ?_, ?_, ?_⟩
    · simp [runStmts, queueDequeue, Access.exec, cellAt_add, shmRelToAbs, hx, hnext, hy]
    · simp [pathStmts, queueDequeue, Access.exec, cellAt_add, shmRelToAbs, hx, hnext, hy, Pc.waits]
    · refine ⟨fun e he => hL.nz e (List.mem_cons_of_mem _ he), (List.nodup_cons.1 hL.nodup).2, ?_, ?_, .inr ⟨?_, ?_⟩⟩
      · refine hL.links.2.congr fun e he => ?_
        simp [hother e he]
      · simpa using hL.tail
      · simp
      · simpa using hhead

end

end OpenPA.Queue
