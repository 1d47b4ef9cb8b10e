/-
Atomic operations emulated by retry loops. An operation that reads a cell, and under a condition writes a
new value to it (`Rmw`), is done by a load-link/store-conditional loop or by a compare-and-swap loop. Each
loop is linearizable to the operation in one step (`llsc_lastAccess`, `cas_lastAccess`): the last access of a
call is where it takes effect.

For load-link and store-conditional (`Linked`) the argument is that a reservation that is still valid is
of the value the cell still has (`Linked.Holds`). For compare-and-swap it is enough that the cell has the
expected value now, wherever it was in between.
-/
import OpenPA.Machine.Linearize

namespace OpenPA.Machine

variable {T L Op R R' : Type} {V : L → Type}

/-! ## One-step operations on a cell -/

/-- An operation on a cell, given the value it finds: whether it writes, what it writes, what it returns. -/
structure Rmw (L : Type) (V : L → Type) (R : Type) where
  cell : L
  cond : V cell → Bool
  new : V cell → V cell
  ret : V cell → R

namespace Rmw

/-- The operation in one step. -/
def atOnce [DecidableEq L] (p : Rmw L V R) (m : (l : L) → V l) : ((l : L) → V l) × R :=
  (if p.cond (m p.cell) then Function.update m p.cell (p.new (m p.cell)) else m, p.ret (m p.cell))

theorem atOnce_writes [DecidableEq L] {p : Rmw L V R} {m : (l : L) → V l} (h : p.cond (m p.cell) = true) :
    p.atOnce m = (Function.update m p.cell (p.new (m p.cell)), p.ret (m p.cell)) := by
  unfold atOnce
  rw [if_pos h]

theorem atOnce_keeps [DecidableEq L] {p : Rmw L V R} {m : (l : L) → V l} (h : ¬p.cond (m p.cell) = true) :
    p.atOnce m = (m, p.ret (m p.cell)) := by
  unfold atOnce
  rw [if_neg h]

/-- Compare-and-swap: write `newv` if the cell has `oldv`, and return what it had. -/
def cas [∀ l, DecidableEq (V l)] (l : L) (oldv newv : V l) : Rmw L V (V l) where
  cell := l
  cond := fun prev => decide (prev = oldv)
  new := fun _ => newv
  ret := fun prev => prev

theorem cas_atOnce [DecidableEq L] [∀ l, DecidableEq (V l)] {l : L} {oldv newv : V l} {m : (l : L) → V l} :
    (cas l oldv newv).atOnce m = (if m l = oldv then Function.update m l newv else m, m l) := by
  simp only [atOnce, cas, decide_eq_true_eq]

/-- A caller that computes its own result from what the operation returns. -/
def map (f : R → R') (p : Rmw L V R) : Rmw L V R' := { p with ret := fun v => f (p.ret v) }

end Rmw

/-! ## Load-link and store-conditional -/

/-- Cells with reservations: whether no other thread has written the cell since the thread's last load-link
of it. -/
structure Linked (T L : Type) (V : L → Type) where
  mem : (l : L) → V l
  valid : T → L → Bool

namespace Linked

variable [DecidableEq T] [DecidableEq L]

/-- A write of `t`: the other threads lose their reservations of the cell. -/
def write (s : Linked T L V) (t : T) (l : L) (v : V l) : Linked T L V where
  mem := Function.update s.mem l v
  valid := fun t' l' => s.valid t' l' && (decide (t' = t) || decide (l' ≠ l))

/-- Load-link: read the cell and reserve it. -/
def ll (s : Linked T L V) (t : T) (l : L) : V l × Linked T L V :=
  (s.mem l, { s with valid := fun t' l' => s.valid t' l' || (decide (t' = t) && decide (l' = l)) })

/-- Store-conditional: it fails without a valid reservation, and it may fail spuriously. -/
def sc (s : Linked T L V) (t : T) (l : L) (v : V l) (spurious : Bool) : Bool × Linked T L V :=
  if s.valid t l && !spurious then (true, s.write t l v) else (false, s)

theorem sc_stores {s : Linked T L V} {t : T} {l : L} {v : V l} {b : Bool} (h : (s.valid t l && !b) = true) :
    s.sc t l v b = (true, s.write t l v) := if_pos h

theorem sc_fails {s : Linked T L V} {t : T} {l : L} {v : V l} {b : Bool} (h : ¬(s.valid t l && !b) = true) :
    s.sc t l v b = (false, s) := if_neg h

/-- If the reservation of `t` is valid, the cell has the value `v`. -/
def Holds (s : Linked T L V) (t : T) (l : L) (v : V l) : Prop := s.valid t l = true → s.mem l = v

/-- What an access of `t` does to the others: a reservation that is still valid is of a cell not written. -/
def Frame (s s' : Linked T L V) (t : T) : Prop :=
  ∀ t' l, t' ≠ t → s'.valid t' l = true → s.valid t' l = true ∧ s'.mem l = s.mem l

variable {s s' : Linked T L V} {t t' : T} {l : L} {v : V l} {b : Bool}

theorem holds_ll : (s.ll t l).2.Holds t l (s.ll t l).1 := fun _ => rfl

omit [DecidableEq T] [DecidableEq L] in
theorem Holds.frame (h : s.Holds t l v) (hs : s.Frame s' t') (ht : t ≠ t') : s'.Holds t l v := by
  intro hv
  obtain ⟨hvalid, hmem⟩ := hs t l ht hv
  rw [hmem]
  exact h hvalid

omit [DecidableEq T] [DecidableEq L] in
theorem frame_refl : s.Frame s t := fun _ _ _ hv => ⟨hv, rfl⟩

theorem frame_ll : s.Frame (s.ll t l).2 t := by
  intro t' l' ht hv
  constructor
  · simpa [Linked.ll, ht] using hv
  · rfl

/-- A thread loses its reservation when another thread writes the cell. -/
theorem frame_write : s.Frame (s.write t l v) t := by
  intro t' l' ht hv
  simp only [Linked.write, Bool.and_eq_true, Bool.or_eq_true, decide_eq_true_eq, ht, false_or] at hv
  exact ⟨hv.1, Function.update_of_ne hv.2 v s.mem⟩

theorem frame_sc : s.Frame (s.sc t l v b).2 t := by
  unfold Linked.sc
  split
  · exact frame_write
  · exact frame_refl

end Linked

/-! ## The loops -/

/-- Code for an operation: a single atomic access, or a retry loop. -/
inductive Code (L : Type) (V : L → Type) (R : Type) where
  | once (p : Rmw L V R)
  | loop (p : Rmw L V R)

namespace Code

/-- The operation that the code is for. -/
def rmw : Code L V R → Rmw L V R
  | .once p | .loop p => p

def map (f : R → R') : Code L V R → Code L V R'
  | .once p => .once (p.map f)
  | .loop p => .loop (p.map f)

theorem map_map {R'' : Type} (f : R → R') (g : R' → R'') (c : Code L V R) : (c.map f).map g = c.map (g ∘ f) := by
  cases c <;> rfl

end Code

/-- Where a load-link/store-conditional loop is:
`do { prev = LL(cell); } while (cond(prev) && !SC(cell, new(prev))); return ret(prev);` -/
inductive LlscPc (L : Type) (V : L → Type) (R : Type) where
  | once (p : Rmw L V R)
  | ll (p : Rmw L V R)
  | sc (p : Rmw L V R) (prev : V p.cell)

/-- Where a compare-and-swap loop is:
`prev = load(cell); do { cmp = prev; prev = CAS(cell, cmp, new(prev)); } while (prev != cmp); return ret(prev);` -/
inductive CasPc (L : Type) (V : L → Type) (R : Type) where
  | once (p : Rmw L V R)
  | load (p : Rmw L V R)
  | cas (p : Rmw L V R) (prev : V p.cell)

section Llsc

variable [DecidableEq T] [DecidableEq L]

/-- The next access of the loop. -/
def LlscPc.access (t : T) (spurious : Bool) : LlscPc L V R → Linked T L V → Linked T L V × (LlscPc L V R ⊕ R)
  | .once p, s =>
    (if p.cond (s.mem p.cell) then s.write t p.cell (p.new (s.mem p.cell)) else s, .inr (p.ret (s.mem p.cell)))
  | .ll p, s =>
    let prev := (s.ll t p.cell).1
    ((s.ll t p.cell).2, if p.cond prev then .inl (.sc p prev) else .inr (p.ret prev))
  | .sc p prev, s =>
    let stored := s.sc t p.cell (p.new prev) spurious
    (stored.2, if !stored.1 then .inl (.ll p) else .inr (p.ret prev))

theorem LlscPc.access_stores {s : Linked T L V} {t : T} {b : Bool} {p : Rmw L V R} {prev : V p.cell}
    (h : (s.valid t p.cell && !b) = true) :
    (LlscPc.sc p prev).access t b s = (s.write t p.cell (p.new prev), .inr (p.ret prev)) := by
  simp [LlscPc.access, Linked.sc_stores h]

theorem LlscPc.access_fails {s : Linked T L V} {t : T} {b : Bool} {p : Rmw L V R} {prev : V p.cell}
    (h : ¬(s.valid t p.cell && !b) = true) : (LlscPc.sc p prev).access t b s = (s, .inl (.ll p)) := by
  simp [LlscPc.access, Linked.sc_fails h]

/-- Operations by load-link/store-conditional loops. -/
def llscObject (code : Op → Code L V R) : Object T (Linked T L V) (LlscPc L V R) Op R where
  start op := match code op with
    | .once p => .once p
    | .loop p => .ll p
  access := LlscPc.access

/-- What holds of a call by such a loop: it is the operation's loop, and between the load-link and the
store-conditional a valid reservation is of the value read. -/
def LlscOk (code : Op → Code L V R) (s : Linked T L V) (t : T) (op : Op) : LlscPc L V R → Prop
  | .once p | .ll p => p = (code op).rmw
  | .sc p prev => p = (code op).rmw ∧ p.cond prev = true ∧ s.Holds t p.cell prev

omit [DecidableEq T] [DecidableEq L] in
theorem LlscOk.of_holds {code : Op → Code L V R} {s s' : Linked T L V} {t : T} {op : Op} {pc : LlscPc L V R}
    (h : LlscOk code s t op pc) (hs : ∀ l (v : V l), s.Holds t l v → s'.Holds t l v) : LlscOk code s' t op pc := by
  cases pc with
  | once p => exact h
  | ll p => exact h
  | sc p prev => exact ⟨h.1, h.2.1, hs _ _ h.2.2⟩

theorem LlscPc.access_frame {s : Linked T L V} {t : T} {b : Bool} {pc : LlscPc L V R} :
    s.Frame (pc.access t b s).1 t := by
  cases pc with
  | once p =>
    simp only [LlscPc.access]
    split
    · exact Linked.frame_write
    · exact Linked.frame_refl
  | ll p => exact Linked.frame_ll
  | sc p prev => exact Linked.frame_sc

/-- A load-link/store-conditional loop takes effect with its last access: the store-conditional that
succeeds, or the load-link of a value that is not to be replaced. -/
theorem llsc_lastAccess (code : Op → Code L V R) :
    LastAccess (llscObject (T := T) code) (fun m op => (code op).rmw.atOnce m) Linked.mem (LlscOk code) where
  start s t op := by
    simp only [llscObject]
    split
    · rename_i p hp
      rw [LlscOk, hp, Code.rmw]
    · rename_i p hp
      rw [LlscOk, hp, Code.rmw]
  goesOn s t b op pc u pc' h hacc := by
    cases pc with
    | once p => cases hacc
    | ll p =>
      simp only [llscObject, LlscPc.access] at hacc
      -- only a value that is to be replaced takes the loop to its store-conditional
      by_cases hcond : p.cond (s.ll t p.cell).1 = true
      · rw [if_pos hcond] at hacc
        cases hacc
        exact ⟨rfl, h, hcond, Linked.holds_ll⟩
      · rw [if_neg hcond] at hacc
        cases hacc
    | sc p prev =>
      simp only [llscObject] at hacc
      by_cases hv : (s.valid t p.cell && !b) = true
      · rw [LlscPc.access_stores hv] at hacc
        cases hacc
      · rw [LlscPc.access_fails hv] at hacc
        cases hacc
        exact ⟨rfl, h.1⟩
  returns s t b op pc u ret h hacc := by
    cases pc with
    | once p =>
      cases h
      simp only [llscObject, LlscPc.access] at hacc
      cases hacc
      unfold Rmw.atOnce
      split <;> rfl
    | ll p =>
      cases h
      simp only [llscObject, LlscPc.access] at hacc
      by_cases hcond : (code op).rmw.cond (s.ll t (code op).rmw.cell).1 = true
      · rw [if_pos hcond] at hacc
        cases hacc
      · rw [if_neg hcond] at hacc
        cases hacc
        exact Rmw.atOnce_keeps hcond
    | sc p prev =>
      obtain ⟨hp, hcond, hholds⟩ := h
      subst hp
      simp only [llscObject] at hacc
      by_cases hv : (s.valid t (code op).rmw.cell && !b) = true
      · -- the reservation is valid, so the cell still has the value read
        rw [LlscPc.access_stores hv] at hacc
        cases hacc
        rw [Bool.and_eq_true] at hv
        have hmem := hholds hv.1
        rw [Rmw.atOnce_writes (by rw [hmem]; exact hcond), hmem]
        rfl
      · rw [LlscPc.access_fails hv] at hacc
        cases hacc
  others s t b pc t' op' pc' ht h := h.of_holds fun l v hv => hv.frame LlscPc.access_frame ht

/-- The call is in the loop. -/
def LlscPc.inLoop : LlscPc L V R → Bool
  | .once _ => false
  | .ll _ | .sc _ _ => true

/-- The step is a store-conditional that succeeds. -/
def scSucceeds (s : System T (Linked T L V) (LlscPc L V R) Op R) : SystemAct T Op → Bool
  | .call _ _ => false
  | .step t spurious =>
    match s.running t with
    | some ⟨_, _, .sc p _⟩ => s.shared.valid t p.cell && !spurious
    | _ => false

/-- When every operation is a loop that writes whatever it finds, a call returns with a store-conditional that
succeeds, and with nothing else. -/
theorem llsc_done_length (code : Op → Code L V R) (hloop : ∀ op, ∃ p, code op = .loop p ∧ ∀ v, p.cond v = true)
    {as : List (SystemAct T Op)} {u : Linked T L V} {s : System T (Linked T L V) (LlscPc L V R) Op R}
    (hrun : run (systemStep (llscObject code)) (System.init u) as = some s) :
    s.done.length = countAlong (systemStep (llscObject code)) scSucceeds (System.init u) as := by
  have hlast := (llsc_lastAccess (T := T) code).and (I := fun pc => pc.inLoop = true)
    (fun op => by
      obtain ⟨p, hp, -⟩ := hloop op
      simp only [llscObject, hp]
      rfl)
    (fun s t b pc u pc' hpc hacc => by
      cases pc with
      | once p => cases hpc
      | ll p =>
        simp only [llscObject, LlscPc.access] at hacc
        split at hacc <;> cases hacc
        rfl
      | sc p prev =>
        simp only [llscObject, LlscPc.access] at hacc
        split at hacc <;> cases hacc
        rfl)
  have hcount := run_count (m := fun s : System T (Linked T L V) (LlscPc L V R) Op R => s.done.length) (f := scSucceeds)
    (P := SystemOk (fun m op => (code op).rmw.atOnce m) Linked.mem
      (fun s t op pc => LlscOk code s t op pc ∧ pc.inLoop = true) u.mem) ?_ as (SystemOk.init u) hrun
  · rw [hcount]
    exact Nat.zero_add _
  intro s a s' hs hstep
  refine ⟨SystemOk.step hlast hs (fun _ _ _ _ _ _ _ _ _ => rfl) hstep, ?_⟩
  cases a with
  | call t op =>
    simp only [systemStep] at hstep
    split at hstep
    · cases hstep
      rfl
    · cases hstep
  | step t b =>
    simp only [systemStep, Option.map_eq_some_iff] at hstep
    obtain ⟨⟨op, n, pc⟩, hr, hstep⟩ := hstep
    obtain ⟨⟨hok, hin⟩, -⟩ := hs.running t _ hr
    obtain ⟨q, hq, hcond⟩ := hloop op
    simp only [scSucceeds, hr]
    cases pc with
    | once p => cases hin
    | ll p =>
      -- what the load-link finds is to be replaced
      replace hok : p = (code op).rmw := hok
      rw [hq] at hok
      subst hok
      simp only [llscObject, LlscPc.access, hcond, if_true] at hstep
      subst hstep
      rfl
    | sc p prev =>
      by_cases hv : (s.shared.valid t p.cell && !b) = true
      · simp only [llscObject, LlscPc.access_stores hv] at hstep
        subst hstep
        simp [hv]
      · simp only [llscObject, LlscPc.access_fails hv] at hstep
        subst hstep
        simp [System.put, hv]

/-- The next access of a compare-and-swap loop: it goes on and writes nothing, or it is the compare-and-swap. -/
theorem llsc_cas_cases [∀ l, DecidableEq (V l)] {s : Linked T L V} {t : T} {b : Bool} {l : L} {oldv newv : V l}
    {pc : LlscPc L V (V l)} (h : LlscOk Code.loop s t (Rmw.cas l oldv newv) pc) :
    (∃ u pc', pc.access t b s = (u, .inl pc') ∧ u.mem = s.mem ∧ LlscOk Code.loop u t (Rmw.cas l oldv newv) pc') ∨
    ∃ u, pc.access t b s = (u, .inr (s.mem l)) ∧
      u.mem = if s.mem l = oldv then Function.update s.mem l newv else s.mem := by
  have hlast := llsc_lastAccess (T := T) (Code.loop (L := L) (V := V) (R := V l))
  rcases hacc : pc.access t b s with ⟨u, pc' | prev⟩
  · left
    obtain ⟨hmem, hok⟩ := hlast.goesOn s t b _ pc u pc' h hacc
    exact ⟨u, pc', rfl, hmem, hok⟩
  · right
    have hret := hlast.returns s t b _ pc u prev h hacc
    simp only [Code.rmw, Rmw.cas_atOnce, Prod.mk.injEq] at hret
    rw [← hret.2]
    exact ⟨u, rfl, hret.1.symm⟩

end Llsc

section Cas

variable [DecidableEq L] [∀ l, DecidableEq (V l)]

/-- The next access of the loop. -/
def CasPc.access : CasPc L V R → ((l : L) → V l) → ((l : L) → V l) × (CasPc L V R ⊕ R)
  | .once p, m => ((p.atOnce m).1, .inr (p.atOnce m).2)
  | .load p, m => (m, .inl (.cas p (m p.cell)))
  | .cas p cmp, m =>
    let prev := m p.cell
    (if prev = cmp then Function.update m p.cell (p.new cmp) else m,
      if prev ≠ cmp then .inl (.cas p prev) else .inr (p.ret prev))

/-- Operations by compare-and-swap loops. -/
def casObject (code : Op → Code L V R) : Object T ((l : L) → V l) (CasPc L V R) Op R where
  start op := match code op with
    | .once p => .once p
    | .loop p => .load p
  access _ _ pc m := pc.access m

/-- What holds of a call by such a loop: it is the operation's loop, and the operation writes whatever it
finds. -/
def CasOk (code : Op → Code L V R) (op : Op) : CasPc L V R → Prop
  | .once p => p = (code op).rmw
  | .load p | .cas p _ => p = (code op).rmw ∧ ∀ v, p.cond v = true

/-- A compare-and-swap loop takes effect with its last access, the compare-and-swap that succeeds. -/
theorem cas_lastAccess (code : Op → Code L V R) (hloop : ∀ op p, code op = .loop p → ∀ v, p.cond v = true) :
    LastAccess (casObject (T := T) code) (fun m op => (code op).rmw.atOnce m) id (fun _ _ => CasOk code) where
  start m t op := by
    simp only [casObject]
    split
    · rename_i p hp
      rw [CasOk, hp, Code.rmw]
    · rename_i p hp
      refine ⟨?_, hloop op p hp⟩
      rw [hp, Code.rmw]
  goesOn m t b op pc u pc' h hacc := by
    cases pc with
    | once p => cases hacc
    | load p =>
      cases hacc
      exact ⟨rfl, h⟩
    | cas p cmp =>
      simp only [casObject, CasPc.access] at hacc
      by_cases hp : m p.cell = cmp
      · rw [if_neg (not_not.2 hp)] at hacc
        cases hacc
      · rw [if_pos hp, if_neg hp] at hacc
        cases hacc
        exact ⟨rfl, h⟩
  returns m t b op pc u ret h hacc := by
    cases pc with
    | once p =>
      cases h
      cases hacc
      rfl
    | load p => cases hacc
    | cas p cmp =>
      obtain ⟨hp, hcond⟩ := h
      subst hp
      simp only [casObject, CasPc.access] at hacc
      by_cases hp : m (code op).rmw.cell = cmp
      · -- the cell has the expected value now, whatever it had in between
        rw [if_pos hp, if_neg (not_not.2 hp)] at hacc
        cases hacc
        subst hp
        exact Rmw.atOnce_writes (hcond _)
      · rw [if_pos hp] at hacc
        cases hacc
  others m t b pc t' op' pc' ht h := h

end Cas

end OpenPA.Machine
