/-
`OPA_fetch_and_add_int` of the IA64 port (`opa_gcc_ia64.h`): a `fetchadd4` instruction for eight immediate
addends, and a compare-and-swap loop for the others. The loop's compare-and-swap writes the addend and not the
sum, which is only right if the cell holds 0. When the cell does, whenever that happens, the operation and
`OPA_add_int` are the lock-based ones (`ia64_faa`).
-/
import OpenPA.Atomic.ByCas

namespace OpenPA.Atomic

open OpenPA.Machine

variable {w : Nat} {A B T : Type}

/-- The cases of `OPA_IA64_FAA_CASE_MACRO` -/
def faaCases : List (BitVec 32) := [-16, -8, -4, -1, 1, 4, 8, 16]

instance (val : BitVec 32) : Decidable (val ∈ faaCases) := inferInstance

namespace Ia64

/-- `fetchadd4.rel` -/
def fetchadd4 (ptr : A) (val : BitVec 32) : Rmw (Loc A B) (Val w) (BitVec 32) where
  cell := .int ptr
  cond := fun _ => true
  new := fun (prev : BitVec 32) => prev + val
  ret := fun prev => prev

/-- The loop of the default case: its compare-and-swap is `OPA_cas_int(ptr, cmp, val)`. -/
def faaDefault (ptr : A) (val : BitVec 32) : Rmw (Loc A B) (Val w) (BitVec 32) where
  cell := .int ptr
  cond := fun _ => true
  new := fun _ => val
  ret := fun prev => prev

/-- `OPA_fetch_and_add_int` -/
def fetchAndAddInt (ptr : A) (val : BitVec 32) : Code (Loc A B) (Val w) (BitVec 32) :=
  if val ∈ faaCases then .once (fetchadd4 ptr val) else .loop (faaDefault ptr val)

/-- `OPA_add_int_by_faa` -/
def addInt (ptr : A) (val : BitVec 32) : Code (Loc A B) (Val w) Unit := (fetchAndAddInt ptr val).map fun _ => ()

end Ia64

/-- A call of the two operations, or another atomic update. -/
inductive Ia64Op (w : Nat) (A B : Type) where
  | fetchAndAddInt (ptr : A) (val : BitVec 32)
  | addInt (ptr : A) (val : BitVec 32)
  | atomic (op : Op w A B)

/-- The operation that a call is for. -/
def Ia64Op.op : Ia64Op w A B → Op w A B
  | .fetchAndAddInt ptr val => .fetchAndAddInt ptr val
  | .addInt ptr val => .addInt ptr val
  | .atomic op => op

def ia64Code : Ia64Op w A B → Code (Loc A B) (Val w) (Ret w)
  | .fetchAndAddInt ptr val => (Ia64.fetchAndAddInt ptr val).map .int
  | .addInt ptr val => (Ia64.addInt ptr val).map fun _ => .void
  | .atomic op => .once (llscCode op).rmw

/-- The addend is one of the eight immediate ones, or the cell holds 0. -/
def Ia64Op.adds (m : Cells w A B) : Ia64Op w A B → Bool
  | .fetchAndAddInt ptr val | .addInt ptr val => decide (val ∈ faaCases) || decide (intAt ptr m = 0)
  | .atomic _ => true

/-! ## One call -/

/-- The default case is a loop that writes whatever it finds. -/
theorem Ia64.fetchAndAddInt_loop {R : Type} (ptr : A) (val : BitVec 32) (f : BitVec 32 → R)
    (p : Rmw (Loc A B) (Val w) R) (h : (Ia64.fetchAndAddInt ptr val).map f = .loop p) (v : Val w p.cell) :
    p.cond v = true := by
  unfold Ia64.fetchAndAddInt at h
  split at h
  · cases h
  · cases h
    rfl

theorem ia64Code_loop (c : Ia64Op w A B) (p : Rmw (Loc A B) (Val w) (Ret w)) (h : ia64Code c = .loop p)
    (v : Val w p.cell) : p.cond v = true := by
  cases c with
  | fetchAndAddInt ptr val => exact Ia64.fetchAndAddInt_loop ptr val _ p h v
  | addInt ptr val =>
    rw [ia64Code, Ia64.addInt, Code.map_map] at h
    exact Ia64.fetchAndAddInt_loop ptr val _ p h v
  | atomic op => cases h

variable [DecidableEq A] [DecidableEq B]

/-- What `OPA_fetch_and_add_int` writes: the sum in an immediate case, and the addend in the default case. -/
def faaNew (val v : BitVec 32) : BitVec 32 := if val ∈ faaCases then v + val else val

theorem Ia64.fetchAndAddInt_atOnce {R : Type} (ptr : A) (val : BitVec 32) (f : BitVec 32 → R) (m : Cells w A B) :
    ((Ia64.fetchAndAddInt ptr val).map f).rmw.atOnce m =
      (Function.update m (.int ptr) (faaNew val (intAt ptr m)), f (intAt ptr m)) := by
  by_cases hval : val ∈ faaCases
  · have hcode : (fetchAndAddInt ptr val : Code (Loc A B) (Val w) _) = .once (fetchadd4 ptr val) := if_pos hval
    have hnew : faaNew val (intAt ptr m) = intAt ptr m + val := if_pos hval
    rw [hcode, hnew]
    exact Rmw.atOnce_writes (m := m) (p := (fetchadd4 ptr val).map f) rfl
  · have hcode : (fetchAndAddInt ptr val : Code (Loc A B) (Val w) _) = .loop (faaDefault ptr val) := if_neg hval
    have hnew : faaNew val (intAt ptr m) = val := if_neg hval
    rw [hcode, hnew]
    exact Rmw.atOnce_writes (m := m) (p := (faaDefault ptr val).map f) rfl

/-- It is the sum if the default case finds 0. -/
theorem faaNew_eq_add (val v : BitVec 32) : faaNew val v = v + val ↔ val ∈ faaCases ∨ v = 0 := by
  unfold faaNew
  by_cases hval : val ∈ faaCases
  · rw [if_pos hval]
    exact iff_of_true rfl (Or.inl hval)
  · rw [if_neg hval, or_iff_right hval]
    constructor
    · intro h
      exact add_eq_right.1 h.symm
    · intro h
      rw [h]
      exact (zero_add val).symm

theorem update_int_inj (ptr : A) (m : Cells w A B) {a b : BitVec 32} {R : Type} {r : R} :
    (Function.update m (.int ptr) a, r) = (Function.update m (.int ptr) b, r) ↔ a = b := by
  constructor
  · intro h
    exact Function.update_injective m (.int ptr) (Prod.mk.inj h).1
  · intro h
    rw [h]

/-- A call is the one of `opa_by_lock.h` exactly if it adds. -/
theorem ia64Code_atOnce (m : Cells w A B) (c : Ia64Op w A B) :
    (ia64Code c).rmw.atOnce m = byLock m c.op ↔ c.adds m = true := by
  cases c with
  | fetchAndAddInt ptr val =>
    rw [ia64Code, Ia64.fetchAndAddInt_atOnce, Ia64Op.adds, Bool.or_eq_true, decide_eq_true_eq, decide_eq_true_eq,
      ← faaNew_eq_add]
    exact update_int_inj ptr m
  | addInt ptr val =>
    rw [ia64Code, Ia64.addInt, Code.map_map, Ia64.fetchAndAddInt_atOnce, Ia64Op.adds, Bool.or_eq_true,
      decide_eq_true_eq, decide_eq_true_eq, ← faaNew_eq_add]
    exact update_int_inj ptr m
  | atomic op => exact iff_of_true (llscCode_atOnce m op) rfl

/-! ## Runs -/

variable [DecidableEq T]

abbrev Ia64System (T : Type) (w : Nat) (A B : Type) :=
  System T (Cells w A B) (CasPc (Loc A B) (Val w) (Ret w)) (Ia64Op w A B) (Ret w)

omit [DecidableEq T] in
/-- The access with which a call takes effect finds what it is right for: in particular, a compare-and-swap of the
default case that succeeds finds 0. -/
def findsZero (s : Ia64System T w A B) : SystemAct T (Ia64Op w A B) → Bool
  | .call _ _ => true
  | .step t _ =>
    match s.running t with
    | none => true
    | some ⟨op, _, .once _⟩ => op.adds s.shared
    | some ⟨_, _, .load _⟩ => true
    | some ⟨op, _, .cas p cmp⟩ => decide (s.shared p.cell ≠ cmp) || op.adds s.shared

omit [DecidableEq T] in
theorem findsZero_returns {s : Ia64System T w A B} {t : T} {flag : Bool} {r : Running (CasPc (Loc A B) (Val w) (Ret w))
    (Ia64Op w A B)} {u : Cells w A B} {ret : Ret w} (h : findsZero s (.step t flag) = true)
    (hr : s.running t = some r) (hacc : r.pc.access s.shared = (u, .inr ret)) : r.op.adds s.shared = true := by
  obtain ⟨op, n, pc⟩ := r
  simp only [findsZero, hr] at h
  cases pc with
  | once p => exact h
  | load p => cases hacc
  | cas p cmp =>
    by_cases hcmp : s.shared p.cell = cmp
    · simpa [hcmp] using h
    · simp [CasPc.access, hcmp] at hacc

/-- Fetch-and-add on IA64. In any interleaving of calls of `OPA_fetch_and_add_int` and `OPA_add_int` and of other atomic
updates: a step with which a call returns has the effect and the result of the call's `opa_by_lock.h` operation exactly
if the addend is one of the eight immediate ones or the cell holds 0. And if in every step with which a call of the two
takes effect one of these is the case, then there is a total order of the calls that have returned, consistent with
real time, in which each is the lock-based operation in one step, and the contents agree. -/
theorem ia64_faa (m : Cells w A B) (as : List (SystemAct T (Ia64Op w A B))) (s : Ia64System T w A B)
    (hrun : run (systemStep (casObject ia64Code)) (System.init m) as = some s) :
    (∀ t flag s' c, systemStep (casObject ia64Code) s (.step t flag) = some s' → s'.done = s.done ++ [c] →
      (byLock s.shared c.op.op = (s'.shared, c.ret) ↔ c.op.adds s.shared = true)) ∧
    (Along (systemStep (casObject ia64Code)) (fun s a => findsZero s a = true) (System.init m) as →
      ∃ order, Linearizes (fun m c => byLock m c.op) m s.shared s.done order) := by
  have hlast := cas_lastAccess (T := T) (ia64Code (w := w) (A := A) (B := B)) ia64Code_loop
  constructor
  · intro t flag s' c hstep hdone
    rw [← ia64Code_atOnce, ← show _ = (s'.shared, c.ret) from hlast.returned hrun hstep hdone]
    exact eq_comm
  · intro halong
    refine ⟨s.done, hlast.linearizes_along (fun s t flag r u ret h hr hok hacc => ?_) halong hrun⟩
    exact ((ia64Code_atOnce s.shared r.op).2 (findsZero_returns h hr hacc)).symm

/-- An int that holds 5. -/
def fiveCells : Cells 8 Unit Unit := Function.update zeroCells (.int ()) (5#32 : BitVec 32)

/-- One thread adds 7 to it, by itself: the call returns 5, and leaves 7. -/
theorem faa_stores_addend : ∃ s : Ia64System Unit 8 Unit Unit,
    run (systemStep (casObject ia64Code)) (System.init fiveCells)
      [.call () (.fetchAndAddInt () 7), .step () false, .step () false] = some s ∧
    s.done.map (·.ret) = [.int 5] ∧ intAt () s.shared = 7 ∧ intAt () s.shared ≠ 5 + 7 ∧
    ¬∃ order, Linearizes (fun m c => byLock m c.op) fiveCells s.shared s.done order := by
  have h : (run (systemStep (casObject ia64Code)) (System.init fiveCells) [.call () (.fetchAndAddInt () 7),
      .step () false, .step () false]).map (fun s => (s.done.map fun c => (c.ret, intAt () (byLock fiveCells c.op.op).1),
        intAt () s.shared)) = some ([(.int 5, 12)], 7) := by decide
  obtain ⟨s, hs, hd⟩ := Option.map_eq_some_iff.1 h
  obtain ⟨hdone, hcell⟩ := Prod.mk.inj hd
  refine ⟨s, hs, ?_, hcell, ?_, ?_⟩
  · have hret := congrArg (List.map Prod.fst) hdone
    rwa [List.map_map] at hret
  · rw [hcell]
    decide
  · rintro ⟨order, hperm, -, hlegal⟩
    obtain ⟨c, hc, hsum⟩ := List.map_eq_singleton_iff.1 hdone
    rw [hc, List.perm_singleton] at hperm
    subst hperm
    -- the one call in one step would leave the sum
    obtain ⟨-, hmem⟩ := hlegal
    have hshared : intAt () (byLock fiveCells c.op.op).1 = intAt () s.shared := congrArg (intAt ()) hmem
    rw [(Prod.mk.inj hsum).2, hcell] at hshared
    exact absurd hshared (by decide)

/-- One thread adds 7 in the default case while the cell is 0, and then another one adds 4. -/
def ia64Acts : List (SystemAct Bool (Ia64Op 8 Unit Unit)) :=
  [.call true (.fetchAndAddInt () 7), .step true false, .call false (.addInt () 4), .step true false,
    .step false false]

theorem ia64_faa_demo : ∃ s order, run (systemStep (casObject ia64Code)) (System.init zeroCells) ia64Acts = some s ∧
    s.done.map (fun c => (c.thread, c.ret)) = [(true, .int 0), (false, .void)] ∧ intAt () s.shared = 11 ∧
    Linearizes (fun m c => byLock m c.op) zeroCells s.shared s.done order := by
  have h : (run (systemStep (casObject ia64Code)) (System.init zeroCells) ia64Acts).map
      (fun s => (s.done.map fun c => (c.thread, c.ret), intAt () s.shared)) =
        some ([(true, .int 0), (false, .void)], 11) := by decide
  obtain ⟨s, hs, hd⟩ := Option.map_eq_some_iff.1 h
  obtain ⟨hret, hmem⟩ := Prod.mk.inj hd
  obtain ⟨-, hlin⟩ := ia64_faa zeroCells ia64Acts s hs
  obtain ⟨order, ho⟩ := hlin (by decide)
  exact ⟨s, order, hs, hret, hmem, ho⟩

end OpenPA.Atomic
