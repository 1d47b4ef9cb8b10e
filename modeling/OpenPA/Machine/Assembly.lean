/-
Operations as machine code, one instruction a step, on a machine with load-link, store-conditional and atomic
read-modify-write instructions. Between its accesses to the cell the code moves values between registers,
tests them and branches, also after the access with which the operation takes effect. The points of the code
are labelled with a `Phase`: nothing read that counts, a value read under a reservation, the effect taken. Code
that keeps to the phases of an operation (`Follows`) is linearizable to it (`assembly_takesEffect`).
-/
import OpenPA.Machine.Effect
import OpenPA.Machine.Retry

namespace OpenPA.Machine

variable {T L Op R A S S' : Type} {V Q : L → Type}

/-- What the next instruction does: load-link, store-conditional, a plain load, an instruction that replaces
the value it finds, one that does not access the cell; or the code returns. -/
inductive Instr (A S R : Type) where
  | ll (k : A → S)
  | sc (v : A) (k : Bool → S)
  | load (k : A → S)
  | rmw (f : A → A) (k : A → S)
  | tau (q : S)
  | ret (r : R)

/-- How far the code is: it has read nothing that counts, it has a reservation of the value `v`, it has taken
effect and will return `r`. -/
inductive Phase (A R : Type) where
  | fresh
  | read (v : A)
  | took (r : R)

def Phase.result : Phase A R → Option R
  | .took r => some r
  | .fresh | .read _ => none

/-- An operation on the value that it finds: whether it writes, what it writes, what it returns. -/
structure OnValue (A R : Type) where
  cond : A → Bool
  new : A → A
  ret : A → R

/-- What an operation does to the value of its cell. -/
def Rmw.onValue (p : Rmw L V R) : OnValue (V p.cell) R := ⟨p.cond, p.new, p.ret⟩

/-- The phase after the operation has found `v`: it goes on to write, or has taken effect. -/
def OnValue.found (p : OnValue A R) (v : A) : Phase A R := if p.cond v then .read v else .took (p.ret v)

/-- An instruction keeps to the phases of an operation, and to an invariant of the registers. -/
def Keeps (p : OnValue A R) (phase : S → Phase A R) (I : S → Prop) : Phase A R → Instr A S R → Prop
  | .fresh, .tau q => I q ∧ phase q = .fresh
  | .fresh, .ll k => ∀ v, I (k v) ∧ (phase (k v) = .fresh ∨ phase (k v) = p.found v)
  | .fresh, .load k => ∀ v, I (k v) ∧ p.cond v = false ∧ phase (k v) = .took (p.ret v)
  | .fresh, .rmw f k => ∀ v, I (k v) ∧ phase (k v) = .took (p.ret v) ∧ f v = if p.cond v then p.new v else v
  | .read v, .tau q => I q ∧ phase q = .read v
  | .read v, .sc v' k => v' = p.new v ∧ p.cond v = true ∧ (I (k true) ∧ phase (k true) = .took (p.ret v)) ∧
      I (k false) ∧ phase (k false) = .fresh
  | .took r, .tau q => I q ∧ phase q = .took r
  | .took r, .ret r' => r' = r
  | _, _ => False

/-- Code for an operation, as far as its registers keep the invariant. -/
def Follows (p : OnValue A R) (next : S → Instr A S R) (phase : S → Phase A R) (I : S → Prop) : Prop :=
  ∀ q, I q → Keeps p phase I (phase q) (next q)

/-! ## Plain loads and stores -/

/-- The code as part of another one. -/
def Instr.map (g : S → S') : Instr A S R → Instr A S' R
  | .ll k => .ll fun v => g (k v)
  | .sc v k => .sc v fun b => g (k b)
  | .load k => .load fun v => g (k v)
  | .rmw f k => .rmw f fun v => g (k v)
  | .tau q => .tau (g q)
  | .ret r => .ret r

theorem Keeps.map {p : OnValue A R} {phase : S → Phase A R} {phase' : S' → Phase A R} {I : S → Prop} {I' : S' → Prop}
    {g : S → S'} {ph : Phase A R} {i : Instr A S R} (h : Keeps p phase I ph i) (hI : ∀ q, I q → I' (g q))
    (hphase : ∀ q, phase' (g q) = phase q) : Keeps p phase' I' ph (i.map g) := by
  cases ph with
  | fresh =>
    cases i with
    | ll k =>
      intro v
      rw [hphase]
      exact ⟨hI _ (h v).1, (h v).2⟩
    | load k =>
      intro v
      rw [hphase]
      exact ⟨hI _ (h v).1, (h v).2⟩
    | rmw f k =>
      intro v
      rw [hphase]
      exact ⟨hI _ (h v).1, (h v).2⟩
    | tau q =>
      refine ⟨hI _ h.1, ?_⟩
      rw [hphase]
      exact h.2
    | sc v k => exact h.elim
    | ret r => exact h.elim
  | read v =>
    cases i with
    | sc v' k =>
      obtain ⟨hv, hcond, ⟨hItrue, htrue⟩, hIfalse, hfalse⟩ := h
      refine ⟨hv, hcond, ⟨hI _ hItrue, ?_⟩, hI _ hIfalse, ?_⟩
      · rw [hphase, htrue]
      · rw [hphase, hfalse]
    | tau q =>
      refine ⟨hI _ h.1, ?_⟩
      rw [hphase]
      exact h.2
    | _ => exact h.elim
  | took r =>
    cases i with
    | tau q =>
      refine ⟨hI _ h.1, ?_⟩
      rw [hphase]
      exact h.2
    | ret r' => exact h
    | _ => exact h.elim

theorem Instr.map_id (i : Instr A S R) : i.map id = i := by
  cases i <;> rfl

theorem Keeps.imp {p : OnValue A R} {phase : S → Phase A R} {I I' : S → Prop} {ph : Phase A R} {i : Instr A S R}
    (h : Keeps p phase I ph i) (hI : ∀ q, I q → I' q) : Keeps p phase I' ph i := by
  have hmap := h.map (g := id) hI fun _ => rfl
  rw [Instr.map_id] at hmap
  exact hmap

/-- An operation that is a plain load or store, or has code. -/
inductive PlainOr (S A R : Type) where
  | load (ret : A → R)
  | store (val : A) (r : R)
  | done (r : R)
  | code (q : S)

namespace PlainOr

def next (next : S → Instr A S R) : PlainOr S A R → Instr A (PlainOr S A R) R
  | .load ret => .load fun v => .done (ret v)
  | .store val r => .rmw (fun _ => val) fun _ => .done r
  | .done r => .ret r
  | .code q => (next q).map .code

def phase (phase : S → Phase A R) : PlainOr S A R → Phase A R
  | .load _ | .store _ _ => .fresh
  | .done r => .took r
  | .code q => phase q

/-- It is the operation `p`. -/
def Ok (p : OnValue A R) (I : S → Prop) : PlainOr S A R → Prop
  | .load ret => ∀ v, p.cond v = false ∧ ret v = p.ret v
  | .store val r => ∀ v, p.cond v = true ∧ p.new v = val ∧ p.ret v = r
  | .done _ => True
  | .code q => I q

end PlainOr

theorem Follows.plainOr {p : OnValue A R} {next : S → Instr A S R} {phase : S → Phase A R} {I : S → Prop}
    (h : Follows p next phase I) :
    Follows p (PlainOr.next next) (PlainOr.phase phase) (PlainOr.Ok p I) := by
  intro q hq
  cases q with
  | load ret =>
    intro v
    obtain ⟨hcond, hret⟩ := hq v
    refine ⟨trivial, hcond, ?_⟩
    rw [PlainOr.phase, hret]
  | store val r =>
    intro v
    obtain ⟨hcond, hnew, hret⟩ := hq v
    refine ⟨trivial, ?_, ?_⟩
    · rw [PlainOr.phase, hret]
    · rw [if_pos hcond, hnew]
  | done r => rfl
  | code q => exact (h q hq).map (fun _ hq' => hq') fun _ => rfl

/-! ## Threads -/

section

variable [DecidableEq T] [DecidableEq L]

/-- The next instruction of a thread at `q`, in code for the cell `l`. -/
def Instr.exec (s : Linked T L V) (t : T) (l : L) (spurious : Bool) :
    Instr (V l) (Q l) R → Linked T L V × ((Σ l, Q l) ⊕ R)
  | .ll k => ((s.ll t l).2, .inl ⟨l, k (s.ll t l).1⟩)
  | .sc v k => ((s.sc t l v spurious).2, .inl ⟨l, k (s.sc t l v spurious).1⟩)
  | .load k => (s, .inl ⟨l, k (s.mem l)⟩)
  | .rmw f k => (s.write t l (f (s.mem l)), .inl ⟨l, k (s.mem l)⟩)
  | .tau q => (s, .inl ⟨l, q⟩)
  | .ret r => (s, .inr r)

/-- Operations by machine code: the cell of each one and where its code starts. -/
def assemblyObject (next : (l : L) → Q l → Instr (V l) (Q l) R) (start : Op → Σ l, Q l) :
    Object T (Linked T L V) (Σ l, Q l) Op R where
  start := start
  access t spurious pc s := (next pc.1 pc.2).exec s t pc.1 spurious

/-- What holds of a thread: its code is the operation's, and a value read is the one the cell still has, if
the reservation is valid. -/
def AssemblyOk (rmw : Op → Rmw L V R) (phase : (l : L) → Q l → Phase (V l) R) (I : (op : Op) → Q (rmw op).cell → Prop)
    (s : Linked T L V) (t : T) (x : Option (Op × Σ l, Q l)) : Prop :=
  ∀ op pc, x = some (op, pc) → ∃ q, pc = ⟨(rmw op).cell, q⟩ ∧ I op q ∧
    ∀ v, phase _ q = .read v → s.Holds t (rmw op).cell v

variable {next : (l : L) → Q l → Instr (V l) (Q l) R} {start : Op → Σ l, Q l} {rmw : Op → Rmw L V R}
  {phase : (l : L) → Q l → Phase (V l) R} {I : (op : Op) → Q (rmw op).cell → Prop} {s u : Linked T L V} {t : T}
  {op : Op}

theorem Instr.exec_frame {l : L} {b : Bool} (i : Instr (V l) (Q l) R) : s.Frame (i.exec s t l b).1 t := by
  cases i with
  | ll k => exact Linked.frame_ll
  | sc v k => exact Linked.frame_sc
  | load k => exact Linked.frame_refl
  | rmw f k => exact Linked.frame_write
  | tau q => exact Linked.frame_refl
  | ret r => exact Linked.frame_refl

omit [DecidableEq T] [DecidableEq L] in
theorem AssemblyOk.mk {q : Q (rmw op).cell} (hI : I op q)
    (hread : ∀ v, phase _ q = .read v → s.Holds t (rmw op).cell v) :
    AssemblyOk rmw phase I s t (some (op, ⟨(rmw op).cell, q⟩)) := by
  rintro _ _ ⟨⟩
  exact ⟨q, rfl, hI, hread⟩

omit [DecidableEq T] [DecidableEq L] in
theorem AssemblyOk.of_fresh {q : Q (rmw op).cell} (hI : I op q) (h : phase _ q = .fresh) :
    AssemblyOk rmw phase I s t (some (op, ⟨(rmw op).cell, q⟩)) := by
  apply AssemblyOk.mk hI
  intro v hv
  rw [h] at hv
  cases hv

omit [DecidableEq T] [DecidableEq L] in
theorem AssemblyOk.of_took {q : Q (rmw op).cell} {r : R} (hI : I op q) (h : phase _ q = .took r) :
    AssemblyOk rmw phase I s t (some (op, ⟨(rmw op).cell, q⟩)) := by
  apply AssemblyOk.mk hI
  intro v hv
  rw [h] at hv
  cases hv

omit [DecidableEq T] [DecidableEq L] in
theorem AssemblyOk.of_read {q : Q (rmw op).cell} {v : V (rmw op).cell} (hI : I op q) (h : phase _ q = .read v)
    (hv : s.Holds t (rmw op).cell v) : AssemblyOk rmw phase I s t (some (op, ⟨(rmw op).cell, q⟩)) := by
  apply AssemblyOk.mk hI
  intro v' hv'
  rw [h] at hv'
  cases hv'
  exact hv

section Step

variable {q : Q (rmw op).cell} {b : Bool} {pc' : Σ l, Q l} {v : V (rmw op).cell} {r : R}

/-- What is to be shown of an instruction after which the code goes on. -/
def GoesOn (rmw : Op → Rmw L V R) (phase : (l : L) → Q l → Phase (V l) R) (I : (op : Op) → Q (rmw op).cell → Prop)
    (s u : Linked T L V) (t : T) (op : Op) (before : Option R) (pc' : Σ l, Q l) : Prop :=
  AssemblyOk rmw phase I u t (some (op, pc')) ∧
    Effect (fun m op => (rmw op).atOnce m) op s.mem u.mem before (phase pc'.1 pc'.2).result

/-- Nothing that counts has been read: the instruction may read, or take effect at once. -/
theorem GoesOn.of_fresh (hkeeps : Keeps (rmw op).onValue (phase _) (I op) .fresh (next _ q))
    (hacc : (next _ q).exec s t _ b = (u, .inl pc')) : GoesOn rmw phase I s u t op none pc' := by
  cases hi : next _ q with
  | ll k =>
    rw [hi] at hkeeps hacc
    cases hacc
    -- a load-link that does not count, or the one whose value the code goes by
    obtain ⟨hI, hk | hk⟩ := hkeeps (s.ll t (rmw op).cell).1
    · refine ⟨AssemblyOk.of_fresh hI hk, ?_⟩
      simp only [hk]
      exact rfl
    · by_cases hcond : (rmw op).onValue.cond (s.ll t (rmw op).cell).1 = true
      · rw [OnValue.found, if_pos hcond] at hk
        refine ⟨AssemblyOk.of_read hI hk Linked.holds_ll, ?_⟩
        simp only [hk]
        exact rfl
      · rw [OnValue.found, if_neg hcond] at hk
        refine ⟨AssemblyOk.of_took hI hk, ?_⟩
        simp only [hk]
        exact Rmw.atOnce_keeps hcond
  | sc v k =>
    rw [hi] at hkeeps
    exact hkeeps.elim
  | load k =>
    rw [hi] at hkeeps hacc
    cases hacc
    obtain ⟨hI, hcond, hk⟩ := hkeeps (s.mem (rmw op).cell)
    replace hcond : (rmw op).cond (s.mem (rmw op).cell) = false := hcond
    refine ⟨AssemblyOk.of_took hI hk, ?_⟩
    simp only [hk]
    exact Rmw.atOnce_keeps (by simp [hcond])
  | rmw f k =>
    rw [hi] at hkeeps hacc
    cases hacc
    obtain ⟨hI, hk, hnew⟩ := hkeeps (s.mem (rmw op).cell)
    refine ⟨AssemblyOk.of_took hI hk, ?_⟩
    simp only [hk]
    -- one instruction does the whole operation
    show (rmw op).atOnce s.mem = _
    rw [hnew]
    by_cases hcond : (rmw op).onValue.cond (s.mem (rmw op).cell) = true
    · rw [if_pos hcond]
      exact Rmw.atOnce_writes hcond
    · rw [if_neg hcond, Rmw.atOnce_keeps hcond]
      exact congrArg (·, _) (Function.update_eq_self _ _).symm
  | tau q' =>
    rw [hi] at hkeeps hacc
    cases hacc
    refine ⟨AssemblyOk.of_fresh hkeeps.1 hkeeps.2, ?_⟩
    simp only [hkeeps.2]
    exact rfl
  | ret r =>
    rw [hi] at hkeeps
    exact hkeeps.elim

/-- A value has been read that is to be replaced: the store-conditional takes effect, or the code starts anew. -/
theorem GoesOn.of_read (hkeeps : Keeps (rmw op).onValue (phase _) (I op) (.read v) (next _ q))
    (hread : s.Holds t (rmw op).cell v) (hacc : (next _ q).exec s t _ b = (u, .inl pc')) :
    GoesOn rmw phase I s u t op none pc' := by
  cases hi : next _ q with
  | sc v' k =>
    rw [hi] at hkeeps hacc
    obtain ⟨rfl, hcond, ⟨hItrue, htrue⟩, hIfalse, hfalse⟩ := hkeeps
    by_cases hv : (s.valid t (rmw op).cell && !b) = true
    · -- the reservation is valid, so the cell still has the value read
      rw [Instr.exec, Linked.sc_stores hv] at hacc
      cases hacc
      rw [Bool.and_eq_true] at hv
      have hmem := hread hv.1
      refine ⟨AssemblyOk.of_took hItrue htrue, ?_⟩
      simp only [htrue]
      show (rmw op).atOnce s.mem = _
      rw [Rmw.atOnce_writes (by rw [hmem]; exact hcond), hmem]
      rfl
    · rw [Instr.exec, Linked.sc_fails hv] at hacc
      cases hacc
      refine ⟨AssemblyOk.of_fresh hIfalse hfalse, ?_⟩
      simp only [hfalse]
      exact rfl
  | tau q' =>
    rw [hi] at hkeeps hacc
    cases hacc
    refine ⟨AssemblyOk.of_read hkeeps.1 hkeeps.2 hread, ?_⟩
    simp only [hkeeps.2]
    exact rfl
  | ll k =>
    rw [hi] at hkeeps
    exact hkeeps.elim
  | load k =>
    rw [hi] at hkeeps
    exact hkeeps.elim
  | rmw f k =>
    rw [hi] at hkeeps
    exact hkeeps.elim
  | ret r =>
    rw [hi] at hkeeps
    exact hkeeps.elim

/-- The effect has been taken: the code only moves on. -/
theorem GoesOn.of_took (hkeeps : Keeps (rmw op).onValue (phase _) (I op) (.took r) (next _ q))
    (hacc : (next _ q).exec s t _ b = (u, .inl pc')) : GoesOn rmw phase I s u t op (some r) pc' := by
  cases hi : next _ q with
  | tau q' =>
    rw [hi] at hkeeps hacc
    cases hacc
    refine ⟨AssemblyOk.of_took hkeeps.1 hkeeps.2, ?_⟩
    simp only [hkeeps.2]
    exact ⟨rfl, rfl⟩
  | ret r' =>
    rw [hi] at hacc
    cases hacc
  | ll k =>
    rw [hi] at hkeeps
    exact hkeeps.elim
  | sc v k =>
    rw [hi] at hkeeps
    exact hkeeps.elim
  | load k =>
    rw [hi] at hkeeps
    exact hkeeps.elim
  | rmw f k =>
    rw [hi] at hkeeps
    exact hkeeps.elim

/-- The code returns only after its effect, and with what it took effect with. -/
theorem Keeps.returns (hkeeps : Keeps (rmw op).onValue (phase _) (I op) (phase _ q) (next _ q))
    (hacc : (next _ q).exec s t _ b = (u, .inr r)) : u = s ∧ (phase _ q).result = some r := by
  cases hi : next _ q with
  | ret r' =>
    rw [hi] at hkeeps hacc
    cases hacc
    refine ⟨rfl, ?_⟩
    cases hphase : phase _ q with
    | took r' =>
      rw [hphase] at hkeeps
      exact congrArg some hkeeps.symm
    | fresh =>
      rw [hphase] at hkeeps
      exact hkeeps.elim
    | read v =>
      rw [hphase] at hkeeps
      exact hkeeps.elim
  | _ =>
    rw [hi] at hacc
    cases hacc

end Step

/-- Code that keeps to the phases of its operations takes effect where the phases say. -/
theorem assembly_takesEffect (next : (l : L) → Q l → Instr (V l) (Q l) R) (start : Op → Σ l, Q l)
    (rmw : Op → Rmw L V R) (phase : (l : L) → Q l → Phase (V l) R) (I : (op : Op) → Q (rmw op).cell → Prop)
    (hf : ∀ op, Follows (rmw op).onValue (next _) (phase _) (I op))
    (hstart : ∀ op, ∃ q, start op = ⟨(rmw op).cell, q⟩ ∧ I op q ∧ phase _ q = .fresh) :
    TakesEffect (assemblyObject (T := T) next start) (fun m op => (rmw op).atOnce m) Linked.mem
      (AssemblyOk rmw phase I) fun pc => (phase pc.1 pc.2).result where
  start s t op _ := by
    obtain ⟨q, hq, hI, hphase⟩ := hstart op
    constructor
    · show AssemblyOk rmw phase I s t (some (op, start op))
      rw [hq]
      exact AssemblyOk.of_fresh hI hphase
    · show (phase (start op).1 (start op).2).result = none
      rw [hq]
      simp only [hphase]
      rfl
  goesOn s t b op pc u pc' hok hacc := by
    obtain ⟨q, rfl, hI, hread⟩ := hok op pc rfl
    have hkeeps := hf op q hI
    cases hphase : phase _ q with
    | fresh =>
      rw [hphase] at hkeeps
      exact GoesOn.of_fresh hkeeps hacc
    | read v =>
      rw [hphase] at hkeeps
      exact GoesOn.of_read hkeeps (hread v hphase) hacc
    | took r =>
      rw [hphase] at hkeeps
      exact GoesOn.of_took hkeeps hacc
  returns s t b op pc u r hok hacc := by
    obtain ⟨q, rfl, hI, hread⟩ := hok op pc rfl
    obtain ⟨rfl, hres⟩ := (hf op q hI).returns hacc
    simp only [hres]
    refine ⟨?_, rfl, rfl⟩
    intro _ _ hnone
    cases hnone
  others s t b op pc t' x ht _ hok op' pc' hx := by
    obtain ⟨q, rfl, hI, hread⟩ := hok op' pc' hx
    refine ⟨q, rfl, hI, fun v hv => ?_⟩
    exact (hread v hv).frame (Instr.exec_frame _) ht

end

end OpenPA.Machine
