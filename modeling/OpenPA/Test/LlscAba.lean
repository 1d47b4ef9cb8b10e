/-
The two threads of `test_threaded_llsc_int_aba` and of `test_threaded_llsc_ptr_aba`, which differ in the type of the
shared value. In each iteration the first one links the shared value, lets the second one change it and change it back,
or not, and then makes a store-conditional, which has to fail if the value was changed. They wait for each other with
three flags.

Whatever the interleaving, and whatever fails spuriously, the first one finds no error, and both come to their end if
they are scheduled (`threaded_llsc_aba`). Every load, store, load-link and store-conditional is a step; the barriers
have no effect there.
-/
import OpenPA.Machine.Retry

namespace OpenPA.Test

open OpenPA.Machine

variable {V : Type}

inductive AbaThread where
  | helper_0
  | helper_1
  deriving DecidableEq

/-- `llsc_int_aba_t`, or `llsc_ptr_aba_t`; the shared value with its reservations. -/
structure LlscAba (V : Type) where
  shared_val : Linked AbaThread Unit fun _ => V
  pass_point_0 : BitVec 32
  pass_point_1 : BitVec 32
  pass_point_2 : BitVec 32
  change_val : BitVec 32
  false_positives : Nat
  nunchanged_val : Nat

/-- The shared value. -/
def LlscAba.val (udata : LlscAba V) : V := udata.shared_val.mem ()

/-- Whether the reservation of the first thread is valid. -/
def LlscAba.linked (udata : LlscAba V) : Bool := udata.shared_val.valid .helper_0 ()

/-- The next access of the first thread. -/
inductive AbaPc0 where
  | storeShared
  | loadLinked
  | passPoint0
  | waitPoint1
  | storeConditional
  /-- `OPA_SC_int` succeeded -/
  | checkChanged
  | expectOne
  /-- `OPA_SC_int` failed -/
  | checkUnchanged
  | expectZero
  | resetPoint1
  | passPoint2
  | exit
  deriving DecidableEq

/-- Its locals. -/
structure AbaHelper0 where
  pc : AbaPc0
  i : Nat
  nerrors : Nat

/-- The next access of the second thread. -/
inductive AbaPc1 where
  | decide
  | waitPoint0
  | resetPoint0
  | checkChange
  | storeOne
  | storeZero
  | passPoint1
  | waitPoint2
  | resetPoint2
  | exit
  deriving DecidableEq

structure AbaHelper1 where
  pc : AbaPc1
  i : Nat

/-- The head of the loop of the first thread. -/
def AbaHelper0.loop (niter i nerrors : Nat) : AbaHelper0 := ⟨if i < niter then .storeShared else .exit, i, nerrors⟩

/-- The head of the loop of the second thread. -/
def AbaHelper1.loop (niter i : Nat) : AbaHelper1 := ⟨if i < niter then .decide else .exit, i⟩

/-! ## The helpers -/

section

variable (zero one : V) (niter : Nat)

/-- The next access of either `helper_0`. A store-conditional may fail spuriously. -/
def llscAbaHelper0 [DecidableEq V] (spurious : Bool) (c : AbaHelper0) (udata : LlscAba V) :
    Option (AbaHelper0 × LlscAba V) :=
  match c.pc with
  | .storeShared =>
    some ({ c with pc := .loadLinked }, { udata with shared_val := udata.shared_val.write .helper_0 () zero })
  | .loadLinked =>
    let r := udata.shared_val.ll .helper_0 ()
    some ({ c with pc := .passPoint0, nerrors := if zero ≠ r.1 then c.nerrors + 1 else c.nerrors },
      { udata with shared_val := r.2 })
  | .passPoint0 => some ({ c with pc := .waitPoint1 }, { udata with pass_point_0 := 1 })
  | .waitPoint1 => some (if udata.pass_point_1 = 0 then c else { c with pc := .storeConditional }, udata)
  | .storeConditional =>
    let r := udata.shared_val.sc .helper_0 () one spurious
    some ({ c with pc := if r.1 then .checkChanged else .checkUnchanged }, { udata with shared_val := r.2 })
  | .checkChanged =>
    if udata.change_val ≠ 0 then some ({ c with pc := .expectOne, nerrors := c.nerrors + 1 }, udata)
    else some ({ c with pc := .expectOne }, { udata with nunchanged_val := udata.nunchanged_val + 1 })
  | .expectOne =>
    some ({ c with pc := .resetPoint1, nerrors := if one ≠ udata.val then c.nerrors + 1 else c.nerrors }, udata)
  | .checkUnchanged =>
    if udata.change_val = 0 then
      some ({ c with pc := .expectZero },
        { udata with
          false_positives := udata.false_positives + 1
          nunchanged_val := udata.nunchanged_val + 1 })
    else some ({ c with pc := .expectZero }, udata)
  | .expectZero =>
    some ({ c with pc := .resetPoint1, nerrors := if zero ≠ udata.val then c.nerrors + 1 else c.nerrors }, udata)
  | .resetPoint1 => some ({ c with pc := .passPoint2 }, { udata with pass_point_1 := 0 })
  | .passPoint2 => some (AbaHelper0.loop niter (c.i + 1) c.nerrors, { udata with pass_point_2 := 1 })
  | .exit => none

/-- The next access of either `helper_1`, with what `rand` returns. -/
def llscAbaHelper1 (rand : Nat) (c : AbaHelper1) (udata : LlscAba V) : Option (AbaHelper1 × LlscAba V) :=
  match c.pc with
  | .decide => some ({ c with pc := .waitPoint0 }, { udata with change_val := BitVec.ofNat 32 (rand % 2) })
  | .waitPoint0 => some (if udata.pass_point_0 = 0 then c else { c with pc := .resetPoint0 }, udata)
  | .resetPoint0 => some ({ c with pc := .checkChange }, { udata with pass_point_0 := 0 })
  | .checkChange => some ({ c with pc := if udata.change_val ≠ 0 then .storeOne else .passPoint1 }, udata)
  | .storeOne =>
    some ({ c with pc := .storeZero }, { udata with shared_val := udata.shared_val.write .helper_1 () one })
  | .storeZero =>
    some ({ c with pc := .passPoint1 }, { udata with shared_val := udata.shared_val.write .helper_1 () zero })
  | .passPoint1 => some ({ c with pc := .waitPoint2 }, { udata with pass_point_1 := 1 })
  | .waitPoint2 => some (if udata.pass_point_2 = 0 then c else { c with pc := .resetPoint2 }, udata)
  | .resetPoint2 => some (AbaHelper1.loop niter (c.i + 1), { udata with pass_point_2 := 0 })
  | .exit => none

end

/-- The test. -/
structure AbaState (V : Type) where
  udata : LlscAba V
  helper_0 : AbaHelper0
  helper_1 : AbaHelper1

/-- The threads at the start, with whatever reservations they have. -/
def AbaState.init (zero : V) (niter : Nat) (valid : AbaThread → Unit → Bool) : AbaState V :=
  ⟨⟨⟨fun _ => zero, valid⟩, 0, 0, 0, 0, 0, 0⟩, .loop niter 0 0, .loop niter 0⟩

/-- A thread makes its next access. -/
inductive AbaAct where
  | helper_0 (spurious : Bool)
  | helper_1 (rand : Nat)

def AbaAct.thread : AbaAct → AbaThread
  | .helper_0 _ => .helper_0
  | .helper_1 _ => .helper_1

def llscAbaStep [DecidableEq V] (zero one : V) (niter : Nat) (s : AbaState V) : AbaAct → Option (AbaState V)
  | .helper_0 spurious =>
    (llscAbaHelper0 zero one niter spurious s.helper_0 s.udata).map fun r => ⟨r.2, r.1, s.helper_1⟩
  | .helper_1 rand => (llscAbaHelper1 zero one niter rand s.helper_1 s.udata).map fun r => ⟨r.2, s.helper_0, r.1⟩

/-- The thread has left its loop. -/
def AbaState.exited (s : AbaState V) : AbaThread → Prop
  | .helper_0 => s.helper_0.pc = .exit
  | .helper_1 => s.helper_1.pc = .exit

/-- A store-conditional with a valid reservation that fails. -/
def spuriousFailure (s : AbaState V) : AbaAct → Bool
  | .helper_0 spurious => spurious && s.udata.linked && decide (s.helper_0.pc = .storeConditional)
  | .helper_1 _ => false

/-! ## The invariant -/

/-- The second thread has yet to pass point 0 of the iteration `i` of the first one. -/
def AbaHelper1.Behind (niter i : Nat) (udata : LlscAba V) (c : AbaHelper1) : Prop :=
  match c.pc with
  | .waitPoint2 | .resetPoint2 => c.i + 1 = i ∧ c.i < niter ∧ udata.pass_point_2 = 1
  | .decide | .waitPoint0 => c.i = i ∧ c.i < niter ∧ udata.pass_point_2 = 0
  | .exit => c.i = i ∧ c.i = niter ∧ udata.pass_point_2 = 0
  | _ => False

/-- Where the threads are in an iteration. -/
inductive AbaPhase (zero one : V) (niter : Nat) (s : AbaState V) : Prop
  /-- the first one has not passed point 0 -/
  | preparing (hi : s.helper_0.i ≤ niter) (h1 : s.helper_1.Behind niter s.helper_0.i s.udata)
    (h0 : match s.helper_0.pc with
      | .storeShared => s.helper_0.i < niter
      | .loadLinked => s.helper_0.i < niter ∧ s.udata.val = zero
      | .passPoint0 => s.helper_0.i < niter ∧ s.udata.val = zero ∧ s.udata.linked = true
      | .exit => s.helper_0.i = niter
      | _ => False)
    (hp0 : s.udata.pass_point_0 = 0) (hp1 : s.udata.pass_point_1 = 0)
  /-- the second one has not seen it -/
  | linked (hi : s.helper_0.i < niter) (h0 : s.helper_0.pc = .waitPoint1)
    (h1 : s.helper_1.Behind niter s.helper_0.i s.udata ∨
      s.helper_1.pc = .resetPoint0 ∧ s.helper_1.i = s.helper_0.i ∧ s.udata.pass_point_2 = 0)
    (hp0 : s.udata.pass_point_0 = 1) (hp1 : s.udata.pass_point_1 = 0) (hval : s.udata.val = zero)
    (hlinked : s.udata.linked = true)
  /-- it is before point 1 -/
  | changing (hi : s.helper_0.i < niter) (h0 : s.helper_0.pc = .waitPoint1) (hi1 : s.helper_1.i = s.helper_0.i)
    (h1 : match s.helper_1.pc with
      | .checkChange => s.udata.val = zero ∧ s.udata.linked = true
      | .storeOne => s.udata.val = zero ∧ s.udata.change_val ≠ 0
      | .storeZero => s.udata.change_val ≠ 0 ∧ s.udata.linked = false
      | .passPoint1 => s.udata.val = zero ∧ s.udata.linked = decide (s.udata.change_val = 0)
      | _ => False)
    (hp0 : s.udata.pass_point_0 = 0) (hp1 : s.udata.pass_point_1 = 0) (hp2 : s.udata.pass_point_2 = 0)
  /-- it has passed point 1 -/
  | changed (hi : s.helper_0.i < niter) (h1 : s.helper_1.pc = .waitPoint2) (hi1 : s.helper_1.i = s.helper_0.i)
    (h0 : match s.helper_0.pc with
      | .waitPoint1 | .storeConditional => s.udata.val = zero ∧ s.udata.linked = decide (s.udata.change_val = 0)
      | .checkChanged => s.udata.val = one ∧ s.udata.change_val = 0
      | .expectOne => s.udata.val = one
      | .checkUnchanged | .expectZero => s.udata.val = zero
      | .resetPoint1 => True
      | _ => False)
    (hp0 : s.udata.pass_point_0 = 0) (hp1 : s.udata.pass_point_1 = 1) (hp2 : s.udata.pass_point_2 = 0)
  /-- the first one is before point 2 -/
  | checked (hi : s.helper_0.i < niter) (h0 : s.helper_0.pc = .passPoint2) (h1 : s.helper_1.pc = .waitPoint2)
    (hi1 : s.helper_1.i = s.helper_0.i) (hp0 : s.udata.pass_point_0 = 0) (hp1 : s.udata.pass_point_1 = 0)
    (hp2 : s.udata.pass_point_2 = 0)

section

variable {zero one : V} {niter : Nat} {s : AbaState V} {udata : LlscAba V}

theorem AbaHelper1.Behind.same {i : Nat} {c : AbaHelper1} {udata' : LlscAba V} (h : c.Behind niter i udata)
    (hp2 : udata'.pass_point_2 = udata.pass_point_2) : c.Behind niter i udata' := by
  unfold AbaHelper1.Behind at h ⊢
  rw [hp2]
  exact h

/-- What the second thread does before it passes point 0. -/
theorem AbaHelper1.Behind.next {i : Nat} {c c' : AbaHelper1} {u : LlscAba V} (h : c.Behind niter i u) {rand : Nat}
    (hs : llscAbaHelper1 zero one niter rand c u = some (c', udata)) :
    udata.shared_val = u.shared_val ∧ udata.pass_point_0 = u.pass_point_0 ∧ udata.pass_point_1 = u.pass_point_1 ∧
      (c'.Behind niter i udata ∨
        u.pass_point_0 ≠ 0 ∧ c'.pc = .resetPoint0 ∧ c'.i = i ∧ udata.pass_point_2 = 0) := by
  unfold llscAbaHelper1 at hs
  unfold AbaHelper1.Behind at h
  cases hpc : c.pc <;> simp only [hpc] at h hs
  case waitPoint2 =>
    rw [if_neg (by rw [h.2.2]; decide)] at hs
    cases hs
    exact ⟨rfl, rfl, rfl, .inl h⟩
  case resetPoint2 =>
    cases hs
    refine ⟨rfl, rfl, rfl, .inl ?_⟩
    by_cases hlt : c.i + 1 < niter
    · simp only [AbaHelper1.Behind, AbaHelper1.loop, if_pos hlt]
      exact ⟨h.1, hlt, trivial⟩
    · simp only [AbaHelper1.Behind, AbaHelper1.loop, if_neg hlt]
      exact ⟨h.1, Nat.le_antisymm h.2.1 (Nat.le_of_not_lt hlt), trivial⟩
  case decide =>
    cases hs
    exact ⟨rfl, rfl, rfl, .inl h⟩
  case waitPoint0 =>
    by_cases hp0 : u.pass_point_0 = 0
    · rw [if_pos hp0] at hs
      cases hs
      refine ⟨rfl, rfl, rfl, .inl ?_⟩
      simp only [AbaHelper1.Behind, hpc]
      exact h
    · rw [if_neg hp0] at hs
      cases hs
      exact ⟨rfl, rfl, rfl, .inr ⟨hp0, rfl, h.1, h.2.2⟩⟩
  case exit => cases hs

/-- An access of the second thread. -/
theorem AbaPhase.helper_1 (h : AbaPhase zero one niter s) {rand : Nat} {c : AbaHelper1}
    (hs : llscAbaHelper1 zero one niter rand s.helper_1 s.udata = some (c, udata)) :
    AbaPhase zero one niter ⟨udata, s.helper_0, c⟩ := by
  cases h with
  | preparing hi h1 h0 hp0 hp1 =>
    obtain ⟨hshared, hp0', hp1', hnext⟩ := h1.next hs
    have hval : udata.val = s.udata.val := congrArg (fun x => x.mem ()) hshared
    have hlinked : udata.linked = s.udata.linked := congrArg (fun x => x.valid .helper_0 ()) hshared
    refine .preparing hi (hnext.resolve_right fun hne => hne.1 hp0) ?_ (hp0'.trans hp0) (hp1'.trans hp1)
    rw [hval, hlinked]
    exact h0
  | linked hi h0 h1 hp0 hp1 hval hlinked =>
    -- it sees that point 0 has been passed, or has seen it
    rcases h1 with h1 | ⟨hpc, hi1, hp2⟩
    · obtain ⟨hshared, hp0', hp1', hnext⟩ := h1.next hs
      refine .linked hi h0 (hnext.imp_right And.right) (hp0'.trans hp0) (hp1'.trans hp1) ?_ ?_
      · exact (congrArg (fun x => x.mem ()) hshared).trans hval
      · exact (congrArg (fun x => x.valid .helper_0 ()) hshared).trans hlinked
    · simp only [llscAbaHelper1, hpc] at hs
      cases hs
      exact .changing hi h0 hi1 ⟨hval, hlinked⟩ rfl hp1 hp2
  | changing hi h0 hi1 h1 hp0 hp1 hp2 =>
    unfold llscAbaHelper1 at hs
    cases hpc : s.helper_1.pc <;> simp only [hpc] at h1 hs
    case checkChange =>
      cases hs
      by_cases hchange : s.udata.change_val = 0
      · refine .changing hi h0 hi1 ?_ hp0 hp1 hp2
        simp only [hchange]
        exact ⟨h1.1, h1.2⟩
      · refine .changing hi h0 hi1 ?_ hp0 hp1 hp2
        simp only [if_pos hchange]
        exact ⟨h1.1, hchange⟩
    case storeOne =>
      -- the store invalidates the reservation of the first one
      cases hs
      refine .changing hi h0 hi1 ⟨h1.2, ?_⟩ hp0 hp1 hp2
      simp [LlscAba.linked, Linked.write]
    case storeZero =>
      cases hs
      refine .changing hi h0 hi1 ⟨rfl, ?_⟩ hp0 hp1 hp2
      simp [LlscAba.linked, Linked.write]
      exact h1.1
    case passPoint1 =>
      cases hs
      exact .changed hi rfl hi1 (by rw [h0]; exact h1) hp0 rfl hp2
  | changed hi h1 hi1 h0 hp0 hp1 hp2 =>
    simp only [llscAbaHelper1, h1, hp2, reduceIte] at hs
    cases hs
    exact .changed hi h1 hi1 h0 hp0 hp1 hp2
  | checked hi h0 h1 hi1 hp0 hp1 hp2 =>
    simp only [llscAbaHelper1, h1, hp2, reduceIte] at hs
    cases hs
    exact .checked hi h0 h1 hi1 hp0 hp1 hp2

theorem AbaPhase.storeConditional (h : AbaPhase zero one niter s) (hpc : s.helper_0.pc = .storeConditional) :
    s.udata.linked = decide (s.udata.change_val = 0) := by
  cases h with
  | preparing hi h1 h0 hp0 hp1 => simp only [hpc] at h0
  | linked hi h0 => cases hpc.symm.trans h0
  | changing hi h0 => cases hpc.symm.trans h0
  | changed hi h1 hi1 h0 hp0 hp1 hp2 =>
    simp only [hpc] at h0
    exact h0.2
  | checked hi h0 => cases hpc.symm.trans h0

/-- The second thread does not decide while the first one checks. -/
theorem AbaPhase.undecided (h : AbaPhase zero one niter s) (hpc : s.helper_1.pc = .decide) :
    s.helper_0.pc ≠ .checkUnchanged := by
  intro hcheck
  cases h with
  | preparing hi h1 h0 => simp only [hcheck] at h0
  | linked hi h0 => cases hcheck.symm.trans h0
  | changing hi h0 => cases hcheck.symm.trans h0
  | changed hi h1 => cases hpc.symm.trans h1
  | checked hi h0 => cases hcheck.symm.trans h0

/-! ## What is counted -/

/-- Whether `nunchanged_val` has been counted for the iteration. -/
def AbaPc0.counted : AbaPc0 → Nat
  | .expectOne | .expectZero | .resetPoint1 | .passPoint2 => 1
  | _ => 0

/-- Spurious failures, counted or about to be. -/
def AbaState.failures (s : AbaState V) : Nat :=
  s.udata.false_positives + if s.helper_0.pc = .checkUnchanged ∧ s.udata.change_val = 0 then 1 else 0

theorem AbaPhase.counts_1 (h : AbaPhase zero one niter s) {rand : Nat} {c : AbaHelper1}
    (hs : llscAbaHelper1 zero one niter rand s.helper_1 s.udata = some (c, udata)) :
    udata.false_positives = s.udata.false_positives ∧ udata.nunchanged_val = s.udata.nunchanged_val ∧
      AbaState.failures ⟨udata, s.helper_0, c⟩ = s.failures := by
  by_cases hdecide : s.helper_1.pc = .decide
  · have hne := h.undecided hdecide
    simp only [llscAbaHelper1, hdecide] at hs
    cases hs
    simp [AbaState.failures, hne]
  · unfold llscAbaHelper1 at hs
    cases hpc : s.helper_1.pc <;> simp only [hpc] at hs
    case decide => exact absurd hpc hdecide
    case exit => cases hs
    all_goals
      cases hs
      exact ⟨rfl, rfl, rfl⟩

/-! ## The end -/

/-- How far a thread is in an iteration. -/
def AbaPc0.position : AbaPc0 → Nat
  | .storeShared | .exit => 0
  | .loadLinked => 1
  | .passPoint0 => 2
  | .waitPoint1 => 3
  | .storeConditional => 4
  | .checkChanged | .checkUnchanged => 5
  | .expectOne | .expectZero => 6
  | .resetPoint1 => 7
  | .passPoint2 => 8

def AbaPc1.position : AbaPc1 → Nat
  | .decide | .exit => 0
  | .waitPoint0 => 1
  | .resetPoint0 => 2
  | .checkChange => 3
  | .storeOne => 4
  | .storeZero => 5
  | .passPoint1 => 6
  | .waitPoint2 => 7
  | .resetPoint2 => 8

/-- What the threads have yet to do, at most. -/
def AbaState.rank (niter : Nat) (s : AbaState V) : Nat :=
  (9 * niter - (9 * s.helper_0.i + s.helper_0.pc.position)) +
    (9 * niter - (9 * s.helper_1.i + s.helper_1.pc.position))

/-- The thread is in one of its waits. -/
def AbaState.waits (s : AbaState V) : AbaThread → Prop
  | .helper_0 => s.helper_0.pc = .waitPoint1 ∧ s.udata.pass_point_1 = 0
  | .helper_1 => s.helper_1.pc = .waitPoint0 ∧ s.udata.pass_point_0 = 0 ∨
      s.helper_1.pc = .waitPoint2 ∧ s.udata.pass_point_2 = 0

theorem AbaPc0.position_le (pc : AbaPc0) : pc.position ≤ 8 := by
  cases pc <;> decide

theorem AbaPc1.position_le (pc : AbaPc1) : pc.position ≤ 8 := by
  cases pc <;> decide

theorem llscAbaHelper1_moves {rand : Nat} {c c' : AbaHelper1} {u : LlscAba V}
    (hs : llscAbaHelper1 zero one niter rand c u = some (c', udata)) :
    c.pc ≠ .exit ∧ ((c.pc = .waitPoint0 ∧ u.pass_point_0 = 0 ∨ c.pc = .waitPoint2 ∧ u.pass_point_2 = 0) ∧
      c' = c ∧ udata = u ∨ 9 * c.i + c.pc.position < 9 * c'.i + c'.pc.position) := by
  unfold llscAbaHelper1 at hs
  cases hpc : c.pc <;> simp only [hpc] at hs
  case exit => cases hs
  case waitPoint0 =>
    by_cases hp0 : u.pass_point_0 = 0
    · rw [if_pos hp0] at hs
      cases hs
      exact ⟨nofun, .inl ⟨.inl ⟨rfl, hp0⟩, rfl, rfl⟩⟩
    · rw [if_neg hp0] at hs
      cases hs
      exact ⟨nofun, .inr (Nat.lt_succ_self _)⟩
  case waitPoint2 =>
    by_cases hp2 : u.pass_point_2 = 0
    · rw [if_pos hp2] at hs
      cases hs
      exact ⟨nofun, .inl ⟨.inr ⟨rfl, hp2⟩, rfl, rfl⟩⟩
    · rw [if_neg hp2] at hs
      cases hs
      exact ⟨nofun, .inr (Nat.lt_succ_self _)⟩
  case checkChange =>
    by_cases hchange : u.change_val ≠ 0
    · rw [if_pos hchange] at hs
      cases hs
      exact ⟨nofun, .inr (Nat.lt_succ_self _)⟩
    · rw [if_neg hchange] at hs
      cases hs
      exact ⟨nofun, .inr (Nat.add_lt_add_left (show 3 < 6 by decide) _)⟩
  case resetPoint2 =>
    cases hs
    refine ⟨nofun, .inr ?_⟩
    simp only [AbaHelper1.loop, AbaPc1.position]
    split <;> omega
  all_goals
    cases hs
    exact ⟨nofun, .inr (Nat.lt_succ_self _)⟩

theorem AbaHelper1.Behind.bound {i : Nat} {c : AbaHelper1} (h : c.Behind niter i udata) (hpc : c.pc ≠ .exit) :
    c.i < niter := by
  unfold AbaHelper1.Behind at h
  cases hc : c.pc <;> simp only [hc] at h
  case exit => exact absurd hc hpc
  all_goals exact h.2.1

/-- Nothing keeps the second thread from passing point 0 once the first one has. -/
theorem AbaHelper1.Behind.moves {i : Nat} (h : s.helper_1.Behind niter i s.udata)
    (hp0 : i < niter → s.udata.pass_point_0 = 1) : ¬s.waits .helper_1 := by
  unfold AbaHelper1.Behind at h
  rintro (⟨hpc, hzero⟩ | ⟨hpc, hzero⟩) <;> simp only [hpc] at h
  · cases (hp0 (h.1 ▸ h.2.1)).symm.trans hzero
  · cases h.2.2.symm.trans hzero

theorem AbaPhase.bounds (h : AbaPhase zero one niter s) :
    (s.helper_0.pc ≠ .exit → s.helper_0.i < niter) ∧ (s.helper_1.pc ≠ .exit → s.helper_1.i < niter) := by
  cases h with
  | preparing hi h1 h0 hp0 hp1 =>
    refine ⟨fun hpc => ?_, h1.bound⟩
    cases hc : s.helper_0.pc <;> simp only [hc] at h0
    case storeShared => exact h0
    case loadLinked | passPoint0 => exact h0.1
    case exit => exact absurd hc hpc
  | linked hi h0 h1 =>
    refine ⟨fun _ => hi, fun hpc => ?_⟩
    rcases h1 with h1 | ⟨-, hi1, -⟩
    · exact h1.bound hpc
    · exact hi1 ▸ hi
  | changing hi h0 hi1 | changed hi h1 hi1 | checked hi h0 h1 hi1 => exact ⟨fun _ => hi, fun _ => hi1 ▸ hi⟩

theorem AbaPhase.le (h : AbaPhase zero one niter s) : s.helper_0.i ≤ niter := by
  cases h with
  | preparing hi => exact hi
  | linked hi | changing hi | changed hi | checked hi => exact Nat.le_of_lt hi

/-- The threads never wait for each other. -/
theorem AbaPhase.moves (h : AbaPhase zero one niter s) (hend : ∃ t, ¬s.exited t) : ∃ t, ¬s.exited t ∧ ¬s.waits t := by
  cases h with
  | preparing hi h1 h0 hp0 hp1 =>
    by_cases hexit : s.helper_0.pc = .exit
    · -- then the second one has at most to go through the end of its last iteration
      have hmoves : ¬s.waits .helper_1 := by
        apply h1.moves
        intro hlt
        simp only [hexit] at h0
        exact absurd h0 (Nat.ne_of_lt hlt)
      obtain ⟨_ | _, ht⟩ := hend
      · exact absurd hexit ht
      · exact ⟨.helper_1, ht, hmoves⟩
    · refine ⟨.helper_0, hexit, ?_⟩
      rintro ⟨hpc, -⟩
      simp only [hpc] at h0
  | linked hi h0 h1 hp0 =>
    rcases h1 with h1 | ⟨hpc, -, -⟩
    · refine ⟨.helper_1, fun hpc => ?_, h1.moves fun _ => hp0⟩
      simp only [AbaState.exited] at hpc
      simp only [AbaHelper1.Behind, hpc] at h1
      omega
    · refine ⟨.helper_1, fun hexit => ?_, ?_⟩
      · cases hpc.symm.trans hexit
      · rintro (⟨hwait, -⟩ | ⟨hwait, -⟩) <;> cases hpc.symm.trans hwait
  | changing hi h0 hi1 h1 =>
    refine ⟨.helper_1, fun hpc => ?_, ?_⟩
    · simp only [AbaState.exited] at hpc
      simp only [hpc] at h1
    · rintro (⟨hpc, -⟩ | ⟨hpc, -⟩) <;> simp only [hpc] at h1
  | changed hi h1 hi1 h0 hp0 hp1 =>
    refine ⟨.helper_0, fun hpc => ?_, ?_⟩
    · simp only [AbaState.exited] at hpc
      simp only [hpc] at h0
    · rintro ⟨-, hzero⟩
      cases hp1.symm.trans hzero
  | checked hi h0 =>
    refine ⟨.helper_0, fun hpc => ?_, ?_⟩
    · cases h0.symm.trans hpc
    · rintro ⟨hpc, -⟩
      cases h0.symm.trans hpc

/-! ## The test -/

structure AbaOk (zero one : V) (niter : Nat) (s : AbaState V) : Prop where
  phase : AbaPhase zero one niter s
  errors : s.helper_0.nerrors = 0
  falsePositives : s.udata.false_positives ≤ s.udata.nunchanged_val
  unchanged : s.udata.nunchanged_val ≤ s.helper_0.i + s.helper_0.pc.counted

theorem AbaOk.init (valid : AbaThread → Unit → Bool) : AbaOk zero one niter (AbaState.init zero niter valid) := by
  refine ⟨?_, rfl, Nat.le_refl _, Nat.zero_le _⟩
  by_cases hlt : 0 < niter
  · refine .preparing (Nat.zero_le niter) ?_ ?_ rfl rfl
    · simp only [AbaState.init, AbaHelper0.loop, AbaHelper1.loop, if_pos hlt, AbaHelper1.Behind]
      exact ⟨trivial, hlt, trivial⟩
    · simp only [AbaState.init, AbaHelper0.loop, if_pos hlt]
      exact hlt
  · obtain rfl := Nat.eq_zero_of_not_pos hlt
    exact .preparing (Nat.le_refl 0) ⟨rfl, rfl, rfl⟩ rfl rfl rfl

theorem AbaOk.unchanged_le (h : AbaOk zero one niter s) : s.udata.nunchanged_val ≤ niter := by
  apply Nat.le_trans h.unchanged
  have hi := h.phase.bounds.1
  have hle : s.helper_0.i ≤ niter := h.phase.le
  cases hpc : s.helper_0.pc with
  | expectOne | expectZero | resetPoint1 | passPoint2 => exact hi (by rw [hpc]; exact nofun)
  | _ => exact hle

/-! ## The first thread -/

variable [DecidableEq V]

/-- An access of the first thread. -/
theorem AbaPhase.helper_0 (h : AbaPhase zero one niter s) {spurious : Bool} {c : AbaHelper0}
    (hs : llscAbaHelper0 zero one niter spurious s.helper_0 s.udata = some (c, udata)) :
    AbaPhase zero one niter ⟨udata, c, s.helper_1⟩ ∧ c.nerrors = s.helper_0.nerrors := by
  cases h with
  | preparing hi h1 h0 hp0 hp1 =>
    unfold llscAbaHelper0 at hs
    cases hpc : s.helper_0.pc <;> simp only [hpc] at h0 hs
    case storeShared =>
      cases hs
      exact ⟨.preparing hi (h1.same rfl) ⟨h0, rfl⟩ hp0 hp1, rfl⟩
    case loadLinked =>
      cases hs
      have hval : zero = (s.udata.shared_val.ll .helper_0 ()).1 := h0.2.symm
      have hlinked : (s.udata.shared_val.ll .helper_0 ()).2.valid .helper_0 () = true := by
        simp [Linked.ll]
      exact ⟨.preparing hi (h1.same rfl) ⟨h0.1, h0.2, hlinked⟩ hp0 hp1, if_neg (not_not_intro hval)⟩
    case passPoint0 =>
      cases hs
      exact ⟨.linked h0.1 rfl (.inl (h1.same rfl)) rfl hp1 h0.2.1 h0.2.2, rfl⟩
    case exit => cases hs
  | linked hi h0 h1 hp0 hp1 hval hlinked =>
    -- it waits for point 1
    simp only [llscAbaHelper0, h0, hp1, reduceIte] at hs
    cases hs
    exact ⟨.linked hi h0 h1 hp0 hp1 hval hlinked, rfl⟩
  | changing hi h0 hi1 h1 hp0 hp1 hp2 =>
    simp only [llscAbaHelper0, h0, hp1, reduceIte] at hs
    cases hs
    exact ⟨.changing hi h0 hi1 h1 hp0 hp1 hp2, rfl⟩
  | changed hi h1 hi1 h0 hp0 hp1 hp2 =>
    unfold llscAbaHelper0 at hs
    cases hpc : s.helper_0.pc <;> simp only [hpc] at h0 hs
    case waitPoint1 =>
      rw [if_neg (by rw [hp1]; decide)] at hs
      cases hs
      exact ⟨.changed hi h1 hi1 h0 hp0 hp1 hp2, rfl⟩
    case storeConditional =>
      by_cases hstore : (s.udata.shared_val.valid .helper_0 () && !spurious) = true
      · rw [Linked.sc_stores hstore] at hs
        cases hs
        rw [Bool.and_eq_true] at hstore
        have hchange : decide (s.udata.change_val = 0) = true := h0.2.symm.trans hstore.1
        exact ⟨.changed hi h1 hi1 ⟨rfl, of_decide_eq_true hchange⟩ hp0 hp1 hp2, rfl⟩
      · -- whether the value was changed or not, it is 0 again
        rw [Linked.sc_fails hstore] at hs
        cases hs
        exact ⟨.changed hi h1 hi1 h0.1 hp0 hp1 hp2, rfl⟩
    case checkChanged =>
      rw [if_neg (not_not_intro h0.2)] at hs
      cases hs
      exact ⟨.changed hi h1 hi1 h0.1 hp0 hp1 hp2, rfl⟩
    case expectOne =>
      cases hs
      exact ⟨.changed hi h1 hi1 trivial hp0 hp1 hp2, if_neg (not_not_intro h0.symm)⟩
    case checkUnchanged =>
      split at hs <;> cases hs <;> exact ⟨.changed hi h1 hi1 h0 hp0 hp1 hp2, rfl⟩
    case expectZero =>
      cases hs
      exact ⟨.changed hi h1 hi1 trivial hp0 hp1 hp2, if_neg (not_not_intro h0.symm)⟩
    case resetPoint1 =>
      cases hs
      exact ⟨.checked hi rfl h1 hi1 hp0 rfl hp2, rfl⟩
  | checked hi h0 h1 hi1 hp0 hp1 hp2 =>
    simp only [llscAbaHelper0, h0] at hs
    cases hs
    -- the iteration ends, and the second one is behind
    refine ⟨.preparing hi ?_ ?_ hp0 hp1, rfl⟩
    · simp only [AbaHelper1.Behind, h1]
      exact ⟨congrArg (· + 1) hi1, hi1 ▸ hi, trivial⟩
    · by_cases hlt : s.helper_0.i + 1 < niter
      · simp only [AbaHelper0.loop, if_pos hlt]
        exact hlt
      · simp only [AbaHelper0.loop, if_neg hlt]
        exact Nat.le_antisymm hi (Nat.le_of_not_lt hlt)

theorem llscAbaHelper0_counts {spurious : Bool} {c c' : AbaHelper0} {u : LlscAba V}
    (hs : llscAbaHelper0 zero one niter spurious c u = some (c', udata)) (hfalse : u.false_positives ≤ u.nunchanged_val)
    (hcount : u.nunchanged_val ≤ c.i + c.pc.counted) :
    udata.false_positives ≤ udata.nunchanged_val ∧ udata.nunchanged_val ≤ c'.i + c'.pc.counted := by
  unfold llscAbaHelper0 at hs
  cases hpc : c.pc <;> simp only [hpc, AbaPc0.counted] at hcount hs
  case passPoint2 =>
    cases hs
    exact ⟨hfalse, Nat.le_trans hcount (Nat.le_add_right _ _)⟩
  case exit => cases hs
  case checkChanged =>
    split at hs
    · cases hs
      exact ⟨hfalse, Nat.le_succ_of_le hcount⟩
    · cases hs
      exact ⟨Nat.le_succ_of_le hfalse, Nat.succ_le_succ hcount⟩
  case checkUnchanged =>
    split at hs
    · cases hs
      exact ⟨Nat.succ_le_succ hfalse, Nat.succ_le_succ hcount⟩
    · cases hs
      exact ⟨hfalse, Nat.le_succ_of_le hcount⟩
  case waitPoint1 =>
    cases hs
    split
    · exact ⟨hfalse, by rw [hpc]; exact hcount⟩
    · exact ⟨hfalse, hcount⟩
  case storeConditional =>
    cases hs
    split <;> exact ⟨hfalse, hcount⟩
  all_goals
    cases hs
    exact ⟨hfalse, hcount⟩

theorem AbaPhase.failures_0 (h : AbaPhase zero one niter s) {spurious : Bool} {c : AbaHelper0}
    (hs : llscAbaHelper0 zero one niter spurious s.helper_0 s.udata = some (c, udata)) :
    AbaState.failures ⟨udata, c, s.helper_1⟩ =
      s.failures + if spuriousFailure s (.helper_0 spurious) then 1 else 0 := by
  by_cases hsc : s.helper_0.pc = .storeConditional
  · have hlinked := h.storeConditional hsc
    have hold : s.failures = s.udata.false_positives := by simp [AbaState.failures, hsc]
    simp only [llscAbaHelper0, hsc] at hs
    rw [hold]
    by_cases hstore : (s.udata.shared_val.valid .helper_0 () && !spurious) = true
    · rw [Linked.sc_stores hstore] at hs
      cases hs
      rw [Bool.and_eq_true, Bool.not_eq_true'] at hstore
      simp [AbaState.failures, spuriousFailure, hstore.2]
    · -- it has failed because the value was changed, or else spuriously
      rw [Linked.sc_fails hstore] at hs
      cases hs
      have hvalid : s.udata.shared_val.valid .helper_0 () = decide (s.udata.change_val = 0) := hlinked
      rw [hvalid] at hstore
      simp only [AbaState.failures, spuriousFailure, hsc, hlinked]
      by_cases hchange : s.udata.change_val = 0 <;> simp_all
  · have hnone : spuriousFailure s (.helper_0 spurious) = false := by simp [spuriousFailure, hsc]
    rw [hnone]
    unfold llscAbaHelper0 at hs
    cases hpc : s.helper_0.pc <;> simp only [hpc] at hs
    case storeConditional => exact absurd hpc hsc
    case exit => cases hs
    case checkChanged | checkUnchanged =>
      split at hs <;> cases hs <;> simp_all [AbaState.failures]
    case waitPoint1 =>
      cases hs
      split <;> simp [AbaState.failures, hpc]
    case passPoint2 =>
      cases hs
      simp only [AbaState.failures, AbaHelper0.loop, hpc]
      split <;> simp
    all_goals
      cases hs
      simp [AbaState.failures, hpc]

theorem llscAbaHelper0_moves {spurious : Bool} {c c' : AbaHelper0} {u : LlscAba V}
    (hs : llscAbaHelper0 zero one niter spurious c u = some (c', udata)) :
    c.pc ≠ .exit ∧ ((c.pc = .waitPoint1 ∧ u.pass_point_1 = 0) ∧ c' = c ∧ udata = u ∨
      9 * c.i + c.pc.position < 9 * c'.i + c'.pc.position) := by
  unfold llscAbaHelper0 at hs
  cases hpc : c.pc <;> simp only [hpc] at hs
  case exit => cases hs
  case waitPoint1 =>
    by_cases hp1 : u.pass_point_1 = 0
    · rw [if_pos hp1] at hs
      cases hs
      exact ⟨nofun, .inl ⟨⟨rfl, hp1⟩, rfl, rfl⟩⟩
    · rw [if_neg hp1] at hs
      cases hs
      exact ⟨nofun, .inr (Nat.lt_succ_self _)⟩
  case storeConditional =>
    cases hs
    refine ⟨nofun, .inr ?_⟩
    split <;> exact Nat.lt_succ_self _
  case checkChanged | checkUnchanged =>
    split at hs <;> cases hs <;> exact ⟨nofun, .inr (Nat.lt_succ_self _)⟩
  case passPoint2 =>
    cases hs
    refine ⟨nofun, .inr ?_⟩
    simp only [AbaHelper0.loop, AbaPc0.position]
    split <;> omega
  all_goals
    cases hs
    exact ⟨nofun, .inr (Nat.lt_succ_self _)⟩

theorem llscAbaStep_rank {a : AbaAct} {s' : AbaState V} (hs : llscAbaStep zero one niter s a = some s')
    (h0 : s.helper_0.pc ≠ .exit → s.helper_0.i < niter) (h1 : s.helper_1.pc ≠ .exit → s.helper_1.i < niter) :
    s.waits a.thread ∧ s' = s ∨ s'.rank niter < s.rank niter := by
  cases a with
  | helper_0 spurious =>
    obtain ⟨⟨c, udata⟩, hmove, rfl⟩ := Option.map_eq_some_iff.1 hs
    obtain ⟨hexit, ⟨hwaits, rfl, rfl⟩ | hlt⟩ := llscAbaHelper0_moves hmove
    · exact .inl ⟨hwaits, rfl⟩
    · right
      have hi := h0 hexit
      have hle := s.helper_0.pc.position_le
      simp only [AbaState.rank]
      omega
  | helper_1 rand =>
    obtain ⟨⟨c, udata⟩, hmove, rfl⟩ := Option.map_eq_some_iff.1 hs
    obtain ⟨hexit, ⟨hwaits, rfl, rfl⟩ | hlt⟩ := llscAbaHelper1_moves hmove
    · exact .inl ⟨hwaits, rfl⟩
    · right
      have hi := h1 hexit
      have hle := s.helper_1.pc.position_le
      simp only [AbaState.rank]
      omega

theorem AbaOk.step (h : AbaOk zero one niter s) {a : AbaAct} {s' : AbaState V}
    (hs : llscAbaStep zero one niter s a = some s') :
    AbaOk zero one niter s' ∧ s'.failures = s.failures + if spuriousFailure s a then 1 else 0 := by
  cases a with
  | helper_0 spurious =>
    obtain ⟨⟨c, udata⟩, hmove, rfl⟩ := Option.map_eq_some_iff.1 hs
    obtain ⟨hphase, herrors⟩ := h.phase.helper_0 hmove
    obtain ⟨hfalse, hcount⟩ := llscAbaHelper0_counts hmove h.falsePositives h.unchanged
    exact ⟨⟨hphase, herrors.trans h.errors, hfalse, hcount⟩, h.phase.failures_0 hmove⟩
  | helper_1 rand =>
    obtain ⟨⟨c, udata⟩, hmove, rfl⟩ := Option.map_eq_some_iff.1 hs
    obtain ⟨hfalse, hcount, hfailures⟩ := h.phase.counts_1 hmove
    refine ⟨⟨h.phase.helper_1 hmove, h.errors, ?_, ?_⟩, hfailures⟩
    · show udata.false_positives ≤ udata.nunchanged_val
      rw [hfalse, hcount]
      exact h.falsePositives
    · show udata.nunchanged_val ≤ _
      rw [hcount]
      exact h.unchanged

/-- The test, for any values, any number of iterations, any choices of the second thread, and any interleaving. The
first thread finds no error: each store-conditional fails if the value was changed, although it was changed back, and
if the value was not changed it fails only spuriously, so that there are at most as many false positives as spurious
failures. And if each thread goes on making accesses until it has left its loop, both leave it. -/
theorem threaded_llsc_aba (zero one : V) (niter : Nat) (valid : AbaThread → Unit → Bool) :
    (∀ as s, run (llscAbaStep zero one niter) (AbaState.init zero niter valid) as = some s →
      s.helper_0.nerrors = 0 ∧ s.udata.false_positives ≤ s.udata.nunchanged_val ∧
      s.udata.nunchanged_val ≤ niter ∧
      s.udata.false_positives ≤
        countAlong (llscAbaStep zero one niter) spuriousFailure (AbaState.init zero niter valid) as) ∧
    ∀ state act, state 0 = AbaState.init zero niter valid → Execution (llscAbaStep zero one niter) state act →
      (∀ t N, ∃ n, N ≤ n ∧ ((state n).exited t ∨ ∃ a, act n = some a ∧ a.thread = t)) →
      ∃ n, ∀ t, (state n).exited t := by
  constructor
  · intro as s hrun
    have hs : AbaOk zero one niter s := run_inv (fun _ _ _ h hstep => (h.step hstep).1) as (AbaOk.init valid) hrun
    have hfailures := run_count (fun _ _ _ h hstep => h.step hstep) as (AbaOk.init valid) hrun
    refine ⟨hs.errors, hs.falsePositives, hs.unchanged_le, ?_⟩
    have hzero : (AbaState.init zero niter valid).failures = 0 := by
      by_cases hlt : 0 < niter <;> simp [AbaState.failures, AbaState.init, AbaHelper0.loop, hlt]
    rw [hzero, Nat.zero_add] at hfailures
    rw [← hfailures]
    exact Nat.le_add_right _ _
  · intro state act hinit hexec hfair
    have hstep : ∀ s a s', AbaOk zero one niter s → llscAbaStep zero one niter s a = some s' →
        AbaOk zero one niter s' ∧ (s' = s ∨ s'.rank niter < s.rank niter) := by
      intro s a s' h hs
      obtain ⟨h0, h1⟩ := h.phase.bounds
      exact ⟨(h.step hs).1, (llscAbaStep_rank hs h0 h1).imp_left And.right⟩
    have hlower : ∀ s, AbaOk zero one niter s → (∃ t, ¬s.exited t) →
        ∃ t, ¬s.exited t ∧
          ∀ a s', AbaAct.thread a = t → llscAbaStep zero one niter s a = some s' → s'.rank niter < s.rank niter := by
      intro s h hend
      obtain ⟨t, hexit, hwaits⟩ := h.phase.moves hend
      obtain ⟨h0, h1⟩ := h.phase.bounds
      refine ⟨t, hexit, ?_⟩
      rintro a s' rfl hs
      exact (llscAbaStep_rank hs h0 h1).resolve_left fun h => hwaits h.1
    exact hexec.ends (hinit ▸ AbaOk.init valid) hstep hlower hfair

end

/-! ## The two tests -/

/-- `LLSC_INT_ABA_NITER` -/
def llscIntAbaNiter : Nat := 2000000

/-- `LLSC_PTR_ABA_NITER` -/
def llscPtrAbaNiter : Nat := 2000000

/-- `threaded_llsc_int_aba_helper_0`, and `threaded_llsc_int_aba_helper_1` -/
def threadedLlscIntAba : AbaState (BitVec 32) → AbaAct → Option (AbaState (BitVec 32)) :=
  llscAbaStep 0 1 llscPtrAbaNiter

/-- `threaded_llsc_ptr_aba_helper_0`, and `threaded_llsc_ptr_aba_helper_1`: `(void *) ((int *) 0 + 1)` is 4 -/
def threadedLlscPtrAba (w : Nat) : AbaState (BitVec w) → AbaAct → Option (AbaState (BitVec w)) :=
  llscAbaStep 0 4 llscIntAbaNiter

/-- The second thread changes the value and changes it back between the load-link and the store-conditional. -/
def abaActs : List AbaAct :=
  [.helper_0 false, .helper_0 false, .helper_0 false, .helper_1 1, .helper_1 0, .helper_1 0, .helper_1 0, .helper_1 0,
    .helper_1 0, .helper_1 0, .helper_0 false, .helper_0 false, .helper_0 false, .helper_0 false, .helper_0 false,
    .helper_0 false]

theorem threaded_llsc_aba_demo : ∃ s s',
    run threadedLlscIntAba (AbaState.init 0 llscPtrAbaNiter fun _ _ => false) abaActs = some s ∧
    run (threadedLlscPtrAba 64) (AbaState.init 0 llscIntAbaNiter fun _ _ => false) abaActs = some s' ∧
    s.udata.change_val = 1 ∧ s.helper_0.nerrors = 0 ∧ s'.helper_0.nerrors = 0 := by
  have h : (run threadedLlscIntAba (AbaState.init 0 llscPtrAbaNiter fun _ _ => false) abaActs).map
      (fun s => s.udata.change_val) = some 1 := by
    decide
  have h' : (run (threadedLlscPtrAba 64) (AbaState.init 0 llscIntAbaNiter fun _ _ => false) abaActs).isSome = true := by
    decide
  obtain ⟨s, hs, hchange⟩ := Option.map_eq_some_iff.1 h
  obtain ⟨s', hs'⟩ := Option.isSome_iff_exists.1 h'
  exact ⟨s, s', hs, hs', hchange, ((threaded_llsc_aba 0 1 _ _).1 _ s hs).1, ((threaded_llsc_aba 0 4 _ _).1 _ s' hs').1⟩

end OpenPA.Test
