/-
Operations on one cell that take several accesses: reads, and at most one write, which comes last (`Body`).
Under a mutex that all threads take (`SectionCode.locked`) such an operation is atomic, and takes effect with
its last access (`section_takesEffect`). Single accesses may go past the mutex (`SectionCode.bare`) if they
write no cell on which a critical section makes more than one access (`Disciplined`). A mutex is never held by
two threads, and never leaves all of them waiting. Without one, an operation of several accesses is only safe
by itself (`bare_linearizes`).
-/
import OpenPA.Machine.Effect
import Mathlib.Data.Fintype.Basic

namespace OpenPA.Machine

variable {T L Op R R' A : Type} {V : L → Type}

/-! ## The accesses of an operation -/

/-- What is left of an operation on a cell: to return, or an access. A write is the last one. -/
inductive Body (A R : Type) where
  | ret (r : R)
  | read (k : A → Body A R)
  | write (v : A) (r : R)

namespace Body

/-- The next access: the value of the cell after it, and what is left. -/
def access : Body A R → A → A × Body A R
  | .ret r, v => (v, .ret r)
  | .read k, v => (v, k v)
  | .write v r, _ => (v, .ret r)

/-- All accesses at once. -/
def run : Body A R → A → A × R
  | .ret r, v => (v, r)
  | .read k, v => (k v).run v
  | .write v r, _ => (v, r)

/-- What it returns, when no access is left. -/
def result : Body A R → Option R
  | .ret r => some r
  | .read _ | .write _ _ => none

/-- At most one access. -/
def Single (b : Body A R) : Prop := ∀ v, ∃ r, (b.access v).2 = .ret r

/-- The next access is not a write. -/
def Reads (b : Body A R) : Prop := ∀ v, (b.access v).1 = v

def map (f : R → R') : Body A R → Body A R'
  | .ret r => .ret (f r)
  | .read k => .read fun v => (k v).map f
  | .write v r => .write v (f r)

@[simp] theorem run_ret (r : R) (v : A) : (ret r : Body A R).run v = (v, r) := rfl

theorem run_access : ∀ (b : Body A R) (v : A), (b.access v).2.run (b.access v).1 = b.run v
  | .ret _, _ | .read _, _ | .write _ _, _ => rfl

theorem run_map (f : R → R') (v : A) : ∀ b : Body A R, (b.map f).run v = ((b.run v).1, f (b.run v).2)
  | .ret _ | .write _ _ => rfl
  | .read k => run_map f v (k v)

/-- Only the last access writes. -/
theorem reads_of_goesOn {b : Body A R} {v : A} (h : (b.access v).2.result = none) : (b.access v).1 = v := by
  cases b with
  | ret r => rfl
  | read k => rfl
  | write v' r => cases h

theorem eq_ret_of_result {b : Body A R} {r : R} (h : b.result = some r) : b = .ret r := by
  cases b <;> cases h
  rfl

end Body

/-! ## Operations under a mutex, and past it -/

/-- Code for an operation: a critical section, or its accesses alone. -/
inductive SectionCode (L : Type) (V : L → Type) (R : Type) where
  | locked (l : L) (b : Body (V l) R)
  | bare (l : L) (b : Body (V l) R)

/-- The operation in one step. -/
def SectionCode.atOnce [DecidableEq L] (m : (l : L) → V l) : SectionCode L V R → ((l : L) → V l) × R
  | .locked l b | .bare l b => (Function.update m l (b.run (m l)).1, (b.run (m l)).2)

def SectionCode.map (f : R → R') : SectionCode L V R → SectionCode L V R'
  | .locked l b => .locked l (b.map f)
  | .bare l b => .bare l (b.map f)

/-- Cells and a mutex. -/
structure Mutexed (T L : Type) (V : L → Type) where
  mem : (l : L) → V l
  holder : Option T

/-- Where an operation is: before it has the mutex, inside with what is left, or at what is left of accesses
without it. -/
inductive SectionPc (L : Type) (V : L → Type) (R : Type) where
  | enter (l : L) (b : Body (V l) R)
  | inside (l : L) (b : Body (V l) R)
  | bare (l : L) (b : Body (V l) R)

/-- What a critical section will return, when no access is left. -/
def SectionPc.took : SectionPc L V R → Option R
  | .inside _ b => b.result
  | .enter _ _ | .bare _ _ => none

/-- Critical sections of more than one access are on guarded cells, where nothing goes past the mutex but
reads. -/
def Disciplined (guarded : L → Bool) : SectionCode L V R → Prop
  | .locked l b => guarded l = false → b.Single
  | .bare l b => b.Single ∧ (guarded l = true → b.Reads)

section Object

variable [DecidableEq L]

/-- Make the next access of what is left of an operation. -/
def Mutexed.access (s : Mutexed T L V) (l : L) (b : Body (V l) R) : Mutexed T L V :=
  { s with mem := Function.update s.mem l (b.access (s.mem l)).1 }

/-- The next access: to take the mutex, one to the cell, or to give the mutex back. -/
def SectionPc.access (t : T) : SectionPc L V R → Mutexed T L V → Mutexed T L V × (SectionPc L V R ⊕ R)
  | .enter l b, s =>
    match s.holder with
    | none => ({ s with holder := some t }, .inl (.inside l b))
    | some _ => (s, .inl (.enter l b))
  | .inside l b, s =>
    match b.result with
    | some r => ({ s with holder := none }, .inr r)
    | none => (s.access l b, .inl (.inside l (b.access (s.mem l)).2))
  | .bare l b, s =>
    match (b.access (s.mem l)).2.result with
    | some r => (s.access l b, .inr r)
    | none => (s.access l b, .inl (.bare l (b.access (s.mem l)).2))

def sectionObject (code : Op → SectionCode L V R) : Object T (Mutexed T L V) (SectionPc L V R) Op R where
  start op := match code op with
    | .locked l b => .enter l b
    | .bare l b => .bare l b
  access t _ pc s := pc.access t s

/-- What holds of a thread. Inside, what is left does from here what the whole does. -/
def SectionOk (code : Op → SectionCode L V R) (guarded : L → Bool) (s : Mutexed T L V) (t : T) :
    Option (Op × SectionPc L V R) → Prop
  | none => s.holder ≠ some t
  | some (op, .enter l b) => s.holder ≠ some t ∧ code op = .locked l b
  | some (op, .inside l b) => s.holder = some t ∧ ∃ b₀, code op = .locked l b₀ ∧
      (b.result = none → b = b₀ ∨ guarded l = true ∧ b.run (s.mem l) = b₀.run (s.mem l))
  | some (op, .bare l b) => s.holder ≠ some t ∧ code op = .bare l b

variable {code : Op → SectionCode L V R} {guarded : L → Bool} {s u : Mutexed T L V} {t t' : T} {op : Op}
  {l : L} {b : Body (V l) R} {x : Option (Op × SectionPc L V R)}

omit [DecidableEq L] in
/-- Another thread's invariant only depends on the mutex, and on the guarded cells if that thread has it. -/
theorem SectionOk.frame (h : SectionOk code guarded s t x) (hholder : u.holder = some t ↔ s.holder = some t)
    (hmem : s.holder = some t → ∀ l, guarded l = true → u.mem l = s.mem l) : SectionOk code guarded u t x := by
  rcases x with _ | ⟨op, ⟨l, b⟩ | ⟨l, b⟩ | ⟨l, b⟩⟩
  · exact fun hu => h (hholder.1 hu)
  · exact ⟨fun hu => h.1 (hholder.1 hu), h.2⟩
  · obtain ⟨hs, b₀, hcode, hb⟩ := h
    refine ⟨hholder.2 hs, b₀, hcode, fun hres => ?_⟩
    rcases hb hres with hb | ⟨hg, hb⟩
    · exact .inl hb
    · right
      rw [hmem hs l hg]
      exact ⟨hg, hb⟩
  · exact ⟨fun hu => h.1 (hholder.1 hu), h.2⟩

/-- Inside, what is left does what the operation does. -/
theorem SectionOk.atOnce {b₀ : Body (V l) R} (hcode : code op = .locked l b₀)
    (hb : b = b₀ ∨ guarded l = true ∧ b.run (s.mem l) = b₀.run (s.mem l)) :
    (code op).atOnce s.mem = (Function.update s.mem l (b.run (s.mem l)).1, (b.run (s.mem l)).2) := by
  have hrun : b.run (s.mem l) = b₀.run (s.mem l) := by
    rcases hb with rfl | hb
    · rfl
    · exact hb.2
  rw [hcode, SectionCode.atOnce, hrun]

/-- The last access does what all of them do. -/
theorem Mutexed.access_last {r : R} (h : (b.access (s.mem l)).2.result = some r) :
    (Function.update s.mem l (b.run (s.mem l)).1, (b.run (s.mem l)).2) = ((s.access l b).mem, r) := by
  rw [← b.run_access, Body.eq_ret_of_result h]
  rfl

/-- An access after which others are left does not change the cell. -/
theorem Mutexed.access_goesOn (h : (b.access (s.mem l)).2.result = none) : (s.access l b).mem = s.mem := by
  unfold Mutexed.access
  rw [Body.reads_of_goesOn h, Function.update_eq_self]

omit [DecidableEq L] in
theorem SectionOk.init (m : (l : L) → V l) (t : T) : SectionOk code guarded ⟨m, none⟩ t none := by
  rintro ⟨⟩

theorem SectionOk.start (h : SectionOk code guarded s t none) :
    SectionOk code guarded s t (some (op, (sectionObject (T := T) code).start op)) ∧
      ((sectionObject (T := T) code).start op).took = none := by
  simp only [sectionObject]
  split
  · rename_i l b hcode
    exact ⟨⟨h, hcode⟩, rfl⟩
  · rename_i l b hcode
    exact ⟨⟨h, hcode⟩, rfl⟩

theorem SectionOk.goesOn (hd : ∀ op, Disciplined guarded (code op)) {pc pc' : SectionPc L V R}
    (h : SectionOk code guarded s t (some (op, pc))) (hacc : pc.access t s = (u, .inl pc')) :
    SectionOk code guarded u t (some (op, pc')) ∧
      Effect (fun m op => (code op).atOnce m) op s.mem u.mem pc.took pc'.took := by
  cases pc with
  | enter l b =>
    obtain ⟨hs, hcode⟩ := h
    simp only [SectionPc.access] at hacc
    split at hacc
    · cases hacc
      refine ⟨⟨rfl, b, hcode, fun _ => .inl rfl⟩, ?_⟩
      cases hres : b.result with
      | none =>
        simp only [SectionPc.took, hres]
        exact rfl
      | some r =>
        -- there is no access at all
        obtain rfl := Body.eq_ret_of_result hres
        simp only [SectionPc.took, hres]
        show (code op).atOnce s.mem = (s.mem, r)
        rw [hcode, SectionCode.atOnce, Body.run_ret, Function.update_eq_self]
    · cases hacc
      exact ⟨⟨hs, hcode⟩, rfl⟩
  | inside l b =>
    obtain ⟨hs, b₀, hcode, hb⟩ := h
    simp only [SectionPc.access] at hacc
    split at hacc
    · cases hacc
    · rename_i hres
      cases hacc
      have hatOnce := SectionOk.atOnce hcode (hb hres)
      refine ⟨⟨hs, b₀, hcode, fun hres' => ?_⟩, ?_⟩
      · -- a section of more than one access is one on a guarded cell
        have hg : guarded l = true := by
          rcases hb hres with rfl | hb
          · by_contra hg
            have hsingle := hd op
            rw [hcode] at hsingle
            obtain ⟨r, hr⟩ := hsingle (Bool.not_eq_true _ ▸ hg) (s.mem l)
            rw [hr] at hres'
            cases hres'
          · exact hb.1
        -- what is left of the body ends as the whole of it would have
        have hrun : b.run (s.mem l) = b₀.run (s.mem l) := by
          rcases hb hres with rfl | hb
          · rfl
          · exact hb.2
        have haccess := b.run_access (s.mem l)
        rw [Body.reads_of_goesOn hres'] at haccess
        rw [Mutexed.access_goesOn hres', haccess]
        exact .inr ⟨hg, hrun⟩
      · simp only [SectionPc.took, hres]
        cases hres' : (b.access (s.mem l)).2.result with
        | none => exact Mutexed.access_goesOn hres'
        | some r => exact hatOnce.trans (Mutexed.access_last hres')
  | bare l b =>
    obtain ⟨hs, hcode⟩ := h
    -- a bare call makes one access, so it cannot go on
    have hsingle := hd op
    rw [hcode] at hsingle
    obtain ⟨r, hr⟩ := hsingle.1 (s.mem l)
    simp only [SectionPc.access, hr, Body.result] at hacc
    cases hacc

theorem SectionOk.returns {pc : SectionPc L V R} {r : R} (h : SectionOk code guarded s t (some (op, pc)))
    (hacc : pc.access t s = (u, .inr r)) :
    SectionOk code guarded u t none ∧
      Effect (fun m op => (code op).atOnce m) op s.mem u.mem pc.took (some r) := by
  cases pc with
  | enter l b =>
    simp only [SectionPc.access] at hacc
    split at hacc <;> cases hacc
  | inside l b =>
    simp only [SectionPc.access] at hacc
    split at hacc
    · rename_i r' hres
      cases hacc
      simp only [SectionPc.took, hres]
      refine ⟨?_, rfl, rfl⟩
      intro hnone
      cases hnone
    · cases hacc
  | bare l b =>
    obtain ⟨hs, hcode⟩ := h
    simp only [SectionPc.access] at hacc
    split at hacc
    · rename_i r' hres
      cases hacc
      refine ⟨hs, ?_⟩
      show (code op).atOnce s.mem = _
      rw [hcode]
      exact Mutexed.access_last hres
    · cases hacc

theorem SectionOk.others (hd : ∀ op, Disciplined guarded (code op)) {pc : SectionPc L V R} (ht : t' ≠ t)
    (h : SectionOk code guarded s t (some (op, pc))) (h' : SectionOk code guarded s t' x) :
    SectionOk code guarded (pc.access t s).1 t' x := by
  have htt : some t ≠ some t' := fun e => ht (Option.some.inj e).symm
  cases pc with
  | enter l b =>
    simp only [SectionPc.access]
    split
    · rename_i hnone
      apply h'.frame
      · simp [hnone, htt]
      · exact fun _ _ _ => rfl
    · exact h'
  | inside l b =>
    -- it has the mutex, so the other one does not
    have hne : s.holder ≠ some t' := by
      rw [h.1]
      exact htt
    simp only [SectionPc.access]
    split
    · apply h'.frame
      · simp [hne]
      · exact fun hs => absurd hs hne
    · apply h'.frame
      · exact Iff.rfl
      · exact fun hs => absurd hs hne
  | bare l b =>
    obtain ⟨hs, hcode⟩ := h
    have hdisc := hd op
    rw [hcode] at hdisc
    have hmem : ∀ l', guarded l' = true → (s.access l b).mem l' = s.mem l' := by
      intro l' hl'
      by_cases hl : l' = l
      · subst hl
        exact (Function.update_self ..).trans (hdisc.2 hl' _)
      · exact Function.update_of_ne hl ..
    simp only [SectionPc.access]
    split
    · exact h'.frame Iff.rfl fun _ => hmem
    · exact h'.frame Iff.rfl fun _ => hmem

variable [DecidableEq T]

omit [DecidableEq T] in
/-- Critical sections, and single accesses past them that write no guarded cell, take effect with their last
access to the cell. -/
theorem section_takesEffect (hd : ∀ op, Disciplined guarded (code op)) :
    TakesEffect (sectionObject (T := T) code) (fun m op => (code op).atOnce m) Mutexed.mem
      (SectionOk code guarded) SectionPc.took where
  start _ _ _ h := h.start
  goesOn _ _ _ _ _ _ _ h hacc := h.goesOn hd hacc
  returns _ _ _ _ _ _ _ h hacc := h.returns hacc
  others _ _ _ _ _ _ _ ht h h' := SectionOk.others hd ht h h'

/-! ## The mutex -/

/-- The thread has the mutex. -/
def Inside (s : System T (Mutexed T L V) (SectionPc L V R) Op R) (t : T) : Prop :=
  ∃ r l b, s.running t = some r ∧ r.pc = .inside l b

/-- The thread waits for the mutex: with its next access it would stay where it is. -/
def Waits (s : System T (Mutexed T L V) (SectionPc L V R) Op R) (t : T) : Prop :=
  (∃ r l b, s.running t = some r ∧ r.pc = .enter l b) ∧ s.shared.holder ≠ none

section Run

variable {as : List (SystemAct T Op)} {m : (l : L) → V l} {s : System T (Mutexed T L V) (SectionPc L V R) Op R}

/-- A thread is inside exactly when it has the mutex. -/
theorem inside_iff_holder (hd : ∀ op, Disciplined guarded (code op))
    (hrun : run (systemStep (sectionObject code)) (System.init ⟨m, none⟩) as = some s) (t : T) :
    Inside s t ↔ s.shared.holder = some t := by
  have hok := (section_takesEffect hd).ok (SectionOk.init m) hrun t
  constructor
  · rintro ⟨r, l, b, hr, hpc⟩
    rw [System.callOf, hr, Option.map_some, hpc] at hok
    exact hok.1
  · intro hholder
    cases hr : s.running t with
    | none =>
      rw [System.callOf, hr] at hok
      exact absurd hholder hok
    | some r =>
      rw [System.callOf, hr, Option.map_some] at hok
      cases hpc : r.pc with
      | inside l b => exact ⟨r, l, b, hr, hpc⟩
      | enter l b =>
        rw [hpc] at hok
        exact absurd hholder hok.1
      | bare l b =>
        rw [hpc] at hok
        exact absurd hholder hok.1

/-- While some thread is in a call, not all of them wait. -/
theorem not_all_wait (hd : ∀ op, Disciplined guarded (code op))
    (hrun : run (systemStep (sectionObject code)) (System.init ⟨m, none⟩) as = some s) {t : T}
    (ht : s.running t ≠ none) : ∃ t', s.running t' ≠ none ∧ ¬Waits s t' := by
  cases hholder : s.shared.holder with
  | none => exact ⟨t, ht, fun hw => hw.2 hholder⟩
  | some t' =>
    obtain ⟨r, l, b, hr, hpc⟩ := (inside_iff_holder hd hrun t').2 hholder
    refine ⟨t', by simp [hr], ?_⟩
    rintro ⟨⟨r', l', b', hr', hpc'⟩, -⟩
    rw [hr] at hr'
    cases hr'
    rw [hpc] at hpc'
    cases hpc'

/-- While a thread is inside, the others write no guarded cell. -/
theorem guarded_kept (hd : ∀ op, Disciplined guarded (code op))
    (hrun : run (systemStep (sectionObject code)) (System.init ⟨m, none⟩) as = some s) {t t' : T} (hin : Inside s t)
    (ht : t' ≠ t) {flag : Bool} {s' : System T (Mutexed T L V) (SectionPc L V R) Op R}
    (hstep : systemStep (sectionObject code) s (.step t' flag) = some s') {l : L} (hl : guarded l = true) :
    s'.shared.mem l = s.shared.mem l := by
  have hholder := (inside_iff_holder hd hrun t).1 hin
  have hok := (section_takesEffect hd).ok (SectionOk.init m) hrun t'
  simp only [systemStep, Option.map_eq_some_iff] at hstep
  obtain ⟨⟨op, n, pc⟩, hr, hstep⟩ := hstep
  rw [System.callOf, hr, Option.map_some] at hok
  have hmem : s'.shared = (pc.access t' s.shared).1 := by
    split at hstep
    · rename_i hacc
      subst hstep
      exact (congrArg Prod.fst hacc).symm
    · rename_i hacc
      subst hstep
      exact (congrArg Prod.fst hacc).symm
  rw [hmem]
  cases pc with
  | enter l' b =>
    simp only [SectionPc.access, hholder]
  | inside l' b =>
    have hsame := hok.1
    rw [hholder] at hsame
    exact absurd (Option.some.inj hsame).symm ht
  | bare l' b =>
    obtain ⟨-, hcode⟩ := hok
    have hdisc := hd op
    rw [hcode] at hdisc
    -- a bare access to a guarded cell leaves what it finds
    have hkept : (s.shared.access l' b).mem l = s.shared.mem l := by
      by_cases hll : l = l'
      · subst hll
        exact (Function.update_self ..).trans (hdisc.2 hl _)
      · exact Function.update_of_ne hll ..
    simp only [SectionPc.access]
    split
    · exact hkept
    · exact hkept

end Run

/-! ## Without a mutex -/

/-- No call is made while another one is under way. -/
def CallsAlone (s : System T (Mutexed T L V) (SectionPc L V R) Op R) : SystemAct T Op → Prop
  | .call _ _ => ∀ t, s.running t = none
  | .step _ _ => True

instance CallsAlone.decidable [Fintype T] (s : System T (Mutexed T L V) (SectionPc L V R) Op R) :
    ∀ a, Decidable (CallsAlone s a)
  | .call _ _ => inferInstanceAs (Decidable (∀ t, s.running t = none))
  | .step _ _ => inferInstanceAs (Decidable True)

/-- The call under way, if there is one, will do from here what its operation does to the contents that the
calls before it left. -/
def BareOk (code : Op → SectionCode L V R) (s : System T (Mutexed T L V) (SectionPc L V R) Op R)
    (m' : (l : L) → V l) : Prop :=
  (∀ t, s.running t = none) ∧ s.shared.mem = m' ∨
    ∃ t r l b, s.running t = some r ∧ (∀ t', t' ≠ t → s.running t' = none) ∧ r.pc = .bare l b ∧
      r.called ≤ s.clock ∧ (code r.op).atOnce m' =
        (Function.update s.shared.mem l (b.run (s.shared.mem l)).1, (b.run (s.shared.mem l)).2)

/-- What holds along a run in which no call is made while another one is under way. -/
structure AloneOk (code : Op → SectionCode L V R) (m : (l : L) → V l)
    (s : System T (Mutexed T L V) (SectionPc L V R) Op R) : Prop where
  times : ∀ c ∈ s.done, c.called ≤ s.clock
  realTime : s.done.Pairwise fun a b => ¬b.returned < a.called
  legal : ∃ m', Legal (fun m op => (code op).atOnce m) m s.done m' ∧ BareOk code s m'

theorem AloneOk.call (hbare : ∀ op, ∃ l b, code op = .bare l b) {m : (l : L) → V l}
    {s s' : System T (Mutexed T L V) (SectionPc L V R) Op R} {t : T} {op : Op} (hs : AloneOk code m s)
    (halone : ∀ t, s.running t = none) (hstep : systemStep (sectionObject code) s (.call t op) = some s') :
    AloneOk code m s' := by
  simp only [systemStep, halone t, Option.some.injEq] at hstep
  subst hstep
  refine ⟨fun c hc => Nat.le_succ_of_le (hs.times c hc), hs.realTime, ?_⟩
  obtain ⟨m', hlegal, ⟨-, hmem⟩ | ⟨t', r, l, b, hr, -⟩⟩ := hs.legal
  · obtain ⟨l, b, hcode⟩ := hbare op
    refine ⟨m', hlegal, .inr ⟨t, _, l, b, Function.update_self .., ?_, ?_, Nat.le_succ _, ?_⟩⟩
    · intro t' ht
      exact (Function.update_of_ne ht ..).trans (halone t')
    · simp only [sectionObject, hcode]
    · rw [hcode, ← hmem]
      rfl
  · rw [halone t'] at hr
    cases hr

theorem AloneOk.step {m : (l : L) → V l} {s s' : System T (Mutexed T L V) (SectionPc L V R) Op R} {t : T}
    {flag : Bool} (hs : AloneOk code m s) (hstep : systemStep (sectionObject code) s (.step t flag) = some s') :
    AloneOk code m s' := by
  simp only [systemStep, Option.map_eq_some_iff] at hstep
  obtain ⟨r, hr, hstep⟩ := hstep
  obtain ⟨m', hlegal, ⟨hidle, -⟩ | ⟨t', r', l, b, hr', hother, hpc, hcalled, heq⟩⟩ := hs.legal
  · rw [hidle t] at hr
    cases hr
  -- no other call is under way
  obtain rfl : t = t' := by
    by_contra ht
    rw [hother t ht] at hr
    cases hr
  obtain rfl : r' = r := by
    rw [hr] at hr'
    exact (Option.some.inj hr').symm
  rw [← b.run_access] at heq
  simp only [sectionObject, hpc, SectionPc.access] at hstep
  cases hres : (b.access (s.shared.mem l)).2.result with
  | none =>
    simp only [hres] at hstep
    subst hstep
    refine ⟨fun c hc => Nat.le_succ_of_le (hs.times c hc), hs.realTime, m', hlegal, .inr ?_⟩
    refine ⟨t, _, l, _, Function.update_self .., ?_, rfl, Nat.le_succ_of_le hcalled, ?_⟩
    · intro t' ht
      exact (Function.update_of_ne ht ..).trans (hother t' ht)
    · rw [heq]
      simp [Mutexed.access]
  | some ret =>
    simp only [hres] at hstep
    subst hstep
    rw [Body.eq_ret_of_result hres, Body.run_ret] at heq
    refine ⟨?_, ?_, (s.shared.access l b).mem, hlegal.snoc heq, .inl ⟨fun t' => ?_, rfl⟩⟩
    · intro c hc
      rcases List.mem_append.1 hc with hc | hc
      · exact Nat.le_succ_of_le (hs.times c hc)
      · rw [List.mem_singleton] at hc
        subst hc
        exact Nat.le_succ_of_le hcalled
    · apply List.pairwise_append.2
      refine ⟨hs.realTime, List.pairwise_singleton _ _, ?_⟩
      intro a ha c hc
      rw [List.mem_singleton] at hc
      subst hc
      exact Nat.not_lt.2 (hs.times a ha)
    · by_cases ht : t' = t
      · subst ht
        exact Function.update_self ..
      · exact (Function.update_of_ne ht ..).trans (hother t' ht)

/-- Without a mutex, calls of which none is made while another one is under way do what the operations do. -/
theorem bare_linearizes (hbare : ∀ op, ∃ l b, code op = .bare l b) {as : List (SystemAct T Op)}
    {m : (l : L) → V l} {s : System T (Mutexed T L V) (SectionPc L V R) Op R}
    (halong : Along (systemStep (sectionObject code)) CallsAlone (System.init ⟨m, none⟩) as)
    (hrun : run (systemStep (sectionObject code)) (System.init ⟨m, none⟩) as = some s)
    (hidle : ∀ t, s.running t = none) :
    Linearizes (fun m op => (code op).atOnce m) m s.shared.mem s.done s.done := by
  have hinit : AloneOk code m (System.init ⟨m, none⟩ : System T (Mutexed T L V) (SectionPc L V R) Op R) := by
    refine ⟨?_, List.Pairwise.nil, m, rfl, .inl ⟨fun _ => rfl, rfl⟩⟩
    intro c hc
    cases hc
  have hs : AloneOk code m s := by
    refine run_inv_along ?_ as hinit halong hrun
    intro s a s' hs ha hstep
    cases a with
    | call t op => exact hs.call hbare ha hstep
    | step t flag => exact hs.step hstep
  obtain ⟨m', hlegal, ⟨-, hmem⟩ | ⟨t, r, l, b, hr, -⟩⟩ := hs.legal
  · rw [hmem]
    exact ⟨List.Perm.refl _, hs.realTime, hlegal⟩
  · rw [hidle t] at hr
    cases hr

end Object

end OpenPA.Machine
