/-
Threads over a shared memory, under two memory models. A `Program` says which shared access each
thread makes next and how its control goes on with the value the access returned. `atomicStep`
performs every access at once on memory. `bufferedStep` keeps plain stores pending: they reach
memory later, in any order between cells and in issue order within a cell, while swap and
compare-and-swap act on memory at once and a draining fence waits for the thread's own stores.

`Moves` says what an access does to the cells under buffering; an atomic access is a buffered one
whose store, if it is one, reaches memory at once (`atomicStep_moves`). Both machines commute with a
renaming of the control state (`Renames`).
-/
import OpenPA.Machine.Run
import OpenPA.Machine.Slot

namespace OpenPA.Machine

variable {T L V G C A : Type}

/-- One access to shared memory. A plain store carries a tag for the history; a fence says whether
it waits for the thread's pending stores. -/
inductive Access (L V G : Type) where
  | load (l : L)
  | store (l : L) (v : V) (g : G)
  | swap (l : L) (v : V)
  | cas (l : L) (old new : V)
  | fence (drains : Bool)

/-- Change the tag of a plain store. -/
def Access.retag {G' : Type} (f : L → G → G') : Access L V G → Access L V G'
  | .load l => .load l
  | .store l v g => .store l v (f l g)
  | .swap l v => .swap l v
  | .cas l old new => .cas l old new
  | .fence drains => .fence drains

def Access.isStore : Access L V G → Bool
  | .store .. => true
  | _ => false

/-- The cell an access reads or writes. -/
def Access.loc? : Access L V G → Option L
  | .load l | .store l _ _ | .swap l _ | .cas l _ _ => some l
  | .fence _ => none

/-- The cell an access writes, or may write. -/
def Access.written? : Access L V G → Option L
  | .store l _ _ | .swap l _ | .cas l _ _ => some l
  | .load _ | .fence _ => none

@[simp] theorem Access.retag_loc? {G' : Type} (f : L → G → G') (x : Access L V G) : (x.retag f).loc? = x.loc? := by
  cases x <;> rfl

/-- The control side of a set of threads: the next access of a thread (`none` when it is idle), how
control goes on with the value returned, and the calls by which a client starts operations. -/
structure Program (T L V G C A : Type) where
  access : C → T → Option (Access L V G)
  resume : C → T → V → C
  call : C → A → Option C

/-! ## Atomic accesses -/

/-- Memory and control. -/
@[ext] structure Atomic (L V C : Type) where
  mem : L → V
  ctl : C

/-- What a scheduler of atomic accesses picks: a call, or the next access of a thread. -/
inductive Act (T A : Type) where
  | call (a : A)
  | step (t : T)

section

variable [DecidableEq L] [DecidableEq V] [Inhabited V]

/-- An access performed at once: the memory after it and the value returned. -/
def Access.exec (m : L → V) : Access L V G → (L → V) × V
  | .load l => (m, m l)
  | .store l v _ => (Function.update m l v, v)
  | .swap l v => (Function.update m l v, m l)
  | .cas l old new => (if m l = old then Function.update m l new else m, m l)
  | .fence _ => (m, default)

/-- A cell that an access does not write keeps its value. -/
theorem Access.exec_unwritten {m : L → V} {x : Access L V G} {l : L} (h : x.written? ≠ some l) :
    (x.exec m).1 l = m l := by
  cases x with
  | load l' => rfl
  | store l' v g => exact Function.update_of_ne (fun hl => h (congrArg some hl.symm)) _ _
  | swap l' v => exact Function.update_of_ne (fun hl => h (congrArg some hl.symm)) _ _
  | cas l' old new =>
    simp only [Access.exec]
    split
    · exact Function.update_of_ne (fun hl => h (congrArg some hl.symm)) _ _
    · rfl
  | fence d => rfl

def atomicStep (P : Program T L V G C A) (s : Atomic L V C) : Act T A → Option (Atomic L V C)
  | .call a => (P.call s.ctl a).map fun c => { s with ctl := c }
  | .step t => (P.access s.ctl t).map fun x =>
      { mem := (x.exec s.mem).1, ctl := P.resume s.ctl t (x.exec s.mem).2 }

end

/-! ## Buffered stores -/

/-- A store that has been issued. -/
structure Pending (L V G : Type) where
  loc : L
  val : V
  tag : G

/-- Memory, the pending stores of each thread in issue order, the stores that have reached memory in
the order they did, and control. -/
structure Buffered (T L V G C : Type) where
  mem : L → V
  pend : T → List (Pending L V G)
  log : List (Pending L V G)
  ctl : C

/-- What a scheduler picks under buffering: it may also let a thread's oldest store to a cell reach
memory. -/
inductive BufferedAct (T L A : Type) where
  | call (a : A)
  | step (t : T)
  | commit (t : T) (l : L)

namespace Buffered

variable [DecidableEq L]

/-- The pending stores of `t` to `l`, oldest first. -/
def on (s : Buffered T L V G C) (t : T) (l : L) : List (Pending L V G) :=
  (s.pend t).filter fun p => decide (p.loc = l)

/-- What `t` reads at `l`. -/
def view (s : Buffered T L V G C) (t : T) (l : L) : V := ((s.on t l).map (·.val)).getLastD (s.mem l)

variable [DecidableEq T]

/-- Issue a plain store. -/
def issue (s : Buffered T L V G C) (t : T) (p : Pending L V G) : Buffered T L V G C :=
  { s with pend := Function.update s.pend t (s.pend t ++ [p]) }

/-- Let the oldest pending store of `t` to `l` reach memory. -/
def commit (s : Buffered T L V G C) (t : T) (l : L) : Option (Buffered T L V G C) :=
  ((s.pend t).find? fun p => decide (p.loc = l)).map fun p =>
    { s with
      mem := Function.update s.mem l p.val
      pend := Function.update s.pend t ((s.pend t).eraseP fun p => decide (p.loc = l))
      log := s.log ++ [p] }

end Buffered

section

variable [DecidableEq T] [DecidableEq L] [DecidableEq V] [Inhabited V]

def bufferedStep (P : Program T L V G C A) (s : Buffered T L V G C) :
    BufferedAct T L A → Option (Buffered T L V G C)
  | .call a => (P.call s.ctl a).map fun c => { s with ctl := c }
  | .commit t l => s.commit t l
  | .step t =>
    match P.access s.ctl t with
    | none => none
    | some (.load l) => some { s with ctl := P.resume s.ctl t (s.view t l) }
    | some (.store l v g) => some { s.issue t ⟨l, v, g⟩ with ctl := P.resume s.ctl t v }
    | some (.swap l v) =>
      if (s.on t l).isEmpty then
        some { s with mem := Function.update s.mem l v, ctl := P.resume s.ctl t (s.mem l) }
      else none
    | some (.cas l old new) =>
      if (s.on t l).isEmpty then
        some { s with
          mem := if s.mem l = old then Function.update s.mem l new else s.mem
          ctl := P.resume s.ctl t (s.mem l) }
      else none
    | some (.fence drains) =>
      if drains && !(s.pend t).isEmpty then none
      else some { s with ctl := P.resume s.ctl t default }

end

/-! ## The cells of a buffered state -/

namespace Buffered

variable [DecidableEq L]

/-- The state cell by cell: memory and the pending values of each thread. -/
def slots (s : Buffered T L V G C) : L → Slot T V := fun l => ⟨s.mem l, fun t => (s.on t l).map (·.val)⟩

theorem slots_pend_nil {s : Buffered T L V G C} {t : T} {l : L} : (s.slots l).pend t = [] ↔ s.on t l = [] := by
  simp [slots]

theorem on_nil {s : Buffered T L V G C} {t : T} (h : s.pend t = []) (l : L) : s.on t l = [] := by
  simp [on, h]

theorem on_of_pend {s s' : Buffered T L V G C} {t : T} (h : s'.pend t = s.pend t) (l : L) :
    s'.on t l = s.on t l := by
  unfold on; rw [h]

theorem slots_write (s : Buffered T L V G C) (l : L) (v : V) (c : C) :
    ({ s with mem := Function.update s.mem l v, ctl := c } : Buffered T L V G C).slots =
      Function.update s.slots l ((s.slots l).write v) := by
  funext l'
  by_cases hl : l' = l
  · subst hl
    exact Slot.ext (by simp [slots]) (by simp [slots, on])
  · rw [Function.update_of_ne hl]
    exact Slot.ext (by simp [slots, hl]) (by simp [slots, on])

variable [DecidableEq T]

theorem issue_on (s : Buffered T L V G C) (t t' : T) (p : Pending L V G) (l : L) :
    (s.issue t p).on t' l = if t' = t ∧ p.loc = l then s.on t' l ++ [p] else s.on t' l := by
  unfold on issue
  by_cases ht : t' = t
  · subst ht
    by_cases hl : p.loc = l <;> simp [hl]
  · simp [ht]

theorem issue_slots (s : Buffered T L V G C) (t : T) (p : Pending L V G) :
    (s.issue t p).slots = Function.update s.slots p.loc ((s.slots p.loc).issue t p.val) := by
  funext l
  by_cases hl : l = p.loc
  · subst hl
    refine Slot.ext (by simp [slots, issue]) ?_
    funext t'
    by_cases ht : t' = t
    · subst ht; simp [slots, issue_on]
    · rw [Function.update_self, Slot.issue_pend_ne _ _ ht]; simp [slots, issue_on, ht]
  · rw [Function.update_of_ne hl]
    refine Slot.ext (by simp [slots, issue]) ?_
    funext t'
    simp [slots, issue_on, Ne.symm hl]

/-- What a commit does: the oldest pending store to the cell goes to memory and to the log, and no
other pending store changes. -/
theorem commit_spec {s s' : Buffered T L V G C} {t : T} {l : L} (h : s.commit t l = some s') :
    ∃ p rest, p.loc = l ∧ s.on t l = p :: rest ∧ s'.on t l = rest ∧ s'.mem = Function.update s.mem l p.val ∧
      s'.log = s.log ++ [p] ∧ s'.ctl = s.ctl ∧ (∀ t', t' ≠ t → s'.pend t' = s.pend t') ∧
      (∀ q, q ∈ s'.pend t → q ∈ s.pend t) ∧ ∀ l', l' ≠ l → s'.on t l' = s.on t l' := by
  unfold commit at h
  obtain ⟨p, hp, rfl⟩ := Option.map_eq_some_iff.1 h
  obtain ⟨hpl, as, bs, hst, has⟩ := List.find?_eq_some_iff_append.1 hp
  simp only [decide_eq_true_eq] at hpl
  have herase : (s.pend t).eraseP (fun p => decide (p.loc = l)) = as ++ bs := by
    rw [hst, List.eraseP_append_right _ (fun b hb => by simpa using has b hb)]
    simp [hpl]
  have hfil : as.filter (fun p => decide (p.loc = l)) = [] := by
    rw [List.filter_eq_nil_iff]
    intro a ha; simpa using has a ha
  refine ⟨p, bs.filter fun p => decide (p.loc = l), hpl, ?_, ?_, rfl, rfl, rfl, ?_, ?_, ?_⟩
  · simp [on, hst, hfil, hpl]
  · simp only [on, Function.update_self]
    rw [herase]; simp [hfil]
  · intro t' ht; simp [ht]
  · intro q hq
    simp only [Function.update_self] at hq
    exact List.mem_of_mem_eraseP hq
  · intro l' hl
    have hne : p.loc ≠ l' := fun e => hl (e ▸ hpl)
    simp only [on, Function.update_self]
    rw [herase, hst]; simp [hne]

theorem commit_slots {s s' : Buffered T L V G C} {t : T} {l : L} (h : s.commit t l = some s') :
    ∃ v rest, (s.slots l).pend t = v :: rest ∧
      s'.slots = Function.update s.slots l ((s.slots l).commit t v rest) ∧ s'.ctl = s.ctl := by
  obtain ⟨p, rest, hpl, hon, hon', hmem, -, hctl, hpend, -, hother⟩ := commit_spec h
  refine ⟨p.val, rest.map (·.val), by simp [slots, hon], ?_, hctl⟩
  funext l'
  by_cases hl : l' = l
  · subst hl
    rw [Function.update_self]
    refine Slot.ext (by simp [slots, hmem]) ?_
    funext t'
    by_cases ht : t' = t
    · subst ht; simp [slots, hon']
    · rw [Slot.commit_pend_ne _ _ _ ht]
      simp [slots, on_of_pend (hpend t' ht)]
  · rw [Function.update_of_ne hl]
    refine Slot.ext (by simp [slots, hmem, hl]) ?_
    funext t'
    by_cases ht : t' = t
    · subst ht; simp [slots, hother l' hl]
    · simp [slots, on_of_pend (hpend t' ht)]

end Buffered

/-! ## What an access does to the cells -/

section

variable [DecidableEq T] [DecidableEq L] [Inhabited V]

/-- The effect of an access of thread `t` on the cells under buffering, with the value returned. -/
inductive Moves (t : T) (σ : L → Slot T V) : Access L V G → (L → Slot T V) → V → Prop
  | load (l : L) : Moves t σ (.load l) σ ((σ l).view t)
  | store (l : L) (v : V) (g : G) : Moves t σ (.store l v g) (Function.update σ l ((σ l).issue t v)) v
  | swap (l : L) (v : V) : (σ l).pend t = [] →
      Moves t σ (.swap l v) (Function.update σ l ((σ l).write v)) (σ l).mem
  | casHit (l : L) (old new : V) : (σ l).pend t = [] → (σ l).mem = old →
      Moves t σ (.cas l old new) (Function.update σ l ((σ l).write new)) old
  | casMiss (l : L) (old new : V) : (σ l).mem ≠ old → Moves t σ (.cas l old new) σ (σ l).mem
  | fence (drains : Bool) : (drains = true → ∀ l, (σ l).pend t = []) →
      Moves t σ (.fence drains) σ default

/-- Cells with nothing pending. -/
def flat (m : L → V) : L → Slot T V := fun l => ⟨m l, fun _ => []⟩

omit [DecidableEq T] [Inhabited V] in
theorem flat_update (m : L → V) (l : L) (v : V) :
    flat (Function.update m l v) = Function.update (flat m) l ((flat m l : Slot T V).write v) := by
  funext l'
  by_cases hl : l' = l
  · subst hl; simp [flat, Slot.write]
  · simp [flat, hl]

/-- A load with nothing pending. -/
theorem Moves.load_flat {m : L → V} {t : T} {l : L} {σ : L → Slot T V} {v : V}
    (h : Moves t (flat m) (.load l : Access L V G) σ v) : σ = flat m ∧ v = m l := by
  cases h
  exact ⟨rfl, rfl⟩

variable [DecidableEq V]

/-- A buffered step of a thread is the effect of its next access. -/
theorem bufferedStep_moves {P : Program T L V G C A} {s s' : Buffered T L V G C} {t : T}
    (h : bufferedStep P s (.step t) = some s') :
    ∃ x v, P.access s.ctl t = some x ∧ Moves t s.slots x s'.slots v ∧ s'.ctl = P.resume s.ctl t v := by
  simp only [bufferedStep] at h
  cases hx : P.access s.ctl t with
  | none => rw [hx] at h; cases h
  | some x =>
    rw [hx] at h
    cases x with
    | load l =>
      cases h
      exact ⟨_, _, rfl, .load l, rfl⟩
    | store l v g =>
      cases h
      refine ⟨_, v, rfl, ?_, rfl⟩
      have := s.issue_slots t ⟨l, v, g⟩
      simp only at this
      exact this ▸ .store l v g
    | swap l v =>
      simp only [List.isEmpty_iff] at h
      split at h
      · rename_i hon
        cases h
        refine ⟨_, _, rfl, ?_, rfl⟩
        -- a swap is enabled when the thread has no store to the cell pending
        rw [s.slots_write]
        exact Moves.swap l v (Buffered.slots_pend_nil.2 hon)
      · cases h
    | cas l old new =>
      simp only [List.isEmpty_iff] at h
      split at h
      · rename_i hon
        cases h
        refine ⟨_, _, rfl, ?_, rfl⟩
        by_cases hm : s.mem l = old
        · simp only [hm, if_true]
          rw [s.slots_write]
          exact Moves.casHit l old new (Buffered.slots_pend_nil.2 hon) hm
        · simp only [hm, if_false]
          apply Moves.casMiss l old new
          exact hm
      · cases h
    | fence d =>
      simp only [Bool.and_eq_true, Bool.not_eq_true', List.isEmpty_eq_false_iff] at h
      split at h
      · cases h
      · rename_i hd
        cases h
        -- one that drains is enabled with nothing pending
        refine ⟨_, _, rfl, .fence d fun e l => ?_, rfl⟩
        simp only [e, true_and, not_not] at hd
        exact Buffered.slots_pend_nil.2 (Buffered.on_nil hd l)

/-- An atomic access is its buffered effect, followed, when it is a plain store, by that store
reaching memory. -/
theorem atomicStep_moves {P : Program T L V G C A} {s s' : Atomic L V C} {t : T}
    (h : atomicStep P s (.step t) = some s') :
    ∃ x σ v, P.access s.ctl t = some x ∧ Moves t (flat s.mem) x σ v ∧ s'.ctl = P.resume s.ctl t v ∧
      (flat s'.mem = σ ∨ ∃ l v g, x = .store l v g ∧ (σ l).pend t = [v] ∧
        flat s'.mem = Function.update σ l ((σ l).commit t v [])) := by
  simp only [atomicStep] at h
  obtain ⟨x, hx, rfl⟩ := Option.map_eq_some_iff.1 h
  cases x with
  | load l => exact ⟨_, _, _, hx, .load l, rfl, .inl rfl⟩
  | store l v g =>
    refine ⟨_, _, _, hx, .store l v g, rfl, .inr ⟨l, v, g, rfl, by simp [flat], ?_⟩⟩
    rw [Function.update_self, Function.update_idem]
    show flat (Function.update s.mem l v) = _
    rw [flat_update]
    congr 1
    refine Slot.ext rfl ?_
    funext t'
    by_cases ht : t' = t
    · subst ht; simp [flat]
    · rw [Slot.commit_pend_ne _ _ _ ht, Slot.issue_pend_ne _ _ ht]; rfl
  | swap l v => exact ⟨_, _, _, hx, .swap l v rfl, rfl, .inl (flat_update s.mem l v)⟩
  | cas l old new =>
    by_cases hm : s.mem l = old
    · refine ⟨_, _, _, hx, .casHit l old new rfl hm, ?_, .inl ?_⟩
      · simp only [Access.exec, hm]
      · simpa only [Access.exec, hm, if_true] using flat_update s.mem l new
    · refine ⟨_, _, _, hx, .casMiss l old new hm, rfl, .inl ?_⟩
      simp only [Access.exec, hm, if_false]
  | fence d => exact ⟨_, _, _, hx, .fence d fun _ _ => rfl, rfl, .inl rfl⟩

end

/-! ## Renaming the control state -/

variable {C' A' : Type}

def Atomic.mapCtl (f : C → C') (s : Atomic L V C) : Atomic L V C' := { mem := s.mem, ctl := f s.ctl }

def Buffered.mapCtl (f : C → C') (s : Buffered T L V G C) : Buffered T L V G C' :=
  { mem := s.mem, pend := s.pend, log := s.log, ctl := f s.ctl }

def Act.map (g : A → A') : Act T A → Act T A'
  | .call a => .call (g a)
  | .step t => .step t

def BufferedAct.map (g : A → A') : BufferedAct T L A → BufferedAct T L A'
  | .call a => .call (g a)
  | .step t => .step t
  | .commit t l => .commit t l

/-- `f` and `g` rename the control states and calls of `P` into those of `P'`: the accesses are the
same, and what follows them is renamed. -/
structure Renames (P : Program T L V G C A) (P' : Program T L V G C' A') (f : C → C') (g : A → A') : Prop where
  access : ∀ c t, P'.access (f c) t = P.access c t
  resume : ∀ c t v, P'.resume (f c) t v = f (P.resume c t v)
  call : ∀ c a, P'.call (f c) (g a) = (P.call c a).map f

namespace Renames

variable [DecidableEq T] [DecidableEq L] [DecidableEq V] [Inhabited V]
variable {P : Program T L V G C A} {P' : Program T L V G C' A'} {f : C → C'} {g : A → A'}

omit [DecidableEq T] in
theorem atomicStep (h : Renames P P' f g) (s : Atomic L V C) (a : Act T A) :
    Machine.atomicStep P' (s.mapCtl f) (a.map g) = (Machine.atomicStep P s a).map (·.mapCtl f) := by
  cases a with
  | call a =>
    simp only [Act.map, Machine.atomicStep, Atomic.mapCtl, h.call, Option.map_map]
    rfl
  | step t =>
    simp only [Act.map, Machine.atomicStep, Atomic.mapCtl, h.access, h.resume, Option.map_map]
    rfl

theorem bufferedStep (h : Renames P P' f g) (s : Buffered T L V G C) (a : BufferedAct T L A) :
    Machine.bufferedStep P' (s.mapCtl f) (a.map g) = (Machine.bufferedStep P s a).map (·.mapCtl f) := by
  cases a with
  | call a =>
    simp only [BufferedAct.map, Machine.bufferedStep, Buffered.mapCtl, h.call, Option.map_map]
    rfl
  | step t =>
    simp only [BufferedAct.map, Machine.bufferedStep, Buffered.mapCtl, h.access, h.resume]
    cases P.access s.ctl t with
    | none => rfl
    | some x =>
      cases x with
      | load l => rfl
      | store l v g => rfl
      | swap l v => rw [apply_ite (Option.map _)]; rfl
      | cas l old new => rw [apply_ite (Option.map _)]; rfl
      | fence d => rw [apply_ite (Option.map _)]; rfl
  | commit t l =>
    simp only [BufferedAct.map, Machine.bufferedStep, Buffered.commit, Buffered.mapCtl, Option.map_map]
    rfl

omit [DecidableEq T] in
/-- Runs of the renamed program are the renamed runs. -/
theorem run_atomic (h : Renames P P' f g) (as : List (Act T A)) (s : Atomic L V C) :
    run (Machine.atomicStep P') (s.mapCtl f) (as.map (Act.map g)) =
      (run (Machine.atomicStep P) s as).map (·.mapCtl f) :=
  run_map _ _ h.atomicStep as s

theorem run_buffered (h : Renames P P' f g) (as : List (BufferedAct T L A)) (s : Buffered T L V G C) :
    run (Machine.bufferedStep P') (s.mapCtl f) (as.map (BufferedAct.map g)) =
      (run (Machine.bufferedStep P) s as).map (·.mapCtl f) :=
  run_map _ _ h.bufferedStep as s

end Renames

end OpenPA.Machine
