/-
Position independence: the queue operations with arbitrary base addresses are a renaming of the same
operations with every base 0. The renaming adds a thread's base to the absolute addresses that thread
holds in its local variables, passes or returns; the shared accesses, and so the segment, are the same.
-/
import OpenPA.Queue.Code

namespace OpenPA.Queue

open OpenPA.Machine

variable {w : Nat} {T : Type}

/-! ## Addresses at a base -/

theorem cellAt_add (base : Word w) (f : Field) (a : Word w) : cellAt base f (base + a) = ⟨f, a⟩ := by
  simp [cellAt]

@[simp] theorem cellAt_zero (f : Field) (a : Word w) : cellAt 0#w f a = ⟨f, a⟩ := by simp [cellAt]

@[simp] theorem shmRelToAbs_zero (r : Word w) : shmRelToAbs 0#w r = r := by simp [shmRelToAbs]

@[simp] theorem shmAbsToRel_zero (a : Word w) : shmAbsToRel 0#w a = a := by simp [shmAbsToRel]

@[simp] theorem shmAbsToRel_add (base a : Word w) : shmAbsToRel base (base + a) = a := by
  simp [shmAbsToRel]

/-- `OPA_Shm_rel_to_abs` inverts `OPA_Shm_abs_to_rel`. -/
theorem add_shmAbsToRel (base a : Word w) : base + shmAbsToRel base a = a := by
  simp [shmAbsToRel]

/-! ## The renaming -/

def EnqueuePc.shift (base : Word w) : EnqueuePc w → EnqueuePc w
  | .setNextNull q e r => .setNextNull (base + q) (base + e) r
  | .writeBarrier q e r => .writeBarrier (base + q) (base + e) r
  | .swapTail q e r => .swapTail (base + q) (base + e) r
  | .storeHead q e r => .storeHead (base + q) (base + e) r
  | .storeLink q e r p => .storeLink (base + q) (base + e) r (base + p)

def IsEmptyPc.shift (base : Word w) : IsEmptyPc w → IsEmptyPc w
  | .testShadow q => .testShadow (base + q)
  | .testHead q => .testHead (base + q)
  | .loadHead q => .loadHead (base + q)
  | .storeShadow q h => .storeShadow (base + q) h
  | .resetHead q => .resetHead (base + q)

def PeekHeadPc.shift (base : Word w) : PeekHeadPc w → PeekHeadPc w
  | .testShadow q => .testShadow (base + q)
  | .loadShadow q => .loadShadow (base + q)

def DequeuePc.shift (base : Word w) : DequeuePc w → DequeuePc w
  | .loadShadow q => .loadShadow (base + q)
  | .testNext q r e => .testNext (base + q) r (base + e)
  | .loadNext q r e => .loadNext (base + q) r (base + e)
  | .storeShadow q r e n => .storeShadow (base + q) r (base + e) n
  | .resetShadow q r e => .resetShadow (base + q) r (base + e)
  | .casTail q r e => .casTail (base + q) r (base + e)
  | .busyWait q r e => .busyWait (base + q) r (base + e)
  | .reloadNext q r e => .reloadNext (base + q) r (base + e)
  | .storeLateShadow q r e n => .storeLateShadow (base + q) r (base + e) n
  | .clearNext q e => .clearNext (base + q) (base + e)
  | .readBarrier q e => .readBarrier (base + q) (base + e)

def ClientPc.shift (base : Word w) : ClientPc w → ClientPc w
  | .write e k v => .write (base + e) k v
  | .reuse e v => .reuse (base + e) v
  | .handOff e => .handOff (base + e)

def Pc.shift (base : Word w) : Pc w → Pc w
  | .idle => .idle
  | .enqueue p => .enqueue (p.shift base)
  | .isEmpty p => .isEmpty (p.shift base)
  | .peekHead p => .peekHead (p.shift base)
  | .dequeue p => .dequeue (p.shift base)
  | .client p => .client (p.shift base)

def Ret.shift (base : Word w) : Ret w → Ret w
  | .enqueued => .enqueued
  | .isEmpty b => .isEmpty b
  | .peeked a => .peeked (a.map (base + ·))
  | .dequeued e => .dequeued (base + e)
  | .client => .client

/-- The address a thread passes, at its own base. -/
def shiftPair (cfg : Config T w) (p : T × Word w) : T × Word w := (p.1, cfg.base p.1 + p.2)

def Ctl.shift (cfg : Config T w) (c : Ctl T w) : Ctl T w :=
  { c with
    pc := fun t => (c.pc t).shift (cfg.base t)
    called := fun q => (c.called q).map (shiftPair cfg)
    swapped := fun q => (c.swapped q).map (shiftPair cfg)
    enqueued := fun q => (c.enqueued q).map (shiftPair cfg)
    dequeued := fun q => (c.dequeued q).map (shiftPair cfg)
    result := fun t => (c.result t).map (Ret.shift (cfg.base t)) }

def Call.shift (cfg : Config T w) : Call T w → Call T w
  | .enqueue t q e => .enqueue t (cfg.base t + q) (cfg.base t + e)
  | .isEmpty t q => .isEmpty t (cfg.base t + q)
  | .peekHead t q => .peekHead t (cfg.base t + q)
  | .dequeue t q => .dequeue t (cfg.base t + q)
  | .write t e k v => .write t (cfg.base t + e) k v
  | .reuse t e v => .reuse t (cfg.base t + e) v
  | .handOff t e => .handOff t (cfg.base t + e)

/-- The same processes, each with base 0. -/
def Config.atZero (cfg : Config T w) : Config T w := { cfg with base := fun _ => 0#w }

/-- Renaming by the opposite base undoes a renaming. -/
theorem Pc.shift_neg (b : Word w) (p : Pc w) : (p.shift b).shift (-b) = p := by
  have hneg : ∀ x : Word w, -b + (b + x) = x := neg_add_cancel_left b
  cases p with
  | idle => rfl
  | enqueue p => cases p <;> simp only [Pc.shift, EnqueuePc.shift, hneg]
  | isEmpty p => cases p <;> simp only [Pc.shift, IsEmptyPc.shift, hneg]
  | peekHead p => cases p <;> simp only [Pc.shift, PeekHeadPc.shift, hneg]
  | dequeue p => cases p <;> simp only [Pc.shift, DequeuePc.shift, hneg]
  | client p => cases p <;> simp only [Pc.shift, ClientPc.shift, hneg]

theorem pc_shift_iff {cfg : Config T w} {c : Ctl T w} {t : T} {p : Pc w} :
    (c.shift cfg).pc t = p.shift (cfg.base t) ↔ c.pc t = p := by
  constructor
  · intro h
    rw [← Pc.shift_neg (cfg.base t) p, ← h]
    exact (Pc.shift_neg (cfg.base t) (c.pc t)).symm
  · intro h
    rw [← h]
    rfl

/-! ## The operations commute with it -/

theorem code_shift (cfg : Config T w) (t : T) (p : Pc w) :
    (p.shift (cfg.base t)).code cfg t = (p.code cfg.atZero t).map fun s =>
      ⟨s.access, fun v => (s.next v).map (Pc.shift (cfg.base t)) (Ret.shift (cfg.base t))⟩ := by
  cases p with
  | idle => rfl
  | enqueue p =>
    cases p <;>
      simp only [Pc.shift, EnqueuePc.shift, Pc.code, queueEnqueue, Stmt.inPc, Config.atZero, cellAt_add,
        cellAt_zero, Option.map_some, Sum.map_inl, Sum.map_inr, id, Ret.shift]
    congr 2; funext v
    split <;> simp [Pc.shift, EnqueuePc.shift, shmRelToAbs]
  | isEmpty p =>
    cases p <;>
      simp only [Pc.shift, IsEmptyPc.shift, Pc.code, queueIsEmpty, Stmt.inPc, Config.atZero, cellAt_add,
        cellAt_zero, Option.map_some, Sum.map_inl, Sum.map_inr, id, Ret.shift]
    all_goals
      congr 2; funext v
      split <;> simp [Pc.shift, IsEmptyPc.shift, Ret.shift]
  | peekHead p =>
    cases p <;>
      simp only [Pc.shift, PeekHeadPc.shift, Pc.code, queuePeekHead, Stmt.inPc, Config.atZero, cellAt_add,
        cellAt_zero, Option.map_some, Sum.map_inr, id, Ret.shift, shmRelToAbs_zero]
    · congr 2; funext v
      split <;> simp [Pc.shift, PeekHeadPc.shift, Ret.shift]
    · rfl
  | dequeue p =>
    cases p <;>
      simp only [Pc.shift, DequeuePc.shift, Pc.code, queueDequeue, Stmt.inPc, Config.atZero, cellAt_add,
        cellAt_zero, Option.map_some, Sum.map_inl, Sum.map_inr, id, Ret.shift, shmRelToAbs_zero]
    · rfl
    all_goals
      congr 2; funext v
      split <;> simp [Pc.shift, DequeuePc.shift]
  | client p =>
    cases p <;>
      simp only [Pc.shift, ClientPc.shift, Pc.code, clientCode, Stmt.inPc, Config.atZero, cellAt_add,
        cellAt_zero, Option.map_some, Sum.map_inr, id, Ret.shift]

section Commute

variable [DecidableEq T]

omit [DecidableEq T] in
theorem DequeuePc.qheadPtr_shift (b : Word w) (p : DequeuePc w) : (p.shift b).qheadPtr = b + p.qheadPtr := by
  cases p <;> rfl

theorem shift_update {α β γ : Type} [DecidableEq α] (f : α → β → γ) (g : α → β) (a : α) (b : β) :
    (fun x => f x (Function.update g a b x)) = Function.update (fun x => f x (g x)) a (f a b) := by
  funext x
  by_cases hx : x = a
  · subst hx; simp
  · simp [hx]

omit [DecidableEq T] in
theorem map_snoc (cfg : Config T w) (h : Word w → List (T × Word w)) (q : Word w) (t : T) (e : Word w) :
    (fun q' => (Function.update h q (h q ++ [(t, e)]) q').map (shiftPair cfg)) =
      Function.update (fun q' => (h q').map (shiftPair cfg)) q
        ((h q).map (shiftPair cfg) ++ [(t, cfg.base t + e)]) := by
  rw [shift_update fun _ l => List.map (shiftPair cfg) l]
  simp [shiftPair]

omit [DecidableEq T] in
theorem record_shift (cfg : Config T w) (c : Ctl T w) (t : T) (p : Pc w) (out : Pc w ⊕ Ret w) :
    (c.shift cfg).record cfg t (p.shift (cfg.base t)) (out.map (Pc.shift (cfg.base t)) (Ret.shift (cfg.base t))) =
      (c.record cfg.atZero t p out).shift cfg := by
  cases p with
  | idle => rfl
  | enqueue p =>
    cases out with
    | inl p' =>
      cases p <;> simp only [Pc.shift, EnqueuePc.shift, Ctl.record, Ctl.shift, Config.atZero, Sum.map_inl,
        shmAbsToRel_add, shmAbsToRel_zero, map_snoc]
    | inr r =>
      cases r <;> cases p <;> simp only [Pc.shift, EnqueuePc.shift, Ctl.record, Ctl.shift, Config.atZero, Sum.map_inr,
        Ret.shift, EnqueuePc.qheadPtr, EnqueuePc.eltPtr, shmAbsToRel_add, shmAbsToRel_zero, map_snoc]
  | isEmpty p =>
    cases out with
    | inl p' =>
      cases p <;> simp only [Pc.shift, IsEmptyPc.shift, Ctl.record, Ctl.shift, Config.atZero, Sum.map_inl,
        shmAbsToRel_add, shmAbsToRel_zero]
    | inr r =>
      cases r with
      | isEmpty b =>
        cases b <;> cases p <;> simp only [Pc.shift, IsEmptyPc.shift, Ctl.record, Ctl.shift, Config.atZero,
          Sum.map_inr, Ret.shift, IsEmptyPc.qhead, shmAbsToRel_add, shmAbsToRel_zero]
      | _ =>
        cases p <;> simp only [Pc.shift, IsEmptyPc.shift, Ctl.record, Ctl.shift, Config.atZero, Sum.map_inr,
          Ret.shift, shmAbsToRel_add, shmAbsToRel_zero]
  | peekHead p => rfl
  | dequeue p =>
    cases out with
    | inl p' => rfl
    | inr r =>
      cases r with
      | dequeued e =>
        simp only [Pc.shift, Ctl.record, Ctl.shift, Config.atZero, Sum.map_inr, Ret.shift, DequeuePc.qheadPtr_shift,
          shmAbsToRel_add, shmAbsToRel_zero, map_snoc]
        rfl
      | _ => rfl
  | client p =>
    cases p <;> simp only [Pc.shift, ClientPc.shift, Ctl.record, Ctl.shift, Config.atZero, shmAbsToRel_add,
      shmAbsToRel_zero]

theorem count_shift (cfg : Config T w) (c : Ctl T w) (t : T) (x : Access (Cell w) (Word w) Nat) :
    (c.shift cfg).count t x = (c.count t x).shift cfg := by
  unfold Ctl.count
  split <;> rfl

theorem goOn_shift (cfg : Config T w) (c : Ctl T w) (t : T) (out : Pc w ⊕ Ret w) :
    (c.shift cfg).goOn t (out.map (Pc.shift (cfg.base t)) (Ret.shift (cfg.base t))) =
      (c.goOn t out).shift cfg := by
  cases out with
  | inl p =>
    simp only [Sum.map_inl, Ctl.goOn, Ctl.shift]
    rw [shift_update fun t p => Pc.shift (cfg.base t) p]
  | inr r =>
    simp only [Sum.map_inr, Ctl.goOn, Ctl.shift]
    rw [shift_update fun t p => Pc.shift (cfg.base t) p,
      shift_update fun t r => Option.map (Ret.shift (cfg.base t)) r]
    rfl

theorem enter_shift (cfg : Config T w) (c : Ctl T w) (t : T) (p : Pc w) :
    (c.shift cfg).enter t (p.shift (cfg.base t)) = (c.enter t p).shift cfg := by
  simp only [Ctl.enter, Ctl.shift]
  rw [shift_update fun t p => Pc.shift (cfg.base t) p,
    shift_update fun t r => Option.map (Ret.shift (cfg.base t)) r]
  rfl

omit [DecidableEq T] in
theorem pc_shift_idle (cfg : Config T w) (c : Ctl T w) (t : T) :
    (c.shift cfg).pc t = .idle ↔ c.pc t = .idle := pc_shift_iff (p := .idle)

omit [DecidableEq T] in
/-- A guarded call commutes with a renaming of states when its guard and its effect do. -/
theorem guarded_map {α β : Type} {f : α → β} {p p' : Prop} [Decidable p] [Decidable p'] {a : α} {b : β}
    (hp : p' ↔ p) (hf : b = f a) : (if p' then some b else none) = (if p then some a else none).map f := by
  subst hf
  by_cases h : p
  · rw [if_pos h, if_pos (hp.2 h)]; rfl
  · rw [if_neg h, if_neg (fun h' => h (hp.1 h'))]; rfl

theorem call_shift (cfg : Config T w) (c : Ctl T w) (a : Call T w) :
    call cfg (c.shift cfg) (a.shift cfg) = (call cfg.atZero c a).map (Ctl.shift cfg) := by
  cases a with
  | enqueue t q e =>
    refine guarded_map ?_ ?_
    · rw [pc_shift_idle]; simp [Config.atZero, Ctl.available, Ctl.shift]
    · have hpc : EnqueuePc.start (cfg.base t) (cfg.base t + q) (cfg.base t + e) =
          (EnqueuePc.start 0#w q e).shift (cfg.base t) := by
        simp [EnqueuePc.start, EnqueuePc.shift]
      have := enter_shift cfg c t (.enqueue (EnqueuePc.start 0#w q e))
      simp only [Pc.shift, ← hpc] at this
      rw [this]
      simp only [shmAbsToRel_add, Config.atZero, shmAbsToRel_zero, Ctl.shift, Ctl.enter, map_snoc]
  | isEmpty t q =>
    refine guarded_map ?_ (enter_shift cfg c t (.isEmpty (.testShadow q)))
    rw [pc_shift_idle]; simp [Config.atZero]
  | peekHead t q =>
    refine guarded_map ?_ (enter_shift cfg c t (.peekHead (.testShadow q)))
    rw [pc_shift_idle]; simp [Config.atZero, Ctl.shift]
  | dequeue t q =>
    refine guarded_map ?_ ?_
    · rw [pc_shift_idle]; simp [Config.atZero, Ctl.shift]
    · have := enter_shift cfg c t (.dequeue (.loadShadow q))
      simp only [Pc.shift, DequeuePc.shift] at this
      rw [this]
      simp only [shmAbsToRel_add, Config.atZero, shmAbsToRel_zero, Ctl.shift, Ctl.enter]
  | write t e k v =>
    refine guarded_map ?_ (enter_shift cfg c t (.client (.write e k v)))
    rw [pc_shift_idle]
  | reuse t e v =>
    refine guarded_map ?_ ?_
    · rw [pc_shift_idle]; simp [Config.atZero, Ctl.available, Ctl.shift]
    · have := enter_shift cfg c t (.client (.reuse e v))
      simp only [Pc.shift, ClientPc.shift] at this
      rw [this]
      simp only [shmAbsToRel_add, Config.atZero, shmAbsToRel_zero, Ctl.shift, Ctl.enter]
  | handOff t e =>
    refine guarded_map ?_ (enter_shift cfg c t (.client (.handOff e)))
    rw [pc_shift_idle]; simp [Config.atZero, Ctl.shift]

/-- The operations at arbitrary bases rename the operations at base 0. -/
theorem queue_renames (cfg : Config T w) :
    Renames (queueProgram cfg.atZero) (queueProgram cfg) (Ctl.shift cfg) (Call.shift cfg) where
  access c t := by
    simp only [queueProgram]
    rw [show (c.shift cfg).pc t = (c.pc t).shift (cfg.base t) from rfl, code_shift, Option.map_map]
    rfl
  resume c t v := by
    simp only [queueProgram, resume]
    rw [show (c.shift cfg).pc t = (c.pc t).shift (cfg.base t) from rfl, code_shift]
    cases (c.pc t).code cfg.atZero t with
    | none => rfl
    | some s =>
      simp only [Option.map_some]
      rw [record_shift, count_shift, goOn_shift]
  call := call_shift cfg

/-! ## Runs -/

/-- The call at base 0 that `Call.shift` renames to this one. -/
def Call.unshift (cfg : Config T w) : Call T w → Call T w
  | .enqueue t q e => .enqueue t (q - cfg.base t) (e - cfg.base t)
  | .isEmpty t q => .isEmpty t (q - cfg.base t)
  | .peekHead t q => .peekHead t (q - cfg.base t)
  | .dequeue t q => .dequeue t (q - cfg.base t)
  | .write t e k v => .write t (e - cfg.base t) k v
  | .reuse t e v => .reuse t (e - cfg.base t) v
  | .handOff t e => .handOff t (e - cfg.base t)

omit [DecidableEq T] in
theorem shift_unshift (cfg : Config T w) (a : Call T w) : (a.unshift cfg).shift cfg = a := by
  cases a <;> simp [Call.unshift, Call.shift]

omit [DecidableEq T] in
theorem initAtomic_shift (cfg : Config T w) (junk : Cell w → Word w) :
    (initAtomic junk : Atomic _ _ (Ctl T w)).mapCtl (Ctl.shift cfg) = initAtomic junk := rfl

omit [DecidableEq T] in
theorem initBuffered_shift (cfg : Config T w) (junk : Cell w → Word w) :
    (initBuffered junk : Buffered T _ _ _ (Ctl T w)).mapCtl (Ctl.shift cfg) = initBuffered junk := rfl

/-- A run at arbitrary bases is the renaming of a run at base 0. -/
theorem atomic_atZero (cfg : Config T w) (s : Atomic (Cell w) (Word w) (Ctl T w)) (as : List (Act T (Call T w))) :
    run (atomicStep (queueProgram cfg)) (s.mapCtl (Ctl.shift cfg)) as =
      (run (atomicStep (queueProgram cfg.atZero)) s (as.map (Act.map (Call.unshift cfg)))).map
        (·.mapCtl (Ctl.shift cfg)) := by
  rw [← (queue_renames cfg).run_atomic, List.map_map]
  congr 1
  refine (List.map_id'' (fun a => ?_) as).symm
  cases a with
  | call a => simp [Act.map, shift_unshift]
  | step t => rfl

omit [DecidableEq T] in
theorem buffered_acts_shift (cfg : Config T w) (as : List (BufferedAct T (Cell w) (Call T w))) :
    (as.map (BufferedAct.map (Call.unshift cfg))).map (BufferedAct.map (Call.shift cfg)) = as := by
  rw [List.map_map]
  apply List.map_id''
  intro a
  cases a with
  | call a => simp [BufferedAct.map, shift_unshift]
  | step t => rfl
  | commit t l => rfl

/-- The same under buffering. -/
theorem buffered_atZero (cfg : Config T w) (s : Buffered T (Cell w) (Word w) Tag (Ctl T w))
    (as : List (BufferedAct T (Cell w) (Call T w))) :
    run (bufferedStep (queueProgram cfg)) (s.mapCtl (Ctl.shift cfg)) as =
      (run (bufferedStep (queueProgram cfg.atZero)) s (as.map (BufferedAct.map (Call.unshift cfg)))).map
        (·.mapCtl (Ctl.shift cfg)) := by
  rw [← (queue_renames cfg).run_buffered, buffered_acts_shift]

/-- Every state that atomic accesses reach is the renaming of one reached at base 0. -/
theorem atomic_reached {cfg : Config T w} {junk : Cell w → Word w} {as : List (Act T (Call T w))}
    {s : Atomic (Cell w) (Word w) (Ctl T w)} (h : run (atomicStep (queueProgram cfg)) (initAtomic junk) as = some s) :
    ∃ as' s', run (atomicStep (queueProgram cfg.atZero)) (initAtomic junk) as' = some s' ∧
      s = s'.mapCtl (Ctl.shift cfg) := by
  rw [← initAtomic_shift cfg, atomic_atZero] at h
  obtain ⟨s', hs', rfl⟩ := Option.map_eq_some_iff.1 h
  exact ⟨_, s', hs', rfl⟩

/-- Every state that buffered accesses reach is the renaming of one reached at base 0. -/
theorem buffered_reached {cfg : Config T w} {junk : Cell w → Word w} {as : List (BufferedAct T (Cell w) (Call T w))}
    {s : Buffered T (Cell w) (Word w) Tag (Ctl T w)}
    (h : run (bufferedStep (queueProgram cfg)) (initBuffered junk) as = some s) :
    ∃ s', run (bufferedStep (queueProgram cfg.atZero)) (initBuffered junk)
        (as.map (BufferedAct.map (Call.unshift cfg))) = some s' ∧ s = s'.mapCtl (Ctl.shift cfg) := by
  rw [← initBuffered_shift cfg, buffered_atZero] at h
  obtain ⟨s', hs', rfl⟩ := Option.map_eq_some_iff.1 h
  exact ⟨s', hs', rfl⟩

end Commute

end OpenPA.Queue
