/-
`OPA_Shm_asymm_init` (`opa_queue.c`). That the base address has been set is seen from its value: it is not
`OPA_SHM_ASYMM_NULL_VAL`. So a first call with that very value can be followed by another one that succeeds,
and every offset in the segment then means another address. With any other value the base address is
write-once (`asymm_init_once`).
-/
import OpenPA.Queue.Alone

namespace OpenPA.Queue

open OpenPA.Machine

variable {w : Nat}

/-- `OPA_SHM_ASYMM_NULL_VAL` -/
def shmAsymmNullVal : Word w := 64#w

/-- `OPA_Shm_asymm_init`: `OPA_Shm_asymm_base_addr` after it, and what it returns -/
def shmAsymmInit (base_addr base : Word w) : Word w × Nat :=
  if base_addr ≠ shmAsymmNullVal then (base_addr, 16) else (base, 0)

/-- A process: its `OPA_Shm_asymm_base_addr`, and memory by absolute addresses. -/
structure Process (w : Nat) where
  base_addr : Word w
  mem : Cell w → Word w

/-- The cells by their offsets from `base`. -/
def relCells (base : Word w) (m : Cell w → Word w) : Cell w → Word w := fun l => m ⟨l.field, shmRelToAbs base l.off⟩

/-- The cells by their addresses, from the cells by offsets. -/
def absCells (base : Word w) (m : Cell w → Word w) : Cell w → Word w := fun l => m ⟨l.field, shmAbsToRel base l.off⟩

inductive ShmCall (w : Nat) where
  | asymmInit (base : Word w)
  | queue (qhead_ptr : Word w) (c : QueueCall w)

inductive ShmRet (w : Nat) where
  | errno (mpi_errno : Nat)
  | queue (ret : Ret w)
  deriving DecidableEq

def Process.step (drains : Bool) (fuel : Nat) (s : Process w) : ShmCall w → Option (Process w × ShmRet w)
  | .asymmInit base =>
    let r := shmAsymmInit s.base_addr base
    some ({ s with base_addr := r.1 }, .errno r.2)
  | .queue qhead_ptr c =>
    (c.run s.base_addr qhead_ptr drains fuel (relCells s.base_addr s.mem)).map fun r =>
      ({ s with mem := absCells s.base_addr r.1 }, .queue r.2)

/-- A call that has returned, and the base address after it. -/
structure Returned (w : Nat) where
  call : ShmCall w
  ret : ShmRet w
  base_addr : Word w

/-- The calls one after another, as far as each returns within `fuel` accesses. -/
def Process.run (drains : Bool) (fuel : Nat) : Process w → List (ShmCall w) → Option (List (Returned w))
  | _, [] => some []
  | s, c :: cs => (s.step drains fuel c).bind fun r =>
      (Process.run drains fuel r.1 cs).map (⟨c, r.2, r.1.base_addr⟩ :: ·)

/-- The base address is write-once: the first call installs it, and later ones return an error and leave it, and so
leave the address that an offset means. -/
structure WriteOnce (base : Word w) (first : Returned w) (later : List (Returned w)) : Prop where
  installs : first.ret = .errno 0 ∧ first.base_addr = base
  fails : ∀ r ∈ later, ∀ b, r.call = .asymmInit b → r.ret ≠ .errno 0
  keeps : ∀ r ∈ later, r.base_addr = base
  translates : ∀ r ∈ later, ∀ o, shmRelToAbs r.base_addr o = shmRelToAbs base o

section

variable {drains : Bool} {fuel : Nat} {s s' : Process w} {base : Word w}

theorem Process.step_queue {q : Word w} {c : QueueCall w} {ret : ShmRet w}
    (h : s.step drains fuel (.queue q c) = some (s', ret)) : s'.base_addr = s.base_addr := by
  obtain ⟨r, -, hr⟩ := Option.map_eq_some_iff.1 h
  cases hr
  rfl

/-- An initialized process refuses. -/
theorem shmAsymmInit_fails {base_addr : Word w} (h : base_addr ≠ shmAsymmNullVal) (b : Word w) :
    shmAsymmInit base_addr b = (base_addr, 16) := if_pos h

theorem shmAsymmInit_installs (b : Word w) : shmAsymmInit shmAsymmNullVal b = (b, 0) := if_neg (fun h => h rfl)

theorem Process.run_cons {c : ShmCall w} {cs : List (ShmCall w)} {l : List (Returned w)}
    (h : s.run drains fuel (c :: cs) = some l) : ∃ s' ret later, s.step drains fuel c = some (s', ret) ∧
      s'.run drains fuel cs = some later ∧ l = ⟨c, ret, s'.base_addr⟩ :: later := by
  obtain ⟨⟨s', ret⟩, hstep, h⟩ := Option.bind_eq_some_iff.1 h
  obtain ⟨later, hrun, rfl⟩ := Option.map_eq_some_iff.1 h
  exact ⟨s', ret, later, hstep, hrun, rfl⟩

/-- Once the base address is not the null value, or with no further call of `OPA_Shm_asymm_init`, it stays. -/
theorem Process.run_keeps : ∀ {cs : List (ShmCall w)} {s : Process w} {later : List (Returned w)},
    s.base_addr = base → (base ≠ shmAsymmNullVal ∨ ∀ b, .asymmInit b ∉ cs) → s.run drains fuel cs = some later →
    ∀ r ∈ later, r.base_addr = base ∧ ∀ b, r.call = .asymmInit b → r.ret ≠ .errno 0
  | [], s, later, _, _, h => by
    cases h
    intro r hr
    cases hr
  | c :: cs, s, l, hs, hcond, h => by
    obtain ⟨s', ret, later, hstep, hrun, rfl⟩ := Process.run_cons h
    have hfirst : s'.base_addr = base ∧ ∀ b, c = .asymmInit b → ret ≠ .errno 0 := by
      cases c with
      | queue q c =>
        rw [Process.step_queue hstep, hs]
        exact ⟨rfl, fun b hb => nomatch hb⟩
      | asymmInit b =>
        have hnull : s.base_addr ≠ shmAsymmNullVal := by
          rw [hs]
          exact hcond.resolve_right fun hno => hno b (List.mem_cons_self ..)
        simp only [Process.step, shmAsymmInit_fails hnull, Option.some.injEq, Prod.mk.injEq] at hstep
        obtain ⟨rfl, rfl⟩ := hstep
        exact ⟨hs, fun _ _ => by simp⟩
    intro r hr
    rcases List.mem_cons.1 hr with rfl | hr
    · exact hfirst
    · exact Process.run_keeps hfirst.1 (hcond.imp_right fun hno b hb => hno b (List.mem_cons_of_mem _ hb)) hrun r hr

/-- While the base address is the null value, the next call of `OPA_Shm_asymm_init` succeeds. -/
theorem Process.run_installs : ∀ {cs : List (ShmCall w)} {s : Process w} {later : List (Returned w)},
    s.base_addr = shmAsymmNullVal → (∃ b, .asymmInit b ∈ cs) → s.run drains fuel cs = some later →
    ∃ r ∈ later, ∃ b, r.call = .asymmInit b ∧ r.ret = .errno 0
  | [], s, later, _, hinit, _ => by
    obtain ⟨b, hb⟩ := hinit
    cases hb
  | c :: cs, s, l, hs, hinit, h => by
    obtain ⟨s', ret, later, hstep, hrun, rfl⟩ := Process.run_cons h
    cases c with
    | asymmInit b =>
      simp only [Process.step, hs, shmAsymmInit_installs, Option.some.injEq, Prod.mk.injEq] at hstep
      obtain ⟨-, rfl⟩ := hstep
      exact ⟨_, List.mem_cons_self .., b, rfl, rfl⟩
    | queue q c =>
      obtain ⟨b, hb⟩ := hinit
      have hb' : .asymmInit b ∈ cs := by
        rcases List.mem_cons.1 hb with hb | hb
        · cases hb
        · exact hb
      obtain ⟨r, hr, hret⟩ := Process.run_installs ((Process.step_queue hstep).trans hs) ⟨b, hb'⟩ hrun
      exact ⟨r, List.mem_cons_of_mem _ hr, hret⟩

end

/-- The base address. For every sequence of calls that return, of which the first one is `OPA_Shm_asymm_init` and the
others are any calls of it and of the queue operations: the base address is write-once exactly if the first one's
argument is not `OPA_SHM_ASYMM_NULL_VAL` or there is no other call of `OPA_Shm_asymm_init`. -/
theorem asymm_init_once (drains : Bool) (fuel : Nat) (mem : Cell w → Word w) (base : Word w) (cs : List (ShmCall w))
    (first : Returned w) (later : List (Returned w))
    (h : Process.run drains fuel ⟨shmAsymmNullVal, mem⟩ (.asymmInit base :: cs) = some (first :: later)) :
    WriteOnce base first later ↔ base ≠ shmAsymmNullVal ∨ ∀ b, .asymmInit b ∉ cs := by
  obtain ⟨s', ret, later', hstep, hrun, hl⟩ := Process.run_cons h
  obtain ⟨rfl, rfl⟩ := List.cons.inj hl
  simp only [Process.step, shmAsymmInit_installs, Option.some.injEq, Prod.mk.injEq] at hstep
  obtain ⟨rfl, rfl⟩ := hstep
  constructor
  · intro honce
    by_contra hcond
    simp only [not_or, not_not, not_forall] at hcond
    obtain ⟨hnull, hinit⟩ := hcond
    obtain ⟨r, hr, b, hcall, hret⟩ := Process.run_installs hnull hinit hrun
    exact honce.fails r hr b hcall hret
  · intro hcond
    have hkeeps := Process.run_keeps rfl hcond hrun
    refine ⟨⟨rfl, rfl⟩, fun r hr => (hkeeps r hr).2, fun r hr => (hkeeps r hr).1, fun r hr o => ?_⟩
    rw [(hkeeps r hr).1]

/-- The first call installs 64, an element at 70 is enqueued, and the second call installs 16: the offset 6 in `head`
was the address 70 and is 22 now. -/
theorem asymm_init_twice : ∃ first later,
    Process.run true 7 ⟨shmAsymmNullVal, fun _ => 0#8⟩ [.asymmInit 64#8, .queue 80#8 (.enqueue 70#8), .asymmInit 16#8] =
      some (first :: later) ∧
    (first :: later).map (fun r => (r.ret, r.base_addr)) = [(.errno 0, 64#8), (.queue .enqueued, 64#8), (.errno 0, 16#8)] ∧
    shmRelToAbs 64#8 6#8 = 70#8 ∧ shmRelToAbs 16#8 6#8 = 22#8 ∧ ¬WriteOnce 64#8 first later := by
  have h : (Process.run true 7 ⟨shmAsymmNullVal, fun _ => 0#8⟩
      [.asymmInit 64#8, .queue 80#8 (.enqueue 70#8), .asymmInit 16#8]).map (List.map fun r => (r.ret, r.base_addr)) =
        some [(.errno 0, 64#8), (.queue .enqueued, 64#8), (.errno 0, 16#8)] := by decide
  obtain ⟨l, hl, hret⟩ := Option.map_eq_some_iff.1 h
  obtain ⟨first, later, rfl, -, hlater⟩ := List.map_eq_cons_iff.1 hret
  refine ⟨first, later, hl, hret, by decide, by decide, fun honce => ?_⟩
  obtain ⟨r, rest, rfl, -, hrest⟩ := List.map_eq_cons_iff.1 hlater
  obtain ⟨r', rest', rfl, hr', -⟩ := List.map_eq_cons_iff.1 hrest
  have hkept := honce.keeps r' (by simp)
  rw [(Prod.mk.inj hr').2] at hkept
  exact absurd hkept (by decide)

theorem asymm_init_once_demo : ∃ first later,
    Process.run true 7 ⟨shmAsymmNullVal, fun _ => 0#8⟩ [.asymmInit 0#8, .queue 80#8 (.enqueue 70#8), .asymmInit 16#8] =
      some (first :: later) ∧ later.map (·.ret) = [.queue .enqueued, .errno 16] ∧ WriteOnce 0#8 first later := by
  have h : (Process.run true 7 ⟨shmAsymmNullVal, fun _ => 0#8⟩
      [.asymmInit 0#8, .queue 80#8 (.enqueue 70#8), .asymmInit 16#8]).map (List.map (·.ret)) =
        some [.errno 0, .queue .enqueued, .errno 16] := by decide
  obtain ⟨l, hl, hret⟩ := Option.map_eq_some_iff.1 h
  obtain ⟨first, later, rfl, -, hlater⟩ := List.map_eq_cons_iff.1 hret
  exact ⟨first, later, hl, hlater, (asymm_init_once true 7 _ 0#8 _ first later hl).2 (.inl (by decide))⟩

end OpenPA.Queue
