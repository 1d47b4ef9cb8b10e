/-
A program whose accesses to shared memory are operations of an object, each a sequence of accesses that
interleave with those of the other threads. A thread goes on when its operation has its result (`took`), and
makes its next access only after the operation has returned. If the operations take effect as `TakesEffect`
says, every run of the emulated program is one of the program whose accesses are atomic, with the same
contents and the same control, in which some steps do nothing (`Emulates.atomic_run`).
-/
import OpenPA.Machine.Effect
import OpenPA.Machine.Memory

namespace OpenPA.Machine

variable {T L V G C A S Q Op R : Type}

/-! ## Objects for other calls -/

/-- Calls that are made by calls of another object. -/
def Object.comap {Op' : Type} (O : Object T S Q Op R) (f : Op' → Op) : Object T S Q Op' R where
  start o := O.start (f o)
  access := O.access

theorem Effect.view {Op' M M' : Type} {spec : M → Op → M × R} {spec' : M' → Op' → M' × R} {f : Op' → Op}
    {view : M → M'} (hspec : ∀ m o, spec' (view m) o = (view (spec m (f o)).1, (spec m (f o)).2)) {o : Op'} {m m' : M} :
    ∀ {before after : Option R}, Effect spec (f o) m m' before after → Effect spec' o (view m) (view m') before after
  | none, none, h => congrArg view h
  | none, some r, h => by
    replace h : spec m (f o) = (m', r) := h
    show spec' (view m) o = (view m', r)
    rw [hspec, h]
  | some r, after, h => ⟨h.1, congrArg view h.2⟩

theorem TakesEffect.comap {Op' M M' : Type} {O : Object T S Q Op R} {spec : M → Op → M × R} {contents : S → M}
    {Ok : S → T → Option (Op × Q) → Prop} {took : Q → Option R} (h : TakesEffect O spec contents Ok took)
    (f : Op' → Op) (view : M → M') {spec' : M' → Op' → M' × R}
    (hspec : ∀ m o, spec' (view m) o = (view (spec m (f o)).1, (spec m (f o)).2)) :
    TakesEffect (O.comap f) spec' (fun s => view (contents s)) (fun s t x => Ok s t (x.map fun c => (f c.1, c.2)))
      took where
  start s t op hok := h.start s t (f op) hok
  goesOn s t flag op p u p' hok hacc := by
    obtain ⟨hok', heff⟩ := h.goesOn s t flag (f op) p u p' hok hacc
    exact ⟨hok', Effect.view hspec heff⟩
  returns s t flag op p u ret hok hacc := by
    obtain ⟨hok', heff⟩ := h.returns s t flag (f op) p u ret hok hacc
    exact ⟨hok', Effect.view hspec heff⟩
  others s t flag op p t' x ht hok hx := h.others s t flag (f op) p t' _ ht hok hx

/-! ## Emulated programs -/

/-- Memory, control, and the operation that each thread is in the middle of. -/
structure Emulated (T S Q Op C : Type) where
  shared : S
  ctl : C
  running : T → Option (Op × Q)

/-- The image of an emulated state. -/
def Emulated.atomic (contents : S → L → V) (s : Emulated T S Q Op C) : Atomic L V C := ⟨contents s.shared, s.ctl⟩

inductive EmulatedAct (T A : Type) where
  | call (a : A)
  | step (t : T) (flag : Bool)

/-- How the accesses of a program are made: the operation for the next access of a thread (`none` for a fence),
the value of what it returns, where it has its result, and the thread of a call. -/
structure Emulation (T V C A Q Op R : Type) where
  op : C → T → Option Op
  val : Op → R → V
  took : Q → Option R
  caller : A → T

section

variable [DecidableEq T] [Inhabited V]

/-- The next access of the operation that thread `t` is in the middle of. -/
def Emulated.access (P : Program T L V G C A) (O : Object T S Q Op R) (E : Emulation T V C A Q Op R)
    (s : Emulated T S Q Op C) (t : T) (flag : Bool) (o : Op) (q : Q) : Emulated T S Q Op C :=
  match O.access t flag q s.shared with
  | (u, .inl q') =>
    { shared := u
      ctl := match E.took q, E.took q' with
        | none, some r => P.resume s.ctl t (E.val o r)
        | _, _ => s.ctl
      running := Function.update s.running t (some (o, q')) }
  | (u, .inr r) =>
    { shared := u
      ctl := match E.took q with
        | none => P.resume s.ctl t (E.val o r)
        | some _ => s.ctl
      running := Function.update s.running t none }

/-- A thread makes a call if it is not in the middle of an operation. -/
def emulatedStep (P : Program T L V G C A) (O : Object T S Q Op R) (E : Emulation T V C A Q Op R)
    (s : Emulated T S Q Op C) : EmulatedAct T A → Option (Emulated T S Q Op C)
  | .call a =>
    match s.running (E.caller a) with
    | none => (P.call s.ctl a).map fun c => { s with ctl := c }
    | some _ => none
  | .step t flag =>
    match s.running t with
    | some (o, q) => some (s.access P O E t flag o q)
    | none => (P.access s.ctl t).map fun _ =>
      match E.op s.ctl t with
      | some o => s.access P O E t flag o (O.start o)
      | none => { s with ctl := P.resume s.ctl t default }

variable [DecidableEq L] [DecidableEq V]

/-- The operations do what the accesses do, and other threads do not change a thread's next one. -/
structure Emulates (P : Program T L V G C A) (E : Emulation T V C A Q Op R) (spec : (L → V) → Op → (L → V) × R) :
    Prop where
  exec : ∀ c t x o m, P.access c t = some x → E.op c t = some o → x.exec m = ((spec m o).1, E.val o (spec m o).2)
  fence : ∀ c t x m, P.access c t = some x → E.op c t = none → x.exec m = (m, default)
  call : ∀ c a c' t, P.call c a = some c' → t ≠ E.caller a → (P.access c t).isSome = true → E.op c' t = E.op c t ∧
    (P.access c' t).isSome = true
  resume : ∀ c t v t', t' ≠ t → (P.access c t').isSome = true → E.op (P.resume c t v) t' = E.op c t' ∧
    (P.access (P.resume c t v) t').isSome = true

/-- What holds of an emulated state: the object's invariant of each thread, and that an operation that has not
taken effect is the one for the thread's next access. -/
structure EmulatedOk (P : Program T L V G C A) (E : Emulation T V C A Q Op R) (Ok : S → T → Option (Op × Q) → Prop)
    (s : Emulated T S Q Op C) : Prop where
  ok : ∀ t, Ok s.shared t (s.running t)
  next : ∀ t o q, s.running t = some (o, q) → E.took q = none →
    E.op s.ctl t = some o ∧ (P.access s.ctl t).isSome = true

variable {P : Program T L V G C A} {O : Object T S Q Op R} {E : Emulation T V C A Q Op R}
  {spec : (L → V) → Op → (L → V) × R} {contents : S → L → V} {Ok : S → T → Option (Op × Q) → Prop}
  {s s' : Emulated T S Q Op C} {t : T} {o : Op} {q : Q} {flag : Bool}

omit [DecidableEq T] in
/-- The access that an operation takes effect with is the atomic one. -/
theorem Emulates.atomicStep (h : Emulates P E spec) {m m' : L → V} {c : C} {r : R} (hop : E.op c t = some o)
    (hsome : (P.access c t).isSome = true) (hspec : spec m o = (m', r)) :
    Machine.atomicStep P ⟨m, c⟩ (.step t) = some ⟨m', P.resume c t (E.val o r)⟩ := by
  obtain ⟨x, hx⟩ := Option.isSome_iff_exists.1 hsome
  have hexec := h.exec c t x o m hx hop
  rw [hspec] at hexec
  simp only [Machine.atomicStep, hx, Option.map_some, hexec]

omit [DecidableEq L] [DecidableEq V] [Inhabited V] in
/-- One thread is somewhere else, and the others' invariants are kept. -/
theorem EmulatedOk.move {u : S} {c : C} {x : Option (Op × Q)} (hs : EmulatedOk P E Ok s) (hself : Ok u t x)
    (hother : ∀ t' y, t' ≠ t → Ok s.shared t' y → Ok u t' y)
    (hnext : ∀ o q, x = some (o, q) → E.took q = none → E.op c t = some o ∧ (P.access c t).isSome = true)
    (hframe : ∀ t', t' ≠ t → (P.access s.ctl t').isSome = true → E.op c t' = E.op s.ctl t' ∧
      (P.access c t').isSome = true) :
    EmulatedOk P E Ok ⟨u, c, Function.update s.running t x⟩ where
  ok t' := by
    show Ok u t' (Function.update s.running t x t')
    by_cases ht : t' = t
    · subst ht
      rw [Function.update_self]
      exact hself
    · rw [Function.update_of_ne ht]
      exact hother t' _ ht (hs.ok t')
  next t' o q hr htook := by
    replace hr : Function.update s.running t x t' = some (o, q) := hr
    by_cases ht : t' = t
    · subst ht
      rw [Function.update_self] at hr
      exact hnext o q hr htook
    · rw [Function.update_of_ne ht] at hr
      obtain ⟨hop, hsome⟩ := hs.next t' o q hr htook
      obtain ⟨hop', hsome'⟩ := hframe t' ht hsome
      exact ⟨hop'.trans hop, hsome'⟩

/-- An access of an operation does nothing to the image, or is the atomic access. -/
theorem EmulatedOk.access (hs : EmulatedOk P E Ok s) (hP : Emulates P E spec)
    (hO : TakesEffect O spec contents Ok E.took) (hok : Ok s.shared t (some (o, q)))
    (hnext : E.took q = none → E.op s.ctl t = some o ∧ (P.access s.ctl t).isSome = true) :
    EmulatedOk P E Ok (s.access P O E t flag o q) ∧
      ((s.access P O E t flag o q).atomic contents = s.atomic contents ∨
        Machine.atomicStep P (s.atomic contents) (.step t) = some ((s.access P O E t flag o q).atomic contents)) := by
  have hother : ∀ t' y, t' ≠ t → Ok s.shared t' y → Ok (O.access t flag q s.shared).1 t' y :=
    fun t' y ht hy => hO.others _ _ _ _ _ _ _ ht hok hy
  have hkeep : ∀ t', t' ≠ t → (P.access s.ctl t').isSome = true → E.op s.ctl t' = E.op s.ctl t' ∧
      (P.access s.ctl t').isSome = true := fun _ _ hsome => ⟨rfl, hsome⟩
  rcases hacc : O.access t flag q s.shared with ⟨u, q' | r⟩
  · obtain ⟨hok', heff⟩ := hO.goesOn _ _ _ _ _ _ _ hok hacc
    rw [hacc] at hother
    simp only [Emulated.access, hacc]
    -- before its effect, the access may be the atomic one; after it, the image stays
    cases htook : E.took q with
    | none =>
      obtain ⟨hop, hsome⟩ := hnext htook
      cases htook' : E.took q' with
      | none =>
        rw [htook, htook'] at heff
        constructor
        · apply hs.move hok' hother _ hkeep
          rintro _ _ ⟨⟩ _
          exact ⟨hop, hsome⟩
        · left
          exact congrArg (Atomic.mk · s.ctl) heff
      | some r =>
        rw [htook, htook'] at heff
        constructor
        · apply hs.move hok' hother
          · rintro _ _ ⟨⟩ hnone
            rw [htook'] at hnone
            cases hnone
          · exact fun t' ht hsome' => hP.resume _ _ _ _ ht hsome'
        · right
          exact hP.atomicStep hop hsome heff
    | some r =>
      rw [htook] at heff
      obtain ⟨htook', hcont⟩ := heff
      constructor
      · apply hs.move hok' hother _ hkeep
        rintro _ _ ⟨⟩ hnone
        rw [htook'] at hnone
        cases hnone
      · left
        exact congrArg (Atomic.mk · s.ctl) hcont
  · obtain ⟨hok', heff⟩ := hO.returns _ _ _ _ _ _ _ hok hacc
    rw [hacc] at hother
    simp only [Emulated.access, hacc]
    cases htook : E.took q with
    | none =>
      obtain ⟨hop, hsome⟩ := hnext htook
      rw [htook] at heff
      constructor
      · apply hs.move hok' hother
        · rintro _ _ ⟨⟩
        · exact fun t' ht hsome' => hP.resume _ _ _ _ ht hsome'
      · right
        exact hP.atomicStep hop hsome heff
    | some r' =>
      rw [htook] at heff
      obtain ⟨-, hcont⟩ := heff
      constructor
      · apply hs.move hok' hother _ hkeep
        rintro _ _ ⟨⟩
      · left
        exact congrArg (Atomic.mk · s.ctl) hcont

/-- Every step of the emulated program does nothing to the image, or is an atomic step. -/
theorem EmulatedOk.step (hs : EmulatedOk P E Ok s) (hP : Emulates P E spec)
    (hO : TakesEffect O spec contents Ok E.took) {a : EmulatedAct T A} (hstep : emulatedStep P O E s a = some s') :
    EmulatedOk P E Ok s' ∧
      (s'.atomic contents = s.atomic contents ∨
        ∃ b, Machine.atomicStep P (s.atomic contents) b = some (s'.atomic contents)) := by
  cases a with
  | call a =>
    simp only [emulatedStep] at hstep
    split at hstep
    · rename_i hidle
      obtain ⟨c, hc, rfl⟩ := Option.map_eq_some_iff.1 hstep
      constructor
      · refine ⟨hs.ok, fun t o q hr htook => ?_⟩
        have ht : t ≠ E.caller a := by
          rintro rfl
          rw [hidle] at hr
          cases hr
        obtain ⟨hop, hsome⟩ := hs.next t o q hr htook
        obtain ⟨hop', hsome'⟩ := hP.call _ _ _ t hc ht hsome
        exact ⟨hop'.trans hop, hsome'⟩
      · right
        refine ⟨.call a, ?_⟩
        show (P.call s.ctl a).map _ = _
        rw [hc]
        rfl
    · cases hstep
  | step t flag =>
    simp only [emulatedStep] at hstep
    cases hr : s.running t with
    | some x =>
      obtain ⟨o, q⟩ := x
      simp only [hr, Option.some.injEq] at hstep
      subst hstep
      have hok := hs.ok t
      rw [hr] at hok
      obtain ⟨hs', hsim⟩ := hs.access hP hO hok (hs.next t o q hr)
      exact ⟨hs', hsim.imp_right fun h => ⟨_, h⟩⟩
    | none =>
      simp only [hr] at hstep
      obtain ⟨x, hx, rfl⟩ := Option.map_eq_some_iff.1 hstep
      have hsome : (P.access s.ctl t).isSome = true := by rw [hx]; rfl
      -- an access of the program that is no operation of the object is a fence
      cases hop : E.op s.ctl t with
      | some o =>
        have hok := hs.ok t
        rw [hr] at hok
        obtain ⟨hok', htook⟩ := hO.start _ _ o hok
        obtain ⟨hs', hsim⟩ := hs.access hP hO hok' fun _ => ⟨hop, hsome⟩
        exact ⟨hs', hsim.imp_right fun h => ⟨_, h⟩⟩
      | none =>
        constructor
        · refine ⟨hs.ok, fun t' o q hr' htook => ?_⟩
          have ht : t' ≠ t := by
            rintro rfl
            rw [hr] at hr'
            cases hr'
          obtain ⟨hop', hsome'⟩ := hs.next t' o q hr' htook
          obtain ⟨hop'', hsome''⟩ := hP.resume s.ctl t default t' ht hsome'
          exact ⟨hop''.trans hop', hsome''⟩
        · right
          refine ⟨.step t, ?_⟩
          have hexec := hP.fence s.ctl t x (contents s.shared) hx hop
          show (P.access s.ctl t).map _ = _
          rw [hx, Option.map_some]
          simp only [Emulated.atomic, hexec]

/-- The start of an emulated run. -/
def Emulated.init (u : S) (c : C) : Emulated T S Q Op C := ⟨u, c, fun _ => none⟩

omit [DecidableEq T] [DecidableEq L] [DecidableEq V] [Inhabited V] in
theorem EmulatedOk.init {u : S} {c : C} (hinit : ∀ t, Ok u t none) :
    EmulatedOk P E Ok (Emulated.init u c : Emulated T S Q Op C) := ⟨hinit, fun _ _ _ hr => nomatch hr⟩

omit [DecidableEq T] [Inhabited V] [DecidableEq L] [DecidableEq V] in
/-- In every state reached, an operation that has its result returns it, and changes nothing any more. -/
theorem EmulatedOk.tail (hs : EmulatedOk P E Ok s) (hO : TakesEffect O spec contents Ok E.took) {r r' : R} {u : S}
    (hr : s.running t = some (o, q)) (htook : E.took q = some r) (hacc : O.access t flag q s.shared = (u, .inr r')) :
    r' = r ∧ contents u = contents s.shared := by
  have hok := hs.ok t
  rw [hr] at hok
  obtain ⟨-, heff⟩ := hO.returns _ _ _ _ _ _ _ hok hacc
  rw [htook] at heff
  exact ⟨Option.some.inj heff.1, heff.2⟩

end

end OpenPA.Machine
