/-
Clients of an object: threads that make one call after another, each of which may depend on what the thread's
earlier ones returned. A client whose calls are made access by access, of an object whose calls take effect, goes
through the states of the client whose calls are made in one step (`Client.simulated`). What every call in one step
keeps then holds of the client on the object (`Client.invariant`): the calls that have taken effect count as
returned.
-/
import OpenPA.Machine.Effect

namespace OpenPA.Machine

variable {T S M P Op R C : Type}

/-- What the threads do: the next call of a thread, if there is one, and what it does with the value returned. -/
structure Client (T Op R C : Type) where
  next : T → C → Option Op
  resume : T → C → R → C

/-- What the threads share, and what each has to itself. -/
@[ext] structure Clients (M T C : Type) where
  shared : M
  own : T → C

/-- The threads, and the calls that they are in the middle of. -/
structure Served (T S P Op C : Type) extends Clients S T C where
  running : T → Option (Op × P)

/-- No thread has made a call. -/
def Served.init (u : S) (own : T → C) : Served T S P Op C := ⟨⟨u, own⟩, fun _ => none⟩

/-- What a thread has when its call has taken effect, or has not. -/
def Client.after (K : Client T Op R C) (t : T) (c : C) : Option R → C
  | none => c
  | some r => K.resume t c r

/-- What a call under way will return, if it has taken effect. -/
def Served.result (took : P → Option R) (s : Served T S P Op C) (t : T) : Option R :=
  (s.running t).bind fun x => took x.2

/-- The image of a state: the calls that have taken effect have returned, the others have not been made. -/
def Served.atOnce (K : Client T Op R C) (contents : S → M) (took : P → Option R) (s : Served T S P Op C) :
    Clients M T C :=
  ⟨contents s.shared, fun t => K.after t (s.own t) (s.result took t)⟩

theorem Served.atOnce_own {K : Client T Op R C} {contents : S → M} {took : P → Option R} {s : Served T S P Op C} {t : T}
    (h : s.running t = none) : (s.atOnce K contents took).own t = s.own t := by
  unfold Served.atOnce Served.result
  simp only [h]
  rfl

theorem Served.atOnce_idle {K : Client T Op R C} {contents : S → M} {took : P → Option R} {s : Served T S P Op C}
    (h : ∀ t, s.running t = none) : s.atOnce K contents took = ⟨contents s.shared, s.own⟩ := by
  refine Clients.ext rfl ?_
  funext t
  exact Served.atOnce_own (h t)

variable [DecidableEq T]

/-- Thread `t` makes its next call, in one step. -/
def callStep (K : Client T Op R C) (spec : M → Op → M × R) (s : Clients M T C) (t : T) : Option (Clients M T C) :=
  (K.next t (s.own t)).map fun op =>
    ⟨(spec s.shared op).1, Function.update s.own t (K.resume t (s.own t) (spec s.shared op).2)⟩

/-- A thread makes its next call, or the next access of the one it is in the middle of. -/
def servedStep (K : Client T Op R C) (O : Object T S P Op R) (s : Served T S P Op C) (a : T × Bool) :
    Option (Served T S P Op C) :=
  match s.running a.1 with
  | none => (K.next a.1 (s.own a.1)).map fun op =>
    { s with running := Function.update s.running a.1 (some (op, O.start op)) }
  | some (op, p) =>
    match O.access a.1 a.2 p s.shared with
    | (u, .inl p') => some { s with shared := u, running := Function.update s.running a.1 (some (op, p')) }
    | (u, .inr r) =>
      some ⟨⟨u, Function.update s.own a.1 (K.resume a.1 (s.own a.1) r)⟩, Function.update s.running a.1 none⟩

/-- What holds of a client on an object: the object's invariant of each thread, and that a thread's call is its next
one. -/
structure ServedOk (K : Client T Op R C) (Ok : S → T → Option (Op × P) → Prop) (s : Served T S P Op C) : Prop where
  ok : ∀ t, Ok s.shared t (s.running t)
  next : ∀ t op p, s.running t = some (op, p) → K.next t (s.own t) = some op

section

variable {K : Client T Op R C} {O : Object T S P Op R} {spec : M → Op → M × R} {contents : S → M}
  {Ok : S → T → Option (Op × P) → Prop} {took : P → Option R} {s s' : Served T S P Op C}

/-- One thread moves, and the others' invariants are kept. -/
theorem ServedOk.move {t : T} {u : S} {c : C} {x : Option (Op × P)} (hs : ServedOk K Ok s) (hself : Ok u t x)
    (hother : ∀ t' y, t' ≠ t → Ok s.shared t' y → Ok u t' y)
    (hnext : ∀ op p, x = some (op, p) → K.next t c = some op) :
    ServedOk K Ok ⟨⟨u, Function.update s.own t c⟩, Function.update s.running t x⟩ where
  ok t' := by
    show Ok u t' (Function.update s.running t x t')
    by_cases ht : t' = t
    · subst ht
      rw [Function.update_self]
      exact hself
    · rw [Function.update_of_ne ht]
      exact hother t' _ ht (hs.ok t')
  next t' op p hr := by
    replace hr : Function.update s.running t x t' = some (op, p) := hr
    show K.next t' (Function.update s.own t c t') = some op
    by_cases ht : t' = t
    · subst ht
      rw [Function.update_self] at hr ⊢
      exact hnext op p hr
    · rw [Function.update_of_ne ht] at hr ⊢
      exact hs.next t' op p hr

/-- The image when one thread moves. -/
theorem Served.atOnce_move (K : Client T Op R C) (contents : S → M) (took : P → Option R) (s : Served T S P Op C)
    (t : T) (u : S) (c : C) (x : Option (Op × P)) :
    (⟨⟨u, Function.update s.own t c⟩, Function.update s.running t x⟩ : Served T S P Op C).atOnce K contents took =
      ⟨contents u,
        Function.update (s.atOnce K contents took).own t (K.after t c (x.bind fun y => took y.2))⟩ := by
  refine Clients.ext rfl ?_
  funext t'
  show K.after t' (Function.update s.own t c t') ((Function.update s.running t x t').bind _) = _
  by_cases ht : t' = t
  · subst ht
    simp only [Function.update_self]
  · simp only [Function.update_of_ne ht]
    rfl

/-- An access of a call does nothing to the image, or is the call in one step. -/
theorem Client.effect {v : Clients M T C} {t : T} {c : C} {op : Op} {m : M} {before after : Option R}
    (hown : v.own t = K.after t c before) (hnext : K.next t c = some op)
    (heff : Effect spec op v.shared m before after) :
    (⟨m, Function.update v.own t (K.after t c after)⟩ : Clients M T C) = v ∨
      callStep K spec v t = some ⟨m, Function.update v.own t (K.after t c after)⟩ := by
  cases before with
  | none =>
    cases after with
    | none =>
      left
      refine Clients.ext heff ?_
      show Function.update v.own t (K.after t c none) = v.own
      rw [← hown, Function.update_eq_self]
    | some r =>
      right
      replace heff : spec v.shared op = (m, r) := heff
      replace hown : v.own t = c := hown
      unfold callStep
      rw [hown, hnext, Option.map_some, heff]
      rfl
  | some r =>
    left
    obtain ⟨hafter, hm⟩ := heff
    rw [hafter, ← hown, Function.update_eq_self, hm]

/-- Every step of a client on an object does nothing to the image, or is a call in one step. -/
theorem ServedOk.step (hs : ServedOk K Ok s) (hO : TakesEffect O spec contents Ok took) {a : T × Bool}
    (hstep : servedStep K O s a = some s') :
    ServedOk K Ok s' ∧ (s'.atOnce K contents took = s.atOnce K contents took ∨
      callStep K spec (s.atOnce K contents took) a.1 = some (s'.atOnce K contents took)) := by
  obtain ⟨t, flag⟩ := a
  have hok := hs.ok t
  simp only [servedStep] at hstep
  cases hr : s.running t with
  | none =>
    rw [hr] at hok
    simp only [hr] at hstep
    obtain ⟨op, hop, rfl⟩ := Option.map_eq_some_iff.1 hstep
    obtain ⟨hok', htook⟩ := hO.start s.shared t op hok
    have hmove := hs.move (c := s.own t) hok' (fun _ _ _ h => h) (by
      rintro _ _ ⟨⟩
      exact hop)
    rw [Function.update_eq_self] at hmove
    -- a call that has only begun does not show in the image
    refine ⟨hmove, .inl ?_⟩
    have himage := Served.atOnce_move K contents took s t s.shared (s.own t) (some (op, O.start op))
    rw [Function.update_eq_self] at himage
    rw [himage, Option.bind_some, htook]
    have hown : s.own t = (s.atOnce K contents took).own t := (Served.atOnce_own hr).symm
    show (⟨_, Function.update _ t (s.own t)⟩ : Clients M T C) = _
    rw [hown, Function.update_eq_self]
    rfl
  | some x =>
    obtain ⟨op, p⟩ := x
    rw [hr] at hok
    simp only [hr] at hstep
    have hnext := hs.next t op p hr
    have hown : (s.atOnce K contents took).own t = K.after t (s.own t) (took p) := by
      show K.after t (s.own t) ((s.running t).bind _) = _
      rw [hr, Option.bind_some]
    have hother : ∀ t' y, t' ≠ t → Ok s.shared t' y → Ok (O.access t flag p s.shared).1 t' y :=
      fun t' y ht hy => hO.others _ _ _ _ _ _ _ ht hok hy
    rcases hacc : O.access t flag p s.shared with ⟨u, p' | r⟩
    · obtain ⟨hok', heff⟩ := hO.goesOn _ _ _ _ _ _ _ hok hacc
      simp only [hacc, Option.some.injEq] at hstep hother
      have hmove := hs.move (c := s.own t) hok' hother (by
        rintro _ _ ⟨⟩
        exact hnext)
      have himage := Served.atOnce_move K contents took s t u (s.own t) (some (op, p'))
      rw [Function.update_eq_self] at hmove himage
      rw [← hstep]
      refine ⟨hmove, ?_⟩
      rw [himage]
      exact Client.effect hown hnext heff
    · obtain ⟨hok', heff⟩ := hO.returns _ _ _ _ _ _ _ hok hacc
      simp only [hacc, Option.some.injEq] at hstep hother
      rw [← hstep]
      refine ⟨hs.move hok' hother (fun _ _ h => nomatch h), ?_⟩
      rw [Served.atOnce_move]
      have heffect := Client.effect hown hnext heff
      exact heffect

omit [DecidableEq T] in
theorem ServedOk.init {u : S} {own : T → C} (hinit : ∀ t, Ok u t none) :
    ServedOk K Ok (Served.init u own : Served T S P Op C) := ⟨hinit, fun _ _ _ h => nomatch h⟩

/-- Every state that a client reaches on an object is the image of one that it reaches with calls in one step, by at
most as many. -/
theorem Client.simulated (hO : TakesEffect O spec contents Ok took) {as : List (T × Bool)} {u : S} {own : T → C}
    (hinit : ∀ t, Ok u t none) (hrun : run (servedStep K O) (Served.init u own) as = some s) :
    ∃ bs, bs.length ≤ as.length ∧
      run (callStep K spec) ⟨contents u, own⟩ bs = some (s.atOnce K contents took) := by
  suffices hfrom : ∀ (as : List (T × Bool)) (s₀ : Served T S P Op C), ServedOk K Ok s₀ →
      run (servedStep K O) s₀ as = some s → ∃ bs, bs.length ≤ as.length ∧
        run (callStep K spec) (s₀.atOnce K contents took) bs = some (s.atOnce K contents took) from
    hfrom as _ (ServedOk.init hinit) hrun
  intro as
  induction as with
  | nil =>
    rintro s₀ hs₀ hrun
    cases hrun
    exact ⟨[], Nat.le_refl _, rfl⟩
  | cons a as ih =>
    rintro s₀ hs₀ hrun
    obtain ⟨s₁, hstep, hrun⟩ := run_cons_some.1 hrun
    obtain ⟨hs₁, hsim⟩ := hs₀.step hO hstep
    obtain ⟨bs, hlen, hbs⟩ := ih s₁ hs₁ hrun
    rcases hsim with hstay | hcall
    · rw [hstay] at hbs
      exact ⟨bs, Nat.le_succ_of_le hlen, hbs⟩
    · exact ⟨a.1 :: bs, Nat.succ_le_succ hlen, run_cons_some.2 ⟨_, hcall, hbs⟩⟩

/-- What every call in one step keeps holds of the images of the states that the client reaches on the object. -/
theorem Client.invariant (hO : TakesEffect O spec contents Ok took) {I : Clients M T C → Prop}
    (hI : ∀ v t v', I v → callStep K spec v t = some v' → I v') {as : List (T × Bool)} {u : S} {own : T → C}
    (hinit : ∀ t, Ok u t none) (hstart : I ⟨contents u, own⟩)
    (hrun : run (servedStep K O) (Served.init u own) as = some s) : I (s.atOnce K contents took) := by
  obtain ⟨bs, -, hbs⟩ := Client.simulated hO hinit hrun
  exact run_inv hI bs hstart hbs

end

end OpenPA.Machine
