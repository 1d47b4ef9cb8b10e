/-
Every access and every call keeps the control side of the protocol (`CtlOk.step`, `CtlOk.call`), given
what the access returned (`Reads`).
-/
import OpenPA.Queue.Change

namespace OpenPA.Queue

open OpenPA.Machine

variable {w : Nat} {T : Type} {cfg : Config T w} {c c' : Ctl T w} {g : Ghost T w} {t : T} {v : Word w}

/-- What an access returns, by the control point. -/
def Reads (g : Ghost T w) (v : Word w) : Pc w → Prop
  | .enqueue (.swapTail q _ _) | .dequeue (.casTail q _ _) => v = (g.chain q).getLastD 0#w
  | .isEmpty (.testShadow q) | .peekHead (.testShadow q) | .peekHead (.loadShadow q)
  | .dequeue (.loadShadow q) => v = (g.front q).shadow
  | .isEmpty (.testHead q) => v ≠ 0#w → ∃ t, g.front q = .stored v t
  | .isEmpty (.loadHead q) => g.front q = .seen v
  | .dequeue (.testNext _ _ e) | .dequeue (.busyWait _ _ e) =>
    v ≠ 0#w → (∃ t, g.link e = .stored v t) ∨ g.link e = .seen v
  | .dequeue (.loadNext _ _ e) | .dequeue (.reloadNext _ _ e) => g.link e = .seen v
  | _ => True

/-! ## One access -/

section Step

variable [DecidableEq T]

/-- The control point after an access that returned `v`. -/
def Pc.after (cfg : Config T w) (t : T) (p : Pc w) (v : Word w) : Pc w :=
  match p.code cfg t with
  | none => p
  | some s => (s.next v).elim id fun _ => .idle

/-- The owners of elements after an access of `t`. -/
def ownerAfter (cfg : Config T w) (t : T) (o : Word w → Owner T) : Pc w → Word w → Owner T
  | .dequeue (.readBarrier _ e) => Function.update o e (if cfg.readBarrierDrains then .free else .held t)
  | .client (.handOff e) => Function.update o e .free
  | _ => o

/-- The queues that may be dequeued from after an access that returned `v`. -/
def readyAfter (v : Word w) (r : Word w → Bool) : Pc w → Word w → Bool
  | .isEmpty (.testShadow q) => if v = 0#w then r else Function.update r q true
  | .isEmpty (.resetHead q) => Function.update r q true
  | _ => r

def copiedAfter (z : Word w → Word w) : Pc w → Word w → Word w
  | .isEmpty (.storeShadow q h) => Function.update z q h
  | _ => z

theorem goOn_fields (c : Ctl T w) (t : T) (out : Pc w ⊕ Ret w) :
    (c.goOn t out).pc = Function.update c.pc t (out.elim id fun _ => .idle) ∧ (c.goOn t out).owner = c.owner ∧
      (c.goOn t out).ready = c.ready ∧ (c.goOn t out).copied = c.copied := by
  cases out <;> exact ⟨rfl, rfl, rfl, rfl⟩

theorem count_fields (c : Ctl T w) (t : T) (x : Access (Cell w) (Word w) Nat) :
    (c.count t x).pc = c.pc ∧ (c.count t x).owner = c.owner ∧ (c.count t x).ready = c.ready ∧
      (c.count t x).copied = c.copied := by
  unfold Ctl.count; split <;> exact ⟨rfl, rfl, rfl, rfl⟩

omit [DecidableEq T] in
theorem record_fields (hb : ∀ t, cfg.base t = 0#w) (c : Ctl T w) (t : T) {p : Pc w} {s : Stmt w (Pc w) (Ret w)}
    (hs : p.code cfg t = some s) (v : Word w) :
    (c.record cfg t p (s.next v)).pc = c.pc ∧
      (c.record cfg t p (s.next v)).owner = ownerAfter cfg t c.owner p ∧
      (c.record cfg t p (s.next v)).ready = readyAfter v c.ready p ∧
      (c.record cfg t p (s.next v)).copied = copiedAfter c.copied p := by
  cases p with
  | idle => cases hs
  | enqueue p => cases hs; cases p <;> exact ⟨rfl, rfl, rfl, rfl⟩
  | isEmpty p =>
    cases hs
    cases p with
    | testShadow q =>
      simp only [Stmt.inPc, queueIsEmpty, readyAfter, ownerAfter, copiedAfter]
      split <;> simp [Ctl.record, hb, IsEmptyPc.qhead]
    | testHead q =>
      simp only [Stmt.inPc, queueIsEmpty, readyAfter, ownerAfter, copiedAfter]
      split <;> simp [Ctl.record]
    | loadHead q => exact ⟨rfl, rfl, rfl, rfl⟩
    | storeShadow q h => simp [Ctl.record, hb, ownerAfter, readyAfter, copiedAfter]
    | resetHead q => 
      simp [Stmt.inPc, queueIsEmpty, Ctl.record, hb, ownerAfter, readyAfter, copiedAfter, IsEmptyPc.qhead]
  | peekHead p => cases hs; cases p <;> exact ⟨rfl, rfl, rfl, rfl⟩
  | dequeue p =>
    cases hs
    cases p with
    | readBarrier q e =>
      simp [Stmt.inPc, queueDequeue, Ctl.record, hb, ownerAfter, readyAfter, copiedAfter]
    | testNext q r e | casTail q r e | busyWait q r e =>
      simp only [Stmt.inPc, queueDequeue]
      split <;> exact ⟨rfl, rfl, rfl, rfl⟩
    | _ => exact ⟨rfl, rfl, rfl, rfl⟩
  | client p =>
    cases hs
    cases p with
    | handOff e => simp [Ctl.record, hb, ownerAfter, readyAfter, copiedAfter]
    | _ => exact ⟨rfl, rfl, rfl, rfl⟩

/-- What an access of `t` does to the part of the control state that the protocol speaks of. -/
theorem resume_fields (hb : ∀ t, cfg.base t = 0#w) (c : Ctl T w) (t : T) (v : Word w) :
    (resume cfg c t v).pc = Function.update c.pc t ((c.pc t).after cfg t v) ∧
      (resume cfg c t v).owner = ownerAfter cfg t c.owner (c.pc t) ∧
      (resume cfg c t v).ready = readyAfter v c.ready (c.pc t) ∧
      (resume cfg c t v).copied = copiedAfter c.copied (c.pc t) := by
  unfold resume Pc.after
  cases hs : (c.pc t).code cfg t with
  | none =>
    cases hp : c.pc t with
    | idle => rw [hp] at hs; refine ⟨?_, rfl, rfl, rfl⟩; simp [← hp]
    | _ => rw [hp] at hs; cases hs
  | some s =>
    obtain ⟨h1, h2, h3, h4⟩ := record_fields hb c t hs v
    obtain ⟨i1, i2, i3, i4⟩ := count_fields (c.record cfg t (c.pc t) (s.next v)) t s.access
    obtain ⟨j1, j2, j3, j4⟩ := goOn_fields ((c.record cfg t (c.pc t) (s.next v)).count t s.access) t (s.next v)
    exact ⟨by rw [j1, i1, h1], by rw [j2, i2, h2], by rw [j3, i3, h3], by rw [j4, i4, h4]⟩

theorem CtlOk.step_enqueue (hb : ∀ t, cfg.base t = 0#w) (h : CtlOk cfg c g) {p : EnqueuePc w}
    (hct : c.pc t = .enqueue p) (hr : Reads g v (.enqueue p)) :
    CtlOk cfg (resume cfg c t v) (g.record t v (.enqueue p)) := by
  have hp := h.pc t
  have htok := h.token t
  obtain ⟨hpc, ho, hre, hco⟩ := resume_fields hb c t v
  generalize resume cfg c t v = c' at *
  rw [hct] at hp htok hpc ho hre hco
  replace ho : c'.owner = c.owner := ho
  replace hre : c'.ready = c.ready := hre
  replace hco : c'.copied = c.copied := hco
  have ha : Apart cfg c c' t :=
    ⟨fun t' ht => by rw [hpc]; simp [ht], fun e t' _ h => by rw [ho]; exact h, fun q _ h => by rw [hre]; exact h⟩
  have hself : c'.pc t = Pc.after cfg t (.enqueue p) v := by rw [hpc]; simp
  cases p with
  | setNextNull q e r =>
    replace hself : c'.pc t = .enqueue (.writeBarrier q e r) := hself
    have hold : (c.pc t).token = some (.entering e .raw) := by
      rw [hct]; rfl
    refine h.nextStage ha hold ?_ ?_ ho hre hco
    · rw [hself]; rfl
    · rw [hself]; exact hp
  | writeBarrier q e r =>
    replace hself : c'.pc t = .enqueue (.swapTail q e r) := hself
    have hold : (c.pc t).token = some (.entering e .nulled) := by
      rw [hct]; rfl
    refine h.nextStage ha hold ?_ ?_ ho hre hco
    · rw [hself]; rfl
    · rw [hself]; exact hp
  | swapTail q e r =>
    have hnz : ∀ a, a ∈ g.chain q → a ≠ 0#w := fun a ha => 
      h.pos a (by rw [((h.chain q).mem a).1 ha]; simp)
    replace hr : v = (g.chain q).getLastD 0#w := hr
    -- what the swap returned says whether the queue was empty
    cases hlast : (g.chain q).getLast? with
    | none =>
      have hv : v = 0#w := by rw [hr, List.getLast?_eq_none_iff.1 hlast]; rfl
      replace hself : c'.pc t = .enqueue (.storeHead q e r) := by
        rw [hself, hv]; simp [Pc.after, Pc.code, Stmt.inPc, queueEnqueue]
      refine h.append ha (by rw [hct]; rfl) ?_ ?_ ho hre hco
      · rw [hself, hlast]; rfl
      · rw [hself]; exact hp
    | some a =>
      have hv : v = a := by rw [hr, List.getLastD_eq_getLast?, hlast]; rfl
      have ha' : a ∈ g.chain q := List.mem_of_getLast? hlast
      replace hself : c'.pc t = .enqueue (.storeLink q e r a) := by
        rw [hself, hv]; simp [Pc.after, Pc.code, Stmt.inPc, queueEnqueue, hnz a ha', hb]
      refine h.append ha (by rw [hct]; rfl) ?_ ?_ ho hre hco
      · rw [hself, hlast]; rfl
      · rw [hself]
        refine ⟨hp, ?_⟩
        have := ((h.chain q).mem a).1 ha'
        simp only [Ghost.append, Function.update_apply]
        split
        · rfl
        · exact this
  | storeHead q e r =>
    replace hself : c'.pc t = .idle := hself
    -- the token says that it was this thread that found the queue empty
    have hf : g.front q = .swapped e t := (htok (.head q e)).2 rfl
    refine h.setFront ha ?_ (.inr ⟨e, hf, rfl⟩) ?_ ?_ ?_ ho ?_ ?_
    · rw [hct, hf]; rfl
    · rw [hf]; rfl
    · rw [hself]; rfl
    · rw [hself]; trivial
    · refine ⟨fun hq => ?_, fun q' _ => by rw [hre]⟩
      rw [hre] at hq
      obtain ⟨x, hx⟩ := h.ready q hq
      rw [hf] at hx; cases hx
    · exact ⟨fun x hx => (by cases hx), fun q' _ => by rw [hco]⟩
  | storeLink q e r p =>
    replace hself : c'.pc t = .idle := hself
    refine h.storeLink ha hp.2 (by rw [hct]; rfl) ?_ ?_ ho hre hco
    · rw [hself]; rfl
    · rw [hself]; trivial

theorem CtlOk.step_isEmpty (hb : ∀ t, cfg.base t = 0#w) (h : CtlOk cfg c g) {p : IsEmptyPc w}
    (hct : c.pc t = .isEmpty p) (hr : Reads g v (.isEmpty p)) :
    CtlOk cfg (resume cfg c t v) (g.record t v (.isEmpty p)) := by
  have hp := h.pc t
  have htok := h.token t
  obtain ⟨hpc, ho, hre, hco⟩ := resume_fields hb c t v
  generalize resume cfg c t v = c' at *
  rw [hct] at hp htok hpc ho hre hco
  replace ho : c'.owner = c.owner := ho
  have hne : ∀ t', t' ≠ t → c'.pc t' = c.pc t' := fun t' ht => by rw [hpc]; simp [ht]
  have hown : ∀ e t', t' ≠ t → c.owner e = .held t' → c'.owner e = .held t' := fun e t' _ h => by rw [ho]; exact h
  have hself : c'.pc t = Pc.after cfg t (.isEmpty p) v := by rw [hpc]; simp
  cases p with
  | testShadow q =>
    have ht : t = cfg.consumer q := hp
    replace hr : v = (g.front q).shadow := hr
    by_cases hv : v = 0#w
    · replace hself : c'.pc t = .isEmpty (.testHead q) := by
        rw [hself, hv]; simp [Pc.after, Pc.code, Stmt.inPc, queueIsEmpty]
      replace hre : c'.ready = c.ready := by rw [hre]; simp [readyAfter, hv]
      refine h.stay ⟨hne, hown, fun q _ h => by rw [hre]; exact h⟩ ?_ ?_ (fun e => by rw [ho])
        (fun q hq => .inl (hre ▸ hq)) hco
      · rw [hself, hct]; rfl
      · rw [hself]; exact ⟨ht, by rw [← hr, hv]⟩
    · replace hself : c'.pc t = .idle := by
        rw [hself]; simp [Pc.after, Pc.code, Stmt.inPc, queueIsEmpty, hv]
      -- only a copied or a taken front has a shadow, and here nothing is being copied
      have hx : ∃ x, g.front q = .taken x := by
        have hc := (htok (.copied q)).not.2 (by simp [Pc.token])
        cases hf : g.front q <;> simp_all [Front.shadow, Ghost.Owns]
      replace hre : c'.ready = Function.update c.ready q true := by rw [hre]; simp [readyAfter, hv]
      refine h.stay ⟨hne, hown, fun q' hq' h => ?_⟩ ?_ ?_ (fun e => by rw [ho]) (fun q' hq' => ?_) hco
      · have : q' ≠ q := by rintro rfl; exact hq' ht
        rw [hre, Function.update_of_ne this]; exact h
      · rw [hself, hct]; rfl
      · rw [hself]; trivial
      · by_cases hqq : q' = q
        · subst hqq; exact .inr hx
        · rw [hre, Function.update_of_ne hqq] at hq'; exact .inl hq'
  | testHead q =>
    obtain ⟨ht, hs⟩ := hp
    replace hre : c'.ready = c.ready := hre
    replace hco : c'.copied = c.copied := hco
    have ha : Apart cfg c c' t := ⟨hne, hown, fun q _ h => by rw [hre]; exact h⟩
    by_cases hv : v = 0#w
    · replace hself : c'.pc t = .idle := by
        rw [hself, hv]; simp [Pc.after, Pc.code, Stmt.inPc, queueIsEmpty]
      rw [show g.record t v (.isEmpty (.testHead q)) = g from if_pos hv]
      refine h.stay ha ?_ ?_ (fun e => by rw [ho]) (fun q hq => .inl (hre ▸ hq)) hco
      · rw [hself, hct]; rfl
      · rw [hself]; trivial
    · replace hself : c'.pc t = .isEmpty (.loadHead q) := by
        rw [hself]; simp [Pc.after, Pc.code, Stmt.inPc, queueIsEmpty, hv]
      -- a producer has stored `head`; the consumer has seen it now
      obtain ⟨t', hf⟩ := hr hv
      rw [show g.record t v (.isEmpty (.testHead q)) = g.setFront q (.seen v) from if_neg hv]
      refine h.setFront ha ?_ (.inl ⟨ht, ?_, ?_⟩) ?_ ?_ ?_ ho ⟨fun hq => ?_, fun q' _ => by rw [hre]⟩
        ⟨fun x hx => (by cases hx), fun q' _ => by rw [hco]⟩
      · rw [hct, hf]; rfl
      · intro x t'; rw [hf]; simp
      · simp
      · rw [hf]; rfl
      · rw [hself]; rfl
      · rw [hself]; trivial
      · rw [hre] at hq
        obtain ⟨x, hx⟩ := h.ready q hq
        rw [hf] at hx; cases hx
  | loadHead q =>
    replace hself : c'.pc t = .isEmpty (.storeShadow q v) := hself
    replace hre : c'.ready = c.ready := hre
    refine h.stay ⟨hne, hown, fun q _ h => by rw [hre]; exact h⟩ ?_ ?_ (fun e => by rw [ho])
      (fun q hq => .inl (hre ▸ hq)) hco
    · rw [hself, hct]; rfl
    · rw [hself]; exact hr
  | storeShadow q x =>
    replace hself : c'.pc t = .isEmpty (.resetHead q) := hself
    replace hre : c'.ready = c.ready := hre
    replace hco : c'.copied = Function.update c.copied q x := hco
    have hf : g.front q = .seen x := hp
    have ht : t = cfg.consumer q := ((htok (.seen q)).2 rfl).1
    refine h.setFront ⟨hne, hown, fun q _ h => by rw [hre]; exact h⟩ ?_ (.inl ⟨ht, ?_, ?_⟩) ?_ ?_ ?_ ho
      ⟨fun hq => ?_, fun q' _ => by rw [hre]⟩ ⟨fun y hy => ?_, fun q' hq' => ?_⟩
    · rw [hct, hf]; rfl
    · intro x t'; rw [hf]; simp
    · simp
    · rw [hf]; rfl
    · rw [hself]; rfl
    · rw [hself]; trivial
    · rw [hre] at hq
      obtain ⟨x, hx⟩ := h.ready q hq
      rw [hf] at hx; cases hx
    · cases hy; rw [hco]; simp
    · rw [hco, Function.update_of_ne hq']
  | resetHead q =>
    replace hself : c'.pc t = .idle := hself
    replace hre : c'.ready = Function.update c.ready q true := hre
    replace hco : c'.copied = c.copied := hco
    obtain ⟨ht, x, hf⟩ := (htok (.copied q)).2 rfl
    refine h.setFront ⟨hne, hown, fun q' hq' h => ?_⟩ ?_ (.inl ⟨ht, ?_, ?_⟩) ?_ ?_ ?_ ho
      ⟨fun hq => ⟨_, rfl⟩, fun q' hq' => ?_⟩ ⟨fun y hy => (by cases hy), fun q' hq' => by rw [hco]⟩
    · have : q' ≠ q := by rintro rfl; exact hq' ht
      rw [hre, Function.update_of_ne this]; exact h
    · rw [hct, hf]; rfl
    · intro x t'; rw [hf]; simp
    · simp
    · rw [hf]; rfl
    · rw [hself]; rfl
    · rw [hself]; trivial
    · rw [hre, Function.update_of_ne hq']

theorem CtlOk.step_peekHead (hb : ∀ t, cfg.base t = 0#w) (h : CtlOk cfg c g) {p : PeekHeadPc w}
    (hct : c.pc t = .peekHead p) : CtlOk cfg (resume cfg c t v) (g.record t v (.peekHead p)) := by
  have hp := h.pc t
  obtain ⟨hpc, ho, hre, hco⟩ := resume_fields hb c t v
  generalize resume cfg c t v = c' at *
  rw [hct] at hp hpc ho hre hco
  replace ho : c'.owner = c.owner := ho
  replace hre : c'.ready = c.ready := hre
  have ha : Apart cfg c c' t :=
    ⟨fun t' ht => by rw [hpc]; simp [ht], fun e t' _ h => by rw [ho]; exact h, fun q _ h => by rw [hre]; exact h⟩
  have hself : c'.pc t = Pc.after cfg t (.peekHead p) v := by rw [hpc]; simp
  have hidle : ∀ p', c'.pc t = p' → p'.token = none → PcOk cfg g c' t p' → CtlOk cfg c' g := by
    intro p' hs hk hok
    refine h.stay ha ?_ (by rw [hs]; exact hok) (fun e => by rw [ho]) (fun q hq => .inl (hre ▸ hq)) hco
    rw [hs, hk, hct]; cases p <;> rfl
  cases p with
  | testShadow q =>
    by_cases hv : v = 0#w
    · refine hidle .idle ?_ rfl trivial
      rw [hself, hv]; simp [Pc.after, Pc.code, Stmt.inPc, queuePeekHead]
    · refine hidle (.peekHead (.loadShadow q)) ?_ rfl hp
      rw [hself]; simp [Pc.after, Pc.code, Stmt.inPc, queuePeekHead, hv]
  | loadShadow q => exact hidle .idle hself rfl trivial

theorem CtlOk.step_dequeue (hb : ∀ t, cfg.base t = 0#w) (h : CtlOk cfg c g) {p : DequeuePc w}
    (hct : c.pc t = .dequeue p) (hr : Reads g v (.dequeue p)) :
    CtlOk cfg (resume cfg c t v) (g.record t v (.dequeue p)) := by
  have hp := h.pc t
  have htok := h.token t
  obtain ⟨hpc, ho, hre, hco⟩ := resume_fields hb c t v
  generalize resume cfg c t v = c' at *
  rw [hct] at hp htok hpc ho hre hco
  replace hre : c'.ready = c.ready := hre
  replace hco : c'.copied = c.copied := hco
  have hne : ∀ t', t' ≠ t → c'.pc t' = c.pc t' := fun t' ht => by rw [hpc]; simp [ht]
  have hrd : ∀ q, t ≠ cfg.consumer q → c.ready q = false → c'.ready q = false := fun q _ h => by rw [hre]; exact h
  have ha : c'.owner = c.owner → Apart cfg c c' t := fun ho => ⟨hne, fun e t' _ h => by rw [ho]; exact h, hrd⟩
  have hself : c'.pc t = Pc.after cfg t (.dequeue p) v := by rw [hpc]; simp
  -- the thread goes on without a change of the auxiliary state
  have hstay : ∀ p', c'.owner = c.owner → c'.pc t = p' → p'.token = (Pc.dequeue p).token → PcOk cfg g c' t p' →
      CtlOk cfg c' g := fun _ ho hs hk hok =>
    h.stay (ha ho) (by rw [hs, hk, hct]) (by rw [hs]; exact hok) (fun e => by rw [ho]) (fun q hq => .inl (hre ▸ hq)) hco
  cases p with
  | loadShadow q =>
    obtain ⟨ht, hq, x, hx⟩ := hp
    have hv : v = x := by rw [show v = (g.front q).shadow from hr, hx]; rfl
    refine hstay (.dequeue (.testNext q v v)) ho ?_ rfl ⟨rfl, ht, by rw [hre]; exact hq, by rw [hv]; exact hx⟩
    rw [hself]; simp [Pc.after, Pc.code, Stmt.inPc, queueDequeue, hb]
  | testNext q r e =>
    obtain ⟨hre', ht, hq, hf⟩ := hp
    by_cases hv : v = 0#w
    · rw [show g.record t v (.dequeue (.testNext q r e)) = g from if_pos hv]
      refine hstay (.dequeue (.resetShadow q r e)) ho ?_ rfl ⟨hre', ht, by rw [hre]; exact hq, hf⟩
      rw [hself, hv]; simp [Pc.after, Pc.code, Stmt.inPc, queueDequeue]
    · rw [show g.record t v (.dequeue (.testNext q r e)) = g.setLink e (.seen v) from if_neg hv]
      have hqe : g.place e = .queued q := h.ghost.place_front (by rw [hf]; rfl)
      replace hself : c'.pc t = .dequeue (.loadNext q r e) := by
        rw [hself]; simp [Pc.after, Pc.code, Stmt.inPc, queueDequeue, hv]
      refine h.seeLink (ha ho) hqe (hr hv) (by rw [hself, hct]; rfl) ?_ ho hre hco
      rw [hself]; exact ⟨hre', ht, hf, v, by simp [Ghost.setLink]⟩
  | loadNext q r e =>
    obtain ⟨hre', ht, hf, y, hy⟩ := hp
    exact hstay (.dequeue (.storeShadow q r e v)) ho hself rfl ⟨hre', ht, hf, hr⟩
  | storeShadow q r e n =>
    obtain ⟨hre', ht, hf, hn⟩ := hp
    replace hself : c'.pc t = .dequeue (.clearNext q e) := hself
    refine h.detach (ha ho) ht ?_ (by rw [hf]; rfl) ?_ (by rw [hn]; rfl) (.inr ⟨n, rfl⟩) ?_ ?_ ?_ ho hre hco
    · rw [hct, hf]; rfl
    · intro x t'; rw [hf]; simp
    · intro y t'; rw [hn]; simp
    · rw [hself]; rfl
    · rw [hself]; trivial
  | resetShadow q r e =>
    obtain ⟨hre', ht, hq, hf⟩ := hp
    replace hself : c'.pc t = .dequeue (.casTail q r e) := hself
    refine h.setFront (ha ho) ?_ (.inl ⟨ht, ?_, ?_⟩) ?_ ?_ ?_ ho ⟨fun hq' => ?_, fun q' _ => by rw [hre]⟩
      ⟨fun x hx => (by cases hx), fun q' _ => by rw [hco]⟩
    · rw [hct, hf]; rfl
    · intro x t'; rw [hf]; simp
    · simp
    · rw [hf]; rfl
    · rw [hself]; rfl
    · rw [hself]; exact ⟨hre', by simp [Ghost.setFront]⟩
    · rw [hre, hq] at hq'; cases hq'
  | casTail q r e =>
    obtain ⟨rfl, hf⟩ := hp
    obtain ⟨ht, -⟩ := (htok (.held q)).2 rfl
    -- `ready` goes with a taken front, and this one is held
    have hnil : c.ready q = false := by
      by_contra hq
      obtain ⟨x, hx⟩ := h.ready q (by simpa using hq)
      rw [hf] at hx; cases hx
    have hhead := (h.chain q).front
    rw [hf] at hhead
    have hqe : g.place r = .queued q := h.ghost.place_front (by rw [hf]; rfl)
    have hmem : r ∈ g.chain q := ((h.chain q).mem r).2 hqe
    replace hr : v = (g.chain q).getLastD 0#w := hr
    obtain ⟨z, hz⟩ : ∃ z, (g.chain q).getLast? = some z := by
      cases hl : (g.chain q).getLast? with
      | none => rw [List.getLast?_eq_none_iff.1 hl] at hmem; cases hmem
      | some z => exact ⟨z, rfl⟩
    have hvz : v = z := by rw [hr, List.getLastD_eq_getLast?, hz]; rfl
    -- it hits if the front is the last element, and then the queue is empty
    by_cases hv : v = r
    · rw [show g.record t v (.dequeue (.casTail q r r)) = g.detach q r .none from if_pos hv]
      have hlast : g.link r = .none := h.ghost.link_last (hz.trans (by rw [← hvz, hv]))
      replace hself : c'.pc t = .dequeue (.clearNext q r) := by
        rw [hself]; simp [Pc.after, Pc.code, Stmt.inPc, queueDequeue, hv]
      refine h.detach (ha ho) ht ?_ (by rw [hf]; rfl) ?_ (by rw [hlast]; rfl) (.inl ⟨rfl, hnil⟩) ?_ ?_ ?_ ho hre hco
      · rw [hct, hf]; rfl
      · intro x t'; rw [hf]; simp
      · intro y t'; rw [hlast]; simp
      · rw [hself]; rfl
      · rw [hself]; trivial
    · rw [show g.record t v (.dequeue (.casTail q r r)) = g from if_neg hv]
      refine hstay (.dequeue (.busyWait q r r)) ho ?_ rfl ⟨rfl, hf, fun hn => ?_⟩
      · rw [hself]; simp [Pc.after, Pc.code, Stmt.inPc, queueDequeue, hv]
      · -- a front that no producer is to link would be the last element
        have := (h.chain q).path.eq_getLast hmem (by rw [hn]; rfl)
        rw [hz] at this; cases this; exact hv hvz
  | busyWait q r e =>
    obtain ⟨hre', hf, hl⟩ := hp
    by_cases hv : v = 0#w
    · rw [show g.record t v (.dequeue (.busyWait q r e)) = g from if_pos hv]
      refine hstay (.dequeue (.busyWait q r e)) ho ?_ rfl ⟨hre', hf, hl⟩
      rw [hself, hv]; simp [Pc.after, Pc.code, Stmt.inPc, queueDequeue]
    · rw [show g.record t v (.dequeue (.busyWait q r e)) = g.setLink e (.seen v) from if_neg hv]
      have hqe : g.place e = .queued q := h.ghost.place_front (by rw [hf]; rfl)
      replace hself : c'.pc t = .dequeue (.reloadNext q r e) := by
        rw [hself]; simp [Pc.after, Pc.code, Stmt.inPc, queueDequeue, hv]
      refine h.seeLink (ha ho) hqe (hr hv) (by rw [hself, hct]; rfl) ?_ ho hre hco
      rw [hself]; exact ⟨hre', hf, v, by simp [Ghost.setLink]⟩
  | reloadNext q r e =>
    obtain ⟨hre', hf, y, hy⟩ := hp
    exact hstay (.dequeue (.storeLateShadow q r e v)) ho hself rfl ⟨hre', hf, hr⟩
  | storeLateShadow q r e n =>
    obtain ⟨hre', hf, hn⟩ := hp
    obtain ⟨ht, -⟩ := (htok (.held q)).2 rfl
    replace hself : c'.pc t = .dequeue (.clearNext q e) := hself
    refine h.detach (ha ho) ht ?_ (by rw [hf]; rfl) ?_ (by rw [hn]; rfl) (.inr ⟨n, rfl⟩) ?_ ?_ ?_ ho hre hco
    · rw [hct, hf]; rfl
    · intro x t'; rw [hf]; simp
    · intro y t'; rw [hn]; simp
    · rw [hself]; rfl
    · rw [hself]; trivial
  | clearNext q e =>
    obtain ⟨ht, he⟩ := (htok (.leaving q e false)).2 rfl
    replace hself : c'.pc t = .dequeue (.readBarrier q e) := hself
    replace ho : c'.owner = c.owner := ho
    refine h.setPlace (ha ho) ?_ ?_ ht ?_ ?_ (fun _ => h.pos e (by simp [he])) ?_ ?_ ?_ hco
    · rw [hct, he]; rfl
    · rw [he]; exact ht
    · rw [hself]; rfl
    · rw [hself]; trivial
    · intro e' _; rw [ho]
    · have := (h.owner e).not
      simpa [he, ho] using this
    · intro q hq; rw [hre] at hq; exact hq
  | readBarrier q e =>
    -- a barrier that does not wait leaves the element to this thread, whose stores to it may be pending
    obtain ⟨ht, he⟩ := (htok (.leaving q e true)).2 rfl
    replace hself : c'.pc t = .idle := hself
    replace ho : c'.owner = Function.update c.owner e (if cfg.readBarrierDrains then .free else .held t) := ho
    have hbusy : c.owner e = .busy := by
      have := (h.owner e).not
      simpa [he] using this
    refine h.setPlace ⟨hne, fun e' t' _ h => ?_, hrd⟩ ?_ ?_ trivial ?_ ?_ (fun h => absurd rfl h) ?_ ?_ ?_ hco
    · rw [ho, Function.update_of_ne]
      · exact h
      · rintro rfl; rw [hbusy] at h; cases h
    · rw [hct, he]; rfl
    · rw [he]; exact ht
    · rw [hself]; rfl
    · rw [hself]; trivial
    · intro e' he'; rw [ho, Function.update_of_ne he']
    · rw [ho]; split <;> simp
    · intro q hq; rw [hre] at hq; exact hq

theorem CtlOk.step_client (hb : ∀ t, cfg.base t = 0#w) (h : CtlOk cfg c g) {p : ClientPc w}
    (hct : c.pc t = .client p) : CtlOk cfg (resume cfg c t v) (g.record t v (.client p)) := by
  have hp := h.pc t
  obtain ⟨hpc, ho, hre, hco⟩ := resume_fields hb c t v
  generalize resume cfg c t v = c' at *
  rw [hct] at hp hpc ho hre hco
  replace hre : c'.ready = c.ready := hre
  have hne : ∀ t', t' ≠ t → c'.pc t' = c.pc t' := fun t' ht => by rw [hpc]; simp [ht]
  have hself : c'.pc t = .idle := by
    rw [hpc]; cases p <;> simp [Pc.after, Pc.code, Stmt.inPc, clientCode]
  have hown : (∀ e t', t' ≠ t → c.owner e = .held t' → c'.owner e = .held t') ∧
      ∀ e, c'.owner e = .busy ↔ c.owner e = .busy := by
    cases p with
    | handOff e =>
      replace ho : c'.owner = Function.update c.owner e .free := ho
      have he : c.owner e = .held t := hp
      rw [ho]
      refine ⟨fun e' t' ht h => ?_, fun e' => ?_⟩ <;> by_cases hee : e' = e
      · subst hee; rw [he] at h; cases h; exact absurd rfl ht
      · rw [Function.update_of_ne hee]; exact h
      · subst hee; simp [he]
      · rw [Function.update_of_ne hee]
    | _ =>
      replace ho : c'.owner = c.owner := ho
      rw [ho]; exact ⟨fun _ _ _ h => h, fun _ => Iff.rfl⟩
  refine h.stay ⟨hne, hown.1, fun q _ h => by rw [hre]; exact h⟩ ?_ (by rw [hself]; trivial) hown.2
    (fun q hq => .inl (hre ▸ hq)) hco
  rw [hself, hct]; cases p <;> rfl

/-- Every access keeps the control side of the protocol. -/
theorem CtlOk.step (hb : ∀ t, cfg.base t = 0#w) (h : CtlOk cfg c g) (hr : Reads g v (c.pc t)) :
    CtlOk cfg (resume cfg c t v) (g.record t v (c.pc t)) := by
  cases hct : c.pc t with
  | idle =>
    have : resume cfg c t v = c := by unfold resume; rw [hct]; rfl
    rw [this]; exact h
  | enqueue p => exact h.step_enqueue hb hct (hct ▸ hr)
  | isEmpty p => exact h.step_isEmpty hb hct (hct ▸ hr)
  | peekHead p => exact h.step_peekHead hb hct
  | dequeue p => exact h.step_dequeue hb hct (hct ▸ hr)
  | client p => exact h.step_client hb hct

/-! ## Calls -/

/-- A call that changes nothing in the auxiliary state. -/
theorem CtlOk.enter (h : CtlOk cfg c g) (hidle : c.pc t = .idle) {p : Pc w} (hk : p.token = none)
    (hpc : c'.pc = Function.update c.pc t p) (hp : PcOk cfg g c' t p)
    (ho : ∀ e, c'.owner e = c.owner e ∨ (c.owner e = .free ∧ c'.owner e = .held t))
    (hr : ∀ q, c'.ready q = true → c.ready q = true) (hc : c'.copied = c.copied) : CtlOk cfg c' g := by
  have hself : c'.pc t = p := by rw [hpc]; simp
  refine h.stay (t := t) ⟨fun t' ht => by rw [hpc]; simp [ht], fun e t' _ he => ?_, fun q _ hq => ?_⟩
    (by rw [hself, hidle, hk]; rfl) (by rw [hself]; exact hp) (fun e => ?_) (fun q hq => .inl (hr q hq)) hc
  · rcases ho e with h | ⟨h, -⟩
    · rw [h]; exact he
    · rw [h] at he; cases he
  · by_contra hn
    rw [hr q (by simpa using hn)] at hq; cases hq
  · rcases ho e with h | ⟨h, h'⟩
    · rw [h]
    · rw [h, h']; simp

theorem Ctl.available_iff {e : Word w} : c.available t e = true ↔ c.owner e = .free ∨ c.owner e = .held t :=
  decide_eq_true_iff

/-- An element that may be enqueued is in no queue. -/
theorem CtlOk.available_out (h : CtlOk cfg c g) {e : Word w} (ha : c.available t e = true) : g.place e = .out := by
  apply (h.owner e).2
  rcases Ctl.available_iff.1 ha with ha | ha
  · rw [ha]
    simp
  · rw [ha]
    simp

/-- Every call keeps the control side of the protocol. -/
theorem CtlOk.call (hb : ∀ t, cfg.base t = 0#w) (h : CtlOk cfg c g) {a : Call T w}
    (hc : Queue.call cfg c a = some c') : CtlOk cfg c' (g.enter a) := by
  cases a with
  | enqueue t q e =>
    simp only [Queue.call, hb, shmAbsToRel_zero] at hc
    split at hc
    · rename_i hg
      obtain ⟨hidle, hnz, hav⟩ := hg
      cases hc
      have hout : g.place e = .out := h.available_out hav
      refine h.setPlace ⟨fun t' ht => ?_, fun e' t' ht he => ?_, fun q _ hq => hq⟩ ?_ ?_ rfl ?_ ?_ (fun _ => hnz)
        (fun e' he => ?_) ?_ (fun q hq => hq) rfl
      · simp [Ctl.enter, ht]
      · have hne : e' ≠ e := by
          rintro rfl
          rcases Ctl.available_iff.1 hav with h | h <;> rw [h] at he <;> cases he
          exact ht rfl
        simpa [hne] using he
      · rw [hidle, hout]; rfl
      · rw [hout]; trivial
      · simp [Ctl.enter, EnqueuePc.start, Pc.token, Place.token]
      · simp [Ctl.enter, EnqueuePc.start, PcOk]
      · simp [he]
      · simp
    · cases hc
  | isEmpty t q =>
    simp only [Queue.call, hb, shmAbsToRel_zero] at hc
    split at hc
    · rename_i hg
      cases hc
      exact h.enter hg.1 rfl rfl hg.2 (fun _ => .inl rfl) (fun _ h => h) rfl
    · cases hc
  | peekHead t q =>
    simp only [Queue.call, hb, shmAbsToRel_zero] at hc
    split at hc
    · rename_i hg
      cases hc
      exact h.enter hg.1 rfl rfl ⟨hg.2.1, h.ready q hg.2.2⟩ (fun _ => .inl rfl) (fun _ h => h) rfl
    · cases hc
  | dequeue t q =>
    simp only [Queue.call, hb, shmAbsToRel_zero] at hc
    split at hc
    · rename_i hg
      cases hc
      refine h.enter hg.1 rfl rfl ⟨hg.2.1, by simp, h.ready q hg.2.2⟩ (fun _ => .inl rfl) (fun q' hq' => ?_) rfl
      by_cases hqq : q' = q
      · subst hqq; simp at hq'
      · simpa [hqq] using hq'
    · cases hc
  | write t e k v =>
    simp only [Queue.call] at hc
    split at hc
    · rename_i hg
      cases hc
      exact h.enter hg rfl rfl trivial (fun _ => .inl rfl) (fun _ h => h) rfl
    · cases hc
  | reuse t e v =>
    simp only [Queue.call, hb, shmAbsToRel_zero] at hc
    split at hc
    · rename_i hg
      obtain ⟨hidle, hav⟩ := hg
      cases hc
      refine h.enter hidle rfl rfl (by simp [PcOk]) (fun e' => ?_) (fun _ h => h) rfl
      by_cases hee : e' = e
      · subst hee
        rcases Ctl.available_iff.1 hav with h | h <;> simp [h]
      · simp [hee]
    · cases hc
  | handOff t e =>
    simp only [Queue.call, hb, shmAbsToRel_zero] at hc
    split at hc
    · rename_i hg
      cases hc
      exact h.enter hg.1 rfl rfl hg.2 (fun _ => .inl rfl) (fun _ h => h) rfl
    · cases hc

omit [DecidableEq T] in
theorem CtlOk.init : CtlOk cfg initCtl initGhost where
  token t k := by cases k <;> simp [Ghost.Owns, initGhost, initCtl, Pc.token]
  pc t := trivial
  chain q := ⟨List.nodup_nil, by simp [initGhost], trivial, rfl⟩
  pos e h := absurd rfl h
  link e _ := rfl
  owner e := by simp [initGhost, initCtl]
  ready q h := by cases h
  copied q x h := by simp [initGhost] at h

end Step

end OpenPA.Queue
