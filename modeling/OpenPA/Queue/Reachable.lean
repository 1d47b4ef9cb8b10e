/-
The invariant over whole runs. At base 0, every state that atomic accesses reach meets the strict
invariant, and every state that buffered accesses reach meets the plain one; it meets the strict one as
long as no reset of `head` reaches memory late (`ResetInTime`). A run at arbitrary bases is the renaming
of a run at base 0 (`atomic_atZero`, `buffered_atZero`), so both carry over to all bases.
-/
import OpenPA.Queue.History

namespace OpenPA.Queue

open OpenPA.Machine

variable {w : Nat} {T : Type} [DecidableEq T] {cfg : Config T w} {junk : Cell w → Word w}

/-! ## The start -/

omit [DecidableEq T] in
theorem Inv.init (strict : Bool) : Inv strict cfg initCtl initGhost (flat (initMem junk)) where
  ctl := CtlOk.init
  mem :=
    { tail := fun q => ⟨fun _ => rfl, initMem_tail junk q⟩
      shadow := fun q => ⟨fun _ _ => rfl, initMem_shadowHead junk q⟩
      head := fun q => ⟨fun _ _ => rfl, initMem_head junk q⟩
      next := fun _ _ => rfl
      reset := fun _ _ h => absurd rfl h }

/-! ## With nothing pending -/

section Flat

variable {c : Ctl T w} {g : Ghost T w} {m : Cell w → Word w}

omit [DecidableEq T] in
theorem Inv.flat_head (h : Inv true cfg c g (flat m)) (q : Word w) : m ⟨.head, q⟩ = (g.front q).head := by
  have hh := h.mem.head q
  cases hf : g.front q with
  | stored x t =>
    rw [hf] at hh
    rcases hh with ⟨-, hp, -⟩ | ⟨-, hv⟩ | ⟨-, -, -, hl⟩
    · cases hp
    · exact hv
    · exact absurd rfl (hl rfl).2
  | _ =>
    rw [hf] at hh
    exact hh.2

omit [DecidableEq T] in
theorem Inv.flat_shadow (h : Inv true cfg c g (flat m)) (q : Word w) : m ⟨.shadowHead, q⟩ = (g.front q).shadow :=
  (h.mem.shadow q).2

omit [DecidableEq T] in
theorem Inv.flat_next (h : Inv true cfg c g (flat m)) {q e : Word w} (he : g.place e = .queued q) :
    m ⟨.next, e⟩ = (g.link e).value := by
  have hl := h.mem.linkOk he
  cases hlink : g.link e with
  | stored y t =>
    rw [hlink] at hl
    rcases hl with ⟨-, -, hp, -⟩ | ⟨-, hv⟩
    · cases hp
    · exact hv
  | _ =>
    rw [hlink] at hl
    exact hl.2

end Flat

/-! ## Atomic accesses -/

/-- What the protocol says of a state reached by atomic accesses. -/
structure AtomicOk (cfg : Config T w) (s : Atomic (Cell w) (Word w) (Ctl T w)) (g : Ghost T w) : Prop where
  inv : Inv true cfg s.ctl g (flat s.mem)
  hist : History cfg s.ctl g

theorem AtomicOk.init : AtomicOk cfg (initAtomic junk) initGhost := ⟨Inv.init true, History.init⟩

/-- When a store to `head` is issued and nothing else is pending, `head` is null or holds what line 174
copied. -/
theorem Inv.head_in_time (hb : ∀ t, cfg.base t = 0#w) {c : Ctl T w} {g : Ghost T w} {m : Cell w → Word w} {t : T}
    {l : Cell w} {v : Word w} {tag : Tag} (h : Inv true cfg c g (flat m))
    (hx : (queueProgram cfg).access c t = some (.store l v tag)) (hl : l.field = .head) :
    m l = 0#w ∨ m l = (copiedAfter c.copied (c.pc t)) l.off := by
  obtain ⟨f, q⟩ := l
  cases hl
  have htok := h.ctl.token t
  have hhead := h.flat_head q
  cases HeadWrite.of_access hx rfl with
  | @storeHead e r hp =>
    rw [hb, BitVec.zero_add] at hp
    rw [hp] at htok
    have hf : g.front q = .swapped e t := (htok (.head q e)).2 rfl
    rw [hf] at hhead
    exact .inl hhead
  | resetHead hp =>
    rw [hb, BitVec.zero_add] at hp
    rw [hp] at htok ⊢
    obtain ⟨-, x, hf⟩ := (htok (.copied q)).2 rfl
    rw [hf] at hhead
    exact .inr (hhead.trans (h.ctl.copied q x hf).symm)

/-- Every atomic access keeps the protocol. -/
theorem AtomicOk.step (hb : ∀ t, cfg.base t = 0#w) {s s' : Atomic (Cell w) (Word w) (Ctl T w)} {g : Ghost T w}
    {t : T} (h : AtomicOk cfg s g) (hs : atomicStep (queueProgram cfg) s (.step t) = some s') :
    ∃ v, AtomicOk cfg s' (g.record t v (s.ctl.pc t)) := by
  obtain ⟨x, σ, v, hx, hm, hc, hmem⟩ := atomicStep_moves hs
  have hi := h.inv.step hb hx hm fun _ => .inr fun l => rfl
  refine ⟨v, ?_, by rw [hc]; exact h.hist.step hb h.inv.ctl v⟩
  rw [hc]
  rcases hmem with hmem | ⟨l, v', tag, rfl, hp, hmem⟩
  · rw [hmem]; exact hi
  · rw [hmem]
    refine ⟨hi.ctl, hi.mem.commit hi.ctl hp fun _ hl _ => ?_⟩
    cases hm
    have := h.inv.head_in_time hb hx hl
    rw [← (resume_fields hb s.ctl t v).2.2.2] at this
    simpa [flat] using this

theorem AtomicOk.call (hb : ∀ t, cfg.base t = 0#w) {s s' : Atomic (Cell w) (Word w) (Ctl T w)} {g : Ghost T w}
    {a : Call T w} (h : AtomicOk cfg s g) (hs : atomicStep (queueProgram cfg) s (.call a) = some s') :
    AtomicOk cfg s' (g.enter a) := by
  obtain ⟨c, hc, rfl⟩ := Option.map_eq_some_iff.1 hs
  exact ⟨h.inv.call hb hc, h.hist.call hb hc⟩

theorem AtomicOk.run_from (hb : ∀ t, cfg.base t = 0#w) {as : List (Act T (Call T w))}
    {s s' : Atomic (Cell w) (Word w) (Ctl T w)} {g : Ghost T w} (hg : AtomicOk cfg s g)
    (h : Machine.run (atomicStep (queueProgram cfg)) s as = some s') : ∃ g, AtomicOk cfg s' g := by
  refine run_inv (P := fun s => ∃ g, AtomicOk cfg s g) ?_ as ⟨g, hg⟩ h
  rintro s a s' ⟨g, hg⟩ hs
  cases a with
  | call a => exact ⟨_, hg.call hb hs⟩
  | step t =>
    obtain ⟨v, hv⟩ := hg.step hb hs
    exact ⟨_, hv⟩

/-- Every state that atomic accesses reach, at base 0, meets the protocol. -/
theorem AtomicOk.run (hb : ∀ t, cfg.base t = 0#w) {as : List (Act T (Call T w))}
    {s : Atomic (Cell w) (Word w) (Ctl T w)}
    (h : Machine.run (atomicStep (queueProgram cfg)) (initAtomic junk) as = some s) : ∃ g, AtomicOk cfg s g :=
  AtomicOk.init.run_from hb h

/-! ## Buffered stores -/

/-- What the protocol says of a state reached by buffered accesses. -/
structure BufferedOk (strict : Bool) (cfg : Config T w) (s : Buffered T (Cell w) (Word w) Tag (Ctl T w))
    (g : Ghost T w) : Prop where
  inv : Inv strict cfg s.ctl g s.slots
  hist : History cfg s.ctl g

omit [DecidableEq T] in
theorem initBuffered_slots : (initBuffered junk : Buffered T (Cell w) (Word w) Tag (Ctl T w)).slots =
    flat (initMem junk) := by
  funext l; simp [Buffered.slots, Buffered.on, initBuffered, flat]

theorem BufferedOk.init (strict : Bool) : BufferedOk strict cfg (initBuffered junk) initGhost :=
  ⟨by rw [initBuffered_slots]; exact Inv.init strict, History.init⟩

/-- When a store of the consumer to `head` reaches memory, `head` is null or still holds the element that
line 174 copied last. -/
def ResetInTime (cfg : Config T w) (s : Buffered T (Cell w) (Word w) Tag (Ctl T w)) :
    BufferedAct T (Cell w) (Call T w) → Prop
  | .commit t l => l.field = .head → t = cfg.consumer l.off → s.mem l = 0#w ∨ s.mem l = s.ctl.copied l.off
  | _ => True

instance (cfg : Config T w) (s : Buffered T (Cell w) (Word w) Tag (Ctl T w))
    (a : BufferedAct T (Cell w) (Call T w)) : Decidable (ResetInTime cfg s a) :=
  match a with
  | .commit t l =>
    inferInstanceAs (Decidable (l.field = .head → t = cfg.consumer l.off → s.mem l = 0#w ∨ s.mem l = s.ctl.copied l.off))
  | .call _ | .step _ => isTrue trivial

section Steps

variable {strict : Bool} {s s' : Buffered T (Cell w) (Word w) Tag (Ctl T w)} {g : Ghost T w}

theorem BufferedOk.call (hb : ∀ t, cfg.base t = 0#w) {a : Call T w} (h : BufferedOk strict cfg s g)
    (hs : bufferedStep (queueProgram cfg) s (.call a) = some s') : BufferedOk strict cfg s' (g.enter a) := by
  obtain ⟨c, hc, rfl⟩ := Option.map_eq_some_iff.1 hs
  exact ⟨h.inv.call hb hc, h.hist.call hb hc⟩

/-- What a buffered access does: it moves the cells, reads what the protocol says, and keeps it. -/
theorem BufferedOk.access (hb : ∀ t, cfg.base t = 0#w) {t : T} (h : BufferedOk strict cfg s g)
    (hdr : strict = true → cfg.readBarrierDrains = true)
    (hs : bufferedStep (queueProgram cfg) s (.step t) = some s') :
    ∃ x v, (queueProgram cfg).access s.ctl t = some x ∧ s'.ctl = resume cfg s.ctl t v ∧
      Reads g v (s.ctl.pc t) ∧ BufferedOk strict cfg s' (g.record t v (s.ctl.pc t)) := by
  obtain ⟨x, v, hx, hm, hc⟩ := bufferedStep_moves hs
  refine ⟨x, v, hx, hc, h.inv.reads hb hx hm, ?_, ?_⟩
  · rw [hc]
    exact h.inv.step hb hx hm fun hst => .inl (hdr hst)
  · rw [hc]
    exact h.hist.step hb h.inv.ctl v

theorem BufferedOk.commit {t : T} {l : Cell w} (h : BufferedOk strict cfg s g)
    (ha : strict = true → ResetInTime cfg s (.commit t l))
    (hs : bufferedStep (queueProgram cfg) s (.commit t l) = some s') : BufferedOk strict cfg s' g := by
  obtain ⟨v, rest, hp, hsl, hc⟩ := Buffered.commit_slots hs
  refine ⟨?_, by rw [hc]; exact h.hist⟩
  rw [hc, hsl]
  exact ⟨h.inv.ctl, h.inv.mem.commit h.inv.ctl hp fun hst hl ht => ha hst hl ht⟩

theorem BufferedOk.step (hb : ∀ t, cfg.base t = 0#w) {a : BufferedAct T (Cell w) (Call T w)}
    (h : BufferedOk strict cfg s g) (hdr : strict = true → cfg.readBarrierDrains = true)
    (ha : strict = true → ResetInTime cfg s a) (hs : bufferedStep (queueProgram cfg) s a = some s') :
    ∃ g', BufferedOk strict cfg s' g' := by
  cases a with
  | call a => exact ⟨_, h.call hb hs⟩
  | step t =>
    obtain ⟨x, v, -, -, -, h'⟩ := h.access hb hdr hs
    exact ⟨_, h'⟩
  | commit t l => exact ⟨_, h.commit ha hs⟩

end Steps

/-- Every state that buffered accesses reach, at base 0, meets the plain protocol. -/
theorem BufferedOk.run (hb : ∀ t, cfg.base t = 0#w) {as : List (BufferedAct T (Cell w) (Call T w))}
    {s : Buffered T (Cell w) (Word w) Tag (Ctl T w)}
    (h : Machine.run (bufferedStep (queueProgram cfg)) (initBuffered junk) as = some s) :
    ∃ g, BufferedOk false cfg s g :=
  run_inv (P := fun s => ∃ g, BufferedOk false cfg s g)
    (fun _ _ _ ⟨_, hg⟩ hs => hg.step hb (by simp) (by simp) hs) as ⟨_, BufferedOk.init false⟩ h

/-- It meets the strict protocol when the read barrier drains and every reset of `head` is in time. -/
theorem BufferedOk.run_strict (hb : ∀ t, cfg.base t = 0#w) (hdr : cfg.readBarrierDrains = true)
    {as : List (BufferedAct T (Cell w) (Call T w))} {s : Buffered T (Cell w) (Word w) Tag (Ctl T w)}
    (ha : Along (bufferedStep (queueProgram cfg)) (ResetInTime cfg) (initBuffered junk) as)
    (h : Machine.run (bufferedStep (queueProgram cfg)) (initBuffered junk) as = some s) :
    ∃ g, BufferedOk true cfg s g :=
  run_inv_along (P := fun s => ∃ g, BufferedOk true cfg s g)
    (fun _ _ _ ⟨_, hg⟩ ha hs => hg.step hb (fun _ => hdr) (fun _ => ha) hs) as ⟨_, BufferedOk.init true⟩ ha h

end OpenPA.Queue
