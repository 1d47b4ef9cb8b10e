/-
How the auxiliary state changes under the protocol. A thread that moves changes it in one of five ways:
a place, a link, a front, a new last element, a detached front element. For each of them the queued
elements stay linked up (`GhostOk`), only variables that are the thread's or nobody's change, by which it
owns what the change gives it (`Ghost.Turn`), and what other threads rely on stays (`Frame`); so `CtlOk`
is kept when the new control point asks for just that.
-/
import OpenPA.Queue.Protocol

namespace OpenPA.Queue

open OpenPA.Machine

variable {w : Nat} {T : Type} {cfg : Config T w} {c c' : Ctl T w} {g g' : Ghost T w} {t : T}

/-! ## Other threads -/

/-- The control state of threads other than `t`, and what concerns them. -/
structure Apart (cfg : Config T w) (c c' : Ctl T w) (t : T) : Prop where
  pc : ∀ t', t' ≠ t → c'.pc t' = c.pc t'
  owner : ∀ e t', t' ≠ t → c.owner e = .held t' → c'.owner e = .held t'
  ready : ∀ q, t ≠ cfg.consumer q → c.ready q = false → c'.ready q = false

/-- What the facts at another thread's control point rest on: it owns what it owned, and what it may
rely on without owning it stays. -/
structure Frame (cfg : Config T w) (g g' : Ghost T w) (c c' : Ctl T w) (t : T) : Prop where
  own : ∀ t', t' ≠ t → ∀ k, g'.Owns cfg t' k ↔ g.Owns cfg t' k
  queued : ∀ p q y t', t' ≠ t → g.link p = .swapped y t' → g.place p = .queued q → g'.place p = .queued q
  front : ∀ q, t ≠ cfg.consumer q → ((g.front q).shadow = 0#w → (g'.front q).shadow = 0#w) ∧
    (∀ x, g.front q = .seen x → g'.front q = .seen x) ∧
    (∀ x, g.front q = .taken x → g'.front q = .taken x) ∧ (∀ x, g.front q = .held x → g'.front q = .held x)
  link : ∀ q x, t ≠ cfg.consumer q → g.front q = .taken x ∨ g.front q = .held x →
    (∀ y, g.link x = .seen y → g'.link x = .seen y) ∧ (g.link x ≠ .none → g'.link x ≠ .none)
  ctl : Apart cfg c c' t

theorem Frame.refl (h : Apart cfg c c' t) : Frame cfg g g c c' t :=
  ⟨fun _ _ _ => Iff.rfl, fun _ _ _ _ _ _ h => h, fun _ _ => ⟨id, fun _ h => h, fun _ h => h, fun _ h => h⟩,
    fun _ _ _ _ => ⟨fun _ h => h, id⟩, h⟩

/-- What holds at the control point of another thread stays, since that thread is the consumer of the queues it
relies on, or owns the link it is about to store. -/
theorem Frame.pc (f : Frame cfg g g' c c' t) {t' : T} (ht : t' ≠ t) {p : Pc w}
    (hk : ∀ k, p.token = some k → g.Owns cfg t' k) (h : PcOk cfg g c t' p) : PcOk cfg g' c' t' p := by
  have hcons : ∀ {q}, t' = cfg.consumer q → t ≠ cfg.consumer q := fun hq htq => ht (hq.trans htq.symm)
  have hheld : ∀ {q}, p.token = some (.held q) → t ≠ cfg.consumer q := fun hq => hcons (hk _ hq).1
  cases p with
  | idle => trivial
  | enqueue p =>
    cases p with
    | storeLink q e r p => exact ⟨h.1, f.queued p q e t' ht (hk _ rfl) h.2⟩
    | _ => exact h
  | isEmpty p =>
    cases p with
    | testHead q => exact ⟨h.1, (f.front q (hcons h.1)).1 h.2⟩
    | storeShadow q x => exact (f.front q (hcons (hk _ rfl).1)).2.1 x h
    | _ => exact h
  | peekHead p =>
    have htaken : ∀ {q}, (t' = cfg.consumer q ∧ ∃ x, g.front q = .taken x) →
        t' = cfg.consumer q ∧ ∃ x, g'.front q = .taken x := by
      rintro q ⟨hq, x, hx⟩
      exact ⟨hq, x, (f.front q (hcons hq)).2.2.1 x hx⟩
    cases p with
    | testShadow q => exact htaken h
    | loadShadow q => exact htaken h
  | dequeue p =>
    cases p with
    | loadShadow q =>
      obtain ⟨hq, hready, x, hx⟩ := h
      exact ⟨hq, f.ctl.ready q (hcons hq) hready, x, (f.front q (hcons hq)).2.2.1 x hx⟩
    | testNext q r e | resetShadow q r e =>
      obtain ⟨hr, hq, hready, hx⟩ := h
      exact ⟨hr, hq, f.ctl.ready q (hcons hq) hready, (f.front q (hcons hq)).2.2.1 e hx⟩
    | loadNext q r e =>
      obtain ⟨hr, hq, hx, y, hy⟩ := h
      exact ⟨hr, hq, (f.front q (hcons hq)).2.2.1 e hx, y, (f.link q e (hcons hq) (.inl hx)).1 y hy⟩
    | storeShadow q r e n =>
      obtain ⟨hr, hq, hx, hy⟩ := h
      exact ⟨hr, hq, (f.front q (hcons hq)).2.2.1 e hx, (f.link q e (hcons hq) (.inl hx)).1 n hy⟩
    | casTail q r e => exact ⟨h.1, (f.front q (hheld rfl)).2.2.2 e h.2⟩
    | busyWait q r e =>
      obtain ⟨hr, hx, hn⟩ := h
      exact ⟨hr, (f.front q (hheld rfl)).2.2.2 e hx, (f.link q e (hheld rfl) (.inr hx)).2 hn⟩
    | reloadNext q r e =>
      obtain ⟨hr, hx, y, hy⟩ := h
      exact ⟨hr, (f.front q (hheld rfl)).2.2.2 e hx, y, (f.link q e (hheld rfl) (.inr hx)).1 y hy⟩
    | storeLateShadow q r e n =>
      obtain ⟨hr, hx, hy⟩ := h
      exact ⟨hr, (f.front q (hheld rfl)).2.2.2 e hx, (f.link q e (hheld rfl) (.inr hx)).1 n hy⟩
    | _ => trivial
  | client p =>
    cases p with
    | reuse e v => exact f.ctl.owner e t' ht h
    | handOff e => exact f.ctl.owner e t' ht h
    | write e k v => trivial

/-- The part of `CtlOk` that speaks of no thread. -/
structure GhostOk (g : Ghost T w) (owner : Word w → Owner T) : Prop where
  chain : ∀ q, ChainOk g q
  pos : ∀ e, g.place e ≠ .out → e ≠ 0#w
  link : ∀ e, (∀ q, g.place e ≠ .queued q) → g.link e = .none
  owner : ∀ e, g.place e = .out ↔ owner e ≠ .busy

theorem CtlOk.ghost (h : CtlOk cfg c g) : GhostOk g c.owner := ⟨h.chain, h.pos, h.link, h.owner⟩

/-- One thread moves: what is to show of it, of the others and of the auxiliary state. -/
theorem CtlOk.move (h : CtlOk cfg c g) (f : Frame cfg g g' c c' t)
    (own : ∀ k, g'.Owns cfg t k ↔ (c'.pc t).token = some k) (hp : PcOk cfg g' c' t (c'.pc t)) (hg : GhostOk g' c'.owner)
    (hready : ∀ q, c'.ready q = true → ∃ x, g'.front q = .taken x)
    (hcopied : ∀ q x, g'.front q = .copied x → c'.copied q = x) : CtlOk cfg c' g' where
  token t' k := by
    by_cases ht : t' = t
    · subst ht; exact own k
    · rw [f.own t' ht k, f.ctl.pc t' ht]; exact h.token t' k
  pc t' := by
    by_cases ht : t' = t
    · subst ht; exact hp
    · rw [f.ctl.pc t' ht]; exact f.pc ht (fun k hk => (h.token t' k).2 hk) (h.pc t')
  chain := hg.chain
  pos := hg.pos
  link := hg.link
  owner := hg.owner
  ready := hready
  copied := hcopied

/-- A thread moves on with the same token, and nothing else changes. -/
theorem CtlOk.stay (h : CtlOk cfg c g) (ha : Apart cfg c c' t) (htok : (c'.pc t).token = (c.pc t).token)
    (hp : PcOk cfg g c' t (c'.pc t)) (howner : ∀ e, c'.owner e = .busy ↔ c.owner e = .busy)
    (hready : ∀ q, c'.ready q = true → c.ready q = true ∨ ∃ x, g.front q = .taken x)
    (hcopied : c'.copied = c.copied) : CtlOk cfg c' g :=
  h.move (.refl ha) (fun k => by rw [h.token t k, htok]) hp
    ⟨h.chain, h.pos, h.link, fun e => by rw [h.owner e, Ne, Ne, howner e]⟩
    (fun q hq => (hready q hq).elim (h.ready q) id) (fun q x hx => hcopied ▸ h.copied q x hx)

/-! ## Changes of the auxiliary state -/

/-- A place of an element that is `t`'s, or nobody's and in no queue. -/
def Place.Of (cfg : Config T w) (t : T) : Place T w → Prop
  | .out => True
  | .entering t' _ => t' = t
  | .queued _ => False
  | .leaving q _ => t = cfg.consumer q

/-- What the thread of a place, a link or a front owns by it. -/
def Place.token (e : Word w) : Place T w → Option (Token w)
  | .entering _ st => some (.entering e st)
  | .leaving q b => some (.leaving q e b)
  | _ => Option.none

def Link.token (p : Word w) : Link T w → Option (Token w)
  | .swapped y _ => some (.link p y)
  | _ => Option.none

def Front.token (q : Word w) : Front T w → Option (Token w)
  | .swapped x _ => some (.head q x)
  | .seen _ => some (.seen q)
  | .copied _ => some (.copied q)
  | .held _ => some (.held q)
  | _ => Option.none

/-- A link that is `t`'s or nobody's. -/
def Link.Of (t : T) : Link T w → Prop
  | .swapped _ t' => t' = t
  | _ => True

/-- A front that is `t`'s or nobody's. -/
def Front.Of (c t : T) : Front T w → Prop
  | .swapped _ t' => t' = t
  | .seen _ | .copied _ | .held _ => t = c
  | _ => True

section

variable {o : Word w → Owner T} {e q : Word w} {p : Place T w} {l : Link T w} {f : Front T w}

/-- An element that is in no queue, before and after. -/
theorem GhostOk.setPlace (h : GhostOk g o) {o' : Word w → Owner T} (hold : ∀ q, g.place e ≠ .queued q)
    (hnew : ∀ q, p ≠ .queued q) (hpos : p ≠ .out → e ≠ 0#w) (ho : ∀ e', e' ≠ e → o' e' = o e')
    (he : p = .out ↔ o' e ≠ .busy) : GhostOk (g.setPlace e p) o' where
  chain q := by
    refine ⟨(h.chain q).nodup, fun e' => ?_, (h.chain q).path, (h.chain q).front⟩
    have := (h.chain q).mem e'
    simp only [Ghost.setPlace, Function.update_apply]
    split
    · rename_i he'; subst he'
      exact ⟨fun hm => absurd (this.1 hm) (hold q), fun hm => absurd hm (hnew q)⟩
    · exact this
  pos e' := by
    have := h.pos e'
    simp only [Ghost.setPlace, Function.update_apply]
    split
    · rename_i he'; subst he'; exact hpos
    · exact this
  link e' := by
    have := h.link e'
    simp only [Ghost.setPlace, Function.update_apply]
    split
    · rename_i he'; subst he'; exact fun _ => this hold
    · exact this
  owner e' := by
    have := h.owner e'
    simp only [Ghost.setPlace, Function.update_apply]
    split
    · rename_i he'; subst he'; exact he
    · rename_i he'; rw [ho e' he']; exact this

/-- A link whose target stays. -/
theorem GhostOk.setLink (h : GhostOk g o) (hq : g.place e = .queued q) (hl : l.target = (g.link e).target) :
    GhostOk (g.setLink e l) o where
  chain q' := by
    refine ⟨(h.chain q').nodup, (h.chain q').mem, (h.chain q').path.congr fun a _ => ?_, (h.chain q').front⟩
    simp only [Ghost.setLink, Function.update_apply]
    split
    · rename_i ha; subst ha; exact hl
    · rfl
  pos := h.pos
  link e' he' := by
    have : e' ≠ e := by rintro rfl; exact he' q hq
    simp only [Ghost.setLink, Function.update_of_ne this]
    exact h.link e' he'
  owner := h.owner

/-- A front that stays the same element. -/
theorem GhostOk.setFront (h : GhostOk g o) (hf : f.elt = (g.front q).elt) : GhostOk (g.setFront q f) o where
  chain q' := by
    refine ⟨(h.chain q').nodup, (h.chain q').mem, (h.chain q').path, ?_⟩
    simp only [Ghost.setFront, Function.update_apply]
    split
    · rename_i hq; subst hq; rw [hf]; exact (h.chain q').front
    · exact (h.chain q').front
  pos := h.pos
  link := h.link
  owner := h.owner

theorem GhostOk.unique (h : GhostOk g o) {q' : Word w} (hq : e ∈ g.chain q) (hq' : e ∈ g.chain q') : q' = q := by
  have h1 := ((h.chain q).mem e).1 hq
  rw [((h.chain q').mem e).1 hq'] at h1
  cases h1; rfl

theorem GhostOk.front_none (h : GhostOk g o) (hl : (g.chain q).getLast? = none) : g.front q = .none := by
  have := (h.chain q).front
  rw [List.getLast?_eq_none_iff.1 hl] at this
  cases hf : g.front q <;> simp [hf, Front.elt] at this ⊢

theorem GhostOk.link_last (h : GhostOk g o) (hl : (g.chain q).getLast? = some e) : g.link e = .none := by
  have := (h.chain q).path.getLast hl
  cases hl : g.link e <;> simp [hl, Link.target] at this ⊢

theorem GhostOk.place_front (h : GhostOk g o) (he : (g.front q).elt = some e) : g.place e = .queued q :=
  ((h.chain q).mem e).1 (List.mem_of_mem_head? (by rw [← (h.chain q).front, he]; rfl))

theorem GhostOk.chain_front (h : GhostOk g o) (he : (g.front q).elt = some e) : ∃ l, g.chain q = e :: l := by
  have := (h.chain q).front
  rw [he] at this
  cases hc : g.chain q with
  | nil => rw [hc] at this; cases this
  | cons a l => rw [hc] at this; cases this; exact ⟨l, rfl⟩

/-- The front and its successor. -/
theorem GhostOk.chain_second (h : GhostOk g o) {y : Word w} (he : (g.front q).elt = some e)
    (hy : (g.link e).target = some y) : ∃ l, g.chain q = e :: y :: l := by
  obtain ⟨l, hl⟩ := h.chain_front he
  have := (h.chain q).path
  rw [hl] at this
  obtain ⟨l', rfl⟩ := this.second hy
  exact ⟨l', hl⟩

/-- A front without a successor is the only element. -/
theorem GhostOk.chain_single (h : GhostOk g o) (he : (g.front q).elt = some e) (hl : g.link e = .none) :
    g.chain q = [e] := by
  obtain ⟨l, hc⟩ := h.chain_front he
  have hp := (h.chain q).path
  rw [hc] at hp
  have hn : (g.link e).target = l.head? := hp.1
  rw [hl] at hn
  rw [hc, List.head?_eq_none_iff.1 hn.symm]

/-- A new last element. -/
theorem GhostOk.append (h : GhostOk g o) (he : g.place e = .entering t .drained) : GhostOk (g.append q e t) o where
  chain q' := by
    have hc := h.chain q'
    have hne : ∀ q, e ∉ g.chain q := fun q hm => by rw [((h.chain q).mem e).1 hm] at he; cases he
    have hnl : g.link e = .none := h.link e fun q => by rw [he]; simp
    refine ⟨?_, fun e' => ?_, ?_, ?_⟩
    · simp only [Ghost.append, Function.update_apply]
      split
      · rename_i hq; subst hq
        exact List.nodup_append.2 ⟨hc.nodup, by simp, by rintro a ha b hb rfl; simp at hb; exact hne _ (hb ▸ ha)⟩
      · exact hc.nodup
    · have := hc.mem e'
      simp only [Ghost.append, Function.update_apply]
      grind
    · cases hlast : (g.chain q).getLast? with
      | none =>
        have hnil : g.chain q = [] := List.getLast?_eq_none_iff.1 hlast
        simp only [Ghost.append, hlast, Function.update_apply]
        split
        · rw [hnil]; simp [hnl, Link.target]
        · exact hc.path
      | some p =>
        -- the last element gets the link, and it is in no other queue
        have hp : p ∈ g.chain q := List.mem_of_getLast? hlast
        simp only [Ghost.append, hlast, Function.update_apply]
        split
        · rename_i hq; subst hq
          refine (hc.path.snoc hc.nodup (hne q') (by rw [hnl]; rfl) hlast).congr fun a _ => ?_
          simp only [Function.update_apply]
          split <;> rfl
        · rename_i hq
          refine hc.path.congr fun a ha => ?_
          rw [if_neg]
          rintro rfl; exact hq (h.unique hp ha)
    · cases hlast : (g.chain q).getLast? with
      | none =>
        have hnil : g.chain q = [] := List.getLast?_eq_none_iff.1 hlast
        simp only [Ghost.append, hlast, Function.update_apply]
        split
        · rw [hnil]; rfl
        · exact hc.front
      | some p =>
        simp only [Ghost.append, hlast, Function.update_apply]
        split
        · rename_i hq; subst hq
          rw [hc.front]
          cases hch : g.chain q' with
          | nil => rw [hch] at hlast; cases hlast
          | cons a l => rfl
        · exact hc.front
  pos e' := by
    have := h.pos e'
    have := h.pos e
    simp only [Ghost.append, Function.update_apply]
    grind
  link e' he' := by
    have hl := h.link e'
    cases hlast : (g.chain q).getLast? with
    | none =>
      simp only [Ghost.append, hlast, Function.update_apply] at he' ⊢
      grind
    | some p =>
      have hp := ((h.chain q).mem p).1 (List.mem_of_getLast? hlast)
      simp only [Ghost.append, hlast, Function.update_apply] at he' ⊢
      grind
  owner e' := by
    have := h.owner e'
    simp only [Ghost.append, Function.update_apply]
    grind

/-- A tail swap changes a front only of an empty queue. -/
theorem GhostOk.append_front (h : GhostOk g o) (q e : Word w) (t : T) (q' : Word w) :
    (g.append q e t).front q' = g.front q' ∨ g.front q' = .none ∧ (g.append q e t).front q' = .swapped e t := by
  cases hlast : (g.chain q).getLast? with
  | none =>
    simp only [Ghost.append, hlast, Function.update_apply]
    split
    · rename_i hq
      subst hq
      exact .inr ⟨h.front_none hlast, rfl⟩
    · exact .inl rfl
  | some a =>
    left
    simp only [Ghost.append, hlast]

/-- It changes a link only of an element without a successor. -/
theorem GhostOk.append_link (h : GhostOk g o) (q e : Word w) (t : T) (e' : Word w) :
    (g.append q e t).link e' = g.link e' ∨ g.link e' = .none ∧ (g.append q e t).link e' = .swapped e t := by
  cases hlast : (g.chain q).getLast? with
  | none =>
    left
    simp only [Ghost.append, hlast]
  | some a =>
    simp only [Ghost.append, hlast, Function.update_apply]
    split
    · rename_i ha
      subst ha
      exact .inr ⟨h.link_last hlast, rfl⟩
    · exact .inl rfl

/-- The front is detached; its successor, if there is one, is the new front. -/
theorem GhostOk.detach (h : GhostOk g o) (he : (g.front q).elt = some e) (hf : f.elt = (g.link e).target) :
    GhostOk (g.detach q e f) o := by
  obtain ⟨l, hl⟩ := h.chain_front he
  have hq : g.place e = .queued q := ((h.chain q).mem e).1 (by rw [hl]; exact List.mem_cons_self ..)
  refine ⟨fun q' => ?_, fun e' => ?_, fun e' => ?_, fun e' => ?_⟩
  · have hc := h.chain q'
    refine ⟨?_, fun e' => ?_, ?_, ?_⟩
    · simp only [Ghost.detach, Function.update_apply]
      split
      · rename_i hq'; subst hq'; exact hc.nodup.tail
      · exact hc.nodup
    · have := hc.mem e'
      have := hc.nodup
      simp only [Ghost.detach, Function.update_apply]
      grind
    · have hpath : Path (fun a => (g.link a).target) (if q' = q then (g.chain q).tail else g.chain q') := by
        split
        · rename_i hq'; subst hq'
          have := hc.path
          rw [hl] at this ⊢
          exact this.2
        · exact hc.path
      simp only [Ghost.detach, Function.update_apply]
      -- the link that goes is that of the front, which is not on the rest of the path
      refine hpath.congr fun a ha => ?_
      rw [if_neg]
      rintro rfl
      have := hc.nodup
      have := hc.mem a
      grind
    · simp only [Ghost.detach, Function.update_apply]
      split
      · rename_i hq'; subst hq'
        have := hc.path
        rw [hl] at this ⊢
        rw [hf]; exact this.1
      · exact hc.front
  · have := h.pos e'
    simp only [Ghost.detach, Function.update_apply]
    grind
  · have := h.link e'
    simp only [Ghost.detach, Function.update_apply]
    grind
  · have := h.owner e'
    simp only [Ghost.detach, Function.update_apply]
    grind

/-! ## Ownership -/

/-- An auxiliary variable. -/
inductive AuxVar (w : Nat) where
  | place (e : Word w)
  | link (p : Word w)
  | front (q : Word w)

/-- The variable that says who owns a token. -/
def Token.var : Token w → AuxVar w
  | .entering e _ | .leaving _ e _ => .place e
  | .link p _ => .link p
  | .head q _ | .seen q | .copied q | .held q => .front q

theorem Place.token_var {k : Token w} (h : p.token e = some k) : k.var = .place e := by
  unfold Place.token at h
  split at h <;> cases h <;> rfl

theorem Link.token_var {k : Token w} (h : l.token e = some k) : k.var = .link e := by
  unfold Link.token at h
  split at h <;> cases h
  rfl

theorem Front.token_var {k : Token w} (h : f.token q = some k) : k.var = .front q := by
  unfold Front.token at h
  split at h <;> cases h <;> rfl

namespace Ghost

/-- What its thread owns by a variable. -/
def tokenAt (g : Ghost T w) : AuxVar w → Option (Token w)
  | .place e => (g.place e).token e
  | .link p => (g.link p).token p
  | .front q => (g.front q).token q

/-- A variable by which nobody but `t` owns something. -/
def OfAt (cfg : Config T w) (g : Ghost T w) (t : T) : AuxVar w → Prop
  | .place e => (∃ q, g.place e = .queued q) ∨ (g.place e).Of cfg t
  | .link p => (g.link p).Of t
  | .front q => (g.front q).Of (cfg.consumer q) t

/-- A variable that stays. -/
def SameAt (g g' : Ghost T w) : AuxVar w → Prop
  | .place e => g'.place e = g.place e
  | .link p => g'.link p = g.link p
  | .front q => g'.front q = g.front q

/-- The variables that `t` changes are its own or nobody's, before and after. What it owned by `v` it owns no
longer; what it owns by them now, it owns by `v'`. -/
def Turn (cfg : Config T w) (g g' : Ghost T w) (t : T) (v v' : AuxVar w) : Prop :=
  ∀ u, (g.SameAt g' u ∧ u ≠ v ∧ u ≠ v') ∨
    (g.OfAt cfg t u ∧ g'.OfAt cfg t u ∧ (u = v' ∨ g'.tokenAt u = none))

theorem tokenAt_var {v : AuxVar w} {k : Token w} (h : g.tokenAt v = some k) : k.var = v := by
  cases v with
  | place e => exact Place.token_var h
  | link p => exact Link.token_var h
  | front q => exact Front.token_var h

theorem SameAt.owns {k : Token w} (h : g.SameAt g' k.var) (t : T) : g'.Owns cfg t k ↔ g.Owns cfg t k := by
  cases k <;> simp only [Owns, show _ = _ from h]

/-- By a variable that is nobody else's, `t` owns what it says. -/
theorem OfAt.own {k : Token w} (h : g.OfAt cfg t k.var) : g.Owns cfg t k ↔ g.tokenAt k.var = some k := by
  cases k with
  | entering e st =>
    replace h : (∃ q, g.place e = .queued q) ∨ (g.place e).Of cfg t := h
    simp only [Owns, tokenAt, Token.var]
    cases hp : g.place e <;> simp_all [Place.token, Place.Of]
  | leaving q e b =>
    replace h : (∃ q, g.place e = .queued q) ∨ (g.place e).Of cfg t := h
    simp only [Owns, tokenAt, Token.var]
    cases hp : g.place e <;> simp_all [Place.token, Place.Of]
  | link p y =>
    replace h : (g.link p).Of t := h
    simp only [Owns, tokenAt, Token.var]
    cases hl : g.link p <;> simp_all [Link.token, Link.Of]
  | _ q =>
    replace h : (g.front q).Of (cfg.consumer q) t := h
    simp only [Owns, tokenAt, Token.var]
    cases hf : g.front q <;> simp_all [Front.token, Front.Of]

/-- By a variable that is nobody else's, the other threads own nothing. -/
theorem OfAt.others {k : Token w} (h : g.OfAt cfg t k.var) {t' : T} (ht : t' ≠ t) : ¬g.Owns cfg t' k := by
  intro hk
  cases k with
  | entering e st =>
    rcases h with ⟨q, hq⟩ | hof
    · cases hq.symm.trans hk
    · rw [show g.place e = _ from hk] at hof
      exact ht hof
  | leaving q e b =>
    obtain ⟨ht', hk⟩ := hk
    rcases h with ⟨q, hq⟩ | hof
    · cases hq.symm.trans hk
    · rw [hk] at hof
      exact ht (ht'.trans hof.symm)
  | link p y =>
    replace h : (g.link p).Of t := h
    rw [show g.link p = _ from hk] at h
    exact ht h
  | head q x =>
    replace h : (g.front q).Of (cfg.consumer q) t := h
    rw [show g.front q = _ from hk] at h
    exact ht h
  | _ q =>
    obtain ⟨ht', x, hk⟩ := hk
    replace h : (g.front q).Of (cfg.consumer q) t := h
    rw [hk] at h
    exact ht (ht'.trans h.symm)

/-- What the other threads own stays. -/
theorem Turn.others {v v' : AuxVar w} (h : Turn cfg g g' t v v') {t' : T} (ht : t' ≠ t) (k : Token w) :
    g'.Owns cfg t' k ↔ g.Owns cfg t' k := by
  rcases h k.var with ⟨hsame, -⟩ | ⟨hof, hof', -⟩
  · exact hsame.owns t'
  · exact iff_of_false (hof'.others ht) (hof.others ht)

/-- When all that `t` owned it owned by `v`, then all that it owns it owns by `v'`. -/
theorem Turn.own {v v' : AuxVar w} (h : Turn cfg g g' t v v') (hown : ∀ k, g.Owns cfg t k ↔ g.tokenAt v = some k)
    (k : Token w) : g'.Owns cfg t k ↔ g'.tokenAt v' = some k := by
  rcases h k.var with ⟨hsame, hv, hv'⟩ | ⟨-, hof, hv'⟩
  · rw [hsame.owns t, hown]
    exact iff_of_false (fun hk => hv (tokenAt_var hk)) fun hk => hv' (tokenAt_var hk)
  · rw [hof.own]
    constructor
    · intro hk
      rcases hv' with hv' | hnone
      · rw [← hv']
        exact hk
      · rw [hnone] at hk
        cases hk
    · intro hk
      rw [tokenAt_var hk]
      exact hk

/-! The five changes are turns of the thread that makes them. -/

theorem Turn.of_one {v : AuxVar w} (hsame : ∀ u, u ≠ v → g.SameAt g' u) (h : g.OfAt cfg t v) (h' : g'.OfAt cfg t v) :
    Turn cfg g g' t v v := by
  intro u
  by_cases hu : u = v
  · subst hu
    exact .inr ⟨h, h', .inl rfl⟩
  · exact .inl ⟨hsame u hu, hu, hu⟩

theorem setPlace_self (g : Ghost T w) (e : Word w) (p : Place T w) : (g.setPlace e p).place e = p :=
  Function.update_self ..

theorem setLink_self (g : Ghost T w) (e : Word w) (l : Link T w) : (g.setLink e l).link e = l :=
  Function.update_self ..

theorem setFront_self (g : Ghost T w) (q : Word w) (f : Front T w) : (g.setFront q f).front q = f :=
  Function.update_self ..

theorem setPlace_turn (h1 : (g.place e).Of cfg t) (h2 : p.Of cfg t) :
    Turn cfg g (g.setPlace e p) t (.place e) (.place e) := by
  refine .of_one (fun u hu => ?_) (.inr h1) (.inr ?_)
  · cases u with
    | place e' => exact Function.update_of_ne (fun he => hu (congrArg _ he)) _ _
    | _ => rfl
  · rw [setPlace_self]
    exact h2

theorem setLink_same {u : AuxVar w} (hu : u ≠ .link e) : g.SameAt (g.setLink e l) u := by
  cases u with
  | link e' => exact Function.update_of_ne (fun he => hu (congrArg _ he)) _ _
  | _ => rfl

theorem setLink_turn (h1 : (g.link e).Of t) (h2 : l.Of t) : Turn cfg g (g.setLink e l) t (.link e) (.link e) := by
  refine .of_one (fun u => setLink_same) h1 ?_
  show ((g.setLink e l).link e).Of t
  rw [setLink_self]
  exact h2

theorem setFront_turn (h1 : (g.front q).Of (cfg.consumer q) t) (h2 : f.Of (cfg.consumer q) t) :
    Turn cfg g (g.setFront q f) t (.front q) (.front q) := by
  refine .of_one (fun u hu => ?_) h1 ?_
  · cases u with
    | front q' => exact Function.update_of_ne (fun hq => hu (congrArg _ hq)) _ _
    | _ => rfl
  · show ((g.setFront q f).front q).Of (cfg.consumer q) t
    rw [setFront_self]
    exact h2

/-- The thread that swaps the tail from null owns the head. -/
theorem append_turn_front (he : g.place e = .entering t .drained) (hlast : (g.chain q).getLast? = none)
    (hf : g.front q = .none) : Turn cfg g (g.append q e t) t (.place e) (.front q) := by
  intro u
  cases u with
  | place e' =>
    by_cases h : e' = e
    · subst h
      refine .inr ⟨.inr ?_, .inl ⟨q, Function.update_self ..⟩, .inr ?_⟩
      · rw [he]
        rfl
      · simp only [tokenAt, append, Function.update_self, Place.token]
    · exact .inl ⟨Function.update_of_ne h _ _, by simpa using h, by simp⟩
  | link p =>
    refine .inl ⟨?_, by simp, by simp⟩
    simp only [SameAt, append, hlast]
  | front q' =>
    by_cases h : q' = q
    · subst h
      refine .inr ⟨?_, ?_, .inl rfl⟩
      · simp only [OfAt, hf, Front.Of]
      · simp only [OfAt, append, hlast, Function.update_self, Front.Of]
    · refine .inl ⟨?_, by simp, by simpa using h⟩
      simp only [SameAt, append, hlast, Function.update_of_ne h]

/-- The thread that swaps the tail from another element owns that element's link. -/
theorem append_turn_link {a : Word w} (he : g.place e = .entering t .drained) (hlast : (g.chain q).getLast? = some a)
    (hn : g.link a = .none) : Turn cfg g (g.append q e t) t (.place e) (.link a) := by
  intro u
  cases u with
  | place e' =>
    by_cases h : e' = e
    · subst h
      refine .inr ⟨.inr ?_, .inl ⟨q, Function.update_self ..⟩, .inr ?_⟩
      · rw [he]
        rfl
      · simp only [tokenAt, append, Function.update_self, Place.token]
    · exact .inl ⟨Function.update_of_ne h _ _, by simpa using h, by simp⟩
  | link p =>
    by_cases h : p = a
    · subst h
      refine .inr ⟨?_, ?_, .inl rfl⟩
      · simp only [OfAt, hn, Link.Of]
      · simp only [OfAt, append, hlast, Function.update_self, Link.Of]
    · refine .inl ⟨?_, by simp, by simpa using h⟩
      simp only [SameAt, append, hlast, Function.update_of_ne h]
  | front q' =>
    refine .inl ⟨?_, by simp, by simp⟩
    simp only [SameAt, append, hlast]

/-- The consumer that detaches the front has the element in its hand. -/
theorem detach_turn (ht : t = cfg.consumer q) (he : g.place e = .queued q) (h1 : (g.front q).Of (cfg.consumer q) t)
    (h2 : f.Of (cfg.consumer q) t) (hf : f.token q = none) (h3 : (g.link e).Of t) :
    Turn cfg g (g.detach q e f) t (.front q) (.place e) := by
  intro u
  cases u with
  | place e' =>
    by_cases h : e' = e
    · subst h
      refine .inr ⟨.inl ⟨q, he⟩, .inr ?_, .inl rfl⟩
      simp only [detach, Function.update_self, Place.Of, ht]
    · exact .inl ⟨Function.update_of_ne h _ _, by simp, by simpa using h⟩
  | link p =>
    by_cases h : p = e
    · subst h
      refine .inr ⟨h3, ?_, .inr ?_⟩
      · simp only [OfAt, detach, Function.update_self, Link.Of]
      · simp only [tokenAt, detach, Function.update_self, Link.token]
    · exact .inl ⟨Function.update_of_ne h _ _, by simp, by simp⟩
  | front q' =>
    by_cases h : q' = q
    · subst h
      refine .inr ⟨h1, ?_, .inr ?_⟩
      · simp only [OfAt, detach, Function.update_self, h2]
      · simp only [tokenAt, detach, Function.update_self, hf]
    · exact .inl ⟨Function.update_of_ne h _ _, by simpa using h, by simp⟩

end Ghost

/-- A front that no producer has is its consumer's or nobody's. -/
theorem Front.of_consumer {a : T} (ht : t = a) (hs : ∀ x t', f ≠ .swapped x t') : f.Of a t := by
  cases f with
  | swapped x t' => exact absurd rfl (hs x t')
  | seen x | copied x | held x => exact ht
  | _ => trivial

theorem Link.of_not_swapped (hs : ∀ y t', l ≠ .swapped y t') : l.Of t := by
  cases l with
  | swapped y t' => exact absurd rfl (hs y t')
  | _ => trivial

theorem Link.token_none (hs : ∀ y t', l ≠ .swapped y t') : l.token e = Option.none := by
  cases l with
  | swapped y t' => exact absurd rfl (hs y t')
  | _ => rfl

/-! ## What other threads rely on stays -/

theorem Frame.setPlace (h1 : (g.place e).Of cfg t) (h2 : p.Of cfg t) (ha : Apart cfg c c' t) :
    Frame cfg g (g.setPlace e p) c c' t where
  own _ ht := (Ghost.setPlace_turn h1 h2).others ht
  queued p' q y t' _ _ hp := by
    have hne : p' ≠ e := by
      rintro rfl
      rw [hp] at h1
      exact h1
    exact (Function.update_of_ne hne _ _).trans hp
  front _ _ := ⟨id, fun _ h => h, fun _ h => h, fun _ h => h⟩
  link _ _ _ _ := ⟨fun _ h => h, id⟩
  ctl := ha

theorem Frame.setLink (h1 : (g.link e).Of t) (h2 : l.Of t) (h3 : ∀ y, g.link e = .seen y → l = .seen y)
    (h4 : l ≠ .none) (ha : Apart cfg c c' t) : Frame cfg g (g.setLink e l) c c' t where
  own _ ht := (Ghost.setLink_turn h1 h2).others ht
  queued _ _ _ _ _ _ hp := hp
  front _ _ := ⟨id, fun _ h => h, fun _ h => h, fun _ h => h⟩
  link q x _ _ := by
    by_cases hx : x = e
    · subst hx
      rw [Ghost.setLink_self]
      exact ⟨h3, fun _ => h4⟩
    · rw [show (g.setLink e l).link x = g.link x from Function.update_of_ne hx _ _]
      exact ⟨fun _ h => h, id⟩
  ctl := ha

/-- The front of a queue, changed by its consumer or by the thread that has swapped the tail. -/
theorem Frame.setFront (h1 : (g.front q).Of (cfg.consumer q) t) (h2 : f.Of (cfg.consumer q) t)
    (h : t = cfg.consumer q ∨ ∃ x, g.front q = .swapped x t ∧ f = .stored x t) (ha : Apart cfg c c' t) :
    Frame cfg g (g.setFront q f) c c' t where
  own _ ht := (Ghost.setFront_turn h1 h2).others ht
  queued _ _ _ _ _ _ hp := hp
  front q' hq' := by
    by_cases hq : q' = q
    · subst hq
      obtain ⟨x, hx, rfl⟩ := h.resolve_left hq'
      rw [Ghost.setFront_self, hx]
      exact ⟨fun _ => rfl, fun _ h => (nomatch h), fun _ h => (nomatch h), fun _ h => (nomatch h)⟩
    · rw [show (g.setFront q f).front q' = g.front q' from Function.update_of_ne hq _ _]
      exact ⟨id, fun _ h => h, fun _ h => h, fun _ h => h⟩
  link _ _ _ _ := ⟨fun _ h => h, id⟩
  ctl := ha

theorem Frame.append (h : GhostOk g o) (he : g.place e = .entering t .drained) (ha : Apart cfg c c' t) :
    Frame cfg g (g.append q e t) c c' t := by
  have hqueued : ∀ p q', g.place p = .queued q' → (g.append q e t).place p = .queued q' := by
    intro p q' hp
    have hne : p ≠ e := by
      rintro rfl
      rw [he] at hp
      cases hp
    exact (Function.update_of_ne hne _ _).trans hp
  refine ⟨fun t' ht => ?_, fun p q' _ _ _ _ => hqueued p q', fun q' _ => ?_, fun q' x _ _ => ?_, ha⟩
  · cases hlast : (g.chain q).getLast? with
    | none => exact (Ghost.append_turn_front he hlast (h.front_none hlast)).others ht
    | some a => exact (Ghost.append_turn_link he hlast (h.link_last hlast)).others ht
  · rcases h.append_front q e t q' with hf | ⟨hf, hf'⟩
    · rw [hf]
      exact ⟨id, fun _ h => h, fun _ h => h, fun _ h => h⟩
    · rw [hf, hf']
      exact ⟨fun _ => rfl, fun _ h => (nomatch h), fun _ h => (nomatch h), fun _ h => (nomatch h)⟩
  · rcases h.append_link q e t x with hl | ⟨hl, -⟩
    · rw [hl]
      exact ⟨fun _ h => h, id⟩
    · rw [hl]
      exact ⟨fun _ h => (nomatch h), fun h => absurd rfl h⟩

theorem Frame.detach (h : GhostOk g o) (ht : t = cfg.consumer q)
    (he : (g.front q).elt = some e) (h1 : (g.front q).Of (cfg.consumer q) t) (h2 : f.Of (cfg.consumer q) t)
    (hf : f.token q = none) (h3 : ∀ y t', g.link e ≠ .swapped y t') (ha : Apart cfg c c' t) :
    Frame cfg g (g.detach q e f) c c' t := by
  have he' := h.place_front he
  refine ⟨fun t' ht' => (Ghost.detach_turn ht he' h1 h2 hf (Link.of_not_swapped h3)).others ht',
    fun p q' y t' _ hl hp => ?_, fun q' hq' => ?_, fun q' x hq' hx => ?_, ha⟩
  · have hne : p ≠ e := by
      rintro rfl
      exact h3 y t' hl
    exact (Function.update_of_ne hne _ _).trans hp
  · have hne : q' ≠ q := by
      rintro rfl
      exact hq' ht
    rw [show (g.detach q e f).front q' = g.front q' from Function.update_of_ne hne _ _]
    exact ⟨id, fun _ h => h, fun _ h => h, fun _ h => h⟩
  · -- an element of another queue
    have hx' := h.place_front (q := q') (e := x) (by rcases hx with hx | hx <;> rw [hx] <;> rfl)
    have hne : x ≠ e := by
      rintro rfl
      rw [he'] at hx'
      cases hx'
      exact hq' ht
    rw [show (g.detach q e f).link x = g.link x from Function.update_of_ne hne _ _]
    exact ⟨fun _ h => h, id⟩

/-! Together: a thread that changes the auxiliary state keeps the protocol when its new control point
owns what the change gives it. -/

section

variable (h : CtlOk cfg c g) (ha : Apart cfg c c' t)

include h ha

theorem CtlOk.setPlace (htok : (c.pc t).token = (g.place e).token e) (h1 : (g.place e).Of cfg t) (h2 : p.Of cfg t)
    (htok' : (c'.pc t).token = p.token e) (hp : PcOk cfg (g.setPlace e p) c' t (c'.pc t))
    (hpos : p ≠ .out → e ≠ 0#w) (ho : ∀ e', e' ≠ e → c'.owner e' = c.owner e')
    (he : p = .out ↔ c'.owner e ≠ .busy) (hready : ∀ q, c'.ready q = true → c.ready q = true)
    (hcopied : c'.copied = c.copied) : CtlOk cfg c' (g.setPlace e p) := by
  refine h.move (.setPlace h1 h2 ha) (fun k => ?_) hp (h.ghost.setPlace ?_ ?_ hpos ho he)
    (fun q hq => h.ready q (hready q hq)) (fun q x hx => hcopied ▸ h.copied q x hx)
  · rw [htok', (Ghost.setPlace_turn h1 h2).own (fun k => by rw [h.token, htok]; rfl) k, Ghost.tokenAt,
      Ghost.setPlace_self]
  · intro q hq; rw [hq] at h1; exact h1
  · rintro q rfl; exact h2

/-- The next stage of an enqueue before its tail swap. -/
theorem CtlOk.nextStage {st st' : Stage} (htok : (c.pc t).token = some (.entering e st))
    (htok' : (c'.pc t).token = some (.entering e st')) (hp : PcOk cfg (g.setPlace e (.entering t st')) c' t (c'.pc t))
    (ho : c'.owner = c.owner) (hready : c'.ready = c.ready) (hcopied : c'.copied = c.copied) :
    CtlOk cfg c' (g.setPlace e (.entering t st')) := by
  have he : g.place e = .entering t st := (h.token t (.entering e st)).2 htok
  refine h.setPlace ha ?_ ?_ rfl htok' hp (fun _ => h.pos e (by simp [he])) (fun _ _ => by rw [ho]) ?_
    (fun q hq => hready ▸ hq) hcopied
  · rw [htok, he]
    rfl
  · rw [he]
    rfl
  · have hbusy := (h.owner e).not
    simpa [he, ho] using hbusy

/-- The thread whose tail swap returned `e` links its own element to it. -/
theorem CtlOk.storeLink {y : Word w} (hq : g.place e = .queued q) (htok : (c.pc t).token = some (.link e y))
    (htok' : (c'.pc t).token = none) (hp : PcOk cfg (g.setLink e (.stored y t)) c' t (c'.pc t))
    (ho : c'.owner = c.owner) (hready : c'.ready = c.ready) (hcopied : c'.copied = c.copied) :
    CtlOk cfg c' (g.setLink e (.stored y t)) := by
  have hl : g.link e = .swapped y t := (h.token t (.link e y)).2 htok
  have hof : (g.link e).Of t := by
    rw [hl]
    rfl
  have hof' : (Link.stored y t).Of t := trivial
  refine h.move (.setLink hof hof' ?_ (by simp) ha) (fun k => ?_) hp (ho ▸ h.ghost.setLink hq (by rw [hl]; rfl))
    (fun q hq => h.ready q (hready ▸ hq)) (fun q x hx => hcopied ▸ h.copied q x hx)
  · intro y' hy
    rw [hl] at hy
    cases hy
  · have hown : ∀ k, g.Owns cfg t k ↔ g.tokenAt (.link e) = some k := by
      intro k
      rw [h.token, htok, Ghost.tokenAt, hl]
      rfl
    rw [htok', (Ghost.setLink_turn hof hof').own hown k, Ghost.tokenAt, Ghost.setLink_self]
    rfl

/-- The consumer sees a link that has been stored. -/
theorem CtlOk.seeLink {y : Word w} (hq : g.place e = .queued q)
    (hl : (∃ t, g.link e = .stored y t) ∨ g.link e = .seen y) (htok : (c'.pc t).token = (c.pc t).token)
    (hp : PcOk cfg (g.setLink e (.seen y)) c' t (c'.pc t))
    (ho : c'.owner = c.owner) (hready : c'.ready = c.ready) (hcopied : c'.copied = c.copied) :
    CtlOk cfg c' (g.setLink e (.seen y)) := by
  have hns : ∀ y' t', g.link e ≠ .swapped y' t' := by
    rcases hl with ⟨t', hl⟩ | hl <;> rw [hl] <;> simp
  have hof : (g.link e).Of t := Link.of_not_swapped hns
  have hof' : (Link.seen (T := T) y).Of t := trivial
  refine h.move (.setLink hof hof' ?_ (by simp) ha) (fun k => ?_) hp
    (ho ▸ h.ghost.setLink hq ?_) (fun q hq => h.ready q (hready ▸ hq)) (fun q x hx => hcopied ▸ h.copied q x hx)
  · intro y' hy
    rcases hl with ⟨t', hl⟩ | hl <;> rw [hl] at hy
    · cases hy
    · exact hy
  · rw [htok, ← h.token t k]
    by_cases hk : k.var = .link e
    · -- nobody owns the link, before and after
      have hown : g.OfAt cfg t k.var := by
        rw [hk]
        exact hof
      have hown' : (g.setLink e (.seen y)).OfAt cfg t k.var := by
        rw [hk, Ghost.OfAt, Ghost.setLink_self]
        exact hof'
      rw [hown.own, hown'.own, hk, Ghost.tokenAt, Ghost.tokenAt, Ghost.setLink_self, Link.token_none hns]
      rfl
    · exact (Ghost.setLink_same hk).owns t
  · rcases hl with ⟨t', hl⟩ | hl
    · rw [hl]; rfl
    · rw [hl]

theorem CtlOk.setFront (htok : (c.pc t).token = (g.front q).token q)
    (hf : (t = cfg.consumer q ∧ (∀ x t', g.front q ≠ .swapped x t') ∧ ∀ x t', f ≠ .swapped x t') ∨
      ∃ x, g.front q = .swapped x t ∧ f = .stored x t)
    (he : f.elt = (g.front q).elt) (htok' : (c'.pc t).token = f.token q)
    (hp : PcOk cfg (g.setFront q f) c' t (c'.pc t)) (ho : c'.owner = c.owner)
    (hready : (c'.ready q = true → ∃ x, f = .taken x) ∧ ∀ q', q' ≠ q → c'.ready q' = c.ready q')
    (hcopied : (∀ x, f = .copied x → c'.copied q = x) ∧ ∀ q', q' ≠ q → c'.copied q' = c.copied q') :
    CtlOk cfg c' (g.setFront q f) := by
  obtain ⟨hof, hof'⟩ : (g.front q).Of (cfg.consumer q) t ∧ f.Of (cfg.consumer q) t := by
    rcases hf with ⟨ht, hs, hs'⟩ | ⟨x, hx, rfl⟩
    · exact ⟨Front.of_consumer ht hs, Front.of_consumer ht hs'⟩
    · rw [hx]
      exact ⟨rfl, trivial⟩
  refine h.move (.setFront hof hof' (hf.imp_left And.left) ha) (fun k => ?_) hp (ho ▸ h.ghost.setFront he)
    (fun q' hq' => ?_) (fun q' x hx => ?_)
  · rw [htok', (Ghost.setFront_turn hof hof').own (fun k => by rw [h.token, htok]; rfl) k, Ghost.tokenAt,
      Ghost.setFront_self]
  · simp only [Ghost.setFront, Function.update_apply]
    split
    · rename_i hq; subst hq; exact hready.1 hq'
    · rename_i hq; exact h.ready q' (hready.2 q' hq ▸ hq')
  · simp only [Ghost.setFront, Function.update_apply] at hx
    split at hx
    · rename_i hq; subst hq; exact hcopied.1 x hx
    · rename_i hq; rw [hcopied.2 q' hq]; exact h.copied q' x hx

theorem CtlOk.append (htok : (c.pc t).token = some (.entering e .drained))
    (htok' : (c'.pc t).token = match (g.chain q).getLast? with
      | some p => some (.link p e)
      | none => some (.head q e))
    (hp : PcOk cfg (g.append q e t) c' t (c'.pc t)) (ho : c'.owner = c.owner)
    (hready : c'.ready = c.ready) (hcopied : c'.copied = c.copied) : CtlOk cfg c' (g.append q e t) := by
  have he : g.place e = .entering t .drained := (h.token t (.entering e .drained)).2 htok
  refine h.move (.append h.ghost he ha) (fun k => ?_) hp (ho ▸ h.ghost.append he) (fun q' hq' => ?_) (fun q' x hx => ?_)
  · have hown : ∀ k, g.Owns cfg t k ↔ g.tokenAt (.place e) = some k := by
      intro k
      rw [h.token, htok, Ghost.tokenAt, he]
      rfl
    rw [htok']
    cases hlast : (g.chain q).getLast? with
    | none =>
      rw [(Ghost.append_turn_front he hlast (h.ghost.front_none hlast)).own hown k]
      simp only [Ghost.tokenAt, Ghost.append, hlast, Function.update_self, Front.token]
    | some a =>
      rw [(Ghost.append_turn_link he hlast (h.ghost.link_last hlast)).own hown k]
      simp only [Ghost.tokenAt, Ghost.append, hlast, Function.update_self, Link.token]
  · obtain ⟨x, hx⟩ := h.ready q' (hready ▸ hq')
    rcases h.ghost.append_front q e t q' with hf | ⟨hf, -⟩
    · exact ⟨x, hf.trans hx⟩
    · rw [hf] at hx
      cases hx
  · rw [hcopied]
    apply h.copied q' x
    rcases h.ghost.append_front q e t q' with hf | ⟨-, hf⟩
    · exact hf.symm.trans hx
    · rw [hf] at hx
      cases hx

theorem CtlOk.detach (htc : t = cfg.consumer q) (htok : (c.pc t).token = (g.front q).token q)
    (he : (g.front q).elt = some e) (h1 : ∀ x t', g.front q ≠ .swapped x t') (hf : f.elt = (g.link e).target)
    (h2 : f = .none ∧ c.ready q = false ∨ ∃ x, f = .taken x) (h3 : ∀ y t', g.link e ≠ .swapped y t')
    (htok' : (c'.pc t).token = some (.leaving q e false)) (hp : PcOk cfg (g.detach q e f) c' t (c'.pc t))
    (ho : c'.owner = c.owner) (hready : c'.ready = c.ready) (hcopied : c'.copied = c.copied) :
    CtlOk cfg c' (g.detach q e f) := by
  have hq := h.ghost.place_front he
  have h2' : ∀ x t', f ≠ .swapped x t' := by rintro x t' rfl; simp at h2
  have hof := Front.of_consumer htc h1
  have hof' := Front.of_consumer htc h2'
  have hnone : f.token q = none := by
    rcases h2 with ⟨rfl, -⟩ | ⟨x, rfl⟩ <;> rfl
  refine h.move (.detach h.ghost htc he hof hof' hnone h3 ha) (fun k => ?_) hp (ho ▸ h.ghost.detach he hf)
    (fun q' hq' => ?_) (fun q' x hx => ?_)
  · have hown : ∀ k, g.Owns cfg t k ↔ g.tokenAt (.front q) = some k := by
      intro k
      rw [h.token, htok]
      rfl
    rw [htok', (Ghost.detach_turn htc hq hof hof' hnone (Link.of_not_swapped h3)).own hown k]
    simp only [Ghost.tokenAt, Ghost.detach, Function.update_self, Place.token]
  · rw [hready] at hq'
    by_cases hqq : q' = q
    · subst hqq
      rcases h2 with ⟨-, hr⟩ | ⟨x, hx⟩
      · rw [hr] at hq'
        cases hq'
      · exact ⟨x, (Function.update_self ..).trans hx⟩
    · obtain ⟨x, hx⟩ := h.ready q' hq'
      exact ⟨x, (Function.update_of_ne hqq _ _).trans hx⟩
  · rw [hcopied]
    refine h.copied q' x ?_
    by_cases hqq : q' = q
    · subst hqq
      rw [show (g.detach q' e f).front q' = f from Function.update_self ..] at hx
      rcases h2 with ⟨rfl, -⟩ | ⟨y, rfl⟩ <;> cases hx
    · exact (Function.update_of_ne hqq _ _).symm.trans hx

end

end

end OpenPA.Queue
