/-
Who writes a cell: at which control points of the code a thread stores to `head`, to `shadow_head` or to the
`next` of an element, and what it stores there. The case analysis over the whole code is `cell_writer`; what
the protocol says of a write starts from it.
-/
import OpenPA.Queue.Rebase

namespace OpenPA.Queue

open OpenPA.Machine

variable {w : Nat} {T : Type} {cfg : Config T w} {c : Ctl T w} {t : T}

/-- A write to `head` of the queue at `q`: where the thread is, and what it writes. -/
inductive HeadWrite (cfg : Config T w) (c : Ctl T w) (t : T) (q : Word w) : Access (Cell w) (Word w) Tag → Prop where
  | storeHead {e r : Word w} (hp : c.pc t = .enqueue (.storeHead (cfg.base t + q) e r)) :
    HeadWrite cfg c t q (.store ⟨.head, q⟩ r ⟨232, c.issued t, c.life q⟩)
  | resetHead (hp : c.pc t = .isEmpty (.resetHead (cfg.base t + q))) :
    HeadWrite cfg c t q (.store ⟨.head, q⟩ shmRelNull ⟨175, c.issued t, c.life q⟩)

/-- A write to `shadow_head` of the queue at `q`. -/
inductive ShadowWrite (cfg : Config T w) (c : Ctl T w) (t : T) (q : Word w) : Access (Cell w) (Word w) Tag → Prop where
  | copy {h : Word w} (hp : c.pc t = .isEmpty (.storeShadow (cfg.base t + q) h)) :
    ShadowWrite cfg c t q (.store ⟨.shadowHead, q⟩ h ⟨174, c.issued t, c.life q⟩)
  | advance {r e n : Word w} (hp : c.pc t = .dequeue (.storeShadow (cfg.base t + q) r e n)) :
    ShadowWrite cfg c t q (.store ⟨.shadowHead, q⟩ n ⟨265, c.issued t, c.life q⟩)
  | reset {r e : Word w} (hp : c.pc t = .dequeue (.resetShadow (cfg.base t + q) r e)) :
    ShadowWrite cfg c t q (.store ⟨.shadowHead, q⟩ shmRelNull ⟨270, c.issued t, c.life q⟩)
  | advanceLate {r e n : Word w} (hp : c.pc t = .dequeue (.storeLateShadow (cfg.base t + q) r e n)) :
    ShadowWrite cfg c t q (.store ⟨.shadowHead, q⟩ n ⟨278, c.issued t, c.life q⟩)

/-- A write to `next` of the element at `e`. -/
inductive NextWrite (cfg : Config T w) (c : Ctl T w) (t : T) (e : Word w) : Access (Cell w) (Word w) Tag → Prop where
  | setNextNull {q r : Word w} (hp : c.pc t = .enqueue (.setNextNull q (cfg.base t + e) r)) :
    NextWrite cfg c t e (.store ⟨.next, e⟩ shmRelNull ⟨225, c.issued t, c.life e⟩)
  | storeLink {q y r : Word w} (hp : c.pc t = .enqueue (.storeLink q y r (cfg.base t + e))) :
    NextWrite cfg c t e (.store ⟨.next, e⟩ r ⟨236, c.issued t, c.life e⟩)
  | clearNext {q : Word w} (hp : c.pc t = .dequeue (.clearNext q (cfg.base t + e))) :
    NextWrite cfg c t e (.store ⟨.next, e⟩ shmRelNull ⟨281, c.issued t, c.life e⟩)
  | reuse {v : Word w} (hp : c.pc t = .client (.reuse (cfg.base t + e) v)) :
    NextWrite cfg c t e (.store ⟨.next, e⟩ v ⟨0, c.issued t, c.life e⟩)

/-- What a write to a cell other than a tail or a payload is. -/
def CellWrite (cfg : Config T w) (c : Ctl T w) (t : T) (x : Access (Cell w) (Word w) Tag) (l : Cell w) : Prop :=
  match l.field with
  | .head => HeadWrite cfg c t l.off x
  | .shadowHead => ShadowWrite cfg c t l.off x
  | .next => NextWrite cfg c t l.off x
  | .tail | .payload _ => True

variable [DecidableEq T]

theorem queueProgram_access (c : Ctl T w) (t : T) {x : Access (Cell w) (Word w) Tag}
    (h : (queueProgram cfg).access c t = some x) : ∃ s, (c.pc t).code cfg t = some s ∧
      x = s.access.retag fun l line => ⟨line, c.issued t, c.life l.off⟩ := by
  obtain ⟨s, hs, rfl⟩ := Option.map_eq_some_iff.1 h
  exact ⟨s, hs, rfl⟩

/-- The writers of a cell, over the whole code. -/
theorem cell_writer {x : Access (Cell w) (Word w) Tag} {l : Cell w} (hx : (queueProgram cfg).access c t = some x)
    (hl : x.written? = some l) : CellWrite cfg c t x l := by
  obtain ⟨s, hs, rfl⟩ := queueProgram_access c t hx
  have hadd : ∀ f a, cfg.base t + (cellAt (cfg.base t) f a).off = a := fun _ a => add_shmAbsToRel (cfg.base t) a
  -- one case per control point; the statement there gives the cell
  cases hct : c.pc t with
  | idle =>
    rw [hct] at hs
    cases hs
  | enqueue p =>
    rw [hct] at hs
    cases hs
    cases p with
    | setNextNull q e r =>
      cases hl
      exact .setNextNull (by rw [hct, hadd])
    | swapTail q e r =>
      cases hl
      exact trivial
    | storeHead q e r =>
      cases hl
      exact .storeHead (by rw [hct, hadd])
    | storeLink q e r p =>
      cases hl
      exact .storeLink (by rw [hct, hadd])
    | _ => cases hl
  | isEmpty p =>
    rw [hct] at hs
    cases hs
    cases p with
    | storeShadow q h =>
      cases hl
      exact .copy (by rw [hct, hadd])
    | resetHead q =>
      cases hl
      exact .resetHead (by rw [hct, hadd])
    | _ => cases hl
  | peekHead p =>
    rw [hct] at hs
    cases hs
    cases p <;> cases hl
  | dequeue p =>
    rw [hct] at hs
    cases hs
    cases p with
    | storeShadow q r e n =>
      cases hl
      exact .advance (by rw [hct, hadd])
    | resetShadow q r e =>
      cases hl
      exact .reset (by rw [hct, hadd])
    | casTail q r e =>
      cases hl
      exact trivial
    | storeLateShadow q r e n =>
      cases hl
      exact .advanceLate (by rw [hct, hadd])
    | clearNext q e =>
      cases hl
      exact .clearNext (by rw [hct, hadd])
    | _ => cases hl
  | client p =>
    rw [hct] at hs
    cases hs
    cases p with
    | write e k v =>
      cases hl
      exact trivial
    | reuse e v =>
      cases hl
      exact .reuse (by rw [hct, hadd])
    | _ => cases hl

theorem HeadWrite.of_access {x : Access (Cell w) (Word w) Tag} {q : Word w}
    (hx : (queueProgram cfg).access c t = some x) (hl : x.written? = some ⟨.head, q⟩) : HeadWrite cfg c t q x :=
  cell_writer hx hl

theorem ShadowWrite.of_access {x : Access (Cell w) (Word w) Tag} {q : Word w}
    (hx : (queueProgram cfg).access c t = some x) (hl : x.written? = some ⟨.shadowHead, q⟩) : ShadowWrite cfg c t q x :=
  cell_writer hx hl

theorem NextWrite.of_access {x : Access (Cell w) (Word w) Tag} {e : Word w}
    (hx : (queueProgram cfg).access c t = some x) (hl : x.written? = some ⟨.next, e⟩) : NextWrite cfg c t e x :=
  cell_writer hx hl

end OpenPA.Queue
