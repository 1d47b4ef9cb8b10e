/-
Lists laid out by a successor map: `Path f l` says that `f` leads from each member of `l` to the next
and from the last one nowhere. What appending to the end, dropping the front and changing `f` off the
list do to it.
-/
import Mathlib.Data.List.Nodup
import Mathlib.Logic.Function.Basic

namespace OpenPA.Machine

variable {α : Type}

/-- `f` leads from each member of the list to the next one, and from the last one nowhere. -/
def Path (f : α → Option α) : List α → Prop
  | [] => True
  | a :: l => f a = l.head? ∧ Path f l

namespace Path

variable {f g : α → Option α} {a b : α} {l : List α}

@[simp] theorem nil : Path f [] := trivial

@[simp] theorem cons_iff : Path f (a :: l) ↔ f a = l.head? ∧ Path f l := Iff.rfl

/-- Only the members' successors matter. -/
theorem congr : ∀ {l : List α}, Path f l → (∀ a ∈ l, g a = f a) → Path g l
  | [], _, _ => trivial
  | a :: _, h, hfg => ⟨(hfg a (List.mem_cons_self ..)).trans h.1, congr h.2 fun b hb => hfg b (List.mem_cons_of_mem _ hb)⟩

/-- The successor of a member is a member. -/
theorem succ_mem : ∀ {l : List α}, Path f l → a ∈ l → f a = some b → b ∈ l
  | c :: l, h, ha, hab => by
    rcases List.mem_cons.1 ha with rfl | ha
    · rw [h.1] at hab
      exact List.mem_cons_of_mem _ (List.mem_of_mem_head? hab)
    · exact List.mem_cons_of_mem _ (succ_mem h.2 ha hab)

/-- The last member has no successor. -/
theorem getLast : ∀ {l : List α}, Path f l → l.getLast? = some a → f a = none
  | [c], h, hl => by simp at hl; subst hl; exact h.1
  | c :: d :: l, h, hl => getLast (l := d :: l) h.2 (by simpa using hl)

/-- A member without a successor is the last one. -/
theorem eq_getLast : ∀ {l : List α}, Path f l → a ∈ l → f a = none → l.getLast? = some a
  | c :: l, h, ha, hn => by
    rcases List.mem_cons.1 ha with rfl | ha
    · rw [h.1, List.head?_eq_none_iff] at hn
      subst hn; rfl
    · have := eq_getLast h.2 ha hn
      cases l with
      | nil => cases ha
      | cons d l => simpa using this

/-- The second member is the successor of the first. -/
theorem second (h : Path f (a :: l)) (hab : f a = some b) : ∃ l', l = b :: l' := by
  rw [h.1] at hab
  cases l with
  | nil => cases hab
  | cons c l => cases hab; exact ⟨l, rfl⟩

/-- Appending a new member: the old last one now leads to it. -/
theorem snoc [DecidableEq α] : ∀ {l : List α}, Path f l → l.Nodup → b ∉ l → f b = none → l.getLast? = some a →
    Path (Function.update f a (some b)) (l ++ [b])
  | [c], h, _, hb, hn, hl => by
    simp only [List.getLast?_singleton, Option.some.injEq] at hl
    subst hl
    have hbc : b ≠ c := fun e => hb (by simp [e])
    simp [hbc, hn]
  | c :: d :: l, h, hd, hb, hn, hl => by
    have hl' : (d :: l).getLast? = some a := by simpa using hl
    have ha : a ∈ d :: l := List.mem_of_getLast? hl'
    have hca : c ≠ a := by rintro rfl; exact (List.nodup_cons.1 hd).1 ha
    refine ⟨?_, snoc h.2 (List.nodup_cons.1 hd).2 (fun hm => hb (List.mem_cons_of_mem _ hm)) hn hl'⟩
    rw [Function.update_of_ne hca, h.1]; rfl

end Path

end OpenPA.Machine
