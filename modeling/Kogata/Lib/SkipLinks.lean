import Mathlib.Data.List.Find
import Mathlib.Order.Basic
import Mathlib.Tactic.Common

/-!
# Sorted lists with links to the next greater key

A list is in the order of its keys, and each cell has a link to the first cell behind it whose key
is strictly greater. `seek_eq` says that a search along the links finds what a search through the
whole list would find; `Skips.unlink` and `Skips.insert` say how the links are kept when a cell
leaves the list and when one comes in front of those with its key.
-/

namespace Lib.SkipLinks

variable {α κ : Type} [LinearOrder κ] {key : α → κ} {link link' : α → Option α} {k : κ} {a d : α}
  {l pre post : List α}

/-- The cells are in the order of their keys. -/
def Sorted (key : α → κ) (l : List α) : Prop :=
  l.Pairwise fun a b => key a ≤ key b

/-- The first cell with a greater key. -/
def firstAbove (key : α → κ) (k : κ) (l : List α) : Option α :=
  l.find? fun a => k < key a

/-- The first cell whose key is at least `k`. -/
def firstFrom (key : α → κ) (k : κ) (l : List α) : Option α :=
  l.find? fun a => k ≤ key a

/-- Each link leads to the first cell behind with a greater key. -/
def Skips (key : α → κ) (link : α → Option α) : List α → Prop
  | [] => True
  | a :: l => link a = firstAbove key (key a) l ∧ Skips key link l

/-- Follow the links to a cell whose key is at least `k`; `none` if that takes more than `n`
steps. -/
def seek (key : α → κ) (link : α → Option α) (k : κ) : Nat → Option α → Option (Option α)
  | _, none => some none
  | 0, some _ => none
  | n + 1, some a => if k ≤ key a then some (some a) else seek key link k n (link a)

theorem first_above_cons : firstAbove key k (a :: l) =
    if k < key a then some a else firstAbove key k l := by
  unfold firstAbove
  by_cases h : k < key a
  · rw [List.find?_cons_of_pos (by simpa using h), if_pos h]
  · rw [List.find?_cons_of_neg (by simpa using h), if_neg h]

theorem first_from_cons : firstFrom key k (a :: l) =
    if k ≤ key a then some a else firstFrom key k l := by
  unfold firstFrom
  by_cases h : k ≤ key a
  · rw [List.find?_cons_of_pos (by simpa using h), if_pos h]
  · rw [List.find?_cons_of_neg (by simpa using h), if_neg h]

/-- A cell found is in the list, and its key is greater. -/
theorem first_above_some (h : firstAbove key k l = some a) : a ∈ l ∧ k < key a :=
  ⟨List.mem_of_find?_eq_some h, by simpa using List.find?_some h⟩

theorem first_from_some (h : firstFrom key k l = some a) : a ∈ l ∧ k ≤ key a :=
  ⟨List.mem_of_find?_eq_some h, by simpa using List.find?_some h⟩

theorem first_from_none : firstFrom key k l = none ↔ ∀ a ∈ l, key a < k := by
  unfold firstFrom
  simp

/-- The first cell whose key is at least `k` has the smallest such key. -/
theorem first_from_least (hs : Sorted key l) (h : firstFrom key k l = some a) :
    ∀ b ∈ l, k ≤ key b → key a ≤ key b := by
  induction l with
  | nil => cases h
  | cons c l ih =>
      obtain ⟨hc, hl⟩ := List.pairwise_cons.mp hs
      rw [first_from_cons] at h
      intro b hb hk
      split at h
      · obtain rfl := Option.some.inj h
        rcases List.mem_cons.mp hb with rfl | hb
        · exact le_rfl
        · exact hc b hb
      · next hsmall =>
          rcases List.mem_cons.mp hb with rfl | hb
          · exact absurd hk hsmall
          · exact ih hl h b hb hk

/-- A greater key is first found where the smaller ones end. -/
theorem first_above_split (key : α → κ) (k : κ) (l : List α) :
    ∃ pre post, l = pre ++ post ∧ (∀ a ∈ pre, key a ≤ k) ∧ firstAbove key k l = post.head? := by
  induction l with
  | nil => exact ⟨[], [], rfl, by simp, rfl⟩
  | cons a l ih =>
      rw [first_above_cons]
      split
      · exact ⟨[], a :: l, rfl, by simp, rfl⟩
      · next h =>
          obtain ⟨pre, post, rfl, hpre, hfirst⟩ := ih
          refine ⟨a :: pre, post, rfl, fun b hb => ?_, hfirst⟩
          rcases List.mem_cons.mp hb with rfl | hb
          · exact not_lt.mp h
          · exact hpre b hb

theorem first_from_append (h : ∀ a ∈ pre, key a < k) :
    firstFrom key k (pre ++ post) = firstFrom key k post := by
  induction pre with
  | nil => rfl
  | cons a pre ih =>
      rw [List.cons_append, first_from_cons, if_neg (not_le.mpr (h a List.mem_cons_self))]
      exact ih fun b hb => h b (List.mem_cons_of_mem a hb)

theorem first_above_append : firstAbove key k (pre ++ post) =
    (firstAbove key k pre).or (firstAbove key k post) := List.find?_append

/-- In a sorted list whose keys are all greater it is the first cell. -/
theorem first_above_head (h : ∀ a ∈ l, k < key a) : firstAbove key k l = l.head? := by
  cases l with
  | nil => rfl
  | cons a l => rw [first_above_cons, if_pos (h a List.mem_cons_self), List.head?_cons]

theorem Skips.suffix (h : Skips key link (pre ++ post)) : Skips key link post := by
  induction pre with
  | nil => exact h
  | cons a pre ih => exact ih h.2

theorem Skips.congr (h : Skips key link l) (heq : ∀ a ∈ l, link' a = link a) :
    Skips key link' l := by
  induction l with
  | nil => trivial
  | cons a l ih =>
      exact ⟨(heq a List.mem_cons_self).trans h.1,
        ih h.2 fun b hb => heq b (List.mem_cons_of_mem a hb)⟩

theorem Skips.congr_key (h : Skips key link l) {key' : α → κ} (heq : ∀ a ∈ l, key' a = key a) :
    Skips key' link l := by
  induction l with
  | nil => trivial
  | cons a l ih =>
      have hrest := fun b hb => heq b (List.mem_cons_of_mem a hb)
      refine ⟨h.1.trans ?_, ih h.2 hrest⟩
      unfold firstAbove
      rw [heq a List.mem_cons_self]
      refine List.find?_congr fun b hb => ?_
      rw [hrest b hb]

/-- The search along the links finds what a search through the list does. -/
theorem seek_eq (hs : Sorted key l) (h : Skips key link l) {n : Nat} (hn : l.length ≤ n) :
    seek key link k n l.head? = some (firstFrom key k l) := by
  induction n generalizing l with
  | zero =>
      obtain rfl := List.length_eq_zero_iff.mp (Nat.le_zero.mp hn)
      rfl
  | succ n ih =>
      cases l with
      | nil => rfl
      | cons a l =>
          rw [List.head?_cons, seek, first_from_cons]
          split
          · rfl
          · next hsmall =>
              obtain ⟨pre, post, rfl, hpre, hfirst⟩ := first_above_split key (key a) l
              have hrest : Sorted key post :=
                (List.pairwise_append.mp (List.pairwise_cons.mp hs).2).2.1
              have hlength : post.length ≤ n := by
                simp only [List.length_cons, List.length_append] at hn
                omega
              rw [h.1, hfirst, ih hrest h.2.suffix hlength,
                first_from_append fun b hb => (hpre b hb).trans_lt (not_le.mp hsmall)]

/-- A cell leaves the list: the links to it go to the cell behind it. -/
theorem Skips.unlink [DecidableEq α] (h : Skips key link (pre ++ d :: post))
    (hs : Sorted key (pre ++ d :: post)) (hnodup : (pre ++ d :: post).Nodup)
    (hpre : ∀ a ∈ pre, link' a = if link a = some d then post.head? else link a)
    (hpost : ∀ a ∈ post, link' a = link a) : Skips key link' (pre ++ post) := by
  induction pre with
  | nil => exact h.2.congr hpost
  | cons a pre ih =>
      have hs' := List.pairwise_cons.mp hs
      have hnodup' := List.nodup_cons.mp hnodup
      rw [List.cons_append]
      refine ⟨?_, ih h.2 hs'.2 hnodup'.2 fun b hb => hpre b (List.mem_cons_of_mem a hb)⟩
      have hsplit := List.nodup_append.mp hnodup'.2
      have hlink : link a = firstAbove key (key a) (pre ++ d :: post) := h.1
      rw [first_above_append, first_above_cons] at hlink
      rw [hpre a List.mem_cons_self, first_above_append, hlink]
      cases hfirst : firstAbove key (key a) pre with
      | some b =>
          have hbd : b ≠ d := fun heq =>
            hsplit.2.2 b (first_above_some hfirst).1 d List.mem_cons_self heq
          simp [hbd]
      | none =>
          simp only [Option.none_or]
          split
          · next hlt =>
              -- all keys behind the cell are as great as its own
              rw [if_pos rfl, first_above_head fun b hb => lt_of_lt_of_le hlt ?_]
              exact (List.pairwise_cons.mp (List.pairwise_append.mp hs'.2).2.1).1 b hb
          · refine if_neg fun heq => ?_
            exact (List.nodup_cons.mp hsplit.2.1).1 (first_above_some heq).1

/-- The link of a cell in front of those with at least its key. -/
def linkBefore (key : α → κ) (link : α → Option α) (k : κ) (next : Option α) : Option α :=
  next.bind fun n => if k < key n then some n else link n

theorem link_before_eq (h : Skips key link post) (hpost : ∀ b ∈ post, k ≤ key b) :
    linkBefore key link k post.head? = firstAbove key k post := by
  cases post with
  | nil => rfl
  | cons n rest =>
      show (if k < key n then some n else link n) = _
      rw [first_above_cons]
      split
      · rfl
      · next hle =>
          rw [h.1, le_antisymm (not_lt.mp hle) (hpost n List.mem_cons_self)]

/-- A cell comes in front of those with at least its key: the links over its place go to it. -/
theorem Skips.insert (h : Skips key link (pre ++ post)) (hbelow : ∀ a ∈ pre, key a < key d)
    (habove : ∀ b ∈ post, key d ≤ key b)
    (hpre : ∀ a ∈ pre, link' a =
      if (link a).all (fun b => key d ≤ key b) then some d else link a)
    (hself : link' d = linkBefore key link (key d) post.head?)
    (hpost : ∀ a ∈ post, link' a = link a) : Skips key link' (pre ++ d :: post) := by
  induction pre with
  | nil => exact ⟨hself.trans (link_before_eq h habove), Skips.congr h hpost⟩
  | cons a pre ih =>
      rw [List.cons_append]
      refine ⟨?_, ih h.2 (fun b hb => hbelow b (List.mem_cons_of_mem a hb))
        fun b hb => hpre b (List.mem_cons_of_mem a hb)⟩
      have hlink : link a = firstAbove key (key a) (pre ++ post) := h.1
      rw [first_above_append] at hlink
      rw [hpre a List.mem_cons_self, first_above_append, first_above_cons,
        if_pos (hbelow a List.mem_cons_self), hlink]
      cases hfirst : firstAbove key (key a) pre with
      | some b =>
          have hlt := hbelow b (List.mem_cons_of_mem a (first_above_some hfirst).1)
          simp [not_le.mpr hlt]
      | none =>
          simp only [Option.none_or]
          refine if_pos ?_
          cases hafter : firstAbove key (key a) post with
          | none => rfl
          | some b => simpa using habove b (first_above_some hafter).1

end Lib.SkipLinks
