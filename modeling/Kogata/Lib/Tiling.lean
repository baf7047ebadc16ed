import Mathlib.Data.Set.Basic
import Mathlib.Order.Basic

/-!
# Tilings

A list of tiles covers each point of a set once and no other point. A tiling stays one when each
tile is replaced by a tiling of a part of it. The cells between the values of two sorted lists
tile the plane between the least values and the greatest.
-/

namespace Lib.Tiling

section Count

variable {α β : Type*} {l : List α} {f : α → List β} {p : β → Bool} {q : α → Bool} {c : Nat}

/-- Where each member adds either nothing or the same number, the members that add are counted. -/
theorem count_flatMap (h : ∀ a ∈ l, (f a).countP p = if q a then c else 0) :
    (l.flatMap f).countP p = l.countP q * c := by
  induction l with
  | nil => exact (Nat.zero_mul c).symm
  | cons a l ih =>
      rw [List.flatMap_cons, List.countP_append, h a List.mem_cons_self,
        ih fun b hb => h b (List.mem_cons_of_mem a hb), List.countP_cons, Nat.add_mul,
        Nat.add_comm]
      split
      · rw [Nat.one_mul]
      · rw [Nat.zero_mul]

/-- A grid has as many cells that satisfy the predicate as there are pairs of a row and a column
that do. -/
theorem count_grid {γ : Type*} {xs : List α} {ys : List β} {g : α → β → List γ} {p : γ → Bool}
    {q : α → Bool} {r : β → Bool}
    (h : ∀ x ∈ xs, ∀ y ∈ ys, (g x y).countP p = if q x && r y then 1 else 0) :
    (xs.flatMap fun x => ys.flatMap (g x)).countP p = xs.countP q * ys.countP r := by
  refine count_flatMap fun x hx => ?_
  by_cases hq : q x
  · rw [if_pos hq, count_flatMap (c := 1) (q := r) fun y hy => ?_, Nat.mul_one]
    rw [h x hx y hy, hq, Bool.true_and]
  · rw [if_neg hq, count_flatMap (c := 0) (q := r) fun y hy => ?_, Nat.mul_zero]
    rw [h x hx y hy, Bool.eq_false_iff.mpr hq, Bool.false_and, if_neg Bool.false_ne_true, ite_self]

end Count

section Tiles

variable {P R R' : Type*} {has : R → P → Bool} {has' : R' → P → Bool} {pieces more : List R}
  {S T : Set P} {p : P} {r : R}

/-- Each point of the set is in one of the pieces, and in only one. No other point is in any. -/
structure Tiles (has : R → P → Bool) (pieces : List R) (S : Set P) : Prop where
  inside : ∀ p ∈ S, pieces.countP (has · p) = 1
  outside : ∀ p, p ∉ S → pieces.countP (has · p) = 0

namespace Tiles

theorem nil : Tiles has [] ∅ := ⟨nofun, fun _ _ => rfl⟩

theorem singleton (h : ∀ p, has r p ↔ p ∈ S) : Tiles has [r] S :=
  ⟨fun p hp => List.countP_singleton.trans (if_pos ((h p).mpr hp)),
    fun p hp => List.countP_singleton.trans (if_neg (hp ∘ (h p).mp))⟩

section

variable (h : Tiles has pieces S)

include h

/-- A piece is inside what is tiled. -/
theorem mem (hr : r ∈ pieces) (hp : has r p) : p ∈ S := by
  by_contra hout
  exact List.countP_eq_zero.mp (h.outside p hout) r hr hp

/-- A point is in at most one piece. -/
theorem count_le_one (p : P) : pieces.countP (has · p) ≤ 1 := by
  by_cases hp : p ∈ S
  · exact (h.inside p hp).le
  · exact (h.outside p hp).trans_le (Nat.zero_le 1)

/-- A point is in one of the pieces exactly when it is in the set. -/
theorem covers (p : P) : (∃ r ∈ pieces, has r p) ↔ p ∈ S := by
  refine ⟨fun ⟨r, hr, hp⟩ => h.mem hr hp, fun hp => ?_⟩
  exact List.countP_pos_iff.mp ((h.inside p hp).symm ▸ Nat.one_pos)

/-- Two pieces have no common point. -/
theorem pairwise :
    pieces.Pairwise fun r r' => ∀ p, ¬ (has r p ∧ has r' p) := by
  have hcount := h.count_le_one
  clear h
  induction pieces with
  | nil => exact .nil
  | cons r rest ih =>
      refine .cons (fun r' hr' p hboth => ?_) (ih fun p => ?_)
      · have hrest : 0 < rest.countP (has · p) := List.countP_pos_iff.mpr ⟨r', hr', hboth.2⟩
        have hall := hcount p
        rw [List.countP_cons, if_pos hboth.1] at hall
        omega
      · have hall := hcount p
        rw [List.countP_cons] at hall
        omega

/-- The one piece that a point of the set is in. -/
theorem filter_eq (hp : p ∈ S) :
    ∃ r, pieces.filter (has · p) = [r] :=
  List.length_eq_one_iff.mp (List.countP_eq_length_filter.symm.trans (h.inside p hp))

theorem congr (hST : ∀ p, p ∈ S ↔ p ∈ T) : Tiles has pieces T :=
  ⟨fun p hp => h.inside p ((hST p).mpr hp), fun p hp => h.outside p (hp ∘ (hST p).mp)⟩

/-- Tilings of two sets without a common point. -/
theorem append (hmore : Tiles has more T) (hST : ∀ p ∈ S, p ∉ T) :
    Tiles has (pieces ++ more) (S ∪ T) := by
  refine ⟨fun p hp => ?_, fun p hp => ?_⟩ <;> rw [List.countP_append]
  · rcases hp with hp | hp
    · rw [h.inside p hp, hmore.outside p (hST p hp)]
    · rw [h.outside p fun hin => hST p hin hp, hmore.inside p hp]
  · rw [h.outside p fun hin => hp (.inl hin), hmore.outside p fun hin => hp (.inr hin)]

/-- Each piece makes way for a tiling of the part of it that is in the second set. -/
theorem flatMap {f : R → List R'} (hf : ∀ r ∈ pieces, Tiles has' (f r) {p | has r p ∧ p ∈ T}) :
    Tiles has' (pieces.flatMap f) (S ∩ T) := by
  refine ⟨fun p hp => ?_, fun p hp => ?_⟩
  · rw [count_flatMap (c := 1) (q := (has · p)) fun r hr => ?_, h.inside p hp.1]
    split
    · next hin => exact (hf r hr).inside p ⟨hin, hp.2⟩
    · next hin => exact (hf r hr).outside p fun hboth => hin hboth.1
  · rw [count_flatMap (c := 0) (q := (has · p)) fun r hr => ?_, Nat.mul_zero]
    rw [ite_self]
    exact (hf r hr).outside p fun hboth => hp ⟨h.mem hr hboth.1, hboth.2⟩

/-- A tiling of the plane of the images is one of the points. -/
theorem preimage {Q : Type*} (place : Q → P) :
    Tiles (fun r q => has r (place q)) pieces (Set.preimage place S) :=
  ⟨fun q hq => h.inside (place q) hq, fun q hq => h.outside (place q) hq⟩

/-- Pieces that are replaced by others of the same points. -/
theorem map {g : R → R'}
    (hg : ∀ r ∈ pieces, ∀ p, has' (g r) p = has r p) : Tiles has' (pieces.map g) S := by
  have hcount : ∀ p, (pieces.map g).countP (has' · p) = pieces.countP (has · p) := fun p => by
    rw [List.countP_map]
    exact List.countP_congr fun r hr => by rw [Function.comp_apply, hg r hr p]
  exact ⟨fun p hp => (hcount p).trans (h.inside p hp),
    fun p hp => (hcount p).trans (h.outside p hp)⟩

end

end Tiles

end Tiles

section Intervals

variable {α : Type*} {xs : List α} {c : α × α} {v b : α}

/-- The pairs of neighbours in a list. -/
def intervals : List α → List (α × α)
  | a :: b :: rest => (a, b) :: intervals (b :: rest)
  | _ => []

theorem intervals_mem : c ∈ intervals xs → c.1 ∈ xs ∧ c.2 ∈ xs := by
  fun_induction intervals xs with
  | case1 a b rest ih =>
      intro hc
      rcases List.mem_cons.mp hc with rfl | hc
      · exact ⟨List.mem_cons_self, List.mem_cons_of_mem a List.mem_cons_self⟩
      · exact ⟨List.mem_cons_of_mem a (ih hc).1, List.mem_cons_of_mem a (ih hc).2⟩
  | case2 => nofun

variable [LinearOrder α]

/-- The half-open interval between two neighbours. -/
def between (c : α × α) (v : α) : Bool := c.1 ≤ v && v < c.2

theorem between_iff : between c v ↔ c.1 ≤ v ∧ v < c.2 := by
  rw [between, Bool.and_eq_true, decide_eq_true_iff, decide_eq_true_iff]

/-- No value of the list is inside one of the intervals. -/
theorem intervals_gap (hsorted : xs.Pairwise (· ≤ ·)) (hb : b ∈ xs) :
    c ∈ intervals xs → b ≤ c.1 ∨ c.2 ≤ b := by
  fun_induction intervals xs with
  | case1 a d rest ih =>
      intro hc
      obtain ⟨hfirst, hrest⟩ := List.pairwise_cons.mp hsorted
      rcases List.mem_cons.mp hb with rfl | hb
      · rcases List.mem_cons.mp hc with rfl | hc
        · exact .inl (le_refl b)
        · exact .inl (hfirst c.1 (intervals_mem hc).1)
      rcases List.mem_cons.mp hc with rfl | hc
      · rcases List.mem_cons.mp hb with rfl | hb
        · exact .inr (le_refl b)
        · exact .inr ((List.pairwise_cons.mp hrest).1 b hb)
      · exact ih hrest hb hc
  | case2 => nofun

/-- A value that is not below all of the list and not above all of it is in one interval. -/
theorem count_intervals (hsorted : xs.Pairwise (· ≤ ·)) (hlow : ∃ a ∈ xs, a ≤ v)
    (hhigh : ∃ b ∈ xs, v < b) : (intervals xs).countP (between · v) = 1 := by
  fun_induction intervals xs with
  | case1 a d rest ih =>
      obtain ⟨hfirst, hrest⟩ := List.pairwise_cons.mp hsorted
      rw [List.countP_cons]
      rcases lt_or_ge v d with hvd | hdv
      · have hav : a ≤ v := by
          obtain ⟨b, hb, hbv⟩ := hlow
          rcases List.mem_cons.mp hb with rfl | hb
          · exact hbv
          · exact (hfirst b hb).trans hbv
        have hlater : (intervals (d :: rest)).countP (between · v) = 0 := by
          refine List.countP_eq_zero.mpr fun c hc hin => ?_
          have hdc : d ≤ c.1 := by
            rcases List.mem_cons.mp (intervals_mem hc).1 with heq | hmem
            · exact heq.ge
            · exact (List.pairwise_cons.mp hrest).1 c.1 hmem
          exact absurd (hdc.trans (between_iff.mp hin).1) hvd.not_ge
        rw [hlater, if_pos (between_iff.mpr ⟨hav, hvd⟩)]
      · obtain ⟨b, hb, hvb⟩ := hhigh
        have hlast : b ∈ d :: rest := by
          refine (List.mem_cons.mp hb).resolve_left ?_
          rintro rfl
          exact absurd ((hfirst d List.mem_cons_self).trans hdv) hvb.not_ge
        rw [ih hrest ⟨d, List.mem_cons_self, hdv⟩ ⟨b, hlast, hvb⟩,
          if_neg fun hin => (between_iff.mp hin).2.not_ge hdv]
  | case2 xs hshort =>
      obtain ⟨a, ha, hav⟩ := hlow
      obtain ⟨b, hb, hvb⟩ := hhigh
      rcases xs with _ | ⟨d, _ | ⟨e, rest⟩⟩
      · exact absurd ha List.not_mem_nil
      · rw [List.mem_singleton.mp ha] at hav
        rw [List.mem_singleton.mp hb] at hvb
        exact absurd hav hvb.not_ge
      · exact absurd rfl (hshort d e rest)

end Intervals

end Lib.Tiling
