import Mathlib.Data.List.Pairwise
import Mathlib.Data.List.Perm.Basic
import Mathlib.Order.Basic

/-!
# Lists of address ranges

Ranges in the order of their addresses: `Apart` ones do not overlap, and `Gapped` ones do not even
touch. A range that overlaps none of them can be put in its place (`Apart.insert`), and one that
touches none of them either keeps the gaps (`Gapped.insert`).
-/

namespace Lib.Intervals

variable {α : Type} {addr size addr' size' : α → Nat} {a d : α} {l l' pre post : List α} {x : Nat}

/-- The address lies in the range. -/
def Holds (addr size : α → Nat) (a : α) (x : Nat) : Prop :=
  addr a ≤ x ∧ x < addr a + size a

/-- The address lies in one of the ranges. -/
def Covers (addr size : α → Nat) (l : List α) (x : Nat) : Prop :=
  ∃ a ∈ l, Holds addr size a x

/-- The ranges are in order, and none overlaps the next. -/
def Apart (addr size : α → Nat) (l : List α) : Prop :=
  l.Pairwise fun a b => addr a + size a ≤ addr b

/-- The ranges are in order, and there is room between any two. -/
def Gapped (addr size : α → Nat) (l : List α) : Prop :=
  l.Pairwise fun a b => addr a + size a < addr b

theorem holds_congr (haddr : addr' a = addr a) (hsize : size' a = size a) :
    Holds addr' size' a x ↔ Holds addr size a x := by
  unfold Holds
  rw [haddr, hsize]

theorem holds_first (h : 0 < size a) : Holds addr size a (addr a) :=
  ⟨Nat.le_refl _, Nat.lt_add_of_pos_right h⟩

@[simp] theorem covers_nil : ¬ Covers addr size [] x := by
  intro h
  obtain ⟨a, ha, -⟩ := h
  cases ha

theorem covers_cons :
    Covers addr size (a :: l) x ↔ Holds addr size a x ∨ Covers addr size l x := by
  unfold Covers
  simp only [List.mem_cons, or_and_right, exists_or, exists_eq_left]

theorem covers_perm (h : l.Perm l') : Covers addr size l x ↔ Covers addr size l' x := by
  unfold Covers
  simp only [h.mem_iff]

theorem covers_congr (h : ∀ a ∈ l, addr' a = addr a ∧ size' a = size a) :
    Covers addr' size' l x ↔ Covers addr size l x := by
  unfold Covers
  exact exists_congr fun a => and_congr_right fun ha => holds_congr (h a ha).1 (h a ha).2

theorem Gapped.apart (h : Gapped addr size l) : Apart addr size l :=
  List.Pairwise.imp Nat.le_of_lt h

theorem Gapped.congr (h : Gapped addr size l) (heq : ∀ a ∈ l, addr' a = addr a ∧ size' a = size a) :
    Gapped addr' size' l := by
  refine List.Pairwise.imp_of_mem (fun {a b} ha hb hab => ?_) h
  rw [(heq a ha).1, (heq a ha).2, (heq b hb).1]
  exact hab

theorem Apart.congr (h : Apart addr size l) (heq : ∀ a ∈ l, addr' a = addr a ∧ size' a = size a) :
    Apart addr' size' l := by
  refine List.Pairwise.imp_of_mem (fun {a b} ha hb hab => ?_) h
  rw [(heq a ha).1, (heq a ha).2, (heq b hb).1]
  exact hab

theorem Gapped.sublist (h : Gapped addr size l) (hsub : l'.Sublist l) : Gapped addr size l' :=
  List.Pairwise.sublist hsub h

theorem Apart.sublist (h : Apart addr size l) (hsub : l'.Sublist l) : Apart addr size l' :=
  List.Pairwise.sublist hsub h

theorem Apart.nodup (h : Apart addr size l) (hpos : ∀ a ∈ l, 0 < size a) : l.Nodup := by
  refine List.Pairwise.imp_of_mem (fun {a b} ha _ hab => ?_) h
  rintro rfl
  have hlt := hpos a ha
  omega

/-- Two ranges of the list are the same where they share an address. -/
theorem Apart.eq_of_holds (h : Apart addr size l) (ha : a ∈ l) (hd : d ∈ l)
    (hax : Holds addr size a x) (hdx : Holds addr size d x) : a = d := by
  have hsym : Std.Symm fun c e : α => addr c + size c ≤ addr e ∨ addr e + size e ≤ addr c :=
    ⟨fun _ _ hor => hor.symm⟩
  have hpairs : l.Pairwise fun c e => addr c + size c ≤ addr e ∨ addr e + size e ≤ addr c :=
    List.Pairwise.imp Or.inl h
  unfold Holds at hax hdx
  by_contra hne
  rcases hpairs.forall ha hd hne with hle | hle
  · omega
  · omega

/-- What one range of the list covers, the others do not. -/
theorem Apart.not_covers (h : Apart addr size (pre ++ d :: post)) (hx : Holds addr size d x)
    (hpos : ∀ a ∈ pre ++ d :: post, 0 < size a) : ¬ Covers addr size (pre ++ post) x := by
  intro hcovers
  obtain ⟨a, ha, hax⟩ := hcovers
  have hmem : a ∈ pre ++ d :: post := List.perm_middle.mem_iff.mpr (List.mem_cons_of_mem d ha)
  have hself : d ∈ pre ++ d :: post := List.perm_middle.mem_iff.mpr List.mem_cons_self
  obtain rfl := h.eq_of_holds hmem hself hax hx
  exact (List.nodup_cons.mp (List.perm_middle.nodup_iff.mp (h.nodup hpos))).1 ha

theorem Apart.not_covers_rest (h : Apart addr size (a :: l)) (hx : Holds addr size a x)
    (hpos : ∀ b ∈ a :: l, 0 < size b) : ¬ Covers addr size l x := by
  have hall : Apart addr size ([] ++ a :: l) := h
  exact hall.not_covers hx hpos

/-- A range in its place among those that it does not overlap. -/
theorem Apart.insert (h : Apart addr size (pre ++ post)) (hsize : 0 < size d)
    (hpos : ∀ a ∈ pre ++ post, 0 < size a)
    (hclear : ∀ x, Holds addr size d x → ¬ Covers addr size (pre ++ post) x)
    (hpre : ∀ a ∈ pre, addr a ≤ addr d) (hpost : ∀ a ∈ post, addr d ≤ addr a) :
    Apart addr size (pre ++ d :: post) := by
  obtain ⟨hl, hr, hcross⟩ := List.pairwise_append.mp h
  have hbefore : ∀ a ∈ pre, addr a + size a ≤ addr d := by
    intro a ha
    by_contra hover
    exact hclear (addr d) (holds_first hsize)
      ⟨a, List.mem_append_left _ ha, hpre a ha, Nat.not_le.mp hover⟩
  have hbehind : ∀ a ∈ post, addr d + size d ≤ addr a := by
    intro a ha
    by_contra hover
    have hmem := List.mem_append_right pre ha
    exact hclear (addr a) ⟨hpost a ha, Nat.not_le.mp hover⟩ ⟨a, hmem, holds_first (hpos a hmem)⟩
  refine List.pairwise_append.mpr ⟨hl, List.pairwise_cons.mpr ⟨hbehind, hr⟩, fun a ha b hb => ?_⟩
  rcases List.mem_cons.mp hb with rfl | hb
  · exact hbefore a ha
  · exact hcross a ha b hb

/-- A range in its place among those that it does not touch. -/
theorem Gapped.insert (h : Gapped addr size (pre ++ post)) (hsize : 0 < size d)
    (hpos : ∀ a ∈ pre ++ post, 0 < size a)
    (hclear : ∀ x, Holds addr size d x → ¬ Covers addr size (pre ++ post) x)
    (htouch : ∀ a ∈ pre ++ post, addr a + size a ≠ addr d ∧ addr d + size d ≠ addr a)
    (hpre : ∀ a ∈ pre, addr a ≤ addr d) (hpost : ∀ a ∈ post, addr d ≤ addr a) :
    Gapped addr size (pre ++ d :: post) := by
  obtain ⟨-, hd, hbefore⟩ :=
    List.pairwise_append.mp (h.apart.insert hsize hpos hclear hpre hpost)
  obtain ⟨hbehind, -⟩ := List.pairwise_cons.mp hd
  obtain ⟨hl, hr, hcross⟩ := List.pairwise_append.mp h
  refine List.pairwise_append.mpr ⟨hl, List.pairwise_cons.mpr ⟨fun a ha => ?_, hr⟩,
    fun a ha b hb => ?_⟩
  · exact Nat.lt_of_le_of_ne (hbehind a ha) (htouch a (List.mem_append_right _ ha)).2
  · rcases List.mem_cons.mp hb with rfl | hb
    · exact Nat.lt_of_le_of_ne (hbefore a ha b List.mem_cons_self)
        (htouch a (List.mem_append_left _ ha)).1
    · exact hcross a ha b hb

/-- No address of a list with gaps lies in front of its first range or right behind it. -/
theorem Gapped.first (h : Gapped addr size (a :: l)) (hsize : 0 < size a) :
    (∀ x, Covers addr size (a :: l) x → addr a ≤ x) ∧
      Covers addr size (a :: l) (addr a) ∧ ¬ Covers addr size (a :: l) (addr a + size a) := by
  obtain ⟨hbehind, -⟩ := List.pairwise_cons.mp h
  refine ⟨fun x hx => ?_, covers_cons.mpr (.inl (holds_first hsize)), fun hend => ?_⟩
  · rcases covers_cons.mp hx with hx | ⟨b, hb, hx⟩
    · exact hx.1
    · have hab := hbehind b hb
      have hbx := hx.1
      omega
  · rcases covers_cons.mp hend with hx | ⟨b, hb, hx⟩
    · exact absurd hx.2 (Nat.lt_irrefl _)
    · exact absurd hx.1 (Nat.not_le.mpr (hbehind b hb))

/-- The first range of a list with gaps is known from what the list covers. -/
theorem Gapped.first_eq {b : α} (h : Gapped addr size (a :: l)) (h' : Gapped addr' size' (b :: l'))
    (hsize : 0 < size a) (hsize' : 0 < size' b)
    (hcovers : ∀ x, Covers addr size (a :: l) x ↔ Covers addr' size' (b :: l') x) :
    addr a = addr' b ∧ size a = size' b := by
  obtain ⟨hle, hfirst, hend⟩ := h.first hsize
  obtain ⟨hle', hfirst', hend'⟩ := h'.first hsize'
  have haddr : addr a = addr' b :=
    Nat.le_antisymm (hle _ ((hcovers _).mpr hfirst')) (hle' _ ((hcovers _).mp hfirst))
  refine ⟨haddr, ?_⟩
  by_contra hne
  rcases Nat.lt_or_gt_of_ne hne with hlt | hlt
  · exact hend ((hcovers _).mpr (covers_cons.mpr (.inl ⟨by omega, by omega⟩)))
  · exact hend' ((hcovers _).mp (covers_cons.mpr (.inl ⟨by omega, by omega⟩)))

/-- A list with gaps is known from what it covers. -/
theorem Gapped.eq_of_covers (h : Gapped addr size l) (h' : Gapped addr' size' l')
    (hpos : ∀ a ∈ l, 0 < size a) (hpos' : ∀ a ∈ l', 0 < size' a)
    (hcovers : ∀ x, Covers addr size l x ↔ Covers addr' size' l' x) :
    l.map (fun a => (addr a, size a)) = l'.map fun a => (addr' a, size' a) := by
  induction l generalizing l' with
  | nil =>
      cases l' with
      | nil => rfl
      | cons b l' =>
          have hfirst := (h'.first (hpos' b List.mem_cons_self)).2.1
          exact absurd ((hcovers _).mpr hfirst) covers_nil
  | cons a l ih =>
      cases l' with
      | nil =>
          have hfirst := (h.first (hpos a List.mem_cons_self)).2.1
          exact absurd ((hcovers _).mp hfirst) covers_nil
      | cons b l' =>
          obtain ⟨haddr, hsize⟩ := h.first_eq h' (hpos a List.mem_cons_self)
            (hpos' b List.mem_cons_self) hcovers
          have hsame : ∀ x, Holds addr size a x ↔ Holds addr' size' b x := fun x => by
            unfold Holds
            rw [haddr, hsize]
          have hrest := ih (List.pairwise_cons.mp h).2 (List.pairwise_cons.mp h').2
            (fun c hc => hpos c (List.mem_cons_of_mem a hc))
            (fun c hc => hpos' c (List.mem_cons_of_mem b hc)) fun x => by
              have hx := hcovers x
              have hout : Holds addr size a x → ¬ Covers addr size l x :=
                fun hax => h.apart.not_covers_rest hax hpos
              have hout' : Holds addr' size' b x → ¬ Covers addr' size' l' x :=
                fun hbx => h'.apart.not_covers_rest hbx hpos'
              rw [covers_cons, covers_cons, ← hsame x] at hx
              rw [← hsame x] at hout'
              tauto
          rw [List.map_cons, List.map_cons, hrest, haddr, hsize]

end Lib.Intervals
