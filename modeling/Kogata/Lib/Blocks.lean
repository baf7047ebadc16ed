import Mathlib.Data.List.Pairwise
import Mathlib.Data.List.Perm.Basic
import Mathlib.Tactic.Common

/-!
# Blocks of memory

A block is an address and a size. `slots` cuts a block into pieces of one size, and
`pairwise_pieces` says that the pieces of blocks that are apart are apart.
-/

namespace Lib.Blocks

/-- An address, and the number of bytes from there on. -/
abbrev Block := Nat × Nat

/-- No byte is in both blocks. -/
def Apart (b d : Block) : Prop := b.1 + b.2 ≤ d.1 ∨ d.1 + d.2 ≤ b.1

instance : Std.Symm Apart := ⟨fun _ _ h => h.symm⟩

/-- All bytes of the first block are in the second one. -/
def Inside (b d : Block) : Prop := d.1 ≤ b.1 ∧ b.1 + b.2 ≤ d.1 + d.2

/-- The address is one of the block's. -/
def Holds (b : Block) (x : Nat) : Prop := b.1 ≤ x ∧ x < b.1 + b.2

instance (b : Block) (x : Nat) : Decidable (Holds b x) := inferInstanceAs (Decidable (_ ∧ _))

/-- Pieces of `stride` bytes, one behind the other. -/
def slots (stride p : Nat) : Nat → List Block
  | 0 => []
  | n + 1 => (p, stride) :: slots stride (p + stride) n

variable {b d b' d' : Block} {stride p n x : Nat}

theorem Apart.mono (h : Apart b d) (hb : Inside b' b) (hd : Inside d' d) : Apart b' d' := by
  unfold Apart Inside at *
  omega

theorem inside_refl (b : Block) : Inside b b := ⟨Nat.le_refl _, Nat.le_refl _⟩

theorem not_apart_of_holds (hb : Holds b x) (hd : Holds d x) : ¬ Apart b d := by
  unfold Apart Holds at *
  omega

theorem Holds.mono (h : Holds b x) (hin : Inside b d) : Holds d x := by
  unfold Holds Inside at *
  omega

theorem slots_length : (slots stride p n).length = n := by
  induction n generalizing p with
  | zero => rfl
  | succ n ih => rw [slots, List.length_cons, ih]

theorem mem_slots (h : b ∈ slots stride p n) :
    b.2 = stride ∧ Inside b (p, n * stride) ∧ (b.1 - p) % stride = 0 := by
  induction n generalizing p with
  | zero => cases h
  | succ n ih =>
      unfold Inside at *
      rw [Nat.add_mul, Nat.one_mul]
      rcases List.mem_cons.mp h with rfl | h
      · exact ⟨rfl, ⟨Nat.le_refl _, by omega⟩, by simp⟩
      · obtain ⟨hsize, ⟨hlo, hhi⟩, hmod⟩ := ih h
        simp only at hlo hhi
        refine ⟨hsize, ⟨by simp only; omega, by simp only; omega⟩, ?_⟩
        have hsub : b.1 - p = b.1 - (p + stride) + stride := by omega
        rw [hsub, Nat.add_mod_right, hmod]

theorem slots_pairwise : (slots stride p n).Pairwise Apart := by
  induction n generalizing p with
  | zero => exact .nil
  | succ n ih => exact .cons (fun b hb => .inl (mem_slots hb).2.1.1) ih

/-- Pieces of blocks that are apart. -/
theorem pairwise_pieces {α : Type*} {l : List α} {block : α → Block} {pieces : α → List Block}
    (hl : (l.map block).Pairwise Apart) (hin : ∀ a ∈ l, ∀ b ∈ pieces a, Inside b (block a))
    (hpieces : ∀ a ∈ l, (pieces a).Pairwise Apart) : (l.flatMap pieces).Pairwise Apart := by
  refine List.pairwise_flatMap.mpr ⟨hpieces, ?_⟩
  refine (List.pairwise_map.mp hl).imp_of_mem fun {a c} ha hc hac b hb d hd => ?_
  exact hac.mono (hin a ha b hb) (hin c hc d hd)

/-- Blocks of at least one byte that are apart are different. -/
theorem nodup_of_apart {l : List Block} (h : l.Pairwise Apart) (hpos : ∀ b ∈ l, 0 < b.2) :
    l.Nodup := by
  refine h.imp_of_mem fun {b d} hb _ hbd => ?_
  rintro rfl
  have hsize := hpos b hb
  unfold Apart at hbd
  omega

/-- An element whose block has an address is the only one. -/
theorem eq_of_holds {α : Type*} {l : List α} {block : α → Block}
    (hl : (l.map block).Pairwise Apart) {a c : α} (ha : a ∈ l) (hc : c ∈ l)
    (hax : Holds (block a) x) (hcx : Holds (block c) x) : a = c := by
  have hsymm : Std.Symm fun e g => Apart (block e) (block g) := ⟨fun _ _ h => h.symm⟩
  by_contra hne
  exact not_apart_of_holds hax hcx ((List.pairwise_map.mp hl).forall ha hc hne)

/-- The block at an address. -/
theorem eraseP_addr {l : List Block} (h : l.Pairwise Apart) (hpos : ∀ e ∈ l, 0 < e.2) (hb : b ∈ l) :
    l.eraseP (·.1 == b.1) = l.erase b := by
  rw [List.erase_eq_eraseP]
  induction l with
  | nil => rfl
  | cons e l ih =>
      by_cases heb : e = b
      · subst heb
        simp
      · have hmem := (List.mem_cons.mp hb).resolve_left (Ne.symm heb)
        have haddr : e.1 ≠ b.1 := fun heq => not_apart_of_holds (x := e.1)
          ⟨Nat.le_refl _, Nat.lt_add_of_pos_right (hpos e (.head _))⟩
          ⟨Nat.le_of_eq heq.symm, heq ▸ Nat.lt_add_of_pos_right (hpos b hb)⟩
          ((List.pairwise_cons.mp h).1 b hmem)
        have hrest := ih (List.pairwise_cons.mp h).2 (fun d hd => hpos d (.tail _ hd)) hmem
        simp [haddr, Ne.symm heb, hrest]

end Lib.Blocks
