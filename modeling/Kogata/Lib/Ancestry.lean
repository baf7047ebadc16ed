import Mathlib.Logic.Relation

/-!
# Parent relations

`r a b` says that `b` is the parent of `a`. A relation is acyclic where nothing is its own
ancestor. It stays so when edges are taken away, when a leaf is added, and when what is below one
place is put below another that was not below the first.
-/

namespace Lib.Ancestry

open Relation

variable {α : Type*} {r q : α → α → Prop} {a b c p : α}

/-- Nothing is its own ancestor. -/
def Acyclic (r : α → α → Prop) : Prop :=
  ∀ a, ¬ TransGen r a a

/-- Fewer edges. -/
theorem Acyclic.anti (h : Acyclic r) (hqr : ∀ a b, q a b → r a b) : Acyclic q :=
  fun a ha => h a (TransGen.mono hqr a a ha)

/-- The place `c` is nobody's parent, and no edge but its own is new. -/
theorem Acyclic.leaf (h : Acyclic r) (hleaf : ∀ a, ¬ q a c)
    (hold : ∀ a b, a ≠ c → q a b → r a b) : Acyclic q := by
  have hpath : ∀ {a b}, TransGen q a b → a ≠ c → TransGen r a b := by
    intro a b hab
    induction hab using TransGen.head_induction_on with
    | single hab => exact fun ha => .single (hold _ _ ha hab)
    | head hac _ ih =>
        intro ha
        exact .head (hold _ _ ha hac) (ih fun heq => hleaf _ (heq ▸ hac))
  intro a ha
  refine h a (hpath ha ?_)
  rintro rfl
  obtain ⟨b, -, hba⟩ := TransGen.tail'_iff.mp ha
  exact hleaf b hba

/-- A path of the new relation is one of the old, or leads to `c` in the old and goes on at the
new parent of `c`. -/
theorem path_redirect (hold : ∀ a b, a ≠ c → q a b → r a b) (hnew : ∀ b, q c b → b = p)
    (hab : TransGen q a b) :
    TransGen r a b ∨ ReflTransGen r a c ∧ ReflTransGen q p b := by
  induction hab using TransGen.head_induction_on with
  | @single x hxb =>
      by_cases hxc : x = c
      · subst hxc
        exact .inr ⟨.refl, hnew _ hxb ▸ .refl⟩
      · exact .inl (.single (hold _ _ hxc hxb))
  | @head x y hxy hyb ih =>
      by_cases hxc : x = c
      · subst hxc
        exact .inr ⟨.refl, hnew _ hxy ▸ hyb.to_reflTransGen⟩
      · rcases ih with ih | ⟨hyc, hpb⟩
        · exact .inl (.head (hold _ _ hxc hxy) ih)
        · exact .inr ⟨.head (hold _ _ hxc hxy) hyc, hpb⟩

/-- The place `c` gets the parent `p`, which is neither `c` nor below it. -/
theorem Acyclic.redirect (h : Acyclic r) (hold : ∀ a b, a ≠ c → q a b → r a b)
    (hnew : ∀ b, q c b → b = p) (hnot : ¬ ReflTransGen r p c) : Acyclic q := by
  intro a ha
  rcases path_redirect hold hnew ha with hcycle | ⟨hac, hpa⟩
  · exact h a hcycle
  · rcases reflTransGen_iff_eq_or_transGen.mp hpa with rfl | hpa
    · exact hnot hac
    · rcases path_redirect hold hnew hpa with hpa | ⟨hpc, -⟩
      · exact hnot (hpa.to_reflTransGen.trans hac)
      · exact hnot hpc

end Lib.Ancestry
