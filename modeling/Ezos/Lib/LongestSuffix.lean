import Mathlib.Data.List.Infix

/-!
# The longest suffix within limits

What a log keeps when every new element may push out old ones. The limit may be any property that parts of a list inherit.
-/

namespace Ezos.Lib

set_option autoImplicit false

universe u
variable {α : Type u} {P : List α → Prop} {l k k' : List α} {a : α}

structure LongestSuffix (P : List α → Prop) (l k : List α) : Prop where
  suffix : k <:+ l
  within : P k
  longest : ∀ k', k' <:+ l → P k' → k' <:+ k

namespace LongestSuffix

theorem nil (h : P []) : LongestSuffix P [] [] := ⟨List.suffix_refl [], h, fun _ hk _ => hk⟩

theorem of_drop {n : Nat} (hn : P (l.drop n)) (hbefore : ∀ i < n, ¬ P (l.drop i)) : LongestSuffix P l (l.drop n) := by
  refine ⟨List.drop_suffix n l, hn, ?_⟩
  intro k' hk hP
  have hdrop := List.suffix_iff_eq_drop.mp hk
  by_cases hlt : l.length - k'.length < n
  · rw [hdrop] at hP
    exact absurd hP (hbefore _ hlt)
  · rw [hdrop, show l.length - k'.length = n + (l.length - k'.length - n) by omega, ← List.drop_drop]
    exact List.drop_suffix _ _

theorem snoc (hP : ∀ {l l' : List α}, l'.Sublist l → P l → P l') (h : LongestSuffix P l k)
    (hnew : LongestSuffix P (k ++ [a]) k') : LongestSuffix P (l ++ [a]) k' := by
  refine ⟨hnew.suffix.trans (List.suffix_append_self_iff.mpr h.suffix), hnew.within, ?_⟩
  intro m hm hPm
  rcases List.suffix_concat_iff.mp hm with rfl | ⟨m, rfl, hml⟩
  · exact List.nil_suffix
  · have hmk := h.longest m hml (hP (List.sublist_append_left m [a]) hPm)
    exact hnew.longest _ (List.suffix_append_self_iff.mpr hmk) hPm

end LongestSuffix

end Ezos.Lib
