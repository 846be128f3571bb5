import Mathlib.Data.List.Induction

/-!
# Interval maps laid over one another

A piece maps an interval of keys to an interval of values of the same length; a list of
pieces is read as a map in which later pieces hide earlier ones. If no two pieces share a
value, every value can still be looked up exactly when no two pieces share a key.
-/

namespace Ezos.Lib.Overlay

set_option autoImplicit false

structure Piece where
  first : Nat
  count : Nat
  frame : Nat

def Piece.Covers (g : Piece) (p : Nat) : Prop := g.first ≤ p ∧ p < g.first + g.count

def Piece.Holds (g : Piece) (k : Nat) : Prop := g.frame ≤ k ∧ k < g.frame + g.count

instance (g : Piece) (p : Nat) : Decidable (g.Covers p) := inferInstanceAs (Decidable (_ ∧ _))

def Piece.at (g : Piece) (p : Nat) : Nat := g.frame + (p - g.first)

def look (l : List Piece) (p : Nat) : Option Nat :=
  l.foldl (fun o g => if g.Covers p then some (g.at p) else o) none

def KeysApart (g h : Piece) : Prop := ∀ p, g.Covers p → ¬ h.Covers p

def ValuesApart (g h : Piece) : Prop := ∀ k, g.Holds k → ¬ h.Holds k

variable {l : List Piece} {g h : Piece} {p q k : Nat}

@[simp] theorem look_nil : look [] p = none := rfl

theorem look_append_singleton (l : List Piece) (g : Piece) (p : Nat) :
    look (l ++ [g]) p = if g.Covers p then some (g.at p) else look l p := by
  simp only [look, List.foldl_append, List.foldl_cons, List.foldl_nil]

theorem Piece.Covers.holds_at (hp : g.Covers p) : g.Holds (g.at p) := by
  obtain ⟨h1, h2⟩ := hp
  unfold Piece.Holds Piece.at
  omega

theorem Piece.Covers.at_inj (hp : g.Covers p) (hq : g.Covers q) (he : g.at p = g.at q) : p = q := by
  obtain ⟨h1, _⟩ := hp
  obtain ⟨h2, _⟩ := hq
  unfold Piece.at at he
  omega

theorem Piece.Holds.exists_at (hk : g.Holds k) : ∃ p, g.Covers p ∧ g.at p = k := by
  obtain ⟨h1, h2⟩ := hk
  refine ⟨g.first + (k - g.frame), ?_, ?_⟩
  · unfold Piece.Covers
    omega
  · unfold Piece.at
    omega

theorem look_some (hs : look l p = some k) : ∃ g ∈ l, g.Covers p ∧ k = g.at p := by
  induction l using List.reverseRecOn with
  | nil => exact nomatch hs
  | append_singleton l g ih =>
    rw [look_append_singleton] at hs
    split at hs
    · rename_i hc
      exact ⟨g, by simp, hc, (Option.some.inj hs).symm⟩
    · obtain ⟨h, hl, hc⟩ := ih hs
      exact ⟨h, List.mem_append_left _ hl, hc⟩

theorem look_none : look l p = none ↔ ∀ g ∈ l, ¬ g.Covers p := by
  induction l using List.reverseRecOn with
  | nil => simp
  | append_singleton l g ih =>
    rw [look_append_singleton]
    constructor
    · intro hs h hh hc
      split at hs
      · contradiction
      rename_i hg
      rcases List.mem_append.mp hh with hh | hh
      · exact ih.mp hs h hh hc
      · obtain rfl := List.mem_singleton.mp hh
        exact hg hc
    · intro hall
      rw [if_neg (hall g (by simp))]
      exact ih.mpr fun h hh => hall h (List.mem_append_left _ hh)

theorem look_inj (hv : l.Pairwise ValuesApart) (hp : look l p = some k) (hq : look l q = some k) :
    p = q := by
  induction l using List.reverseRecOn with
  | nil => exact nomatch hp
  | append_singleton l g ih =>
    obtain ⟨hl, _, hlast⟩ := List.pairwise_append.mp hv
    rw [look_append_singleton] at hp hq
    have hmix : ∀ {x y}, g.Covers x → some (g.at x) = some k → look l y = some k → False := by
      intro x y hx hxk hy
      obtain ⟨h, hh, hc, rfl⟩ := look_some hy
      exact hlast h hh g (by simp) _ hc.holds_at (Option.some.inj hxk ▸ hx.holds_at)
    split at hp
    · rename_i hgp
      split at hq
      · rename_i hgq
        exact hgp.at_inj hgq (Option.some.inj (hp.trans hq.symm))
      · exact (hmix hgp hp hq).elim
    · split at hq
      · rename_i hgq
        exact (hmix hgq hq hp).elim
      · exact ih hl hp hq

theorem look_of_keysApart (hk : l.Pairwise KeysApart) (hg : g ∈ l) (hp : g.Covers p) :
    look l p = some (g.at p) := by
  induction l using List.reverseRecOn with
  | nil => exact nomatch hg
  | append_singleton l h ih =>
    obtain ⟨hl, _, hlast⟩ := List.pairwise_append.mp hk
    rw [look_append_singleton]
    rcases List.mem_append.mp hg with hg | hg
    · rw [if_neg (hlast g hg h (by simp) p hp)]
      exact ih hl hg
    · obtain rfl := List.mem_singleton.mp hg
      rw [if_pos hp]

theorem all_visible_iff (hv : l.Pairwise ValuesApart) :
    (∀ g ∈ l, ∀ k, g.Holds k → ∃ p, look l p = some k) ↔ l.Pairwise KeysApart := by
  constructor
  · intro hall
    induction l using List.reverseRecOn with
    | nil => exact .nil
    | append_singleton l h ih =>
      obtain ⟨hl, _, hlast⟩ := List.pairwise_append.mp hv
      have hback : ∀ g ∈ l, ∀ k, g.Holds k → ∃ p, ¬ h.Covers p ∧ look l p = some k := by
        intro g hg k hk
        obtain ⟨p, hp⟩ := hall g (List.mem_append_left _ hg) k hk
        rw [look_append_singleton] at hp
        split at hp
        · rename_i hc
          exact absurd (Option.some.inj hp ▸ hc.holds_at) (hlast g hg h (by simp) k hk)
        · rename_i hc
          exact ⟨p, hc, hp⟩
      have hkeys := ih hl fun g hg k hk => by
        obtain ⟨p, _, hp⟩ := hback g hg k hk
        exact ⟨p, hp⟩
      refine List.pairwise_append.mpr ⟨hkeys, List.pairwise_singleton _ _, ?_⟩
      intro g hg h' hh' p hgp hhp
      obtain rfl := List.mem_singleton.mp hh'
      obtain ⟨q, hq, hlook⟩ := hback g hg _ hgp.holds_at
      exact hq (look_inj hl (look_of_keysApart hkeys hg hgp) hlook ▸ hhp)
  · intro hkeys g hg k hk
    obtain ⟨p, hp, rfl⟩ := hk.exists_at
    exact ⟨p, look_of_keysApart hkeys hg hp⟩

end Ezos.Lib.Overlay
