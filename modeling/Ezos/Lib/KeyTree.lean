import Mathlib.Data.List.Basic

/-!
# Search trees of one depth, whose inner nodes label their children

A leaf holds items, each of which covers an interval of numbers; the label of a child bounds from below what the
child holds. Descending by labels finds what a search through all the items finds.
-/

namespace Ezos.Lib.KeyTree

set_option autoImplicit false

abbrev Tree (κ α : Type) : Nat → Type
  | 0 => List α
  | d + 1 => List (κ × Tree κ α d)

section General

variable {κ α : Type}

def reached : (d : Nat) → Tree κ α d → List (List κ × α)
  | 0, items => items.map fun a => ([], a)
  | d + 1, kids => kids.flatMap fun c => (reached d c.2).map fun r => (c.1 :: r.1, r.2)

variable (first last : α → Nat)

def Covers (x : Nat) (a : α) : Prop := first a ≤ x ∧ x < last a

instance (x : Nat) (a : α) : Decidable (Covers first last x a) := inferInstanceAs (Decidable (_ ∧ _))

def lookup (d : Nat) (t : Tree κ α d) (x : Nat) : Option (List κ × α) :=
  (reached d t).find? fun r => decide (Covers first last x r.2)

def Spaced (lo hi : Nat) : List α → Prop
  | [] => lo ≤ hi
  | a :: l => lo ≤ first a ∧ first a ≤ last a ∧ Spaced (last a) hi l

instance decidableSpaced (hi : Nat) : (l : List α) → (lo : Nat) → Decidable (Spaced first last lo hi l)
  | [], lo => inferInstanceAs (Decidable (lo ≤ hi))
  | a :: l, lo =>
    have := decidableSpaced hi l (last a)
    inferInstanceAs (Decidable (lo ≤ first a ∧ first a ≤ last a ∧ Spaced first last (last a) hi l))

variable (key : κ → Nat)

def nextKey {β : Type} (hi : Nat) : List (κ × β) → Nat
  | [] => hi
  | c :: _ => key c.1

def Split {β : Type} (inside : Nat → Nat → β → Prop) (lo hi : Nat) : List (κ × β) → Prop
  | [] => lo ≤ hi
  | c :: l => lo ≤ key c.1 ∧ inside (key c.1) (nextKey key hi l) c.2 ∧ Split inside (key c.1) hi l

def Within : (d : Nat) → (lo hi : Nat) → Tree κ α d → Prop
  | 0, lo, hi, items => Spaced first last lo hi items
  | d + 1, lo, hi, kids => Split key (Within d) lo hi kids

def pick {β : Type} (x : Nat) : List (κ × β) → Option (κ × β) → Option (κ × β)
  | [], best => best
  | c :: l, best => if key c.1 ≤ x then pick x l (some c) else best

end General

section Leaf

variable {α : Type} {first last : α → Nat} {lo hi x : Nat} {l : List α}

theorem Spaced.bounds (h : Spaced first last lo hi l) : ∀ a ∈ l, lo ≤ first a ∧ last a ≤ hi := by
  induction l generalizing lo with
  | nil => simp
  | cons b l ih =>
    obtain ⟨hlo, hle, hrest⟩ := h
    have hhi : ∀ {m : Nat} {k : List α}, Spaced first last m hi k → m ≤ hi := by
      intro m k
      induction k generalizing m with
      | nil => exact id
      | cons c k ihk =>
        intro hc
        have := ihk hc.2.2
        have := hc.1
        have := hc.2.1
        omega
    intro a ha
    rcases List.mem_cons.mp ha with rfl | ha
    · exact ⟨hlo, hhi hrest⟩
    · have := ih hrest a ha
      omega

theorem Spaced.unique (h : Spaced first last lo hi l) : ∀ a ∈ l, ∀ b ∈ l, Covers first last x a →
    Covers first last x b → a = b := by
  induction l generalizing lo with
  | nil => simp
  | cons c l ih =>
    intro a ha b hb hca hcb
    have hlater : ∀ e ∈ l, Covers first last x e → ¬ Covers first last x c := by
      intro e he hce hcc
      have := (h.2.2.bounds e he).1
      have := hce.1
      have := hcc.2
      omega
    rcases List.mem_cons.mp ha with hac | hal
    · rcases List.mem_cons.mp hb with hbc | hbl
      · exact hac.trans hbc.symm
      · exact absurd (hac ▸ hca) (hlater b hbl hcb)
    · rcases List.mem_cons.mp hb with hbc | hbl
      · exact absurd (hbc ▸ hcb) (hlater a hal hca)
      · exact ih h.2.2 a hal b hbl hca hcb

theorem find?_narrow {p q : α → Bool} (hq : ∀ a ∈ l, q a = true → p a = true)
    (hone : ∀ a ∈ l, ∀ b ∈ l, p a = true → p b = true → a = b) :
    l.find? q = (l.find? p).filter q := by
  cases hp : l.find? p with
  | none =>
    rw [Option.filter_none, List.find?_eq_none]
    intro a ha hqa
    exact List.find?_eq_none.mp hp a ha (hq a ha hqa)
  | some a =>
    have hmem := List.mem_of_find?_eq_some hp
    have hpa := List.find?_some hp
    by_cases hqa : q a = true
    · rw [Option.filter_some_pos hqa]
      cases hf : l.find? q with
      | none => exact absurd hqa (List.find?_eq_none.mp hf a hmem)
      | some b =>
        have hb := List.mem_of_find?_eq_some hf
        rw [hone b hb a hmem (hq b hb (List.find?_some hf)) hpa]
    · rw [Option.filter_some_neg (Bool.eq_false_iff.mpr hqa), List.find?_eq_none]
      intro b hb hqb
      exact hqa (hone b hb a hmem (hq b hb hqb) hpa ▸ hqb)

end Leaf

section Descent

variable {κ α : Type} {first last : α → Nat} {key : κ → Nat}

theorem Split.le {β : Type} {inside : Nat → Nat → β → Prop} {lo hi : Nat} {l : List (κ × β)}
    (h : Split key inside lo hi l) : lo ≤ nextKey key hi l ∧ nextKey key hi l ≤ hi := by
  induction l generalizing lo with
  | nil => exact ⟨h, Nat.le_refl hi⟩
  | cons c l ih =>
    have hle := ih h.2.2
    exact ⟨h.1, Nat.le_trans hle.1 hle.2⟩

theorem reached_cons {d : Nat} (c : κ × Tree κ α d) (l : List (κ × Tree κ α d)) :
    reached (d + 1) (c :: l) = ((reached d c.2).map fun r => (c.1 :: r.1, r.2)) ++ reached (d + 1) l :=
  List.flatMap_cons

theorem Within.bounds {d lo hi : Nat} {t : Tree κ α d} (h : Within first last key d lo hi t) :
    ∀ r ∈ reached d t, lo ≤ first r.2 ∧ last r.2 ≤ hi := by
  induction d generalizing lo hi with
  | zero =>
    intro r hr
    obtain ⟨a, ha, rfl⟩ := List.mem_map.mp hr
    exact Spaced.bounds h a ha
  | succ d ih =>
    have hkids : ∀ {m : Nat} {l : List (κ × Tree κ α d)}, Split key (Within first last key d) m hi l →
        ∀ r ∈ reached (d + 1) l, m ≤ first r.2 ∧ last r.2 ≤ hi := by
      intro m l
      induction l generalizing m with
      | nil => intro _ r hr; cases hr
      | cons c l ihl =>
        intro hs r hr
        rw [reached_cons, List.mem_append] at hr
        have hmin := hs.1
        have hmax := hs.2.2.le
        rcases hr with hr | hr
        · obtain ⟨s, hsm, rfl⟩ := List.mem_map.mp hr
          have := ih hs.2.1 s hsm
          dsimp only
          omega
        · have := ihl hs.2.2 r hr
          omega
    exact hkids h

theorem Within.lookup_none {d lo hi x : Nat} {t : Tree κ α d} (h : Within first last key d lo hi t)
    (hx : x < lo ∨ hi ≤ x) : lookup first last d t x = none := by
  apply List.find?_eq_none.mpr
  intro r hr hc
  have hb := h.bounds r hr
  have hcov := of_decide_eq_true hc
  have := hcov.1
  have := hcov.2
  omega

theorem pick_best {β : Type} (x : Nat) (l : List (κ × β)) (best : Option (κ × β)) :
    pick key x l best = (pick key x l none).or best := by
  induction l generalizing best with
  | nil => rfl
  | cons c l ih =>
    by_cases hc : key c.1 ≤ x
    · have hl : pick key x (c :: l) best = pick key x l (some c) := if_pos hc
      have hr : pick key x (c :: l) none = pick key x l (some c) := if_pos hc
      rw [hl, hr, ih (some c), Option.or_assoc, Option.some_or]
    · have hl : pick key x (c :: l) best = best := if_neg hc
      have hr : pick key x (c :: l) none = none := if_neg hc
      rw [hl, hr, Option.none_or]

theorem pick_mem {β : Type} {x : Nat} {l : List (κ × β)} {c : κ × β} (h : pick key x l none = some c) : c ∈ l := by
  induction l with
  | nil => cases h
  | cons b l ih =>
    by_cases hb : key b.1 ≤ x
    · have hpick : pick key x (b :: l) none = (pick key x l none).or (some b) := (if_pos hb).trans (pick_best x l (some b))
      rw [hpick] at h
      cases hl : pick key x l none with
      | none =>
        rw [hl, Option.none_or] at h
        cases h
        exact List.mem_cons_self
      | some e =>
        rw [hl, Option.some_or] at h
        exact List.mem_cons_of_mem b (ih (hl.trans h))
    · have hpick : pick key x (b :: l) none = none := if_neg hb
      rw [hpick] at h
      cases h

theorem Split.inside {β : Type} {inside : Nat → Nat → β → Prop} {lo hi : Nat} {l : List (κ × β)} {c : κ × β}
    (h : Split key inside lo hi l) (hc : c ∈ l) : ∃ m n, inside m n c.2 := by
  induction l generalizing lo with
  | nil => cases hc
  | cons b l ih =>
    rcases List.mem_cons.mp hc with rfl | hc
    · exact ⟨_, _, h.2.1⟩
    · exact ih h.2.2 hc

theorem lookup_cons {d x : Nat} (c : κ × Tree κ α d) (l : List (κ × Tree κ α d)) :
    lookup first last (d + 1) (c :: l) x =
      ((lookup first last d c.2 x).map fun r => (c.1 :: r.1, r.2)).or (lookup first last (d + 1) l x) := by
  rw [lookup, reached_cons, List.find?_append, List.find?_map]
  rfl

theorem Within.lookup_pick {d lo hi : Nat} {kids : Tree κ α (d + 1)} (h : Within first last key (d + 1) lo hi kids)
    (x : Nat) : lookup first last (d + 1) kids x =
      (pick key x kids none).bind fun c => (lookup first last d c.2 x).map fun r => (c.1 :: r.1, r.2) := by
  have hkids : ∀ {m : Nat} (l : List (κ × Tree κ α d)), Split key (Within first last key d) m hi l →
      lookup first last (d + 1) l x =
        (pick key x l none).bind fun c => (lookup first last d c.2 x).map fun r => (c.1 :: r.1, r.2) := by
    intro m l
    induction l generalizing m with
    | nil => intro _; rfl
    | cons c l ih =>
      intro hs
      have hrest := ih hs.2.2
      by_cases hc : key c.1 ≤ x
      · have hpick : pick key x (c :: l) none = (pick key x l none).or (some c) :=
          (if_pos hc).trans (pick_best x l (some c))
        rw [hpick, lookup_cons]
        cases l with
        | nil => exact Option.or_none
        | cons c' l =>
          by_cases hc' : key c'.1 ≤ x
          · -- the next label is not beyond `x` either, so this child ends before `x`
            have hnone := hs.2.1.lookup_none (Or.inr hc')
            rw [hnone, Option.map_none, Option.none_or, hrest]
            have hsome : pick key x (c' :: l) none = (pick key x l none).or (some c') :=
              (if_pos hc').trans (pick_best x l (some c'))
            rw [hsome, Option.or_assoc, Option.some_or]
          · have hstop : pick key x (c' :: l) none = none := if_neg hc'
            rw [hrest, hstop, Option.none_or, Option.bind_none, Option.or_none, Option.bind_some]
      · have hpick : pick key x (c :: l) none = none := if_neg hc
        rw [hpick, Option.bind_none]
        have hall : Within first last key (d + 1) (key c.1) hi (c :: l) := ⟨Nat.le_refl _, hs.2⟩
        exact hall.lookup_none (Or.inl (by omega))
  exact hkids kids h

end Descent

end Ezos.Lib.KeyTree
