import Mathlib.Data.List.DropRight
import Mathlib.Data.List.Chain

/-!
# Rows of a text that is broken greedily

A text is a list of characters of which some are blanks and one is the newline. A row is filled
with at most `m` letters, and the blanks among them are not counted.
-/

namespace Ezos.Lib.Rows

set_option autoImplicit false

variable {α : Type} {blank : α → Bool} {nl : α} {m : Nat}

def letters (blank : α → Bool) (xs : List α) : Nat := xs.countP fun a => !blank a

def trim [DecidableEq α] (blank : α → Bool) (nl : α) (xs : List α) : List α :=
  xs.rdropWhile fun a => blank a || a == nl

def BlanksTrail (blank : α → Bool) (nl : α) (xs : List α) : Prop :=
  xs.IsChain fun a b => blank a → blank b ∨ b = nl

inductive Breaks (blank : α → Bool) (nl : α) (m : Nat) : List α → List α → List α → Prop
  | newline {p r : List α} : nl ∉ p → letters blank p ≤ m → Breaks blank nl m (p ++ nl :: r) (p ++ [nl]) r
  | full {xs row rest p r : List α} {c : α} : xs = row ++ rest → xs = p ++ c :: r → row <+: p →
      row ≠ [] → nl ∉ p → letters blank p = m → ¬ blank c → c ≠ nl → Breaks blank nl m xs row rest
  | trailing {p : List α} : p ≠ [] → nl ∉ p → letters blank p ≤ m → Breaks blank nl m p p []
  | blank {b : α} {p : List α} : nl ∉ b :: p → letters blank (b :: p) = 0 →
      Breaks blank nl m (b :: p) [b] p

def Ends (blank : α → Bool) (nl : α) (m : Nat) (xs : List α) : Prop := nl ∉ xs ∧ letters blank xs ≤ m

inductive Cuts (blank : α → Bool) (nl : α) (m : Nat) (xs : List α) : List (List α) → List α → Prop
  | none : Cuts blank nl m xs [] xs
  | next {rows : List (List α)} {mid row rest : List α} : Cuts blank nl m xs rows mid →
      Breaks blank nl m mid row rest → Cuts blank nl m xs (rows ++ [row]) rest

theorem Breaks.split {xs row rest : List α} (h : Breaks blank nl m xs row rest) :
    xs = row ++ rest := by
  cases h with
  | newline _ _ => rw [List.append_assoc, List.singleton_append]
  | full h _ _ _ _ _ _ _ => exact h
  | trailing _ _ _ => rw [List.append_nil]
  | blank _ _ => rfl

theorem Breaks.ne_nil {xs row rest : List α} (h : Breaks blank nl m xs row rest) : row ≠ [] := by
  cases h with
  | newline _ _ => simp
  | full _ _ _ h _ _ _ _ => exact h
  | trailing h _ _ => exact h
  | blank _ _ => simp

theorem Cuts.ne_nil {xs rest : List α} {rows : List (List α)} (h : Cuts blank nl m xs rows rest) :
    [] ∉ rows := by
  induction h with
  | none => exact List.not_mem_nil
  | next _ hb ih =>
    rw [List.mem_append, List.mem_singleton, not_or]
    exact ⟨ih, hb.ne_nil.symm⟩

theorem Cuts.split {xs rest : List α} {rows : List (List α)} (h : Cuts blank nl m xs rows rest) :
    xs = rows.flatten ++ rest := by
  induction h with
  | none => rfl
  | next _ hb ih => rw [ih, hb.split, List.flatten_append, List.flatten_singleton, List.append_assoc]

/-! ## The width of a row -/

def IsRow (blank : α → Bool) (nl : α) (m : Nat) (row : List α) : Prop :=
  ∃ q, nl ∉ q ∧ letters blank q ≤ m ∧ (row = q ∨ row = q ++ [nl])

theorem letters_append (xs ys : List α) :
    letters blank (xs ++ ys) = letters blank xs + letters blank ys := List.countP_append

theorem letters_le_of_prefix {p q : List α} (h : p <+: q) : letters blank p ≤ letters blank q :=
  h.sublist.countP_le

theorem Breaks.isRow {xs row rest : List α} (h : Breaks blank nl m xs row rest) :
    IsRow blank nl m row := by
  cases h with
  | newline hnl hm => exact ⟨_, hnl, hm, .inr rfl⟩
  | full _ _ hp _ hnl hm _ _ =>
    exact ⟨row, fun h => hnl (hp.subset h), hm ▸ letters_le_of_prefix hp, .inl rfl⟩
  | trailing _ hnl hm => exact ⟨_, hnl, hm, .inl rfl⟩
  | blank hnl hz =>
    rename_i b
    have hpre : [b] <+: b :: rest := ⟨rest, rfl⟩
    have : letters blank [b] ≤ letters blank (b :: rest) := letters_le_of_prefix hpre
    exact ⟨[b], fun h => hnl (hpre.subset h), by omega, .inl rfl⟩

theorem Ends.isRow {xs : List α} (h : Ends blank nl m xs) : IsRow blank nl m xs :=
  ⟨xs, h.1, h.2, .inl rfl⟩

theorem Cuts.isRow {xs rest : List α} {rows : List (List α)} (h : Cuts blank nl m xs rows rest) :
    ∀ row ∈ rows, IsRow blank nl m row := by
  induction h with
  | none => simp
  | next _ hb ih =>
    intro row hrow
    rcases List.mem_append.mp hrow with hrow | hrow
    · exact ih row hrow
    · rw [List.mem_singleton.mp hrow]
      exact hb.isRow

theorem BlanksTrail.letters_eq {q : List α} (h : BlanksTrail blank nl q) (hnl : nl ∉ q)
    (hlast : ∀ hq : q ≠ [], ¬ blank (q.getLast hq)) : letters blank q = q.length := by
  induction q with
  | nil => rfl
  | cons a q ih =>
    have ha : ¬ blank a := by
      cases q with
      | nil => exact hlast (List.cons_ne_nil a [])
      | cons b q =>
        intro hab
        rcases (List.isChain_cons_cons.mp h).1 hab with hb | hb
        · have := ih h.tail (by simp_all) (fun hq => by simpa using hlast (by simp))
          rw [letters, List.countP_eq_length] at this
          simpa [hb] using this b List.mem_cons_self
        · simp [hb] at hnl
    have := ih h.tail (by simp_all) (fun hq => by simpa [hq] using hlast (by simp))
    simpa [letters, ha] using this

section Trim
variable [DecidableEq α]

theorem trim_concat (q : List α) (c : α) :
    trim blank nl (q ++ [c]) = if blank c || c == nl then trim blank nl q else q ++ [c] :=
  List.rdropWhile_concat _ q c

theorem trim_append_nl (q : List α) : trim blank nl (q ++ [nl]) = trim blank nl q := by
  simp [trim_concat]

theorem trim_prefix (q : List α) : trim blank nl q <+: q := List.rdropWhile_prefix _ q

theorem trim_append_letter {u w : List α} {y : α} (h : ¬ blank y) (hy : y ≠ nl) :
    trim blank nl (u ++ y :: w) = u ++ y :: trim blank nl w := by
  induction w using List.reverseRecOn with
  | nil =>
    rw [trim_concat]
    simp [h, hy, trim]
  | append_singleton w c ih =>
    rw [← List.cons_append, ← List.append_assoc, trim_concat, trim_concat, ih]
    split <;> simp

theorem letters_le_trim {q : List α} (h : nl ∉ q) : letters blank q ≤ (trim blank nl q).length := by
  induction q using List.reverseRecOn with
  | nil => exact Nat.zero_le _
  | append_singleton q c ih =>
    rw [List.mem_append, not_or] at h
    have hle := ih h.1
    have hne : c ≠ nl := fun hc => h.2 (by simp [hc])
    rw [trim_concat, letters_append]
    by_cases hc : blank c
    · simpa [letters, hc] using hle
    · have hlen : letters blank q ≤ q.length := List.countP_le_length
      simpa [letters, hc, hne] using hlen

theorem BlanksTrail.trim_le {q : List α} (h : BlanksTrail blank nl q) (hnl : nl ∉ q) :
    (trim blank nl q).length ≤ letters blank q := by
  have hpre : trim blank nl q <+: q := trim_prefix q
  have heq := BlanksTrail.letters_eq ( List.IsChain.prefix h hpre) (fun hm => hnl (hpre.subset hm)) ?_
  · rw [← heq]
    exact letters_le_of_prefix hpre
  · intro hq hb
    apply List.rdropWhile_last_not _ _ hq
    simp only [trim] at hb
    simp [hb]

structure Stretch (nl : α) (xs a st z : List α) : Prop where
  split : xs = a ++ st ++ z
  before : a = [] ∨ ∃ a', a = a' ++ [nl]
  inside : nl ∉ st
  behind : z = [] ∨ ∃ z', z = nl :: z'

theorem exists_stretch (s : List α) {w : List α} (t : List α) (hw : nl ∉ w) :
    ∃ a u v z, Stretch nl (s ++ w ++ t) a (u ++ w ++ v) z := by
  have hs := List.rdropWhile_append_rtakeWhile (p := (· != nl)) (l := s)
  have ht := List.takeWhile_append_dropWhile (p := (· != nl)) (l := t)
  refine ⟨s.rdropWhile (· != nl), s.rtakeWhile (· != nl), t.takeWhile (· != nl),
    t.dropWhile (· != nl), ?_, ?_, ?_, ?_⟩
  · calc s ++ w ++ t
        = (s.rdropWhile (· != nl) ++ s.rtakeWhile (· != nl)) ++ w ++
            (t.takeWhile (· != nl) ++ t.dropWhile (· != nl)) := by rw [hs, ht]
      _ = _ := by simp only [List.append_assoc]
  · rcases List.eq_nil_or_concat (s.rdropWhile (· != nl)) with h | ⟨a', x, h⟩
    · exact .inl h
    · have hx := List.rdropWhile_last_not (· != nl) s (by simp [h])
      simp only [h, List.getLast_concat, bne_iff_ne, ne_eq, not_not, List.concat_eq_append]
        at hx
      exact .inr ⟨a', by rw [h, hx, List.concat_eq_append]⟩
  · simp only [List.mem_append, not_or]
    refine ⟨⟨?_, hw⟩, ?_⟩
    · intro h
      simpa using List.mem_rtakeWhile_imp h
    · intro h
      simpa using List.mem_takeWhile_imp h
  · have hz := List.head?_dropWhile_not (· != nl) t
    cases h : t.dropWhile (· != nl) with
    | nil => exact .inl rfl
    | cons x z' =>
      rw [h] at hz
      have hx : x = nl := by simpa using hz
      exact .inr ⟨z', by rw [hx]⟩

theorem exists_wide_stretch {xs : List α} (h : ¬ BlanksTrail blank nl xs) (hnl : ¬ blank nl) :
    ∃ a st z, Stretch nl xs a st z ∧ 0 < letters blank st ∧
      letters blank st < (trim blank nl st).length := by
  rw [BlanksTrail, List.isChain_iff_forall_rel_of_append_cons_cons] at h
  push Not at h
  obtain ⟨x, y, s, t, rfl, hx, hy, hne⟩ := h
  have hxnl : x ≠ nl := by
    rintro rfl
    exact hnl hx
  have hpair : nl ∉ [x, y] := by simp [hxnl.symm, hne.symm]
  obtain ⟨a, u, v, z, hst⟩ := exists_stretch s t hpair
  refine ⟨a, u ++ [x, y] ++ v, z, by simpa using hst, ?_, ?_⟩
  · have hy' : 0 < letters blank [y] := by simp [letters, hy]
    have hsplit : u ++ [x, y] ++ v = (u ++ [x]) ++ [y] ++ v := by simp
    rw [hsplit, letters_append, letters_append]
    omega
  · have hv : nl ∉ v := fun hm => hst.inside (by simp [hm])
    have hle : letters blank v ≤ (trim blank nl v).length := letters_le_trim hv
    have hu : letters blank u ≤ u.length := List.countP_le_length
    have hsplit : u ++ [x, y] ++ v = (u ++ [x]) ++ y :: v := by simp
    rw [hsplit, trim_append_letter (by simpa using hy) hne]
    simp only [letters, List.countP_append, List.countP_cons, List.countP_nil, List.length_append,
      List.length_cons, List.length_nil, hx, hy] at hle hu ⊢
    simp
    omega

end Trim

def Taken (nl : α) (st row : List α) : Prop := row = st ∨ row = st ++ [nl]

def Ahead (nl : α) (st z xs : List α) : Prop := ∃ a, Stretch nl xs a st z

theorem prefix_of_nl {p r a w : List α} (hp : nl ∉ p) (h : p ++ r = a ++ nl :: w) : p <+: a := by
  rcases List.append_eq_append_iff.mp h with ⟨c, ha, _⟩ | ⟨c, hpc, hc⟩
  · exact ⟨c, ha.symm⟩
  · cases c with
    | nil => exact ⟨[], by simpa using hpc⟩
    | cons x c =>
      obtain ⟨rfl, -⟩ := List.cons.inj hc
      simp [hpc] at hp

theorem Stretch.front {p r st z : List α} (h : Stretch nl (p ++ r) [] st z) (hp : nl ∉ p) :
    p <+: st := by
  have hsplit := h.split
  rw [List.nil_append] at hsplit
  rcases h.behind with rfl | ⟨z', rfl⟩
  · exact ⟨r, by simpa using hsplit⟩
  · exact prefix_of_nl hp hsplit

theorem Breaks.taken {xs row rest st z : List α} (h : Breaks blank nl m xs row rest)
    (hst : Stretch nl xs [] st z) (hm : letters blank st ≤ m) (hpos : 0 < letters blank st) :
    Taken nl st row := by
  have hsplit := hst.split
  rw [List.nil_append] at hsplit
  cases h with
  | newline hnl hle =>
    obtain ⟨d, rfl⟩ := hst.front hnl
    cases d with
    | nil => exact .inr (by rw [List.append_nil])
    | cons x d =>
      rw [List.append_assoc] at hsplit
      obtain ⟨rfl, -⟩ := List.cons.inj (List.append_cancel_left hsplit)
      exact absurd hst.inside (by simp)
  | full hrow hxs hp hne hnl hle hc hcnl =>
    rename_i p r c
    subst hxs
    rw [← List.singleton_append, ← List.append_assoc] at hst
    have hclear : nl ∉ p ++ [c] := by simp [hnl, hcnl.symm]
    have hpre : letters blank (p ++ [c]) ≤ letters blank st := letters_le_of_prefix (hst.front hclear)
    rw [letters_append] at hpre
    have : letters blank [c] = 1 := by simp [letters, hc]
    omega
  | trailing _ hnl _ =>
    rcases hst.behind with rfl | ⟨z', rfl⟩
    · exact .inl (by rw [hsplit, List.append_nil])
    · simp [hsplit] at hnl
  | blank hnl hz =>
    rw [hsplit, letters_append] at hz
    omega

theorem Breaks.ahead {xs row rest a st z : List α} (h : Breaks blank nl m xs row rest)
    (hst : Stretch nl xs (a ++ [nl]) st z) : Ahead nl st z rest := by
  have hsplit : xs = a ++ nl :: (st ++ z) := by
    rw [hst.split]
    simp
  have hrest (d : List α) (hd : rest = d ++ nl :: (st ++ z)) : Ahead nl st z rest :=
    ⟨d ++ [nl], by rw [hd]; simp, .inr ⟨d, rfl⟩, hst.inside, hst.behind⟩
  cases h with
  | newline hnl _ =>
    obtain ⟨d, rfl⟩ := prefix_of_nl hnl hsplit
    rw [List.append_assoc] at hsplit
    have hd := List.append_cancel_left hsplit
    cases d with
    | nil =>
      obtain ⟨-, rfl⟩ := List.cons.inj hd
      exact ⟨[], rfl, .inl rfl, hst.inside, hst.behind⟩
    | cons x d => exact hrest d (List.cons.inj hd).2
  | full hrow hxs hp _ hnl _ _ _ =>
    obtain ⟨d, rfl⟩ := hp.trans (prefix_of_nl hnl (hxs.symm.trans hsplit))
    apply hrest d
    rw [hrow, List.append_assoc] at hsplit
    exact List.append_cancel_left hsplit
  | trailing _ hnl _ => simp [hsplit] at hnl
  | blank hnl _ => simp [hsplit] at hnl

theorem Cuts.taken {xs rest a st z : List α} {rows : List (List α)}
    (h : Cuts blank nl m xs rows rest) (hend : Ends blank nl m rest) (hst : Stretch nl xs a st z)
    (hm : letters blank st ≤ m) (hpos : 0 < letters blank st) :
    ∃ row ∈ rows ++ [rest], Taken nl st row := by
  have hrun : (∃ row ∈ rows, Taken nl st row) ∨ Ahead nl st z rest := by
    clear hend
    induction h with
    | none => exact .inr ⟨a, hst⟩
    | next _ hb ih =>
      rcases ih with ⟨row, hrow, htaken⟩ | ⟨b, hb'⟩
      · exact .inl ⟨row, List.mem_append_left _ hrow, htaken⟩
      · rcases hb'.before with rfl | ⟨c, rfl⟩
        · exact .inl ⟨_, List.mem_concat_self, hb.taken hb' hm hpos⟩
        · exact .inr (hb.ahead hb')
  rcases hrun with ⟨row, hrow, htaken⟩ | ⟨b, hb⟩
  · exact ⟨row, List.mem_append_left _ hrow, htaken⟩
  · refine ⟨rest, List.mem_concat_self, .inl ?_⟩
    have hsplit := hb.split
    rcases hb.before with rfl | ⟨c, rfl⟩
    · rcases hb.behind with rfl | ⟨z', rfl⟩
      · simpa using hsplit
      · exact absurd hend.1 (by simp [hsplit])
    · exact absurd hend.1 (by simp [hsplit])

end Ezos.Lib.Rows
