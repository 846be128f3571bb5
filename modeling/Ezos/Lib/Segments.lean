import Mathlib.Data.List.Basic
import Mathlib.Data.List.TakeWhile
import Mathlib.Order.Basic

/-!
# Segments of a list between separators

`segs sep l` are the nonempty runs of `l` between occurrences of `sep`. `step` keeps a stack of segments
under two kinds of segments that are not pushed: those that stay where they are and those that pop.
-/

namespace Ezos.Lib.Segments

set_option autoImplicit false

universe u
variable {α : Type u} [BEq α] [LawfulBEq α] {sep : α} {l r w : List α} {ss : List (List α)}

def segs (sep : α) (l : List α) : List (List α) := (l.splitOn sep).filter fun s => !s.isEmpty

def join (sep : α) (ss : List (List α)) : List α := ss.flatMap fun s => sep :: s

def IsSeg (sep : α) (s : List α) : Prop := s ≠ [] ∧ sep ∉ s

omit [LawfulBEq α] in
@[simp] theorem segs_nil : segs sep ([] : List α) = [] := by
  rw [segs, List.splitOn_nil]
  rfl

@[simp] theorem segs_append_sep : segs sep (l ++ sep :: r) = segs sep l ++ segs sep r := by
  rw [segs, List.splitOn_append_cons_self, List.filter_append]
  rfl

@[simp] theorem segs_cons_sep : segs sep (sep :: r) = segs sep r := by
  have h := @segs_append_sep α _ _ sep [] r
  rwa [List.nil_append, segs_nil, List.nil_append] at h

theorem segs_of_isSeg (h : IsSeg sep w) : segs sep w = [w] := by
  rw [segs, List.splitOn_eq_singleton h.2]
  simp [h.1]

theorem segs_isSeg_append (h : IsSeg sep w) : segs sep (w ++ sep :: r) = w :: segs sep r := by
  rw [segs_append_sep, segs_of_isSeg h]
  rfl

theorem segs_join (h : ∀ s ∈ ss, IsSeg sep s) : segs sep (join sep ss) = ss := by
  induction ss with
  | nil => exact segs_nil
  | cons s ss ih =>
    have hs := h s List.mem_cons_self
    have hrest := ih fun t ht => h t (List.mem_cons_of_mem _ ht)
    have hjoin : join sep (s :: ss) = sep :: (s ++ join sep ss) := rfl
    rw [hjoin, segs_cons_sep]
    cases ss with
    | nil =>
      have hnil : join sep ([] : List (List α)) = [] := rfl
      rw [hnil, List.append_nil, segs_of_isSeg hs]
    | cons t ss =>
      have hnext : join sep (t :: ss) = sep :: (t ++ join sep ss) := rfl
      rw [hnext, segs_cons_sep] at hrest
      rw [hnext, segs_isSeg_append hs, hrest]

theorem segs_dropWhile (l : List α) : segs sep (l.dropWhile (· == sep)) = segs sep l := by
  induction l with
  | nil => rfl
  | cons c l ih =>
    by_cases hc : c = sep
    · subst hc
      rw [List.dropWhile_cons_of_pos (by simp), segs_cons_sep, ih]
    · rw [List.dropWhile_cons_of_neg (by simpa using hc)]

theorem segs_takeWhile {c : α} (hc : c ≠ sep) : segs sep (c :: l) =
    (c :: l).takeWhile (· != sep) :: segs sep ((c :: l).dropWhile (· != sep)) := by
  have hseg : IsSeg sep ((c :: l).takeWhile (· != sep)) := by
    refine ⟨?_, fun hmem => ?_⟩
    · rw [List.takeWhile_cons_of_pos (by simpa using hc)]
      exact List.cons_ne_nil _ _
    · have hno := List.mem_takeWhile_imp hmem
      simp at hno
  have hsplit := List.takeWhile_append_dropWhile (p := (· != sep)) (l := c :: l)
  cases hrest : (c :: l).dropWhile (· != sep) with
  | nil =>
    rw [hrest, List.append_nil] at hsplit
    rw [segs_nil]
    conv_lhs => rw [← hsplit]
    exact segs_of_isSeg hseg
  | cons d r =>
    have hd : d = sep := by
      have hhead := List.head_dropWhile_not (· != sep) (by rw [hrest]; exact List.cons_ne_nil d r)
      simpa [hrest] using hhead
    subst hd
    rw [hrest] at hsplit
    conv_lhs => rw [← hsplit]
    rw [segs_isSeg_append hseg, segs_cons_sep]

theorem segs_induction (sep : α) {motive : List α → Prop} (hnil : motive [])
    (hsep : ∀ r, motive r → motive (sep :: r)) (hlast : ∀ w, IsSeg sep w → motive w)
    (hcons : ∀ w r, IsSeg sep w → motive r → motive (w ++ sep :: r)) (l : List α) : motive l := by
  induction hn : l.length using Nat.strongRecOn generalizing l with
  | ind n ih =>
    subst hn
    by_cases hmem : sep ∈ l
    · obtain ⟨w, r, rfl, hno⟩ := List.eq_append_cons_of_mem hmem
      have hr : motive r := ih r.length (by simp; omega) r rfl
      cases w with
      | nil => exact hsep r hr
      | cons c w => exact hcons (c :: w) r ⟨List.cons_ne_nil c w, hno⟩ hr
    · cases l with
      | nil => exact hnil
      | cons c l => exact hlast (c :: l) ⟨List.cons_ne_nil c l, hmem⟩

theorem isSeg_of_mem_segs {s : List α} (h : s ∈ segs sep l) : IsSeg sep s := by
  induction l using segs_induction sep with
  | hnil => cases h
  | hsep r ih =>
    rw [segs_cons_sep] at h
    exact ih h
  | hlast w hw =>
    rw [segs_of_isSeg hw] at h
    exact List.mem_singleton.mp h ▸ hw
  | hcons w r hw ih =>
    rw [segs_isSeg_append hw] at h
    rcases List.mem_cons.mp h with rfl | h
    · exact hw
    · exact ih h

theorem mem_of_mem_segs {s : List α} (h : s ∈ segs sep l) : ∀ c ∈ s, c ∈ l := by
  induction l using segs_induction sep with
  | hnil => cases h
  | hsep r ih =>
    rw [segs_cons_sep] at h
    exact fun c hc => List.mem_cons_of_mem _ (ih h c hc)
  | hlast w hw =>
    rw [segs_of_isSeg hw, List.mem_singleton] at h
    exact h ▸ fun c hc => hc
  | hcons w r hw ih =>
    rw [segs_isSeg_append hw] at h
    rcases List.mem_cons.mp h with rfl | h
    · exact fun c hc => List.mem_append_left _ hc
    · exact fun c hc => List.mem_append_right _ (List.mem_cons_of_mem _ (ih h c hc))

theorem exists_segs_of_mem {c : α} (h : c ∈ l) (hc : c ≠ sep) : ∃ s ∈ segs sep l, c ∈ s := by
  induction l using segs_induction sep with
  | hnil => cases h
  | hsep r ih =>
    rw [segs_cons_sep]
    exact ih (List.mem_of_ne_of_mem hc h)
  | hlast w hw =>
    rw [segs_of_isSeg hw]
    exact ⟨w, List.mem_singleton_self w, h⟩
  | hcons w r hw ih =>
    rw [segs_isSeg_append hw]
    rcases List.mem_append.mp h with h | h
    · exact ⟨w, List.mem_cons_self, h⟩
    · obtain ⟨s, hs, hcs⟩ := ih (List.mem_of_ne_of_mem hc h)
      exact ⟨s, List.mem_cons_of_mem _ hs, hcs⟩

omit [BEq α] [LawfulBEq α] in
@[simp] theorem join_nil : join sep ([] : List (List α)) = [] := rfl

omit [BEq α] [LawfulBEq α] in
theorem join_cons (s : List α) (ss : List (List α)) : join sep (s :: ss) = sep :: s ++ join sep ss := rfl

omit [BEq α] [LawfulBEq α] in
theorem length_join_cons (s : List α) (ss : List (List α)) :
    (join sep (s :: ss)).length = s.length + 1 + (join sep ss).length := by
  rw [join_cons, List.length_append, List.length_cons]

theorem length_join_segs_le (l : List α) : (join sep (segs sep l)).length ≤ l.length + 1 := by
  induction l using segs_induction sep with
  | hnil => exact Nat.zero_le _
  | hsep r ih =>
    rw [segs_cons_sep, List.length_cons]
    omega
  | hlast w hw =>
    rw [segs_of_isSeg hw, length_join_cons]
    exact Nat.le_refl _
  | hcons w r hw ih =>
    rw [segs_isSeg_append hw, length_join_cons, List.length_append, List.length_cons]
    omega

section Stack

variable {β : Type u} (stays pops : β → Bool)

def step (st : List β) (c : β) : List β :=
  if stays c then st else if pops c then st.dropLast else st ++ [c]

def norm (cs : List β) : List β := cs.foldl (step stays pops) []

variable {stays pops} {cs ds st : List β} {c : β}

theorem step_of_pushed (h1 : stays c = false) (h2 : pops c = false) :
    step stays pops st c = st ++ [c] := by
  rw [step, h1, h2]
  rfl

theorem foldl_step_of_pushed (h : ∀ c ∈ cs, stays c = false ∧ pops c = false) (st : List β) :
    cs.foldl (step stays pops) st = st ++ cs := by
  induction cs generalizing st with
  | nil => exact (List.append_nil st).symm
  | cons c cs ih =>
    obtain ⟨h1, h2⟩ := h c List.mem_cons_self
    rw [List.foldl_cons, step_of_pushed h1 h2, ih fun d hd => h d (List.mem_cons_of_mem _ hd),
      List.append_assoc]
    rfl

theorem norm_of_pushed (h : ∀ c ∈ cs, stays c = false ∧ pops c = false) : norm stays pops cs = cs :=
  foldl_step_of_pushed h []

theorem step_sublist (st : List β) (c : β) : (step stays pops st c).Sublist (st ++ [c]) := by
  unfold step
  split
  · exact List.sublist_append_left st [c]
  · split
    · exact (List.dropLast_sublist st).trans (List.sublist_append_left st [c])
    · exact List.Sublist.refl _

theorem foldl_step_sublist (cs st : List β) : (cs.foldl (step stays pops) st).Sublist (st ++ cs) := by
  induction cs generalizing st with
  | nil =>
    rw [List.append_nil]
    exact List.Sublist.refl _
  | cons c cs ih =>
    have hnext := (ih (step stays pops st c)).trans ((step_sublist st c).append_right cs)
    rwa [List.append_assoc] at hnext

theorem norm_sublist (cs : List β) : (norm stays pops cs).Sublist cs := foldl_step_sublist cs []

theorem forall_mem_norm {P : β → Prop} (h : ∀ c ∈ cs, P c) : ∀ c ∈ norm stays pops cs, P c :=
  fun c hc => h c ((norm_sublist cs).subset hc)

theorem pushed_of_mem_foldl (h : ∀ c ∈ st, stays c = false ∧ pops c = false) :
    ∀ c ∈ cs.foldl (step stays pops) st, stays c = false ∧ pops c = false := by
  induction cs generalizing st with
  | nil => exact h
  | cons d cs ih =>
    refine ih fun c hc => ?_
    unfold step at hc
    split at hc
    · exact h c hc
    · rename_i hstay
      split at hc
      · exact h c ((List.dropLast_sublist st).subset hc)
      · rename_i hpop
        rcases List.mem_append.mp hc with hc | hc
        · exact h c hc
        · rw [List.mem_singleton.mp hc]
          exact ⟨Bool.not_eq_true _ ▸ hstay, Bool.not_eq_true _ ▸ hpop⟩

theorem pushed_of_mem_norm : ∀ c ∈ norm stays pops cs, stays c = false ∧ pops c = false :=
  pushed_of_mem_foldl fun _ hc => absurd hc (List.not_mem_nil)

def undone (stays pops : β → Bool) : Nat → List β → Bool
  | _, [] => false
  | depth, c :: cs =>
    if stays c then undone stays pops depth cs
    else if pops c then
      match depth with
      | 0 => true
      | depth + 1 => undone stays pops depth cs
    else undone stays pops (depth + 1) cs

def firstKept (stays pops : β → Bool) : List β → Option β
  | [] => none
  | c :: cs => if stays c || pops c || undone stays pops 0 cs then firstKept stays pops cs else some c

theorem foldl_step_of_undone (h : undone stays pops st.length cs = true) :
    cs.foldl (step stays pops) (c :: st) = cs.foldl (step stays pops) st := by
  induction cs generalizing st with
  | nil => cases h
  | cons d cs ih =>
    unfold undone at h
    rw [List.foldl_cons, List.foldl_cons, step, step]
    by_cases hstay : stays d = true
    · rw [if_pos hstay] at h
      rw [if_pos hstay, if_pos hstay]
      exact ih h
    · rw [if_neg hstay] at h
      rw [if_neg hstay, if_neg hstay]
      by_cases hpop : pops d = true
      · rw [if_pos hpop] at h
        rw [if_pos hpop, if_pos hpop]
        cases st with
        | nil => rfl
        | cons e st =>
          rw [List.dropLast_cons_of_ne_nil (List.cons_ne_nil e st)]
          apply ih
          rw [List.length_dropLast]
          exact h
      · rw [if_neg hpop] at h
        rw [if_neg hpop, if_neg hpop, List.cons_append]
        apply ih
        rw [List.length_append]
        exact h

theorem head?_foldl_step_of_not_undone (h : undone stays pops st.length cs = false) :
    (cs.foldl (step stays pops) (c :: st)).head? = some c := by
  induction cs generalizing st with
  | nil => rfl
  | cons d cs ih =>
    unfold undone at h
    rw [List.foldl_cons, step]
    by_cases hstay : stays d = true
    · rw [if_pos hstay] at h
      rw [if_pos hstay]
      exact ih h
    · rw [if_neg hstay] at h
      rw [if_neg hstay]
      by_cases hpop : pops d = true
      · rw [if_pos hpop] at h
        rw [if_pos hpop]
        cases st with
        | nil => cases h
        | cons e st =>
          rw [List.dropLast_cons_of_ne_nil (List.cons_ne_nil e st)]
          apply ih
          rw [List.length_dropLast]
          exact h
      · rw [if_neg hpop] at h
        rw [if_neg hpop, List.cons_append]
        apply ih
        rw [List.length_append]
        exact h

theorem head?_norm : (norm stays pops cs).head? = firstKept stays pops cs := by
  induction cs with
  | nil => rfl
  | cons c cs ih =>
    rw [norm, List.foldl_cons, firstKept]
    by_cases hstay : stays c = true
    · rw [step, if_pos hstay, hstay]
      exact ih
    · by_cases hpop : pops c = true
      · rw [step, if_neg hstay, if_pos hpop, hpop, Bool.or_true, Bool.true_or]
        exact ih
      · rw [Bool.not_eq_true] at hstay hpop
        rw [step_of_pushed hstay hpop, hstay, hpop, Bool.false_or, Bool.false_or, List.nil_append]
        cases hun : undone stays pops 0 cs with
        | true =>
          rw [foldl_step_of_undone hun]
          exact ih
        | false => exact head?_foldl_step_of_not_undone hun

theorem norm_norm : norm stays pops (norm stays pops cs) = norm stays pops cs :=
  norm_of_pushed pushed_of_mem_norm

end Stack

end Ezos.Lib.Segments
