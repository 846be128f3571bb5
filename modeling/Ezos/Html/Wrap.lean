import Mathlib.Data.List.Infix
import Ezos.Html.Scanners
import Ezos.Lib.Rows

/-!
# Breaking a text into rows (`ezos_rs/src/html.rs`, UTF-8 断行)

`utf8_wrap_rs` breaks a text that `utf8_width_rs` measures. Both step over it with `seq_ok`, so
the text is a list of cells, and the breaker is followed cell by cell. As in the page parser a
text lies in one 32-bit address space, so that no position wraps.
-/

namespace Ezos.Html

open Lib Lib.Checked

set_option autoImplicit false

def seqLen (b : U8) : Nat :=
  if b < 0x80 then 1
  else if b &&& 0xE0 = 0xC0 then 2
  else if b &&& 0xF0 = 0xE0 then 3
  else if b &&& 0xF8 = 0xF0 then 4
  else 1

def isCont (b : U8) : Bool := b &&& 0xC0 = 0x80

/-- The loop of `seq_ok` over the bytes behind the first. -/
def contLoop (src : List U8) (at' l : Nat) : Prog Nat :=
  loop (fun i =>
    if i < l then do
      let c ← load src (at' + i)
      if isCont c then pure (.again (i + 1)) else pure (.leave 1)
    else pure (.leave l)) l 1

def seqOk (src : List U8) (at' : Nat) : Prog Nat := do
  let b ← load src at'
  if b < 0x80 then pure 1
  else if b = 0xC0 ∨ b = 0xC1 ∨ b ≥ 0xF5 then pure 1
  else if at' + seqLen b > src.length then pure 1
  else contLoop src at' (seqLen b)

def widthTurn (s : List U8) (x : Nat × Nat) : Prog (Turn (Nat × Nat) Nat) :=
  if x.1 < s.length then do
    let l ← seqOk s x.1
    pure (.again (x.1 + l, x.2 + 1))
  else pure (.leave x.2)

def utf8Width (s : List U8) : Prog Nat := loop (widthTurn s) (s.length + 1) (0, 0)

def newline : U8 := 0x0A

def isBlank (b : U8) : Bool := b = 0x20 ∨ b = 0x09

structure Row where
  j : Nat
  col : Nat
  space : Option Nat
  filled : Nat
  hitNl : Bool

def rowTurn (text : List U8) (maxChars : Nat) (r : Row) : Prog (Turn Row Row) :=
  if r.j < text.length then do
    let b ← load text r.j
    if b = newline then pure (.leave { r with hitNl := true, j := r.j + 1 })
    else if isBlank b then pure (.again { r with space := some r.j, j := r.j + 1 })
    else if r.col ≥ maxChars then pure (.leave r)
    else do
      let l ← seqOk text r.j
      pure (.again { r with col := r.col + 1, j := r.j + l, filled := r.j + l })
  else pure (.leave r)

def scanRow (text : List U8) (maxChars i : Nat) : Prog Row :=
  loop (rowTurn text maxChars) (text.length - i + 1) ⟨i, 0, none, i, false⟩

def nextRow (text : List U8) (i : Nat) (r : Row) : Prog (Option Nat) :=
  if r.hitNl then pure (some r.j)
  else if r.filled ≥ text.length then pure none
  else if r.filled = i then do
    let l ← seqOk text i
    pure (if i + l ≤ i then none else some (i + l))
  else
    match r.space with
    | some s =>
      if s > i then do
        let ns ← scanTo text text.length (fun c => !isBlank c) s
        pure (some ns)
      else pure (some r.filled)
    | none => pure (some r.filled)

def wrapTurn (text : List U8) (maxChars : Nat) (x : Nat × Nat × List Nat) :
    Prog (Turn (Nat × Nat × List Nat) (Nat × List Nat)) :=
  if x.1 < text.length then
    if x.2.1 ≥ x.2.2.length then pure (.leave x.2)
    else do
      let r ← scanRow text maxChars x.1
      match ← nextRow text x.1 r with
      | none => pure (.leave x.2)
      | some p => do
        let starts ← store x.2.2 x.2.1 p
        pure (.again (p, x.2.1 + 1, starts))
  else pure (.leave x.2)

/-- The count of lines and `starts`, a buffer of `max_out` numbers. -/
def utf8Wrap (text : List U8) (maxChars : Nat) (starts : List Nat) : Prog (Nat × List Nat) :=
  if starts.length = 0 then pure (0, starts)
  else do
    let starts ← store starts 0 0
    if text.length = 0 ∨ maxChars = 0 then pure (0, starts)
    else loop (wrapTurn text maxChars) (text.length + 1) (0, 1, starts)

inductive Counted (text : List U8) : Nat → Prop
  | start : Counted text 0
  | next {i l : Nat} : Counted text i → i < text.length → seqOk text i = .ok l → Counted text (i + l)

structure WellPlaced (text : List U8) (maxOut : Nat) (r : Nat × List Nat) : Prop where
  length : r.2.length = maxOut
  room : r.1 ≤ maxOut
  first : r.2[0]? = some 0
  increasing : ∀ j k, j < k → k < r.1 → r.2.getD j 0 < r.2.getD k 0
  bounded : ∀ k, k < r.1 → r.2.getD k 0 ≤ text.length
  counted : ∀ k, k < r.1 → Counted text (r.2.getD k 0)

def isTrailing (b : U8) : Bool := isBlank b ∨ b = newline

def trimmed (line : List U8) : List U8 := line.rdropWhile isTrailing

def lineOf (text : List U8) (r : Nat × List Nat) (k : Nat) : List U8 :=
  (text.drop (r.2.getD k 0)).take
    ((if k + 1 < r.1 then r.2.getD (k + 1) 0 else text.length) - r.2.getD k 0)

/-- Unless `max_out` is exhausted, no line is wider than the page. -/
def LinesFit (text : List U8) (maxChars : Nat) (r : Nat × List Nat) : Prop :=
  r.1 < r.2.length →
    ∀ k, k < r.1 → Yields (utf8Width (trimmed (lineOf text r k))) fun w => w ≤ maxChars

def BlanksTrail (text : List U8) : Prop :=
  text.IsChain fun a b => isBlank a → isBlank b ∨ b = newline

def Roomy (maxChars : Nat) (text : List U8) : Prop :=
  ∀ s, s <:+: text → newline ∉ s →
    BlanksTrail s ∨ Yields (utf8Width (trimmed s)) fun w => w ≤ maxChars

/-! ## Cells -/

/-- `seq_ok` at the start of the bytes that are left. -/
def cellLen : List U8 → Nat
  | [] => 1
  | b :: rest =>
    if b < 0x80 then 1
    else if b = 0xC0 ∨ b = 0xC1 ∨ b ≥ 0xF5 then 1
    else if seqLen b > rest.length + 1 then 1
    else if (rest.take (seqLen b - 1)).all isCont then seqLen b
    else 1

theorem one_le_seqLen (b : U8) : 1 ≤ seqLen b := by
  unfold seqLen
  split_ifs <;> omega

theorem one_le_cellLen (t : List U8) : 1 ≤ cellLen t := by
  cases t with
  | nil => exact Nat.le_refl 1
  | cons b rest =>
    have := one_le_seqLen b
    simp only [cellLen]
    split_ifs <;> omega

def cells : List U8 → List (List U8)
  | [] => []
  | b :: rest =>
    (b :: rest).take (cellLen (b :: rest)) :: cells ((b :: rest).drop (cellLen (b :: rest)))
  termination_by t => t.length
  decreasing_by
    have := one_le_cellLen (b :: rest)
    rw [List.length_drop, List.length_cons]
    omega

theorem cells_cons {t : List U8} (h : t ≠ []) :
    cells t = t.take (cellLen t) :: cells (t.drop (cellLen t)) := by
  cases t with
  | nil => exact absurd rfl h
  | cons b rest => rw [cells]

theorem cellLen_le {t : List U8} (h : t ≠ []) : cellLen t ≤ t.length := by
  cases t with
  | nil => exact absurd rfl h
  | cons b rest =>
    simp only [cellLen, List.length_cons]
    split_ifs <;> omega

def IsCell (c : List U8) : Prop := c.length = 1 ∨ c ≠ [] ∧ ∀ b ∈ c, ¬ b < 0x80

theorem IsCell.ne_nil {c : List U8} (h : IsCell c) : c ≠ [] := by
  rintro rfl
  rcases h with h | h
  · cases h
  · exact h.1 rfl

theorem not_ascii_of_isCont {b : U8} (h : isCont b) : ¬ b < 0x80 := by
  revert h b
  decide

theorem isCell_take {t : List U8} (h : t ≠ []) : IsCell (t.take (cellLen t)) := by
  cases t with
  | nil => exact absurd rfl h
  | cons b rest =>
    have hpos := one_le_seqLen b
    simp only [cellLen]
    split_ifs with hascii hbad hshort hcont
    · exact .inl rfl
    · exact .inl rfl
    · exact .inl rfl
    · refine .inr ⟨?_, ?_⟩
      · apply List.ne_nil_of_length_pos
        rw [List.length_take, List.length_cons]
        omega
      · obtain ⟨m, hm⟩ : ∃ m, seqLen b = m + 1 := ⟨seqLen b - 1, by omega⟩
        rw [hm, List.take_succ_cons]
        rw [hm, Nat.add_sub_cancel, List.all_eq_true] at hcont
        intro c hc
        rcases List.mem_cons.mp hc with rfl | hc
        · exact hascii
        · exact not_ascii_of_isCont (hcont c hc)
    · exact .inl rfl

theorem isCell_of_mem_cells {t c : List U8} (h : c ∈ cells t) : IsCell c := by
  induction t using cells.induct with
  | case1 => simp [cells] at h
  | case2 b rest ih =>
    rw [cells] at h
    rcases List.mem_cons.mp h with rfl | h
    · exact isCell_take (List.cons_ne_nil b rest)
    · exact ih h

theorem flatten_cells (t : List U8) : (cells t).flatten = t := by
  induction t using cells.induct with
  | case1 => rw [cells, List.flatten_nil]
  | case2 b rest ih => rw [cells, List.flatten_cons, ih, List.take_append_drop]

theorem cellLen_append {x u v : List U8} (hx : x ≠ []) (hu : u <+: v)
    (h : cellLen (x ++ v) = x.length) : cellLen (x ++ u) = x.length := by
  obtain ⟨w, rfl⟩ := hu
  cases x with
  | nil => exact absurd rfl hx
  | cons b y =>
    simp only [List.cons_append, cellLen, List.length_append, List.length_cons] at h ⊢
    by_cases hshort : seqLen b ≤ y.length + u.length + 1
    · have htake : (y ++ (u ++ w)).take (seqLen b - 1) = (y ++ u).take (seqLen b - 1) := by
        rw [← List.append_assoc]
        exact List.take_append_of_le_length (by rw [List.length_append]; omega)
      rw [htake] at h
      split_ifs at h ⊢ <;> omega
    · split_ifs at h ⊢ <;> omega

theorem cells_append {t : List U8} {xs ys : List (List U8)} (h : cells t = xs ++ ys) :
    cells xs.flatten = xs ∧ cells ys.flatten = ys := by
  induction xs generalizing t with
  | nil =>
    rw [List.nil_append] at h
    rw [← h, flatten_cells]
    exact ⟨by rw [List.flatten_nil, cells], rfl⟩
  | cons x xs ih =>
    have ht : t ≠ [] := by
      rintro rfl
      simp [cells] at h
    rw [cells_cons ht, List.cons_append] at h
    obtain ⟨rfl, hrest⟩ := List.cons.inj h
    obtain ⟨hxs, hys⟩ := ih hrest
    refine ⟨?_, hys⟩
    have hne : t.take (cellLen t) ≠ [] := (isCell_take ht).ne_nil
    have hlen : (t.take (cellLen t)).length = cellLen t := by
      rw [List.length_take, Nat.min_eq_left (cellLen_le ht)]
    have hpre : xs.flatten <+: t.drop (cellLen t) := by
      rw [← flatten_cells (t.drop (cellLen t)), hrest, List.flatten_append]
      exact List.prefix_append _ _
    have hcell := cellLen_append hne hpre (by rw [List.take_append_drop, hlen])
    rw [List.flatten_cons, cells_cons (by simp [hne]), hcell, List.take_left, List.drop_left, hxs]

theorem contLoop_yields {src : List U8} {at' l : Nat} (hl : 1 ≤ l) (hlen : at' + l ≤ src.length) :
    Yields (contLoop src at' l) fun r =>
      r = if ((src.drop (at' + 1)).take (l - 1)).all isCont then l else 1 := by
  refine yields_loop
    (fun i => 1 ≤ i ∧ i ≤ l ∧ ((src.drop (at' + i)).take (l - i)).all isCont =
      ((src.drop (at' + 1)).take (l - 1)).all isCont)
    (fun i => l - i) ?_ ⟨Nat.le_refl 1, hl, rfl⟩ (by omega)
  rintro i ⟨hi, hil, hall⟩
  refine yields_ite ?_ ?_
  · intro hlt
    refine (yields_load (by omega)).bind ?_
    intro c hc
    have hdrop : src.drop (at' + i) = c :: src.drop (at' + (i + 1)) :=
      (List.drop_eq_getElem?_toList_append ..).trans (by rw [hc]; rfl)
    obtain ⟨m, hm⟩ : ∃ m, l - i = m + 1 := ⟨l - (i + 1), by omega⟩
    rw [hdrop, hm, List.take_succ_cons, List.all_cons] at hall
    refine yields_ite ?_ ?_
    · intro hcont
      refine yields_pure ⟨⟨by omega, hlt, ?_⟩, by omega⟩
      rw [← hall, hcont, Bool.true_and, show l - (i + 1) = m by omega]
    · intro hcont
      apply yields_pure
      rw [← hall, Bool.eq_false_iff.mpr hcont]
      rfl
  · intro hle
    obtain rfl : i = l := by omega
    apply yields_pure
    rw [← hall, Nat.sub_self]
    rfl

theorem seqOk_yields {src : List U8} {at' : Nat} (h : at' < src.length) :
    Yields (seqOk src at') fun l => l = cellLen (src.drop at') := by
  refine (yields_load h).bind ?_
  intro b hb
  have hdrop : src.drop at' = b :: src.drop (at' + 1) :=
    (List.drop_eq_getElem?_toList_append ..).trans (by rw [hb]; rfl)
  have hlen : (src.drop (at' + 1)).length + 1 = src.length - at' := by
    rw [List.length_drop]
    omega
  rw [hdrop]
  simp only [cellLen, hlen]
  refine yields_ite ?_ ?_
  · intro hascii
    rw [if_pos hascii]
    exact yields_pure rfl
  intro hascii
  rw [if_neg hascii]
  refine yields_ite ?_ ?_
  · intro hbad
    rw [if_pos hbad]
    exact yields_pure rfl
  intro hbad
  rw [if_neg hbad]
  refine yields_ite ?_ ?_
  · intro hshort
    rw [if_pos (by omega)]
    exact yields_pure rfl
  · intro hshort
    rw [if_neg (by omega)]
    exact contLoop_yields (one_le_seqLen b) (by omega)

theorem utf8Width_yields (s : List U8) : Yields (utf8Width s) fun w => w = (cells s).length := by
  refine yields_loop
    (fun x => x.1 ≤ s.length ∧ x.2 + (cells (s.drop x.1)).length = (cells s).length)
    (fun x => s.length - x.1) ?_ ⟨Nat.zero_le _, by rw [List.drop_zero, Nat.zero_add]⟩ (by omega)
  rintro ⟨i, w⟩ ⟨hi, hw⟩
  refine yields_ite ?_ ?_
  · intro hlt
    refine (seqOk_yields hlt).bind ?_
    rintro _ rfl
    have hne : s.drop i ≠ [] := by
      apply List.ne_nil_of_length_pos
      rw [List.length_drop]
      omega
    have hle := cellLen_le hne
    have hpos := one_le_cellLen (s.drop i)
    rw [List.length_drop] at hle
    rw [cells_cons hne, List.drop_drop, List.length_cons] at hw
    dsimp only at hlt ⊢
    refine yields_pure ⟨⟨?_, ?_⟩, ?_⟩ <;> dsimp only <;> omega
  · intro hge
    obtain rfl : i = s.length := Nat.le_antisymm hi (Nat.le_of_not_lt hge)
    rw [List.drop_length, cells, List.length_nil] at hw
    exact yields_pure hw

/-! ### The text as a list of cells -/

def blankCell (c : List U8) : Bool := c.all isBlank

def nlCell : List U8 := [newline]

theorem ascii_of_isBlank {b : U8} (h : isBlank b) : b < 0x80 := by
  revert h b
  decide

theorem ascii_of_isTrailing {b : U8} (h : isTrailing b) : b < 0x80 := by
  revert h b
  decide

theorem IsCell.eq_of_ascii {b : U8} {y : List U8} (h : IsCell (b :: y)) (hb : b < 0x80) : y = [] := by
  rcases h with h | h
  · simpa using h
  · exact absurd hb (h.2 b List.mem_cons_self)

theorem IsCell.eq_singleton {c : List U8} {b : U8} (h : IsCell c) (hb : b ∈ c) (hascii : b < 0x80) :
    c = [b] := by
  rcases h with h | h
  · obtain ⟨x, rfl⟩ := List.length_eq_one_iff.mp h
    rw [List.mem_singleton.mp hb]
  · exact absurd hascii (h.2 b hb)

theorem blankCell_cons {b : U8} {y : List U8} (h : IsCell (b :: y)) :
    blankCell (b :: y) = isBlank b := by
  rw [blankCell, List.all_cons]
  cases hb : isBlank b with
  | false => rfl
  | true =>
    rw [h.eq_of_ascii (ascii_of_isBlank hb)]
    rfl

theorem cons_eq_nlCell {b : U8} {y : List U8} (h : IsCell (b :: y)) :
    b :: y = nlCell ↔ b = newline := by
  constructor
  · intro heq
    exact (List.cons.inj heq).1
  · rintro rfl
    rw [h.eq_of_ascii (by decide)]
    rfl

theorem not_blankCell_nlCell : ¬ blankCell nlCell := by decide

section Cells
variable {xs : List (List U8)} (hxs : ∀ c ∈ xs, IsCell c)
include hxs

theorem newline_mem_flatten : newline ∈ xs.flatten ↔ nlCell ∈ xs := by
  rw [List.mem_flatten]
  constructor
  · rintro ⟨c, hc, hmem⟩
    rw [nlCell, ← (hxs c hc).eq_singleton hmem (by decide)]
    exact hc
  · intro h
    exact ⟨nlCell, h, List.mem_singleton_self _⟩

theorem blanksTrail_flatten :
    BlanksTrail xs.flatten ↔ Rows.BlanksTrail blankCell nlCell xs := by
  have hnil : [] ∉ xs := fun h => (hxs [] h).ne_nil rfl
  rw [BlanksTrail, List.isChain_flatten hnil]
  have hinner : ∀ c ∈ xs, c.IsChain fun a b => isBlank a → isBlank b ∨ b = newline := by
    intro c hc
    rcases hxs c hc with h | h
    · obtain ⟨b, rfl⟩ := List.length_eq_one_iff.mp h
      simp
    · rw [List.isChain_iff_forall_rel_of_append_cons_cons]
      rintro a b u v rfl ha
      exact absurd (ascii_of_isBlank ha) (h.2 a (by simp))
  rw [and_iff_right hinner, Rows.BlanksTrail]
  apply List.IsChain.iff_of_mem_imp
  intro c d hc hd
  have hcc := hxs c hc
  have hdd := hxs d hd
  obtain ⟨b, y, rfl⟩ := List.exists_cons_of_ne_nil hdd.ne_nil
  rw [blankCell_cons hdd, cons_eq_nlCell hdd]
  constructor
  · intro h hblank
    obtain ⟨a, x, rfl⟩ := List.exists_cons_of_ne_nil hcc.ne_nil
    rw [blankCell_cons hcc] at hblank
    obtain rfl := hcc.eq_of_ascii (ascii_of_isBlank hblank)
    exact h a (by simp) b (by simp) hblank
  · intro h a ha b' hb' hblank
    obtain rfl : b = b' := by simpa using hb'
    rw [hcc.eq_singleton (List.mem_of_getLast? ha) (ascii_of_isBlank hblank)] at h
    exact h (by simp [blankCell, hblank])

theorem trimmed_flatten : trimmed xs.flatten = (Rows.trim blankCell nlCell xs).flatten := by
  induction xs using List.reverseRecOn with
  | nil => rfl
  | append_singleton xs c ih =>
    have hc := hxs c (by simp)
    have ih := ih fun d hd => hxs d (by simp [hd])
    rw [Rows.trim_concat, List.flatten_append, List.flatten_singleton]
    rcases List.eq_nil_or_concat c with rfl | ⟨y, b, rfl⟩
    · exact absurd rfl hc.ne_nil
    · rw [List.concat_eq_append, ← List.append_assoc, trimmed, List.rdropWhile_concat]
      rw [List.concat_eq_append] at hc
      by_cases hb : isTrailing b
      · obtain rfl : y = [] := by
          simpa using hc.eq_singleton (b := b) (by simp) (ascii_of_isTrailing hb)
        rw [if_pos hb, if_pos (by simpa [blankCell, nlCell, isTrailing] using hb), List.append_nil]
        exact ih
      · obtain ⟨hblank, hnl⟩ : isBlank b = false ∧ b ≠ newline := by simpa [isTrailing] using hb
        have hcell : y ++ [b] ≠ nlCell := by
          intro h
          simpa [nlCell, hnl] using congrArg List.getLast? h
        rw [if_neg hb, if_neg (by simp [blankCell, hblank, hcell]), List.append_assoc]
        simp

end Cells

def Stands (text : List U8) (i : Nat) (xs : List (List U8)) : Prop :=
  i ≤ text.length ∧ cells (text.drop i) = xs

section Stands
variable {text : List U8} {i : Nat} {xs : List (List U8)}

theorem Stands.start (text : List U8) : Stands text 0 (cells text) :=
  ⟨Nat.zero_le _, by rw [List.drop_zero]⟩

theorem Stands.drop_eq (h : Stands text i xs) : text.drop i = xs.flatten := by
  rw [← h.2, flatten_cells]

theorem Stands.length_eq (h : Stands text i xs) : i + xs.flatten.length = text.length := by
  have hi := h.1
  rw [← h.drop_eq, List.length_drop]
  omega

theorem Stands.isCell (h : Stands text i xs) : ∀ c ∈ xs, IsCell c := by
  intro c hc
  apply isCell_of_mem_cells (t := text.drop i)
  rw [h.2]
  exact hc

theorem Stands.flatten_length_pos {ys : List (List U8)} (hys : ys ≠ []) (h : ∀ c ∈ ys, IsCell c) :
    0 < ys.flatten.length := by
  cases ys with
  | nil => exact absurd rfl hys
  | cons c ys =>
    have := List.length_pos_iff.mpr (h c List.mem_cons_self).ne_nil
    rw [List.flatten_cons, List.length_append]
    omega

theorem Stands.eq_nil (h : Stands text i xs) (hi : text.length ≤ i) : xs = [] := by
  rw [← h.2, List.drop_eq_nil_of_le hi, cells]

theorem Stands.lt (h : Stands text i xs) (hxs : xs ≠ []) : i < text.length := by
  apply Nat.lt_of_not_le
  intro hi
  exact hxs (h.eq_nil hi)

theorem Stands.move {p rest : List (List U8)} (h : Stands text i (p ++ rest)) :
    Stands text (i + p.flatten.length) rest := by
  have hlen := h.length_eq
  rw [List.flatten_append, List.length_append] at hlen
  refine ⟨by omega, ?_⟩
  rw [← List.drop_drop, h.drop_eq, List.flatten_append, List.drop_left]
  exact (cells_append h.2).2

theorem Stands.step {c : List U8} (h : Stands text i (c :: xs)) : Stands text (i + c.length) xs := by
  simpa using Stands.move (p := [c]) h

theorem Stands.head {b : U8} {y : List U8} (h : Stands text i ((b :: y) :: xs)) :
    text[i]? = some b := by
  rw [← List.head?_drop, h.drop_eq]
  rfl

theorem Stands.seqOk_eq {c : List U8} (h : Stands text i (c :: xs)) : seqOk text i = .ok c.length := by
  have hi := h.lt (List.cons_ne_nil c xs)
  obtain ⟨_, heq, rfl⟩ := seqOk_yields hi
  have hne : text.drop i ≠ [] := by
    intro hnil
    rw [List.drop_eq_nil_iff] at hnil
    omega
  have hc := h.2
  rw [cells_cons hne] at hc
  rw [heq, ← (List.cons.inj hc).1, List.length_take, Nat.min_eq_left (cellLen_le hne)]

theorem Stands.load_head {b : U8} {y : List U8} (h : Stands text i ((b :: y) :: xs)) :
    load text i = .ok b := load_eq h.head

end Stands

def LastBlank (i : Nat) (p : List (List U8)) : Option Nat → Prop
  | none => ∀ c ∈ p, ¬ blankCell c
  | some s => ∃ u b v, p = u ++ b :: v ∧ blankCell b ∧ (∀ c ∈ v, ¬ blankCell c) ∧
      s = i + u.flatten.length

structure Scan (i maxChars : Nat) (p : List (List U8)) (r : Row) : Prop where
  noNl : nlCell ∉ p
  col : r.col = Rows.letters blankCell p
  le : r.col ≤ maxChars
  filled : r.filled = i + (p.rdropWhile blankCell).flatten.length
  space : LastBlank i p r.space

theorem Scan.start (i maxChars : Nat) : Scan i maxChars [] ⟨i, 0, none, i, false⟩ :=
  ⟨List.not_mem_nil, rfl, Nat.zero_le _, rfl, fun _ h => absurd h List.not_mem_nil⟩

theorem Scan.blank {i maxChars j : Nat} {p : List (List U8)} {c : List U8} {r : Row}
    (h : Scan i maxChars p r) (hc : blankCell c) (hnl : c ≠ nlCell) :
    Scan i maxChars (p ++ [c]) { r with space := some (i + p.flatten.length), j := j } where
  noNl := by simp [h.noNl, hnl.symm]
  col := by rw [Rows.letters_append, h.col]; simp [Rows.letters, hc]
  le := h.le
  filled := by rw [List.rdropWhile_concat_pos _ _ _ hc]; exact h.filled
  space := ⟨p, c, [], rfl, hc, fun _ h => absurd h List.not_mem_nil, rfl⟩

theorem Scan.letter {i maxChars : Nat} {p : List (List U8)} {c : List U8} {r : Row}
    (h : Scan i maxChars p r) (hc : ¬ blankCell c) (hnl : c ≠ nlCell) (hlt : r.col < maxChars)
    (hj : r.j = i + p.flatten.length) :
    Scan i maxChars (p ++ [c])
      { r with col := r.col + 1, j := r.j + c.length, filled := r.j + c.length } where
  noNl := by simp [h.noNl, hnl.symm]
  col := by rw [Rows.letters_append, h.col]; simp [Rows.letters, hc]
  le := hlt
  filled := by
    rw [List.rdropWhile_concat_neg _ _ _ hc, List.flatten_append, List.length_append, hj]
    simp [Nat.add_assoc]
  space := by
    have hspace := h.space
    cases hs : r.space with
    | none =>
      rw [hs] at hspace
      intro d hd
      rcases List.mem_append.mp hd with hd | hd
      · exact hspace d hd
      · rw [List.mem_singleton.mp hd]
        exact hc
    | some s =>
      rw [hs] at hspace
      obtain ⟨u, b, v, rfl, hb, hv, rfl⟩ := hspace
      refine ⟨u, b, v ++ [c], by simp, hb, ?_, rfl⟩
      intro d hd
      rcases List.mem_append.mp hd with hd | hd
      · exact hv d hd
      · rw [List.mem_singleton.mp hd]
        exact hc

def RowEnd (i maxChars : Nat) (p rest : List (List U8)) (r : Row) : Prop :=
  (r.hitNl = true ∧ r.j = i + p.flatten.length + 1 ∧ ∃ rest', rest = nlCell :: rest') ∨
    (r.hitNl = false ∧ rest = []) ∨
    (r.hitNl = false ∧ Rows.letters blankCell p = maxChars ∧
      ∃ c rest', rest = c :: rest' ∧ ¬ blankCell c ∧ c ≠ nlCell)

theorem scanRow_yields {text : List U8} {i maxChars : Nat} {xs : List (List U8)}
    (h : Stands text i xs) :
    Yields (scanRow text maxChars i) fun r =>
      ∃ p rest, xs = p ++ rest ∧ Scan i maxChars p r ∧ RowEnd i maxChars p rest r := by
  refine yields_loop
    (fun r => ∃ p rest, xs = p ++ rest ∧ Scan i maxChars p r ∧ r.hitNl = false ∧
      r.j = i + p.flatten.length)
    (fun r => text.length - r.j) ?_ ⟨[], xs, rfl, Scan.start i maxChars, rfl, rfl⟩ (by simp)
  rintro r ⟨p, rest, rfl, hscan, hhit, hj⟩
  have hat := h.move
  rw [← hj] at hat
  have hcells := hat.isCell
  cases rest with
  | nil =>
    have hlen := hat.length_eq
    refine yields_ite ?_ ?_
    · intro hlt
      simp at hlen
      omega
    · intro _
      exact yields_pure ⟨p, [], rfl, hscan, .inr (.inl ⟨hhit, rfl⟩)⟩
  | cons c rest =>
    obtain ⟨b, y, rfl⟩ := List.exists_cons_of_ne_nil (hcells c List.mem_cons_self).ne_nil
    have hcell := hcells _ List.mem_cons_self
    have hlt := hat.lt (List.cons_ne_nil _ _)
    have hstep := hat.step.1
    have hsplit : p ++ (b :: y) :: rest = (p ++ [b :: y]) ++ rest := by simp
    rw [List.length_cons] at hstep
    rw [rowTurn, if_pos hlt, hat.load_head]
    change Yields (if b = newline then _ else _) _
    refine yields_ite ?_ ?_
    · intro hb
      rw [(cons_eq_nlCell hcell).mpr hb]
      exact yields_pure ⟨p, _, rfl, ⟨hscan.noNl, hscan.col, hscan.le, hscan.filled, hscan.space⟩,
        .inl ⟨rfl, by rw [hj], rest, rfl⟩⟩
    intro hb
    have hnl : b :: y ≠ nlCell := fun heq => hb ((cons_eq_nlCell hcell).mp heq)
    refine yields_ite ?_ ?_
    · intro hblank
      obtain rfl := hcell.eq_of_ascii (ascii_of_isBlank hblank)
      refine yields_pure ⟨⟨p ++ [[b]], rest, hsplit, ?_, hhit, ?_⟩, ?_⟩
      · rw [hj]
        exact hscan.blank ((blankCell_cons hcell).trans hblank) hnl
      · simp [hj, Nat.add_assoc]
      · dsimp only
        omega
    intro hblank
    have hletter : ¬ blankCell (b :: y) := by
      rw [blankCell_cons hcell]
      exact hblank
    refine yields_ite ?_ ?_
    · intro hfull
      refine yields_pure ⟨p, _, rfl, hscan, .inr (.inr ⟨hhit, ?_, _, _, rfl, hletter, hnl⟩)⟩
      rw [← hscan.col]
      exact Nat.le_antisymm hscan.le hfull
    · intro hroom
      rw [hat.seqOk_eq]
      refine yields_pure ⟨⟨p ++ [b :: y], rest, hsplit, ?_, hhit, ?_⟩, ?_⟩
      · exact hscan.letter hletter hnl (Nat.lt_of_not_le hroom) hj
      · simp [hj, Nat.add_assoc]
      · simp only [List.length_cons]
        omega

/-! ## A row -/

theorem skipBlank_yields {text : List U8} {s : Nat} {b : List U8} {v : List (List U8)}
    (h : Stands text s (b :: v)) (hb : blankCell b) (hv : ∀ c v', v = c :: v' → ¬ blankCell c) :
    Yields (scanTo text text.length (fun c => !isBlank c) s) fun k => k = s + b.length := by
  have hcell := h.isCell b List.mem_cons_self
  obtain ⟨a, y, rfl⟩ := List.exists_cons_of_ne_nil hcell.ne_nil
  rw [blankCell_cons hcell] at hb
  obtain rfl := hcell.eq_of_ascii (ascii_of_isBlank hb)
  have hlt := h.lt (List.cons_ne_nil _ _)
  refine yields_loop (fun k => k = s ∨ k = s + 1) (fun k => text.length - k) ?_ (.inl rfl) (by omega)
  rintro k (rfl | rfl)
  · rw [if_pos hlt, h.load_head]
    change Yields (if !isBlank a then _ else _) _
    rw [if_neg (by simp [hb])]
    exact yields_pure ⟨.inr rfl, by omega⟩
  · refine yields_ite ?_ ?_
    · intro hlt'
      cases v with
      | nil =>
        have := h.length_eq
        simp at this
        omega
      | cons c v =>
        have hstep := h.step
        have hcell' := hstep.isCell c List.mem_cons_self
        obtain ⟨d, z, rfl⟩ := List.exists_cons_of_ne_nil hcell'.ne_nil
        have hd := hv _ _ rfl
        rw [blankCell_cons hcell'] at hd
        rw [show s + 1 = s + [a].length from rfl, hstep.load_head]
        change Yields (if !isBlank d then _ else _) _
        rw [if_pos (by simp [hd])]
        exact yields_pure rfl
    · intro _
      exact yields_pure rfl

theorem rdropWhile_of_last {p v : List (List U8)} {b : List U8} (hv : v ≠ [])
    (h : ∀ c ∈ v, ¬ blankCell c) : (p ++ b :: v).rdropWhile blankCell = p ++ b :: v := by
  rw [List.rdropWhile_eq_self_iff]
  intro hne
  rw [List.getLast_append_of_ne_nil _ (List.cons_ne_nil b v), List.getLast_cons hv]
  exact h _ (List.getLast_mem hv)

def Found (i maxChars : Nat) (xs : List (List U8)) : Option Nat → Prop
  | none => Rows.Ends blankCell nlCell maxChars xs
  | some k => ∃ row rest, Rows.Breaks blankCell nlCell maxChars xs row rest ∧
      k = i + row.flatten.length

section NextRow
variable {text : List U8} {i maxChars : Nat} {p : List (List U8)} {r : Row}

theorem Scan.letters_le (h : Scan i maxChars p r) : Rows.letters blankCell p ≤ maxChars :=
  h.col ▸ h.le

theorem Scan.letters_eq_zero (h : Scan i maxChars p r) (hp : ∀ c ∈ p, IsCell c)
    (hfilled : r.filled = i) : Rows.letters blankCell p = 0 := by
  have hdrop : p.rdropWhile blankCell = [] := by
    by_contra hne
    have hpos := Stands.flatten_length_pos hne fun c hc => hp c ((List.rdropWhile_prefix _ _).subset hc)
    have := h.filled
    omega
  rw [List.rdropWhile_eq_nil_iff] at hdrop
  rw [Rows.letters, List.countP_eq_zero]
  intro c hc
  simp [hdrop c hc]

theorem nextRow_at_end (hat : Stands text i p) (hi : i < text.length) (hscan : Scan i maxChars p r)
    (hhit : r.hitNl = false) : Yields (nextRow text i r) (Found i maxChars p) := by
  have hlen := hat.length_eq
  have hp : p ≠ [] := by
    rintro rfl
    simp at hlen
    omega
  rw [nextRow, if_neg (by simp [hhit])]
  refine yields_ite ?_ ?_
  · intro _
    exact yields_pure ⟨hscan.noNl, hscan.letters_le⟩
  intro hlt
  refine yields_ite ?_ ?_
  · intro hfilled
    have hzero := hscan.letters_eq_zero hat.isCell hfilled
    have hnl := hscan.noNl
    cases p with
    | nil => exact absurd rfl hp
    | cons b p =>
      rw [hat.seqOk_eq]
      have := List.length_pos_iff.mpr (hat.isCell b List.mem_cons_self).ne_nil
      refine yields_pure ?_
      rw [if_neg (by omega)]
      exact ⟨[b], p, .blank hnl hzero, by simp⟩
  intro hfilled
  have hspace := hscan.space
  have hends : p.rdropWhile blankCell ≠ p := by
    intro heq
    have := hscan.filled
    rw [heq] at this
    omega
  cases hs : r.space with
  | none =>
    rw [hs] at hspace
    exact absurd (List.rdropWhile_eq_self_iff.mpr fun h => hspace _ (List.getLast_mem h)) hends
  | some s =>
    rw [hs] at hspace
    obtain ⟨u, b, v, rfl, hb, hv, rfl⟩ := hspace
    obtain rfl : v = [] := by
      by_contra hne
      exact hends (rdropWhile_of_last hne hv)
    have hu : u ≠ [] := by
      rintro rfl
      apply hfilled
      rw [hscan.filled, List.nil_append, List.rdropWhile_singleton, if_pos hb]
      rfl
    have hpos := Stands.flatten_length_pos hu fun c hc => hat.isCell c (by simp [hc])
    dsimp only
    rw [if_pos (by omega)]
    refine (skipBlank_yields hat.move hb (by simp)).bind ?_
    rintro _ rfl
    refine yields_pure ⟨_, _, .trailing hp hscan.noNl hscan.letters_le, ?_⟩
    simp [Nat.add_assoc]

theorem nextRow_full {c : List U8} {rest : List (List U8)} (hmax : 0 < maxChars)
    (hat : Stands text i (p ++ c :: rest)) (hscan : Scan i maxChars p r) (hhit : r.hitNl = false)
    (hfull : Rows.letters blankCell p = maxChars) (hc : ¬ blankCell c) (hcnl : c ≠ nlCell) :
    Yields (nextRow text i r) (Found i maxChars (p ++ c :: rest)) := by
  have hlen := hat.length_eq
  have hpre : p.rdropWhile blankCell <+: p := List.rdropWhile_prefix _ _
  have hcells : ∀ d ∈ p, IsCell d := fun d hd => hat.isCell d (List.mem_append_left _ hd)
  have hrest := Stands.flatten_length_pos (List.cons_ne_nil c rest)
    fun d hd => hat.isCell d (List.mem_append_right _ hd)
  rw [List.flatten_append, List.length_append] at hlen
  have hfilled : r.filled ≠ i := by
    intro h
    have := hscan.letters_eq_zero hcells h
    omega
  have hle : (p.rdropWhile blankCell).flatten.length ≤ p.flatten.length := by
    obtain ⟨t, ht⟩ := hpre
    have := congrArg (fun l => l.flatten.length) ht
    simp only [List.flatten_append, List.length_append] at this
    omega
  have hcut : Found i maxChars (p ++ c :: rest) (some r.filled) := by
    refine ⟨p.rdropWhile blankCell, p.rtakeWhile blankCell ++ c :: rest, ?_, hscan.filled⟩
    refine .full ?_ rfl hpre ?_ hscan.noNl hfull hc hcnl
    · rw [← List.append_assoc, List.rdropWhile_append_rtakeWhile]
    · intro hnil
      apply hfilled
      rw [hscan.filled, hnil]
      rfl
  have hspace := hscan.space
  rw [nextRow, if_neg (by simp [hhit]), if_neg (by have := hscan.filled; omega), if_neg hfilled]
  cases hs : r.space with
  | none => exact yields_pure hcut
  | some s =>
    rw [hs] at hspace
    obtain ⟨u, b, v, rfl, hb, hv, rfl⟩ := hspace
    refine yields_ite ?_ ?_
    · intro _
      have hat' : Stands text (i + u.flatten.length) (b :: (v ++ c :: rest)) := by
        apply Stands.move
        simpa using hat
      refine (skipBlank_yields hat' hb ?_).bind ?_
      · intro d v' hd
        cases v with
        | nil =>
          obtain ⟨rfl, -⟩ := List.cons.inj hd
          exact hc
        | cons e v =>
          obtain ⟨rfl, -⟩ := List.cons.inj hd
          exact hv _ List.mem_cons_self
      rintro _ rfl
      refine yields_pure ⟨u ++ [b], v ++ c :: rest, ?_, by simp [Nat.add_assoc]⟩
      refine .full (by simp) rfl ⟨v, by simp⟩ (by simp) hscan.noNl hfull hc hcnl
    · intro _
      exact yields_pure hcut

theorem nextRow_yields {rest : List (List U8)} (hmax : 0 < maxChars) (hat : Stands text i (p ++ rest))
    (hi : i < text.length) (hscan : Scan i maxChars p r) (hend : RowEnd i maxChars p rest r) :
    Yields (nextRow text i r) (Found i maxChars (p ++ rest)) := by
  rcases hend with ⟨hhit, hj, rest', rfl⟩ | ⟨hhit, rfl⟩ | ⟨hhit, hfull, c, rest', rfl, hc, hcnl⟩
  · rw [nextRow, if_pos hhit]
    refine yields_pure ⟨_, _, .newline hscan.noNl hscan.letters_le, ?_⟩
    rw [hj]
    simp [nlCell, Nat.add_assoc]
  · rw [List.append_nil] at hat ⊢
    exact nextRow_at_end hat hi hscan hhit
  · exact nextRow_full hmax hat hscan hhit hfull hc hcnl

end NextRow

structure Broken (text : List U8) (maxChars maxOut : Nat) (rows : List (List (List U8)))
    (rest : List (List U8)) (r : Nat × List Nat) : Prop where
  cuts : Rows.Cuts blankCell nlCell maxChars (cells text) rows rest
  lines : r.1 = rows.length + 1
  length : r.2.length = maxOut
  room : r.1 ≤ maxOut
  starts : ∀ k, k ≤ rows.length → r.2.getD k 0 = (rows.take k).flatten.flatten.length

section Broken
variable {text : List U8} {maxChars maxOut : Nat} {rows : List (List (List U8))}
  {rest : List (List U8)} {r : Nat × List Nat}

theorem Broken.stands (h : Broken text maxChars maxOut rows rest r) :
    Stands text rows.flatten.flatten.length rest := by
  have hat := Stands.start text
  rw [h.cuts.split] at hat
  simpa using hat.move

theorem Broken.next {row rest' : List (List U8)} (h : Broken text maxChars maxOut rows rest r)
    (hb : Rows.Breaks blankCell nlCell maxChars rest row rest') (hroom : r.1 < maxOut) :
    Broken text maxChars maxOut (rows ++ [row]) rest'
      (r.1 + 1, r.2.set r.1 (rows ++ [row]).flatten.flatten.length) where
  cuts := h.cuts.next hb
  lines := by rw [h.lines]; simp
  length := by rw [List.length_set]; exact h.length
  room := hroom
  starts := by
    intro k hk
    rw [List.length_append, List.length_singleton] at hk
    have hlines := h.lines
    have hlength := h.length
    rcases Nat.lt_or_ge rows.length k with hlt | hge
    · obtain rfl : k = r.1 := by omega
      rw [List.getD_eq_getElem?_getD, List.getElem?_set_self (by omega),
        List.take_of_length_le (by simp; omega)]
      rfl
    · rw [List.getD_eq_getElem?_getD, List.getElem?_set_ne (by omega),
        ← List.getD_eq_getElem?_getD, h.starts k hge, List.take_append_of_le_length hge]

theorem wrapLoop_yields {starts : List Nat} (hmax : 0 < maxChars) (hlen : 0 < starts.length)
    (hfirst : starts.getD 0 0 = 0) :
    Yields (loop (wrapTurn text maxChars) (text.length + 1) (0, 1, starts)) fun r =>
      ∃ rows rest, Broken text maxChars starts.length rows rest r ∧
        (r.1 < starts.length → Rows.Ends blankCell nlCell maxChars rest) := by
  refine yields_loop
    (fun x => ∃ rows rest, Broken text maxChars starts.length rows rest x.2 ∧
      x.1 = rows.flatten.flatten.length)
    (fun x => text.length - x.1) ?_
    ⟨[], cells text, ⟨.none, rfl, rfl, Nat.succ_le_of_lt hlen, ?_⟩, rfl⟩ (by simp)
  · rintro ⟨i, r⟩ ⟨rows, rest, h, hi⟩
    dsimp only at h hi
    have hat := h.stands
    rw [← hi] at hat
    refine yields_ite ?_ ?_
    · intro hlt
      dsimp only at hlt
      refine yields_ite ?_ ?_
      · intro hfull
        have hlength := h.length
        refine yields_pure ⟨rows, rest, h, fun hroom => ?_⟩
        dsimp only at hfull hroom
        omega
      intro hroom
      dsimp only at hroom
      have hlength := h.length
      refine (scanRow_yields hat).bind ?_
      rintro row ⟨p, q, rfl, hscan, hend⟩
      refine (nextRow_yields hmax hat hlt hscan hend).bind ?_
      intro o ho
      cases o with
      | none => exact yields_pure ⟨rows, p ++ q, h, fun _ => ho⟩
      | some k =>
        obtain ⟨row, rest', hb, rfl⟩ := ho
        have hk : i + row.flatten.length = (rows ++ [row]).flatten.flatten.length := by
          rw [hi]
          simp
        have hcells := hat.isCell
        have hlen := hat.length_eq
        rw [hb.split] at hcells hlen
        have hpos := Stands.flatten_length_pos hb.ne_nil
          fun c hc => hcells c (List.mem_append_left _ hc)
        refine (yields_store (Nat.lt_of_not_le hroom)).bind ?_
        rintro _ rfl
        refine yields_pure ⟨⟨rows ++ [row], rest', ?_, hk⟩, ?_⟩
        · rw [hk]
          exact h.next hb (hlength ▸ Nat.lt_of_not_le hroom)
        · dsimp only
          omega
    · intro hge
      obtain rfl := hat.eq_nil (Nat.le_of_not_lt hge)
      exact yields_pure ⟨rows, [], h, fun _ => ⟨List.not_mem_nil, Nat.zero_le _⟩⟩
  · intro k hk
    obtain rfl : k = 0 := by simpa using hk
    exact hfirst

theorem counted_of_split {xs ys : List (List U8)} (h : cells text = xs ++ ys) :
    Counted text xs.flatten.length := by
  induction xs using List.reverseRecOn generalizing ys with
  | nil => exact .start
  | append_singleton xs c ih =>
    rw [List.append_assoc, List.singleton_append] at h
    have hat := Stands.start text
    rw [h] at hat
    have hat := hat.move
    rw [Nat.zero_add] at hat
    rw [List.flatten_append, List.length_append, List.flatten_singleton]
    exact (ih h).next (hat.lt (List.cons_ne_nil _ _)) hat.seqOk_eq

theorem Broken.split (h : Broken text maxChars maxOut rows rest r) (k : Nat) :
    cells text = (rows.take k).flatten ++ ((rows.drop k).flatten ++ rest) := by
  rw [← List.append_assoc, ← List.flatten_append, List.take_append_drop]
  exact h.cuts.split

theorem Broken.stands_at (h : Broken text maxChars maxOut rows rest r) (k : Nat) :
    Stands text (rows.take k).flatten.flatten.length ((rows.drop k).flatten ++ rest) := by
  have hat := Stands.start text
  rw [h.split k] at hat
  simpa using hat.move

theorem Broken.isCell (h : Broken text maxChars maxOut rows rest r) :
    ∀ row ∈ rows ++ [rest], ∀ c ∈ row, IsCell c := by
  intro row hrow c hc
  apply isCell_of_mem_cells (t := text)
  rw [h.cuts.split]
  have : c ∈ (rows ++ [rest]).flatten := List.mem_flatten_of_mem hrow hc
  simpa using this

theorem Broken.row_pos (h : Broken text maxChars maxOut rows rest r) :
    ∀ row ∈ rows, 0 < row.flatten.length := by
  intro row hrow
  apply Stands.flatten_length_pos
  · rintro rfl
    exact h.cuts.ne_nil hrow
  · exact h.isCell row (List.mem_append_left _ hrow)

theorem offset_lt {ls : List (List (List U8))} (hpos : ∀ row ∈ ls, 0 < row.flatten.length) {j k : Nat}
    (hjk : j < k) (hk : k ≤ ls.length) :
    (ls.take j).flatten.flatten.length < (ls.take k).flatten.flatten.length := by
  induction ls generalizing j k with
  | nil => simp at hk; omega
  | cons row ls ih =>
    obtain ⟨k, rfl⟩ : ∃ k', k = k' + 1 := ⟨k - 1, by omega⟩
    cases j with
    | zero =>
      have := hpos row List.mem_cons_self
      simp only [List.take_zero, List.take_succ_cons, List.flatten_cons, List.flatten_append,
        List.length_append, List.flatten_nil, List.length_nil]
      omega
    | succ j =>
      have := ih (fun x hx => hpos x (List.mem_cons_of_mem _ hx)) (Nat.lt_of_succ_lt_succ hjk)
        (Nat.le_of_succ_le_succ hk)
      simp only [List.take_succ_cons, List.flatten_cons, List.flatten_append, List.length_append]
      omega

theorem length_le_offset {ls : List (List (List U8))} (hpos : ∀ row ∈ ls, 0 < row.flatten.length) :
    ls.length ≤ ls.flatten.flatten.length := by
  induction ls with
  | nil => exact Nat.zero_le _
  | cons row ls ih =>
    have := ih fun x hx => hpos x (List.mem_cons_of_mem _ hx)
    have := hpos row List.mem_cons_self
    simp only [List.flatten_cons, List.flatten_append, List.length_append, List.length_cons]
    omega

theorem Broken.lines_le (h : Broken text maxChars maxOut rows rest r) : r.1 ≤ text.length + 1 := by
  have := length_le_offset h.row_pos
  have := h.stands.1
  have := h.lines
  omega

theorem Broken.wellPlaced (h : Broken text maxChars maxOut rows rest r) :
    WellPlaced text maxOut r where
  length := h.length
  room := h.room
  first := by
    have hstart := h.starts 0 (Nat.zero_le _)
    have hlines := h.lines
    have hroom := h.room
    have hlength := h.length
    rw [List.getD_eq_getElem?_getD, List.getElem?_eq_getElem (by omega)] at hstart
    rw [List.getElem?_eq_getElem (by omega)]
    exact congrArg some hstart
  increasing := by
    intro j k hjk hk
    have hlines := h.lines
    rw [h.starts j (by omega), h.starts k (by omega)]
    exact offset_lt h.row_pos hjk (by omega)
  bounded := by
    intro k hk
    have hlines := h.lines
    rw [h.starts k (by omega)]
    exact (h.stands_at k).1
  counted := by
    intro k hk
    have hlines := h.lines
    rw [h.starts k (by omega)]
    exact counted_of_split (h.split k)

theorem Broken.lineOf_eq (h : Broken text maxChars maxOut rows rest r) {k : Nat}
    {row : List (List U8)} (hk : (rows ++ [rest])[k]? = some row) : lineOf text r k = row.flatten := by
  have hlines := h.lines
  have hlt := (List.getElem?_eq_some_iff.mp hk).1
  rw [List.length_append, List.length_singleton] at hlt
  have hat := h.stands_at k
  rw [lineOf, h.starts k (by omega), hat.drop_eq]
  rcases Nat.lt_or_ge k rows.length with hin | hout
  · rw [List.getElem?_append_left hin, List.getElem?_eq_getElem hin] at hk
    obtain rfl := Option.some.inj hk
    have hend : (rows.take (k + 1)).flatten.flatten.length =
        (rows.take k).flatten.flatten.length + rows[k].flatten.length := by
      rw [List.take_succ_eq_append_getElem hin, List.flatten_append, List.flatten_append,
        List.length_append, List.flatten_singleton]
    rw [if_pos (by omega), h.starts (k + 1) (by omega), hend, Nat.add_sub_cancel_left,
      List.drop_eq_getElem_cons hin, List.flatten_cons, List.append_assoc, List.flatten_append,
      List.take_left]
  · obtain rfl : k = rows.length := by omega
    rw [List.getElem?_concat_length] at hk
    obtain rfl := Option.some.inj hk
    have hlen := hat.length_eq
    rw [List.drop_length, List.flatten_nil, List.nil_append] at hlen ⊢
    rw [if_neg (by omega), List.take_of_length_le (by omega)]

theorem Broken.inside (h : Broken text maxChars maxOut rows rest r) {row : List (List U8)}
    (hrow : row ∈ rows ++ [rest]) : row <:+: cells text := by
  rw [h.cuts.split]
  have := List.infix_of_mem_flatten hrow
  simpa using this

theorem width_yields {row : List (List U8)} (h : row <:+: cells text) :
    Yields (utf8Width (trimmed row.flatten)) fun w =>
      w = (Rows.trim blankCell nlCell row).length := by
  have hcells : ∀ c ∈ row, IsCell c := fun c hc => isCell_of_mem_cells (h.subset hc)
  rw [trimmed_flatten hcells]
  obtain ⟨a, b, hab⟩ := h
  have hpre : Rows.trim blankCell nlCell row <+: row := Rows.trim_prefix row
  obtain ⟨t, ht⟩ := hpre
  have hsplit : cells text = a ++ (Rows.trim blankCell nlCell row ++ (t ++ b)) := by
    rw [← hab, ← List.append_assoc _ t b, ht, List.append_assoc]
  have hown := (cells_append (cells_append hsplit).2).1
  have hw := utf8Width_yields (Rows.trim blankCell nlCell row).flatten
  rw [hown] at hw
  exact hw

theorem Roomy.trim_le (h : Roomy maxChars text) {row : List (List U8)} (hrow : row <:+: cells text)
    (hr : Rows.IsRow blankCell nlCell maxChars row) :
    (Rows.trim blankCell nlCell row).length ≤ maxChars := by
  obtain ⟨q, hnl, hle, hq⟩ := hr
  have hqrow : q <+: row := by
    rcases hq with rfl | rfl
    · exact List.prefix_rfl
    · exact List.prefix_append _ _
  have hin := hqrow.isInfix.trans hrow
  have htrim : Rows.trim blankCell nlCell row = Rows.trim blankCell nlCell q := by
    rcases hq with rfl | rfl
    · rfl
    · exact Rows.trim_append_nl q
  have hcells : ∀ c ∈ q, IsCell c := fun c hc => isCell_of_mem_cells (hin.subset hc)
  have hflat : q.flatten <:+: text := by
    have := List.IsInfix.flatten hin
    rwa [flatten_cells] at this
  rw [htrim]
  rcases h q.flatten hflat (by rwa [newline_mem_flatten hcells]) with htrail | hw
  · exact Nat.le_trans (((blanksTrail_flatten hcells).mp htrail).trim_le hnl) hle
  · obtain ⟨w, heq, hle⟩ := hw
    rw [← (width_yields hin).of_eq heq]
    exact hle

theorem Broken.linesFit (h : Broken text maxChars maxOut rows rest r)
    (hend : r.1 < maxOut → Rows.Ends blankCell nlCell maxChars rest) (hroomy : Roomy maxChars text) :
    LinesFit text maxChars r := by
  intro hroom k hk
  rw [h.length] at hroom
  have hlines := h.lines
  have hlt : k < (rows ++ [rest]).length := by
    rw [List.length_append, List.length_singleton]
    omega
  have hget := List.getElem?_eq_getElem hlt
  have hmem : (rows ++ [rest])[k] ∈ rows ++ [rest] := List.getElem_mem hlt
  rw [h.lineOf_eq hget]
  refine (width_yields (h.inside hmem)).mono ?_
  rintro _ rfl
  refine hroomy.trim_le (h.inside hmem) ?_
  rcases List.mem_append.mp hmem with hrow | hrow
  · exact h.cuts.isRow _ hrow
  · rw [List.mem_singleton.mp hrow]
    exact (hend hroom).isRow

theorem Broken.not_linesFit {a st z : List (List U8)} (h : Broken text maxChars maxOut rows rest r)
    (hroom : r.1 < maxOut) (hend : Rows.Ends blankCell nlCell maxChars rest)
    (hst : Rows.Stretch nlCell (cells text) a st z) (hm : Rows.letters blankCell st ≤ maxChars)
    (hpos : 0 < Rows.letters blankCell st)
    (hwide : maxChars < (Rows.trim blankCell nlCell st).length) : ¬ LinesFit text maxChars r := by
  intro hfit
  obtain ⟨row, hrow, htaken⟩ := h.cuts.taken hend hst hm hpos
  obtain ⟨k, hk⟩ := List.mem_iff_getElem?.mp hrow
  have hlt := (List.getElem?_eq_some_iff.mp hk).1
  rw [List.length_append, List.length_singleton] at hlt
  have hw := hfit (h.length ▸ hroom) k (h.lines ▸ hlt)
  rw [h.lineOf_eq hk] at hw
  obtain ⟨w, heq, hle⟩ := hw
  have hshown := (width_yields (h.inside hrow)).of_eq heq
  have htrim : Rows.trim blankCell nlCell row = Rows.trim blankCell nlCell st := by
    rcases htaken with rfl | rfl
    · rfl
    · exact Rows.trim_append_nl st
  rw [htrim] at hshown
  omega

end Broken

section Call
variable {text : List U8} {maxChars : Nat} {starts : List Nat}

theorem utf8Wrap_yields (htext : text ≠ []) (hmax : 0 < maxChars) (hstarts : starts ≠ []) :
    Yields (utf8Wrap text maxChars starts) fun r =>
      ∃ rows rest, Broken text maxChars starts.length rows rest r ∧
        (r.1 < starts.length → Rows.Ends blankCell nlCell maxChars rest) := by
  have hlen := List.length_pos_iff.mpr hstarts
  have htlen := List.length_pos_iff.mpr htext
  rw [utf8Wrap, if_neg (by omega)]
  refine (yields_store hlen).bind ?_
  rintro _ rfl
  rw [if_neg (by omega)]
  have hfirst : (starts.set 0 0).getD 0 0 = 0 := by
    rw [List.getD_eq_getElem?_getD, List.getElem?_set_self hlen]
    rfl
  have hloop : Yields (loop (wrapTurn text maxChars) (text.length + 1) (0, 1, starts.set 0 0)) _ :=
    wrapLoop_yields hmax (by rwa [List.length_set]) hfirst
  rwa [List.length_set] at hloop

theorem utf8Wrap_nil (maxChars : Nat) (hstarts : starts ≠ []) :
    utf8Wrap [] maxChars starts = .ok (0, starts.set 0 0) := by
  have hlen := List.length_pos_iff.mpr hstarts
  rw [utf8Wrap, if_neg (by omega)]
  obtain ⟨_, hstore, rfl⟩ := yields_store (a := 0) hlen
  rw [hstore]
  rfl

theorem placed_and_fits (hmax : 0 < maxChars) (hstarts : starts ≠ []) :
    Yields (utf8Wrap text maxChars starts) fun r =>
      WellPlaced text starts.length r ∧ (Roomy maxChars text → LinesFit text maxChars r) := by
  by_cases htext : text = []
  · subst htext
    have hlen := List.length_pos_iff.mpr hstarts
    rw [utf8Wrap_nil maxChars hstarts]
    refine yields_ok ⟨⟨List.length_set, Nat.zero_le _, List.getElem?_set_self hlen, ?_, ?_, ?_⟩, ?_⟩
    · exact fun _ k _ hk => absurd hk (Nat.not_lt_zero k)
    · exact fun k hk => absurd hk (Nat.not_lt_zero k)
    · exact fun k hk => absurd hk (Nat.not_lt_zero k)
    · exact fun _ _ k hk => absurd hk (Nat.not_lt_zero k)
  · refine (utf8Wrap_yields htext hmax hstarts).mono ?_
    rintro r ⟨rows, rest, h, hend⟩
    exact ⟨h.wellPlaced, h.linesFit hend⟩

theorem BlanksTrail.roomy (h : BlanksTrail text) (maxChars : Nat) : Roomy maxChars text :=
  fun _ hs _ => .inl ( List.IsChain.infix h hs)

theorem exists_not_linesFit (h : ¬ BlanksTrail text) :
    ∃ maxChars starts, 0 < maxChars ∧ starts ≠ [] ∧
      ¬ Yields (utf8Wrap text maxChars starts) (LinesFit text maxChars) := by
  have htext : text ≠ [] := by
    rintro rfl
    exact h List.IsChain.nil
  have hcells : ¬ Rows.BlanksTrail blankCell nlCell (cells text) := by
    rw [← blanksTrail_flatten (fun c hc => isCell_of_mem_cells hc), flatten_cells]
    exact h
  obtain ⟨a, st, z, hst, hpos, hwide⟩ := Rows.exists_wide_stretch hcells not_blankCell_nlCell
  have hstarts : List.replicate (text.length + 2) 0 ≠ [] := by simp [List.replicate_succ]
  refine ⟨Rows.letters blankCell st, List.replicate (text.length + 2) 0, hpos, hstarts, ?_⟩
  intro hfit
  obtain ⟨r, hr, rows, rest, hb, hend⟩ := utf8Wrap_yields htext hpos hstarts
  have hroom : r.1 < (List.replicate (text.length + 2) 0).length := by
    have := hb.lines_le
    rw [List.length_replicate]
    omega
  exact hb.not_linesFit hroom (hend hroom) hst (Nat.le_refl _) hpos hwide (hfit.of_eq hr)

/-- The rows start where they should. They fit a page on which every stretch with a blank before
another character fits whole, and they fit every page if and only if there is no such blank. -/
theorem utf8Wrap_spec (text : List U8) :
    (∀ maxChars starts, 0 < maxChars → starts ≠ [] →
      Yields (utf8Wrap text maxChars starts) fun r =>
        WellPlaced text starts.length r ∧ (Roomy maxChars text → LinesFit text maxChars r)) ∧
    ((∀ maxChars starts, 0 < maxChars → starts ≠ [] →
      Yields (utf8Wrap text maxChars starts) (LinesFit text maxChars)) ↔ BlanksTrail text) := by
  refine ⟨fun maxChars starts hmax hstarts => placed_and_fits hmax hstarts, ?_, ?_⟩
  · intro h
    by_contra hnot
    obtain ⟨maxChars, starts, hmax, hstarts, hbad⟩ := exists_not_linesFit hnot
    exact hbad (h maxChars starts hmax hstarts)
  · intro h maxChars starts hmax hstarts
    exact (placed_and_fits hmax hstarts).mono fun r hr => hr.2 (h.roomy maxChars)

theorem not_linesFit_inner_blank :
    ¬ ∀ (text : List U8) (maxChars : Nat) (starts : List Nat), 0 < maxChars → starts ≠ [] →
      Yields (utf8Wrap text maxChars starts) fun r =>
        WellPlaced text starts.length r ∧ LinesFit text maxChars r := by
  intro h
  obtain ⟨r, hr, -, hfit⟩ := h [97, 32, 98] 2 [0, 0, 0, 0] (by decide) (by decide)
  have hrun : utf8Wrap [97, 32, 98] 2 [0, 0, 0, 0] = .ok (1, [0, 0, 0, 0]) := by rfl
  rw [hrun] at hr
  obtain rfl := Except.ok.inj hr
  obtain ⟨w, hw, hle⟩ := hfit (by decide) 0 (by decide)
  have hwidth : utf8Width (trimmed (lineOf [97, 32, 98] (1, [0, 0, 0, 0]) 0)) = .ok 3 := by rfl
  rw [hwidth] at hw
  obtain rfl := Except.ok.inj hw
  omega

end Call

end Ezos.Html
