import Ezos.Text.Utf
import Ezos.Lib.EditDistance

/-!
# `levenshtein`, with one row and with two

A cell is 16 bits wide; the tables stay below 50, so that nothing wraps. C and Zig alternate
between the two halves of one buffer, Rust overwrites a single row and keeps the cell above left
in a variable. All of them fill in the distances of the prefixes.
-/

namespace Ezos.Text

open Lib.EditDistance

set_option autoImplicit false

abbrev Cells := Nat → U16

def put (buf : Cells) (i : Nat) (v : U16) : Cells := fun k => if k = i then v else buf k

def cstrLen (s : CString) : Nat := min 64 s.bytes.length

def levRow : Nat := 25

/-- The inner loop of `levenshtein_buffer_c`. -/
def rowC (ca : U8) (cur prev : Nat) : Nat → List U8 → Cells → Cells
  | _, [], buf => buf
  | j, cb :: bs, buf =>
    let cost : U16 := if ca = cb then 0 else 1
    let del := buf (prev + j) + 1
    let ins := buf (cur + j - 1) + 1
    let sub := buf (prev + j - 1) + cost
    let m := if del < ins then del else ins
    rowC ca cur prev (j + 1) bs (put buf (cur + j) (if m < sub then m else sub))

def rowsC (bs : List U8) : Nat → List U8 → Cells → Cells
  | _, [], buf => buf
  | i, ca :: as, buf =>
    let cur := i % 2 * levRow
    let prev := cur ^^^ levRow
    rowsC bs (i + 1) as (rowC ca cur prev 1 bs (put buf cur (BitVec.ofNat 16 i)))

/-- `for (j = 0; j <= blen; j++) row[j] = j` -/
def firstRow (blen : Nat) (buf : Cells) : Cells :=
  fun k => if k ≤ blen then BitVec.ofNat 16 k else buf k

/-- `levenshtein_c`; `buf` is what the stack array holds before it is filled. -/
def levenshteinC (buf : Cells) (a b : CString) (limit : U32) : U32 :=
  let alen := cstrLen a
  let blen := cstrLen b
  if alen > limit.toNat ∨ blen > limit.toNat then limit + 1
  else if alen = 0 then BitVec.ofNat 32 blen
  else if blen = 0 then BitVec.ofNat 32 alen
  else
    let buf := rowsC (b.bytes.take blen) 1 (a.bytes.take alen) (firstRow blen buf)
    (buf (alen % 2 * levRow + blen)).setWidth 32

/-- The inner loop of `levenshtein_zig`: the minimum is taken in another order. -/
def rowZig (ca : U8) (cur prev : Nat) : Nat → List U8 → Cells → Cells
  | _, [], buf => buf
  | j, cb :: bs, buf =>
    let cost : U16 := if ca = cb then 0 else 1
    let del := buf (prev + j) + 1
    let ins := buf (cur + j - 1) + 1
    let sub := buf (prev + j - 1) + cost
    let m := if ins < del then ins else del
    rowZig ca cur prev (j + 1) bs (put buf (cur + j) (if sub < m then sub else m))

def rowsZig (bs : List U8) : Nat → List U8 → Cells → Cells
  | _, [], buf => buf
  | i, ca :: as, buf =>
    let cur := i % 2 * 25
    let prev := cur ^^^ 25
    rowsZig bs (i + 1) as (rowZig ca cur prev 1 bs (put buf cur (BitVec.ofNat 16 i)))

def levenshteinZig (a b : CString) (limit : U32) : U32 :=
  let alen := cstrLen a
  let blen := cstrLen b
  if alen > limit.toNat ∨ blen > limit.toNat then limit + 1
  else if alen = 0 then BitVec.ofNat 32 blen
  else if blen = 0 then BitVec.ofNat 32 alen
  else
    let buf := rowsZig (b.bytes.take blen) 1 (a.bytes.take alen) (firstRow blen fun _ => 0)
    (buf (alen % 2 * 25 + blen)).setWidth 32

def rowRs (ca : U8) : Nat → U16 → List U8 → Cells → Cells
  | _, _, [], r => r
  | j, diag, cb :: bs, r =>
    let up := r j
    let cost : U16 := if ca = cb then 0 else 1
    let ins := r (j - 1) + 1
    let m := if ins < up + 1 then ins else up + 1
    let sub := diag + cost
    rowRs ca (j + 1) up bs (put r j (if sub < m then sub else m))

def rowsRs (bs : List U8) : Nat → List U8 → Cells → Cells
  | _, [], r => r
  | i, ca :: as, r => rowsRs bs (i + 1) as (rowRs ca 1 (r 0) bs (put r 0 (BitVec.ofNat 16 i)))

def levenshteinRs (a b : CString) (limit : U32) : U32 :=
  let alen := cstrLen a
  let blen := cstrLen b
  if alen > limit.toNat ∨ blen > limit.toNat then limit + 1
  else if alen = 0 then BitVec.ofNat 32 blen
  else if blen = 0 then BitVec.ofNat 32 alen
  else
    let r := rowsRs (b.bytes.take blen) 1 (a.bytes.take alen) (firstRow blen fun _ => 0)
    (r blen).setWidth 32

def levenshteinBy (buf : Cells) : Impl → CString → CString → U32 → U32
  | .c => levenshteinC buf
  | .rs => levenshteinRs
  | .zig => levenshteinZig

@[simp] theorem put_self (buf : Cells) (i : Nat) (v : U16) : put buf i v i = v := if_pos rfl

theorem put_of_ne {buf : Cells} {i k : Nat} (v : U16) (h : k ≠ i) : put buf i v k = buf k := if_neg h

def RowAt (buf : Cells) (off : Nat) (pre bs : List U8) (n : Nat) : Prop :=
  ∀ k ≤ n, (buf (off + k)).toNat = dist pre (bs.take k)

theorem toNat_cost (ca cb : U8) : (if ca = cb then 0 else 1 : U16).toNat = cost ca cb := by
  unfold cost
  split <;> rfl

theorem toNat_if_lt (x y : U16) : (if x < y then x else y).toNat = min x.toNat y.toNat := by
  by_cases h : x < y
  · rw [if_pos h, Nat.min_eq_left (Nat.le_of_lt h)]
  · rw [if_neg h, Nat.min_eq_right (Nat.not_lt.mp h)]

theorem toNat_cell {p l d : U16} {pre done : List U8} {ca cb : U8}
    (hpre : pre.length < 24) (hdone : done.length < 24)
    (hp : p.toNat = dist pre (done ++ [cb])) (hl : l.toNat = dist (pre ++ [ca]) done)
    (hd : d.toNat = dist pre done) :
    min (min (p + 1).toNat (l + 1).toNat) (d + (if ca = cb then 0 else 1)).toNat =
      dist (pre ++ [ca]) (done ++ [cb]) := by
  have h1 : (1 : U16).toNat = 1 := rfl
  have hc := toNat_cost ca cb
  have hcost : cost ca cb ≤ 1 := by
    unfold cost
    split <;> decide
  have bp := dist_le_add pre (done ++ [cb])
  have bl := dist_le_add (pre ++ [ca]) done
  have bd := dist_le_add pre done
  rw [List.length_append, List.length_singleton] at bp bl
  rw [dist_snoc, BitVec.toNat_add, BitVec.toNat_add, BitVec.toNat_add, h1, hc, hp, hl, hd]
  rw [Nat.mod_eq_of_lt (by omega), Nat.mod_eq_of_lt (by omega), Nat.mod_eq_of_lt (by omega)]

/-! ## Two rows -/

theorem if_lt_comm (x y : U16) : (if y < x then y else x) = if x < y then x else y := by
  apply BitVec.eq_of_toNat_eq
  rw [toNat_if_lt, toNat_if_lt, Nat.min_comm]

theorem rowZig_eq (ca : U8) (cur prev j : Nat) (bs : List U8) (buf : Cells) :
    rowZig ca cur prev j bs buf = rowC ca cur prev j bs buf := by
  induction bs generalizing j buf with
  | nil => rfl
  | cons cb bs ih =>
    rw [rowZig, rowC, ih]
    rw [if_lt_comm (buf (prev + j) + 1), if_lt_comm]

theorem rowsZig_eq (bs : List U8) (i : Nat) (as : List U8) (buf : Cells) :
    rowsZig bs i as buf = rowsC bs i as buf := by
  induction as generalizing i buf with
  | nil => rfl
  | cons ca as ih =>
    rw [rowsZig, rowsC, ih, rowZig_eq]
    rfl

theorem rowC_spec {pre bs : List U8} {ca : U8} {cur prev : Nat} (hpre : pre.length < 24)
    (hbs : bs.length ≤ 24) (hapart : prev + 25 ≤ cur ∨ cur + 25 ≤ prev) (rest done : List U8)
    (hsplit : bs = done ++ rest) (buf : Cells) (hprev : RowAt buf prev pre bs bs.length)
    (hcur : RowAt buf cur (pre ++ [ca]) bs done.length) :
    RowAt (rowC ca cur prev (done.length + 1) rest buf) cur (pre ++ [ca]) bs bs.length := by
  induction rest generalizing done buf with
  | nil =>
    rw [List.append_nil] at hsplit
    rw [rowC, hsplit]
    rwa [hsplit] at hcur
  | cons cb rest ih =>
    have hlen : bs.length = done.length + (rest.length + 1) := by
      rw [hsplit, List.length_append, List.length_cons]
    have htake : bs.take done.length = done := by rw [hsplit, List.take_left]
    have hsplit' : bs = (done ++ [cb]) ++ rest := by rw [hsplit, List.append_assoc]; rfl
    have htake' : bs.take (done.length + 1) = done ++ [cb] := by
      have hl : done.length + 1 = (done ++ [cb]).length := by rw [List.length_append]; rfl
      rw [hl, hsplit', List.take_left]
    have hdone : done.length < 24 := by omega
    have hcell := @toNat_cell _ _ _ pre done ca cb hpre hdone
      ((hprev (done.length + 1) (by omega)).trans (by rw [htake']))
      ((hcur done.length (Nat.le_refl _)).trans (by rw [htake]))
      ((hprev done.length (by omega)).trans (by rw [htake]))
    rw [rowC]
    have hnext := ih (done ++ [cb]) hsplit'
    rw [List.length_append, List.length_singleton] at hnext
    apply hnext
    · intro k hk
      rw [put_of_ne _ (by omega)]
      exact hprev k hk
    · intro k hk
      rcases Nat.eq_or_lt_of_le hk with rfl | hk
      · rw [put_self, toNat_if_lt, toNat_if_lt, htake']
        exact hcell
      · rw [put_of_ne _ (by omega)]
        exact hcur k (by omega)

theorem rows_alternate (n : Nat) : n % 2 * 25 = ((n + 1) % 2 * 25) ^^^ 25 ∧
    (((n + 1) % 2 * 25) ^^^ 25) + 25 ≤ (n + 1) % 2 * 25 ∨
    n % 2 * 25 = ((n + 1) % 2 * 25) ^^^ 25 ∧
    (n + 1) % 2 * 25 + 25 ≤ (((n + 1) % 2 * 25) ^^^ 25) := by
  rcases Nat.mod_two_eq_zero_or_one n with h | h
  · have h1 : (n + 1) % 2 = 1 := by omega
    rw [h, h1]
    exact Or.inl (by decide)
  · have h0 : (n + 1) % 2 = 0 := by omega
    rw [h, h0]
    exact Or.inr (by decide)

theorem rowsC_spec {bs : List U8} (hbs : bs.length ≤ 24) (as pre : List U8)
    (hlen : pre.length + as.length ≤ 24) (buf : Cells)
    (h : RowAt buf (pre.length % 2 * 25) pre bs bs.length) :
    RowAt (rowsC bs (pre.length + 1) as buf) ((pre ++ as).length % 2 * 25) (pre ++ as) bs
      bs.length := by
  induction as generalizing pre buf with
  | nil =>
    rw [List.append_nil, rowsC]
    exact h
  | cons ca as ih =>
    rw [List.length_cons] at hlen
    have hrows := rows_alternate pre.length
    have hcell : (BitVec.ofNat 16 (pre.length + 1)).toNat = pre.length + 1 := by
      rw [BitVec.toNat_ofNat, Nat.mod_eq_of_lt (by omega)]
    have hpre : (pre ++ [ca]).length = pre.length + 1 := by
      rw [List.length_append, List.length_singleton]
    rw [rowsC]
    unfold levRow
    generalize ((pre.length + 1) % 2 * 25) ^^^ 25 = prev at hrows
    obtain ⟨hprev, hapart⟩ : pre.length % 2 * 25 = prev ∧
        (prev + 25 ≤ (pre.length + 1) % 2 * 25 ∨ (pre.length + 1) % 2 * 25 + 25 ≤ prev) := by
      rcases hrows with ⟨h1, h2⟩ | ⟨h1, h2⟩
      · exact ⟨h1, Or.inl h2⟩
      · exact ⟨h1, Or.inr h2⟩
    rw [hprev] at h
    have hrow : RowAt (rowC ca ((pre.length + 1) % 2 * 25) prev 1 bs
        (put buf ((pre.length + 1) % 2 * 25) (BitVec.ofNat 16 (pre.length + 1))))
        ((pre.length + 1) % 2 * 25) (pre ++ [ca]) bs bs.length := by
      apply rowC_spec (by omega) hbs hapart bs [] rfl
      · intro k hk
        rw [put_of_ne _ (by omega)]
        exact h k hk
      · intro k hk
        rw [Nat.le_zero.mp hk, List.take_zero, dist_nil_right, hpre]
        exact (congrArg BitVec.toNat (put_self buf _ _)).trans hcell
    have hnext := ih (pre ++ [ca]) (by omega) _ (by rw [hpre]; exact hrow)
    rw [hpre, List.append_assoc] at hnext
    exact hnext

theorem rowRs_spec {pre bs : List U8} {ca : U8} (hpre : pre.length < 24) (hbs : bs.length ≤ 24)
    (rest done : List U8) (hsplit : bs = done ++ rest) (diag : U16) (r : Cells)
    (hprev : ∀ k, done.length < k → k ≤ bs.length → (r k).toNat = dist pre (bs.take k))
    (hdiag : diag.toNat = dist pre done) (hcur : RowAt r 0 (pre ++ [ca]) bs done.length) :
    RowAt (rowRs ca (done.length + 1) diag rest r) 0 (pre ++ [ca]) bs bs.length := by
  induction rest generalizing done diag r with
  | nil =>
    rw [List.append_nil] at hsplit
    rw [rowRs, hsplit]
    rwa [hsplit] at hcur
  | cons cb rest ih =>
    have hlen : bs.length = done.length + (rest.length + 1) := by
      rw [hsplit, List.length_append, List.length_cons]
    have htake : bs.take done.length = done := by rw [hsplit, List.take_left]
    have hsplit' : bs = (done ++ [cb]) ++ rest := by rw [hsplit, List.append_assoc]; rfl
    have htake' : bs.take (done.length + 1) = done ++ [cb] := by
      have hl : done.length + 1 = (done ++ [cb]).length := by rw [List.length_append]; rfl
      rw [hl, hsplit', List.take_left]
    have hup := hprev (done.length + 1) (by omega) (by omega)
    have hleft := hcur done.length (Nat.le_refl _)
    rw [htake'] at hup
    rw [htake, Nat.zero_add] at hleft
    have hdone : done.length < 24 := by omega
    have hcell := @toNat_cell _ _ _ pre done ca cb hpre hdone hup hleft hdiag
    rw [rowRs, Nat.add_sub_cancel]
    have hnext := ih (done ++ [cb]) hsplit'
    rw [List.length_append, List.length_singleton] at hnext
    apply hnext
    · intro k hlo hk
      rw [put_of_ne _ (by omega)]
      exact hprev k (by omega) hk
    · exact hup
    · intro k hk
      rw [Nat.zero_add]
      rcases Nat.eq_or_lt_of_le hk with rfl | hk
      · rw [put_self, toNat_if_lt, toNat_if_lt, htake', Nat.min_comm, Nat.min_comm (BitVec.toNat _)]
        exact hcell
      · rw [put_of_ne _ (by omega)]
        have hk' := hcur k (by omega)
        rwa [Nat.zero_add] at hk'

theorem rowsRs_spec {bs : List U8} (hbs : bs.length ≤ 24) (as pre : List U8)
    (hlen : pre.length + as.length ≤ 24) (r : Cells) (h : RowAt r 0 pre bs bs.length) :
    RowAt (rowsRs bs (pre.length + 1) as r) 0 (pre ++ as) bs bs.length := by
  induction as generalizing pre r with
  | nil =>
    rw [List.append_nil, rowsRs]
    exact h
  | cons ca as ih =>
    rw [List.length_cons] at hlen
    have hcell : (BitVec.ofNat 16 (pre.length + 1)).toNat = pre.length + 1 := by
      rw [BitVec.toNat_ofNat, Nat.mod_eq_of_lt (by omega)]
    have hpre : (pre ++ [ca]).length = pre.length + 1 := by
      rw [List.length_append, List.length_singleton]
    have hrow : RowAt (rowRs ca 1 (r 0) bs (put r 0 (BitVec.ofNat 16 (pre.length + 1)))) 0
        (pre ++ [ca]) bs bs.length := by
      apply rowRs_spec (by omega) hbs bs [] rfl
      · intro k hlo hk
        rw [put_of_ne _ (by rw [List.length_nil] at hlo; omega)]
        have hk' := h k hk
        rwa [Nat.zero_add] at hk'
      · have h0 := h 0 (Nat.zero_le _)
        rwa [Nat.zero_add, List.take_zero] at h0
      · intro k hk
        rw [Nat.le_zero.mp hk, List.take_zero, dist_nil_right, Nat.add_zero, put_self, hcell, hpre]
    have hnext := ih (pre ++ [ca]) (by omega) _ hrow
    rw [hpre, List.append_assoc] at hnext
    rw [rowsRs]
    exact hnext

theorem rowAt_firstRow {bs : List U8} (hbs : bs.length ≤ 24) (buf : Cells) :
    RowAt (firstRow bs.length buf) 0 [] bs bs.length := by
  intro k hk
  rw [Nat.zero_add, firstRow, if_pos hk, dist_nil_left, List.length_take, BitVec.toNat_ofNat,
    Nat.mod_eq_of_lt (by omega), Nat.min_eq_left hk]

theorem cstrLen_gt_iff (s : CString) : cstrLen s > (24 : U32).toNat ↔ 24 < s.bytes.length := by
  change 24 < min 64 s.bytes.length ↔ _
  omega

theorem levenshtein_cases (a b : CString) (value : U32)
    (h : a.bytes.length ≤ 24 → b.bytes.length ≤ 24 →
      value = BitVec.ofNat 32 (dist a.bytes b.bytes)) :
    (if cstrLen a > (24 : U32).toNat ∨ cstrLen b > (24 : U32).toNat then (24 : U32) + 1
      else if cstrLen a = 0 then BitVec.ofNat 32 (cstrLen b)
      else if cstrLen b = 0 then BitVec.ofNat 32 (cstrLen a)
      else value) =
      if a.bytes.length ≤ 24 ∧ b.bytes.length ≤ 24 then BitVec.ofNat 32 (dist a.bytes b.bytes)
      else 25 := by
  simp only [cstrLen_gt_iff]
  by_cases hlong : 24 < a.bytes.length ∨ 24 < b.bytes.length
  · rw [if_pos hlong, if_neg (by omega)]
    rfl
  · have ha : cstrLen a = a.bytes.length := Nat.min_eq_right (by omega)
    have hb : cstrLen b = b.bytes.length := Nat.min_eq_right (by omega)
    have hshort : a.bytes.length ≤ 24 ∧ b.bytes.length ≤ 24 := by omega
    rw [if_neg hlong, if_pos hshort, ha, hb]
    by_cases ha0 : a.bytes.length = 0
    · rw [if_pos ha0, List.length_eq_zero_iff.mp ha0, dist_nil_left]
    · rw [if_neg ha0]
      by_cases hb0 : b.bytes.length = 0
      · rw [if_pos hb0, List.length_eq_zero_iff.mp hb0, dist_nil_right]
      · rw [if_neg hb0]
        exact h (by omega) (by omega)

theorem widen_cell {v : U16} {n : Nat} (h : v.toNat = n) : v.setWidth 32 = BitVec.ofNat 32 n := by
  rw [← h]
  apply BitVec.eq_of_toNat_eq
  rw [BitVec.toNat_setWidth, BitVec.toNat_ofNat]

theorem take_cstrLen {s : CString} (h : s.bytes.length ≤ 24) :
    cstrLen s = s.bytes.length ∧ s.bytes.take (cstrLen s) = s.bytes := by
  have hl : cstrLen s = s.bytes.length := Nat.min_eq_right (by omega)
  rw [hl, List.take_length]
  exact ⟨rfl, rfl⟩

theorem levenshteinC_eq (buf : Cells) (a b : CString) : levenshteinC buf a b 24 =
    if a.bytes.length ≤ 24 ∧ b.bytes.length ≤ 24 then BitVec.ofNat 32 (dist a.bytes b.bytes)
    else 25 := by
  apply levenshtein_cases
  intro ha hb
  rw [(take_cstrLen ha).2, (take_cstrLen hb).2, (take_cstrLen ha).1, (take_cstrLen hb).1]
  apply widen_cell
  have h := rowsC_spec hb a.bytes [] (by rw [List.length_nil]; omega) _ (rowAt_firstRow hb buf)
    b.bytes.length (Nat.le_refl _)
  rwa [List.nil_append, List.take_length] at h

theorem levenshteinZig_eq (a b : CString) :
    levenshteinZig a b 24 = levenshteinC (fun _ => 0) a b 24 := by
  unfold levenshteinZig levenshteinC
  simp only [rowsZig_eq]
  rfl

theorem levenshteinRs_eq (a b : CString) : levenshteinRs a b 24 =
    if a.bytes.length ≤ 24 ∧ b.bytes.length ≤ 24 then BitVec.ofNat 32 (dist a.bytes b.bytes)
    else 25 := by
  apply levenshtein_cases
  intro ha hb
  rw [(take_cstrLen ha).2, (take_cstrLen hb).2, (take_cstrLen hb).1]
  apply widen_cell
  have h := rowsRs_spec hb a.bytes [] (by rw [List.length_nil]; omega) _ (rowAt_firstRow hb fun _ => 0)
    b.bytes.length (Nat.le_refl _)
  rwa [List.nil_append, List.take_length, Nat.zero_add] at h

theorem levenshteinBy_eq (buf : Cells) (impl : Impl) (a b : CString) :
    levenshteinBy buf impl a b 24 =
      if a.bytes.length ≤ 24 ∧ b.bytes.length ≤ 24 then BitVec.ofNat 32 (dist a.bytes b.bytes)
      else 25 := by
  cases impl with
  | c => exact levenshteinC_eq buf a b
  | rs => exact levenshteinRs_eq a b
  | zig => exact (levenshteinZig_eq a b).trans (levenshteinC_eq _ a b)

end Ezos.Text
