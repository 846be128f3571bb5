import Ezos.Fs.Absolute
import Ezos.Lib.Memory
import Mathlib.Data.List.Flatten

/-!
# `fs_ro_abs` on its buffers

The name is joined with the current directory in `raw`, the segments are kept as offsets into it, and the result goes into the
caller's buffer of `outsz` bytes. `fsRoAbs` is what this computes.
-/

namespace Ezos.Fs

open Lib.Memory Lib.Segments

set_option autoImplicit false

variable {s : State} {name l w : Str} {raw out : Mem} {i n o outsz : Nat} {st gs : List (Nat × Nat)}

def skipSlash (raw : Mem) : Nat → Nat → Nat
  | 0, i => i
  | n + 1, i => if raw i = slash then skipSlash raw n (i + 1) else i

/-- `while (raw[i] && raw[i] != '/') i++`. -/
def segEnd (raw : Mem) : Nat → Nat → Nat
  | 0, i => i
  | n + 1, i => if raw i ≠ 0 ∧ raw i ≠ slash then segEnd raw n (i + 1) else i

def splitSegs (raw : Mem) : Nat → Nat → List (Nat × Nat) → Option (List (Nat × Nat))
  | 0, _, st => some st
  | n + 1, i, st =>
    if raw i = 0 then some st
    else
      let a := skipSlash raw 512 i
      let e := segEnd raw 512 a
      let len := e - a
      if len = 0 then splitSegs raw n e st
      else if len = 1 ∧ raw a = dot then splitSegs raw n e st
      else if len = 2 ∧ raw a = dot ∧ raw (a + 1) = dot then splitSegs raw n e st.dropLast
      else if st.length ≥ 64 then none
      else splitSegs raw n e (st ++ [(a, len)])

def putSeg (raw : Mem) (g : Nat × Nat) (out : Mem) (o : Nat) : Mem :=
  copyIn (writeBytes out o [slash]) (o + 1) g.2 fun k => raw (g.1 + k)

def emitBuf (raw : Mem) (outsz : Nat) : List (Nat × Nat) → Mem → Nat → Bool × Mem × Nat
  | [], out, o => (true, out, o)
  | g :: gs, out, o =>
    if o + g.2 + 1 ≥ outsz then (false, out, o) else emitBuf raw outsz gs (putSeg raw g out o) (o + g.2 + 1)

/-- `fs_ro_abs` with what `raw` and `out` hold before; `true` is the answer 0. -/
def fsRoAbsBuf (s : State) (name : Str) (raw out : Mem) (outsz : Nat) : Bool × Mem :=
  let raw := writeBytes raw 0 (rawPath s name ++ [0])
  match splitSegs raw 512 0 [] with
  | none => (false, out)
  | some st =>
    match emitBuf raw outsz st out 0 with
    | (false, out, _) => (false, out)
    | (true, out, o) =>
      if o = 0 then if outsz < 2 then (false, out) else (true, writeBytes (writeBytes out 0 [slash]) 1 [0])
      else (true, writeBytes out o [0])

def Spells (m : Mem) : Nat → Str → Prop
  | i, [] => m i = 0
  | i, c :: l => m i = c ∧ c ≠ 0 ∧ Spells m (i + 1) l

def textAt (m : Mem) (g : Nat × Nat) : Str := (List.range g.2).map fun k => m (g.1 + k)

theorem length_textAt (m : Mem) (g : Nat × Nat) : (textAt m g).length = g.2 := by
  rw [textAt, List.length_map, List.length_range]

theorem textAt_succ (m : Mem) (i n : Nat) : textAt m (i, n + 1) = m i :: textAt m (i + 1, n) := by
  unfold textAt
  rw [List.range_succ_eq_map, List.map_cons, List.map_map]
  refine congrArg (m i :: ·) (List.map_congr_left fun k _ => ?_)
  exact congrArg m (by simp only; omega)

theorem textAt_congr {m m' : Mem} {g : Nat × Nat} (h : ∀ x, g.1 ≤ x → x < g.1 + g.2 → m' x = m x) :
    textAt m' g = textAt m g := by
  refine List.map_congr_left fun k hk => ?_
  have hlt := List.mem_range.mp hk
  exact h _ (Nat.le_add_right _ k) (by omega)

theorem textAt_append (m : Mem) (i n k : Nat) : textAt m (i, n + k) = textAt m (i, n) ++ textAt m (i + n, k) := by
  unfold textAt
  rw [List.range_add, List.map_append, List.map_map]
  refine congrArg _ (List.map_congr_left fun j _ => ?_)
  exact congrArg m (Nat.add_assoc i n j).symm

theorem spells_iff {m : Mem} : Spells m i l ↔ textAt m (i, l.length) = l ∧ (0 : U8) ∉ l ∧ m (i + l.length) = 0 := by
  induction l generalizing i with
  | nil => simp [Spells, textAt]
  | cons c l ih =>
    rw [Spells, ih, List.length_cons, textAt_succ, List.cons.injEq, List.mem_cons, not_or, ne_comm]
    have hsum : i + (l.length + 1) = i + 1 + l.length := by omega
    rw [hsum]
    tauto

theorem spells_writeBytes (h : (0 : U8) ∉ l) : Spells (writeBytes raw 0 (l ++ [0])) 0 l := by
  have hat : ∀ k < (l ++ [0]).length, writeBytes raw 0 (l ++ [0]) (0 + k) = (l ++ [0]).getD k 0 := fun k hk =>
    writeBytes_inside hk
  have hlen : (l ++ [(0 : U8)]).length = l.length + 1 := List.length_append
  refine spells_iff.mpr ⟨?_, h, ?_⟩
  · refine List.ext_getElem (length_textAt _ _) fun k hk hk' => ?_
    have hin := hat k (by omega)
    simp only [textAt, List.getElem_map, List.getElem_range]
    rw [hin, List.getD_eq_getElem?_getD, List.getElem?_append_left hk', List.getElem?_eq_getElem hk']
    rfl
  · rw [hat l.length (by omega), List.getD_eq_getElem?_getD, List.getElem?_append_right (Nat.le_refl _), Nat.sub_self]
    rfl

/-! ## The scan finds the segments -/

theorem skipSlash_spec (h : Spells raw i l) (hn : l.length ≤ n) :
    Spells raw (skipSlash raw n i) (l.dropWhile (· == slash)) := by
  induction l generalizing i n with
  | nil =>
    have hzero : raw i ≠ slash := by
      rw [show raw i = 0 from h]
      decide
    cases n with
    | zero => exact h
    | succ n =>
      rw [skipSlash, if_neg hzero]
      exact h
  | cons c l ih =>
    obtain ⟨hc, h0, htail⟩ := h
    obtain ⟨n, rfl⟩ : ∃ k, n = k + 1 := ⟨n - 1, by rw [List.length_cons] at hn; omega⟩
    rw [skipSlash, hc]
    by_cases hs : c = slash
    · rw [if_pos hs, List.dropWhile_cons_of_pos (by simpa using hs)]
      exact ih htail (Nat.le_of_succ_le_succ hn)
    · rw [if_neg hs, List.dropWhile_cons_of_neg (by simpa using hs)]
      exact ⟨hc, h0, htail⟩

theorem segEnd_spec (h : Spells raw i l) (hn : l.length ≤ n) :
    segEnd raw n i = i + (l.takeWhile (· != slash)).length ∧
      textAt raw (i, (l.takeWhile (· != slash)).length) = l.takeWhile (· != slash) ∧
        Spells raw (segEnd raw n i) (l.dropWhile (· != slash)) := by
  induction l generalizing i n with
  | nil =>
    cases n with
    | zero => exact ⟨rfl, rfl, h⟩
    | succ n =>
      have hzero : ¬ (raw i ≠ 0 ∧ raw i ≠ slash) := fun hno => hno.1 h
      rw [segEnd, if_neg hzero]
      exact ⟨rfl, rfl, h⟩
  | cons c l ih =>
    obtain ⟨hc, h0, htail⟩ := h
    obtain ⟨n, rfl⟩ : ∃ k, n = k + 1 := ⟨n - 1, by rw [List.length_cons] at hn; omega⟩
    rw [segEnd, hc]
    by_cases hs : c = slash
    · have hstop : ¬ (c ≠ 0 ∧ c ≠ slash) := fun hno => hno.2 hs
      rw [if_neg hstop, List.takeWhile_cons_of_neg (by simpa using hs), List.dropWhile_cons_of_neg (by simpa using hs)]
      exact ⟨rfl, rfl, hc, h0, htail⟩
    · obtain ⟨hend, htext, hrest⟩ := ih htail (Nat.le_of_succ_le_succ hn)
      rw [if_pos ⟨h0, hs⟩, List.takeWhile_cons_of_pos (by simpa using hs), List.dropWhile_cons_of_pos (by simpa using hs),
        List.length_cons, textAt_succ, hc, htext]
      exact ⟨by rw [hend]; omega, rfl, hrest⟩

theorem isDot_textAt (a len : Nat) : isDot (textAt raw (a, len)) = true ↔ len = 1 ∧ raw a = dot := by
  rw [isDot, beq_iff_eq]
  constructor
  · intro h
    obtain rfl : len = 1 := (length_textAt raw (a, len)).symm.trans (congrArg List.length h)
    exact ⟨rfl, List.head_eq_of_cons_eq h⟩
  · rintro ⟨rfl, h⟩
    exact congrArg (fun c => [c]) h

theorem isDotDot_textAt (a len : Nat) :
    isDotDot (textAt raw (a, len)) = true ↔ len = 2 ∧ raw a = dot ∧ raw (a + 1) = dot := by
  rw [isDotDot, beq_iff_eq]
  constructor
  · intro h
    obtain rfl : len = 2 := (length_textAt raw (a, len)).symm.trans (congrArg List.length h)
    exact ⟨rfl, List.head_eq_of_cons_eq h, List.head_eq_of_cons_eq (List.tail_eq_of_cons_eq h)⟩
  · rintro ⟨rfl, h, h'⟩
    exact congrArg₂ (fun c d => [c, d]) h h'

theorem splitSegs_eq (h : Spells raw i l) (hn : l.length < n) (hl : l.length ≤ 512) :
    (splitSegs raw n i st).map (List.map (textAt raw)) = normSegs (st.map (textAt raw)) (segs slash l) := by
  induction n generalizing i l st with
  | zero => exact absurd hn (Nat.not_lt_zero _)
  | succ n ih =>
    unfold splitSegs
    cases l with
    | nil =>
      rw [if_pos (show raw i = 0 from h)]
      rfl
    | cons c l =>
      have hne : raw i ≠ 0 := by
        rw [h.1]
        exact h.2.1
      have hskip := skipSlash_spec h hl
      have hle := (List.dropWhile_sublist (· == slash) (l := c :: l)).length_le
      rw [if_neg hne, ← segs_dropWhile]
      dsimp only
      generalize skipSlash raw 512 i = a at hskip ⊢
      obtain ⟨hend, htext, hrest⟩ := @segEnd_spec _ _ _ 512 hskip (Nat.le_trans hle hl)
      cases hword : (c :: l).dropWhile (· == slash) with
      | nil =>
        rw [hword] at hend hrest
        rw [hend]
        rw [hend] at hrest
        rw [show (List.takeWhile (· != slash) ([] : Str)).length = 0 from rfl, Nat.add_zero, Nat.sub_self, if_pos rfl]
        exact ih hrest (by rw [List.length_cons] at hn; simp only [List.length_nil]; omega) (Nat.zero_le _)
      | cons d r =>
        have hd : d ≠ slash := by
          have hhead := List.head_dropWhile_not (· == slash) (l := c :: l) (by rw [hword]; exact List.cons_ne_nil d r)
          simpa [hword] using hhead
        rw [hword] at hend htext hrest hle
        rw [segs_takeWhile hd]
        have hshort := (List.dropWhile_sublist (· != slash) (l := d :: r)).length_le
        have hpos : 0 < ((d :: r).takeWhile (· != slash)).length := by
          rw [List.takeWhile_cons_of_pos (by simpa using hd), List.length_cons]
          exact Nat.succ_pos _
        have hsplit : ((d :: r).takeWhile (· != slash)).length + ((d :: r).dropWhile (· != slash)).length = (d :: r).length := by
          rw [← List.length_append, List.takeWhile_append_dropWhile]
        rw [hend]
        rw [hend] at hrest
        generalize (d :: r).takeWhile (· != slash) = w at htext hpos hsplit hrest ⊢
        generalize (d :: r).dropWhile (· != slash) = tail at hsplit hrest ⊢
        rw [Nat.add_sub_cancel_left, if_neg (Nat.ne_of_gt hpos)]
        have hnext : ∀ st, (splitSegs raw n (a + w.length) st).map (List.map (textAt raw)) =
            normSegs (st.map (textAt raw)) (segs slash tail) := fun st => ih hrest (by omega) (by omega)
        rw [normSegs]
        by_cases hdot : w.length = 1 ∧ raw a = dot
        · rw [if_pos hdot, if_pos (htext ▸ (isDot_textAt a w.length).mpr hdot)]
          exact hnext st
        · rw [if_neg hdot, if_neg (fun hno => hdot ((isDot_textAt a w.length).mp (htext.symm ▸ hno)))]
          by_cases hdd : w.length = 2 ∧ raw a = dot ∧ raw (a + 1) = dot
          · rw [if_pos hdd, if_pos (htext ▸ (isDotDot_textAt a w.length).mpr hdd), hnext, List.map_dropLast]
          · rw [if_neg hdd, if_neg (fun hno => hdd ((isDotDot_textAt a w.length).mp (htext.symm ▸ hno))), List.length_map]
            by_cases hfull : st.length ≥ 64
            · rw [if_pos hfull, if_pos hfull]
              rfl
            · rw [if_neg hfull, if_neg hfull, hnext, List.map_append, List.map_singleton, htext]

theorem textAt_putSeg {txt : Str} {g : Nat × Nat} (h : textAt out (0, o) = txt) :
    textAt (putSeg raw g out o) (0, o + g.2 + 1) = txt ++ slash :: textAt raw g := by
  have hbefore : ∀ x, 0 ≤ x → x < 0 + o → putSeg raw g out o x = out x := fun x _ hx => by
    rw [putSeg, copyIn, if_neg (by omega), writeBytes_of_disjoint (Or.inl (by omega))]
  have hslash : putSeg raw g out o o = slash := by
    rw [putSeg, copyIn, if_neg (by omega)]
    exact @writeBytes_inside out o [slash] 0 (by decide)
  rw [Nat.add_assoc, textAt_append, textAt_congr hbefore, h, Nat.zero_add, textAt_succ, hslash]
  refine congrArg (fun t => txt ++ slash :: t) (List.map_congr_left fun k hk => ?_)
  have hlt := List.mem_range.mp hk
  rw [putSeg, copyIn, if_pos ⟨Nat.le_add_right _ k, by omega⟩, Nat.add_sub_cancel_left]

theorem emitBuf_eq {txt : Str} (h : textAt out (0, o) = txt) :
    (emitSegs outsz txt (gs.map (textAt raw)) = none → (emitBuf raw outsz gs out o).1 = false) ∧
      ∀ r, emitSegs outsz txt (gs.map (textAt raw)) = some r → (emitBuf raw outsz gs out o).1 = true ∧
        (emitBuf raw outsz gs out o).2.2 = r.length ∧ textAt (emitBuf raw outsz gs out o).2.1 (0, r.length) = r := by
  have hlen : txt.length = o := h ▸ length_textAt out (0, o)
  induction gs generalizing out o txt with
  | nil =>
    refine ⟨fun hno => by contradiction, fun r hr => ?_⟩
    obtain rfl := Option.some.inj hr
    rw [hlen]
    exact ⟨rfl, rfl, h⟩
  | cons g gs ih =>
    rw [List.map_cons, emitSegs, emitBuf, length_textAt, hlen]
    by_cases hfull : o + g.2 + 1 ≥ outsz
    · rw [if_pos hfull, if_pos hfull]
      exact ⟨fun _ => rfl, fun r hr => by contradiction⟩
    · rw [if_neg hfull, if_neg hfull]
      have hnext := @textAt_putSeg raw out o txt g h
      exact ih hnext (by rw [← hnext, length_textAt])

theorem emitBuf_frame {x : Nat} (hx : outsz ≤ x) : (emitBuf raw outsz gs out o).2.1 x = out x := by
  induction gs generalizing out o with
  | nil => rfl
  | cons g gs ih =>
    rw [emitBuf]
    split
    · rfl
    · rw [ih, putSeg, copyIn, if_neg (by omega), writeBytes_of_disjoint (Or.inr (by rw [List.length_singleton]; omega))]

theorem emitBuf_index (h : (emitBuf raw outsz gs out o).1 = true) :
    (emitBuf raw outsz gs out o).2.2 = o ∨ (emitBuf raw outsz gs out o).2.2 < outsz := by
  induction gs generalizing out o with
  | nil => exact Or.inl rfl
  | cons g gs ih =>
    rw [emitBuf] at h ⊢
    split at h
    · contradiction
    · rename_i hfit
      rw [if_neg hfit]
      rcases ih h with heq | hlt
      · exact Or.inr (by omega)
      · exact Or.inr hlt

theorem fsRoAbsBuf_frame (s : State) (name : Str) (raw out : Mem) {x : Nat} (hx : outsz ≤ x) :
    (fsRoAbsBuf s name raw out outsz).2 x = out x := by
  unfold fsRoAbsBuf
  dsimp only
  generalize writeBytes raw 0 (rawPath s name ++ [0]) = raw
  cases splitSegs raw 512 0 [] with
  | none => rfl
  | some st =>
    dsimp only
    have hframe := @emitBuf_frame raw out 0 outsz st x hx
    have hindex := @emitBuf_index raw out 0 outsz st
    revert hframe hindex
    obtain ⟨ok, out', o⟩ := emitBuf raw outsz st out 0
    intro hframe hindex
    cases ok with
    | false => exact hframe
    | true =>
      dsimp only at hframe hindex ⊢
      by_cases ho : o = 0
      · rw [if_pos ho]
        by_cases hsmall : outsz < 2
        · rw [if_pos hsmall]
          exact hframe
        · rw [if_neg hsmall]
          dsimp only
          rw [writeBytes_of_disjoint (Or.inr (by rw [List.length_singleton]; omega)),
            writeBytes_of_disjoint (Or.inr (by rw [List.length_singleton]; omega)), hframe]
      · have hlt := (hindex rfl).resolve_left ho
        rw [if_neg ho]
        dsimp only
        rw [writeBytes_of_disjoint (Or.inr (by rw [List.length_singleton]; omega)), hframe]

theorem length_rawPath_le (s : State) (name : Str) : (rawPath s name).length ≤ 511 := by
  unfold rawPath
  split
  · exact List.length_take_le 511 name
  · exact List.length_take_le 511 _

theorem fsRoAbsBuf_eq (hnul : (0 : U8) ∉ rawPath s name) (raw out : Mem) :
    (fsRoAbs s name outsz = none → (fsRoAbsBuf s name raw out outsz).1 = false) ∧
      ∀ p, fsRoAbs s name outsz = some p → (fsRoAbsBuf s name raw out outsz).1 = true ∧
        textAt (fsRoAbsBuf s name raw out outsz).2 (0, p.length) = p ∧
          (fsRoAbsBuf s name raw out outsz).2 p.length = 0 := by
  have hsplit := @splitSegs_eq _ _ 0 512 [] (@spells_writeBytes (rawPath s name) raw hnul)
    (Nat.lt_of_le_of_lt (length_rawPath_le s name) (by decide)) (Nat.le_trans (length_rawPath_le s name) (by decide))
  unfold fsRoAbs fsRoAbsBuf
  dsimp only
  generalize writeBytes raw 0 (rawPath s name ++ [0]) = raw at hsplit ⊢
  rw [List.map_nil] at hsplit
  rw [← hsplit]
  cases splitSegs raw 512 0 [] with
  | none => exact ⟨fun _ => rfl, fun p hp => by contradiction⟩
  | some st =>
    obtain ⟨hnone, hsome⟩ := @emitBuf_eq raw out 0 outsz st [] rfl
    rw [Option.map_some]
    dsimp only
    revert hnone hsome
    obtain ⟨ok, out', o⟩ := emitBuf raw outsz st out 0
    intro hnone hsome
    cases he : emitSegs outsz [] (st.map (textAt raw)) with
    | none =>
      obtain rfl : ok = false := hnone he
      exact ⟨fun _ => rfl, fun p hp => by contradiction⟩
    | some r =>
      obtain ⟨hok, ho, htext⟩ := hsome r he
      dsimp only at hok ho htext ⊢
      subst hok ho
      have hend : ∀ (m : Mem) (n : Nat), writeBytes m n [0] n = 0 := fun m n => @writeBytes_inside m n [0] 0 (by decide)
      cases r with
      | nil =>
        dsimp only [List.length_nil]
        rw [if_pos rfl]
        by_cases hsmall : outsz < 2
        · rw [if_pos hsmall, if_pos hsmall]
          exact ⟨fun _ => rfl, fun p hp => by contradiction⟩
        · rw [if_neg hsmall, if_neg hsmall]
          refine ⟨fun hno => by contradiction, fun p hp => ?_⟩
          obtain rfl := Option.some.inj hp
          exact ⟨rfl, rfl, hend (writeBytes out' 0 [slash]) 1⟩
      | cons c r =>
        dsimp only [List.length_cons]
        rw [if_neg (Nat.succ_ne_zero r.length)]
        refine ⟨fun hno => by contradiction, fun p hp => ?_⟩
        obtain rfl := Option.some.inj hp
        refine ⟨rfl, ?_, hend _ _⟩
        refine (textAt_congr fun x _ hx => writeBytes_of_disjoint (Or.inl ?_)).trans htext
        rw [Nat.zero_add] at hx
        exact hx

/-! ## Canonical paths -/

def Canonical (p : Str) : Prop := ∃ cs, (∀ c ∈ cs, IsSeg slash c ∧ c ≠ [dot] ∧ c ≠ [dot, dot]) ∧ p = spelt cs

def joined (s : State) (name : Str) : Str :=
  if name.head? = some slash then name
  else (if s.roCwd ≠ [] ∧ s.roCwd.getLast? ≠ some slash then s.roCwd ++ [slash] else s.roCwd) ++ name

def meant (s : State) (name : Str) : List Str :=
  if name.head? = some slash then segs slash name else segs slash s.roCwd ++ segs slash name

theorem rawPath_joined (h : (joined s name).length ≤ 511) : rawPath s name = joined s name := by
  unfold rawPath joined at *
  by_cases habs : name.head? = some slash
  · rw [if_pos habs] at h ⊢
    rw [if_pos habs]
    exact List.take_of_length_le h
  · rw [if_neg habs] at h ⊢
    rw [if_neg habs]
    by_cases hsep : s.roCwd ≠ [] ∧ s.roCwd.getLast? ≠ some slash
    · rw [if_pos hsep] at h ⊢
      have hcwd : s.roCwd.length < 511 := by
        rw [List.length_append, List.length_append, List.length_singleton] at h
        omega
      have htake : s.roCwd.take 511 = s.roCwd := List.take_of_length_le (Nat.le_of_lt hcwd)
      dsimp only
      rw [htake, if_pos ⟨hsep.1, hsep.2, hcwd⟩]
      exact List.take_of_length_le h
    · rw [if_neg hsep] at h ⊢
      have hcwd : s.roCwd.length ≤ 511 := by
        rw [List.length_append] at h
        omega
      have htake : s.roCwd.take 511 = s.roCwd := List.take_of_length_le hcwd
      dsimp only
      rw [htake, if_neg fun hno => hsep ⟨hno.1, hno.2.1⟩]
      exact List.take_of_length_le h

theorem segs_joined (s : State) (name : Str) : segs slash (joined s name) = meant s name := by
  unfold joined meant
  by_cases habs : name.head? = some slash
  · rw [if_pos habs, if_pos habs]
  · rw [if_neg habs, if_neg habs]
    by_cases hsep : s.roCwd ≠ [] ∧ s.roCwd.getLast? ≠ some slash
    · rw [if_pos hsep, List.append_assoc, List.singleton_append, segs_append_sep]
    · rw [if_neg hsep]
      by_cases hnil : s.roCwd = []
      · rw [hnil, segs_nil]
        rfl
      · have hlast : s.roCwd.getLast? = some slash := by
          by_contra hno
          exact hsep ⟨hnil, hno⟩
        obtain ⟨l, hl⟩ := List.getLast?_eq_some_iff.mp hlast
        rw [hl, List.append_assoc, List.singleton_append, segs_append_sep, segs_append_sep, segs_nil, List.append_nil]

theorem canonical_spelt_dots (l : Str) : Canonical (spelt (dots (segs slash l))) := by
  refine ⟨_, fun c hc => ?_, rfl⟩
  obtain ⟨hdot, hdd⟩ := pushed_of_mem_norm c hc
  exact ⟨isSeg_of_mem_dots c hc, beq_eq_false_iff_ne.mp hdot, beq_eq_false_iff_ne.mp hdd⟩

theorem Canonical.dots_segs {p : Str} (h : Canonical p) : spelt (dots (segs slash p)) = p := by
  obtain ⟨cs, hcs, rfl⟩ := h
  rw [segs_spelt fun c hc => (hcs c hc).1]
  have hstay : dots cs = cs := norm_of_pushed fun c hc =>
    ⟨beq_eq_false_iff_ne.mpr (hcs c hc).2.1, beq_eq_false_iff_ne.mpr (hcs c hc).2.2⟩
  rw [hstay]

theorem not_mem_spelt {cs : List Str} (h : ∀ c ∈ cs, (0 : U8) ∉ c) : (0 : U8) ∉ spelt cs := by
  cases cs with
  | nil => decide
  | cons c cs =>
    intro hmem
    obtain ⟨d, hd, hin⟩ := List.mem_flatMap.mp hmem
    rcases List.mem_cons.mp hin with hslash | hin
    · exact absurd hslash (by decide)
    · exact h d hd hin

theorem length_spelt_dots_le {l : Str} (h : l.head? = some slash) : (spelt (dots (segs slash l))).length ≤ l.length := by
  cases l with
  | nil => contradiction
  | cons c l =>
    obtain rfl : c = slash := Option.some.inj h
    rw [segs_cons_sep]
    have hpos : 1 ≤ (slash :: l).length := Nat.succ_le_succ (Nat.zero_le _)
    cases hd : dots (segs slash l) with
    | nil => exact hpos
    | cons d ds =>
      have hsub : (join slash (d :: ds)).Sublist (join slash (segs slash l)) := by
        rw [← hd]
        exact (norm_sublist (segs slash l)).flatMap _
      exact Nat.le_trans hsub.length_le (length_join_segs_le l)

def absOf (s : State) (name : Str) : Str := spelt (dots (meant s name))

theorem head?_joined (hcwd : Canonical s.roCwd) : (joined s name).head? = some slash := by
  unfold joined
  by_cases habs : name.head? = some slash
  · rwa [if_pos habs]
  · obtain ⟨cs, -, hspelt⟩ := hcwd
    have hhead : s.roCwd.head? = some slash := hspelt ▸ head?_spelt
    rw [if_neg habs]
    split
    · rw [List.append_assoc, List.head?_append, hhead]
      rfl
    · rw [List.head?_append, hhead]
      rfl

theorem not_mem_joined (hnul : (0 : U8) ∉ s.roCwd ∧ (0 : U8) ∉ name) : (0 : U8) ∉ joined s name := by
  unfold joined
  split
  · exact hnul.2
  · split
    · simp only [List.mem_append, List.mem_singleton, not_or]
      exact ⟨⟨hnul.1, by decide⟩, hnul.2⟩
    · rw [List.mem_append, not_or]
      exact hnul

theorem fsRoAbs_fixed {p : Str} (h : fsRoAbs s name outsz = some p) (hlen : p.length ≤ 511) (s' : State) :
    fsRoAbs s' p outsz = some p := by
  have hp := (fsRoAbs_some h).1
  have hcanon : Canonical p := hp ▸ canonical_spelt_dots (rawPath s name)
  have habs : p.head? = some slash := hp ▸ head?_spelt
  have hjoined : joined s' p = p := if_pos habs
  have hraw : rawPath s' p = p := (rawPath_joined (by rw [hjoined]; exact hlen)).trans hjoined
  have hfix := hcanon.dots_segs
  cases hq : fsRoAbs s' p outsz with
  | some q =>
    have hq' := (fsRoAbs_some hq).1
    rw [hraw, hfix] at hq'
    rw [hq']
  | none =>
    have hdepth := fsRoAbs_depth h
    have hsegs := fsRoAbs_segs h
    rcases fsRoAbs_eq_none_iff.mp hq with ⟨k, hk⟩ | hlong
    · have hpushed : dots ((segs slash p).take k) = (segs slash p).take k := norm_of_pushed fun c hc => by
        rw [hsegs] at hc
        exact pushed_of_mem_norm c (List.mem_of_mem_take hc)
      rw [hraw, hpushed, List.length_take] at hk
      omega
    · rw [hraw, hfix] at hlong
      have hfits := (fsRoAbs_some h).2
      omega

/-- In a current directory that is canonical, a name whose joined text fits `raw` is normalised: the answer is the canonical path
that the name means, it stands for itself, it is refused when more than 64 segments are pending or it does not fit, and the buffer
ends at `outsz`. -/
theorem fsRoAbs_normalises (s : State) (name : Str) (raw out : Mem) (outsz : Nat) (hcwd : Canonical s.roCwd)
    (hnul : (0 : U8) ∉ s.roCwd ∧ (0 : U8) ∉ name) (hlen : (joined s name).length ≤ 511) :
    ((fsRoAbsBuf s name raw out outsz).1 = true →
      Spells (fsRoAbsBuf s name raw out outsz).2 0 (absOf s name) ∧ Canonical (absOf s name) ∧
        ∀ s' raw' out', (fsRoAbsBuf s' (absOf s name) raw' out' outsz).1 = true ∧
          Spells (fsRoAbsBuf s' (absOf s name) raw' out' outsz).2 0 (absOf s name)) ∧
    ((fsRoAbsBuf s name raw out outsz).1 = false ↔
      (∃ k, 64 < (dots ((meant s name).take k)).length) ∨ outsz ≤ (absOf s name).length) ∧
    ∀ x, outsz ≤ x → (fsRoAbsBuf s name raw out outsz).2 x = out x := by
  have hraw := rawPath_joined hlen
  have hzero := not_mem_joined hnul
  have hmeant : segs slash (rawPath s name) = meant s name := by rw [hraw, segs_joined]
  have habsOf : absOf s name = spelt (dots (segs slash (joined s name))) := by rw [segs_joined, absOf]
  have hpath : (0 : U8) ∉ absOf s name := by
    rw [habsOf]
    exact not_mem_spelt fun c hc hno => hzero (mem_of_mem_segs ((norm_sublist _).subset hc) _ hno)
  have hshort : (absOf s name).length ≤ 511 := by
    rw [habsOf]
    exact Nat.le_trans (length_spelt_dots_le (head?_joined hcwd)) hlen
  have hbuf := @fsRoAbsBuf_eq s name outsz (hraw ▸ hzero)
  have hnone := @fsRoAbs_eq_none_iff s name outsz
  rw [hmeant, show spelt (dots (meant s name)) = absOf s name from rfl] at hnone
  have hspells : ∀ s' name' p raw' out', (0 : U8) ∉ rawPath s' name' → (0 : U8) ∉ p → fsRoAbs s' name' outsz = some p →
      (fsRoAbsBuf s' name' raw' out' outsz).1 = true ∧ Spells (fsRoAbsBuf s' name' raw' out' outsz).2 0 p := by
    intro s' name' p raw' out' hr hp0 hp
    obtain ⟨hok, htext, hend⟩ := (fsRoAbsBuf_eq hr raw' out').2 p hp
    exact ⟨hok, spells_iff.mpr ⟨htext, hp0, by rw [Nat.zero_add]; exact hend⟩⟩
  refine ⟨fun hok => ?_, ?_, fun x hx => fsRoAbsBuf_frame s name raw out hx⟩
  · cases hp : fsRoAbs s name outsz with
    | none =>
      rw [(hbuf raw out).1 hp] at hok
      contradiction
    | some p =>
      obtain rfl : p = absOf s name := by
        rw [(fsRoAbs_some hp).1, hmeant, absOf]
      refine ⟨(hspells s name _ raw out (hraw ▸ hzero) hpath hp).2, habsOf ▸ canonical_spelt_dots _, fun s' raw' out' => ?_⟩
      have habs : (absOf s name).head? = some slash := head?_spelt
      have hself : rawPath s' (absOf s name) = absOf s name := by
        unfold rawPath
        rw [if_pos habs]
        exact List.take_of_length_le hshort
      exact hspells s' _ _ raw' out' (by rw [hself]; exact hpath) hpath (fsRoAbs_fixed hp hshort s')
  · rw [← hnone]
    constructor
    · intro hfail
      cases hp : fsRoAbs s name outsz with
      | none => rfl
      | some p =>
        rw [((hbuf raw out).2 p hp).1] at hfail
        contradiction
    · exact (hbuf raw out).1

theorem fsRoAbs_normalises_up : (fsRoAbsBuf ⟨.ext4, [slash, 0x61, slash, 0x62], []⟩ [dot, dot, slash, 0x63] zeros zeros 8).1 = false ↔
    (∃ k, 64 < (dots ((meant ⟨.ext4, [slash, 0x61, slash, 0x62], []⟩ [dot, dot, slash, 0x63]).take k)).length) ∨
      8 ≤ (absOf ⟨.ext4, [slash, 0x61, slash, 0x62], []⟩ [dot, dot, slash, 0x63]).length :=
  (fsRoAbs_normalises ⟨.ext4, [slash, 0x61, slash, 0x62], []⟩ [dot, dot, slash, 0x63] zeros zeros 8
    ⟨[[0x61], [0x62]], by unfold IsSeg; decide, rfl⟩ (by decide) (by decide)).2.1

end Ezos.Fs
