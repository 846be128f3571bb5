import Ezos.Erofs.Content
import Mathlib.Data.List.Basic

/-!
# What the walk hands over

The entries of the first block but its last are handed over as they are. The last one decides, with the blocks behind the
first, whether the walk meets the format.
-/

namespace Ezos.Erofs

open Lib.Memory

set_option autoImplicit false

variable {f g : Mem} {len bs size : Nat}

theorem erDirents_congr (h : ∀ x < size, f x = g x) : erDirents f size = erDirents g size := by
  have hoff : ∀ i, (i + 1) * direntSize ≤ size → nameoff f i = nameoff g i := by
    intro i hi
    unfold direntSize at hi
    unfold nameoff direntSize
    rw [read16_congr fun x _ hx => h x (by omega)]
  unfold erDirents
  by_cases hsmall : size < direntSize
  · rw [if_pos hsmall, if_pos hsmall]
  · rw [if_neg hsmall, if_neg hsmall, hoff 0 (by omega)]
    dsimp only
    by_cases hmany : size / direntSize < nameoff g 0 / direntSize
    · rw [if_pos hmany, if_pos hmany]
    · rw [if_neg hmany, if_neg hmany]
      refine congrArg some (List.filterMap_congr fun i hi => ?_)
      have hlt := List.mem_range.mp hi
      generalize nameoff g 0 / direntSize = n at hmany hlt ⊢
      have hroom : ∀ j < n, (j + 1) * direntSize ≤ size := by
        intro j hj
        unfold direntSize at hmany ⊢
        omega
      have hnext : (if i + 1 < n then nameoff f (i + 1) else size) = if i + 1 < n then nameoff g (i + 1) else size := by
        by_cases hn : i + 1 < n
        · rw [if_pos hn, if_pos hn, hoff (i + 1) (hroom (i + 1) hn)]
        · rw [if_neg hn, if_neg hn]
      have hin := hroom i hlt
      unfold direntSize at hin
      unfold erDirent
      dsimp only
      rw [hoff i (hroom i hlt), hnext]
      generalize (if i + 1 < n then nameoff g (i + 1) else size) = next
      by_cases h1 : nameoff g i < n * direntSize ∨ size ≤ nameoff g i
      · rw [if_pos h1, if_pos h1]
      · by_cases h2 : size < next ∨ next ≤ nameoff g i
        · rw [if_neg h1, if_neg h1, if_pos h2, if_pos h2]
        · have hname : bytesAt f (nameoff g i) (next - nameoff g i) = bytesAt g (nameoff g i) (next - nameoff g i) :=
            bytesAt_congr fun x _ hx => h x (by omega)
          have hnid : read32 f (i * direntSize) = read32 g (i * direntSize) :=
            read32_congr fun x _ hx => h x (by unfold direntSize at hx; omega)
          have htype : f (i * direntSize + 10) = g (i * direntSize + 10) := h _ (by unfold direntSize; omega)
          rw [if_neg h1, if_neg h1, if_neg h2, if_neg h2, hname, hnid, htype]

theorem lt_blocks_iff (hbs : 0 < bs) {b : Nat} : b < (size + bs - 1) / bs ↔ b * bs < size := by
  have hsucc : (b + 1) * bs = b * bs + bs := Nat.succ_mul _ _
  rw [Nat.lt_iff_add_one_le, Nat.le_div_iff_mul_le hbs, hsucc]
  omega

theorem blockMem_zero : blockMem f bs 0 = f := by
  funext x
  rw [blockMem, Nat.zero_mul, Nat.zero_add]

theorem blockLen_zero : blockLen bs size 0 = min bs size := by
  rw [blockLen, Nat.zero_mul, Nat.sub_zero]

theorem DirBytes.head (h : DirBytes f bs size) (hsize : 0 < size) : DirBlock f (min bs size) := by
  have hblock := h.blocks 0 (by omega)
  rwa [blockMem_zero, blockLen_zero] at hblock

theorem DirBytes.tail_lt (h : DirBytes f bs size) (hlt : bs < size) : bs + direntSize < size := by
  have hblock := h.blocks 1 (by omega)
  have hsize := hblock.direntSize_lt
  rw [blockLen] at hsize
  omega

def realAt (g : Mem) (len i : Nat) : Option Dirent := Option.guard (fun e => !dotName e.name) (entryIn g len i)

theorem realAt_eq (g : Mem) (len i : Nat) :
    realAt g len i = if dotName (nameIn g len i) then none else some (entryIn g len i) := by
  have hentry : (entryIn g len i).name = nameIn g len i := rfl
  rw [realAt, Option.guard, hentry]
  cases dotName (nameIn g len i) with
  | true => rfl
  | false => rfl

theorem realIn_eq (g : Mem) (len : Nat) : realIn g len = (List.range (direntCount g)).filterMap (realAt g len) := by
  rw [realIn, entriesIn, ← List.filterMap_eq_filter, List.filterMap_map]
  rfl

theorem realEntries_eq (f : Mem) (bs size : Nat) :
    realEntries f bs size =
      (List.range ((size + bs - 1) / bs)).flatMap fun b => realIn (blockMem f bs b) (blockLen bs size b) :=
  List.filter_flatMap

def laterEntries (f : Mem) (bs size : Nat) : List Dirent :=
  (List.range ((size + bs - 1) / bs - 1)).flatMap fun b => realIn (blockMem f bs (b + 1)) (blockLen bs size (b + 1))

theorem realEntries_split (hbs : 0 < bs) (hsize : 0 < size) :
    realEntries f bs size = realIn f (min bs size) ++ laterEntries f bs size := by
  obtain ⟨k, hk⟩ : ∃ k, (size + bs - 1) / bs = k + 1 := by
    have hpos : 0 < (size + bs - 1) / bs := (lt_blocks_iff hbs).mpr (by omega)
    exact ⟨(size + bs - 1) / bs - 1, by omega⟩
  rw [realEntries_eq, laterEntries, hk, List.range_succ_eq_map, List.flatMap_cons, blockMem_zero, blockLen_zero,
    List.flatMap_map, Nat.add_sub_cancel]

theorem laterEntries_eq_nil_iff (hbs : 0 < bs) :
    laterEntries f bs size = [] ↔ ∀ b, 0 < b → b * bs < size → realIn (blockMem f bs b) (blockLen bs size b) = [] := by
  rw [laterEntries, List.flatMap_eq_nil_iff]
  constructor
  · intro h b hb hlt
    obtain ⟨b, rfl⟩ : ∃ b', b = b' + 1 := ⟨b - 1, by omega⟩
    have hmem := (lt_blocks_iff hbs).mpr hlt
    exact h b (List.mem_range.mpr (by omega))
  · intro h b hb
    have hmem := List.mem_range.mp hb
    exact h (b + 1) (by omega) ((lt_blocks_iff hbs).mp (by omega))

theorem erDirent_eq {n i next : Nat} (hnext : (if i + 1 < n then nameoff f (i + 1) else size) = next)
    (hlo : n * direntSize ≤ nameoff f i) (hrise : nameoff f i < next) (hin : next ≤ size) :
    erDirent f size n i =
      if 255 < next - nameoff f i ∨ dotName (bytesAt f (nameoff f i) (next - nameoff f i)) then none
      else some
        { name := cstr (bytesAt f (nameoff f i) (next - nameoff f i)), nid := read32 f (i * direntSize)
          isDir := f (i * direntSize + 10) = ftDir } := by
  unfold erDirent
  dsimp only
  rw [hnext, if_neg (by omega), if_neg (by omega)]
  by_cases hlong : 255 < next - nameoff f i
  · rw [if_pos hlong, if_pos (Or.inl hlong)]
  · rw [if_neg hlong]
    by_cases hdot : dotName (bytesAt f (nameoff f i) (next - nameoff f i))
    · rw [if_pos (Or.inr hdot), if_pos (of_decide_eq_true hdot)]
    · rw [if_neg (not_or.mpr ⟨hlong, hdot⟩), if_neg fun h => hdot (decide_eq_true h)]

theorem erDirent_init (h : DirBlock f len) (hlen : len ≤ size) {i : Nat} (hi : i + 1 < direntCount f) :
    erDirent f size (direntCount f) i = realAt f len i := by
  have hin := h.inside (i + 1) hi
  have hstop : nameStop f len i = nameoff f (i + 1) := if_pos hi
  have hwhole := h.whole i hi
  have hshort := (h.name i (by omega)).2
  have hname : nameIn f len i = bytesAt f (nameoff f i) (nameoff f (i + 1) - nameoff f i) := by
    rw [nameIn, hstop] at hwhole ⊢
    exact cstr_of_length (by rw [hwhole, length_bytesAt])
  have hcstr : cstr (bytesAt f (nameoff f i) (nameoff f (i + 1) - nameoff f i)) = nameIn f len i := by
    rw [nameIn, hstop]
  rw [erDirent_eq (if_pos hi) (h.le_nameoff (by omega)) (h.rising i hi) (by omega), hcstr, ← hname, realAt_eq]
  by_cases hdot : dotName (nameIn f len i) = true
  · rw [if_pos (Or.inr hdot), if_pos hdot]
  · rw [if_neg (not_or.mpr ⟨by omega, hdot⟩), if_neg hdot]
    rfl

theorem erDirent_last (h : DirBlock f len) (hlen : len ≤ size) {k : Nat} (hk : direntCount f = k + 1) :
    erDirent f size (direntCount f) k =
      if 255 < size - nameoff f k ∨ dotName (bytesAt f (nameoff f k) (size - nameoff f k)) then none
      else some
        { name := cstr (bytesAt f (nameoff f k) (size - nameoff f k)), nid := read32 f (k * direntSize)
          isDir := f (k * direntSize + 10) = ftDir } := by
  have hin := h.inside k (by omega)
  exact erDirent_eq (if_neg (by omega)) (h.le_nameoff (by omega)) (by omega) (Nat.le_refl size)

theorem cstr_of_dotName {l : List Byte} (h : dotName l = true) : cstr l = l := by
  rcases of_decide_eq_true h with rfl | rfl <;> rfl

theorem length_of_dotName {l : List Byte} (h : dotName l = true) : l.length ≤ 2 := by
  rcases of_decide_eq_true h with rfl | rfl <;> decide

theorem dotName_last_iff (h : DirBytes f bs size) (hsize : 0 < size) {k : Nat} (hk : direntCount f = k + 1)
    (hdot : dotName (nameIn f (min bs size) k) = true) :
    dotName (bytesAt f (nameoff f k) (size - nameoff f k)) = true ↔
      nameoff f k + (nameIn f (min bs size) k).length = size := by
  have hblock := h.head hsize
  have hin := hblock.inside k (by omega)
  have hstop : nameStop f (min bs size) k = min bs size := if_neg (by omega)
  have hname : nameIn f (min bs size) k = cstr (bytesAt f (nameoff f k) (min bs size - nameoff f k)) := by
    rw [nameIn, hstop]
  constructor
  · intro hend
    have hshort := length_of_dotName hend
    rw [length_bytesAt] at hshort
    have hone : ¬ bs < size := fun hlt => by
      have htail := h.tail_lt hlt
      unfold direntSize at htail
      omega
    have hmin : min bs size = size := by omega
    rw [hname, hmin, cstr_of_dotName hend, length_bytesAt]
    omega
  · intro hend
    have hle := length_cstr_le (bytesAt f (nameoff f k) (min bs size - nameoff f k))
    rw [← hname, length_bytesAt] at hle
    have hmin : min bs size = size := by omega
    have hall : nameIn f (min bs size) k = bytesAt f (nameoff f k) (size - nameoff f k) := by
      rw [hmin] at hname hend ⊢
      rw [hname]
      refine cstr_of_length ?_
      rw [← hname, length_bytesAt]
      omega
    rwa [← hall]

theorem entryIn_mem (hbs : 0 < bs) (hsize : 0 < size) {k : Nat} (hk : k < direntCount f) :
    entryIn f (min bs size) k ∈ dirEntries f bs size := by
  refine List.mem_flatMap.mpr ⟨0, List.mem_range.mpr ((lt_blocks_iff hbs).mpr (by omega)), ?_⟩
  rw [blockMem_zero, blockLen_zero]
  exact List.mem_map.mpr ⟨k, List.mem_range.mpr hk, rfl⟩

theorem mem_of_mem_later (hbs : 0 < bs) (hsize : 0 < size) {e : Dirent} (he : e ∈ laterEntries f bs size) :
    e ∈ dirEntries f bs size ∧ dotName e.name = false := by
  have hreal : e ∈ realEntries f bs size := by
    rw [realEntries_split hbs hsize]
    exact List.mem_append_right _ he
  obtain ⟨hmem, hname⟩ := List.mem_filter.mp hreal
  exact ⟨hmem, Bool.not_eq_true' _ ▸ hname⟩

/-- The last entry of the first block, when it is `.` or `..`: what is made of it is not a later entry, which leads elsewhere. -/
theorem last_eq_iff_of_dot (h : DirBytes f bs size) (hbs : 0 < bs) (hsize : 0 < size) {k : Nat} (hk : direntCount f = k + 1)
    (hdot : dotName (nameIn f (min bs size) k) = true) :
    (erDirent f size (direntCount f) k).toList = laterEntries f bs size ↔
      laterEntries f bs size = [] ∧
        (nameoff f k + (nameIn f (min bs size) k).length = size ∨ 255 < size - nameoff f k) := by
  rw [erDirent_last (h.head hsize) (by omega : min bs size ≤ size) hk, ← dotName_last_iff h hsize hk hdot]
  by_cases hskip : 255 < size - nameoff f k ∨ dotName (bytesAt f (nameoff f k) (size - nameoff f k)) = true
  · rw [if_pos hskip]
    exact ⟨fun hnil => ⟨hnil.symm, hskip.symm⟩, fun hnil => hnil.1.symm⟩
  · rw [if_neg hskip]
    refine ⟨fun hone => ?_, fun hend => absurd hend.2.symm hskip⟩
    cases hlater : laterEntries f bs size with
    | nil =>
      rw [hlater] at hone
      exact absurd hone (List.cons_ne_nil _ _)
    | cons e l =>
      rw [hlater] at hone
      obtain ⟨hmem, hname⟩ := mem_of_mem_later hbs hsize (hlater ▸ List.mem_cons_self : e ∈ laterEntries f bs size)
      have hnid := congrArg Dirent.nid (List.cons.inj hone).1.symm
      exact absurd hnid (h.dots _ (entryIn_mem hbs hsize (by omega : k < direntCount f)) e hmem hdot hname)

theorem last_eq_iff_of_real (h : DirBytes f bs size) (hsize : 0 < size) {k : Nat} (hk : direntCount f = k + 1)
    (hdot : dotName (nameIn f (min bs size) k) = false) :
    (erDirent f size (direntCount f) k).toList = entryIn f (min bs size) k :: laterEntries f bs size ↔
      laterEntries f bs size = [] ∧ size - nameoff f k ≤ 255 ∧
        (nameoff f k + (nameIn f (min bs size) k).length = size ∨
          f (nameoff f k + (nameIn f (min bs size) k).length) = 0) := by
  have hblock := h.head hsize
  have hin := hblock.inside k (by omega)
  have hstop : nameStop f (min bs size) k = min bs size := if_neg (by omega)
  have hname : nameIn f (min bs size) k = cstr (bytesAt f (nameoff f k) (min bs size - nameoff f k)) := by
    rw [nameIn, hstop]
  have hextend : cstr (bytesAt f (nameoff f k) (size - nameoff f k)) = nameIn f (min bs size) k ↔
      nameoff f k + (nameIn f (min bs size) k).length = size ∨
        f (nameoff f k + (nameIn f (min bs size) k).length) = 0 := by
    have hiff := @cstr_extend f (nameoff f k) (min bs size - nameoff f k) (size - nameoff f k) (by omega)
    rw [← hname] at hiff
    have hlen : (nameIn f (min bs size) k).length = size - nameoff f k ↔
        nameoff f k + (nameIn f (min bs size) k).length = size := by omega
    rwa [hlen] at hiff
  rw [erDirent_last hblock (by omega : min bs size ≤ size) hk, ← hextend]
  by_cases hskip : 255 < size - nameoff f k ∨ dotName (bytesAt f (nameoff f k) (size - nameoff f k)) = true
  · rw [if_pos hskip]
    refine ⟨fun hnil => absurd hnil.symm (List.cons_ne_nil _ _), ?_⟩
    rintro ⟨_, hle, hsame⟩
    have hend := hskip.resolve_left (by omega)
    rw [← hsame, cstr_of_dotName hend, hend] at hdot
    cases hdot
  · rw [if_neg hskip]
    constructor
    · intro hone
      obtain ⟨hentry, hnil⟩ := List.cons.inj hone
      exact ⟨hnil.symm, by omega, congrArg Dirent.name hentry⟩
    · rintro ⟨hnil, _, hsame⟩
      rw [hnil, hsame]
      rfl

/-- The walk of a well-formed directory offers its real entries exactly when they are in the first block and the last name of
that block fits. -/
theorem erDirents_eq_iff (h : DirBytes f bs size) (hbs : 0 < bs) (hsize : 0 < size) :
    erDirents f size = some (realEntries f bs size) ↔ WalkFits f bs size := by
  have hblock := h.head hsize
  have hsmall := hblock.direntSize_lt
  have hcount := hblock.count_le
  have hroom : ¬ size / direntSize < direntCount f := by
    unfold direntSize at hcount ⊢
    omega
  obtain ⟨k, hk⟩ : ∃ k, direntCount f = k + 1 := ⟨direntCount f - 1, by have hpos := hblock.pos; omega⟩
  have hall : erDirents f size = some ((List.range (direntCount f)).filterMap (erDirent f size (direntCount f))) := by
    rw [erDirents, if_neg (by omega)]
    exact if_neg hroom
  have hinit : (List.range k).filterMap (erDirent f size (direntCount f)) = (List.range k).filterMap (realAt f (min bs size)) :=
    List.filterMap_congr fun i hi =>
      erDirent_init hblock (by omega) (by have hlt := List.mem_range.mp hi; omega)
  have hone : ∀ F : Nat → Option Dirent, [k].filterMap F = (F k).toList := by
    intro F
    cases hF : F k with
    | none => rw [List.filterMap_cons_none hF]; rfl
    | some e => rw [List.filterMap_cons_some hF]; rfl
  have hsplit : ∀ F : Nat → Option Dirent,
      (List.range (direntCount f)).filterMap F = (List.range k).filterMap F ++ (F k).toList := by
    intro F
    rw [hk, List.range_succ, List.filterMap_append, hone]
  have hfits : WalkFits f bs size ↔ laterEntries f bs size = [] ∧ LastNameFits f bs size := by
    rw [laterEntries_eq_nil_iff hbs]
    exact ⟨fun hw => ⟨hw.firstBlock, hw.lastName⟩, fun hw => ⟨hw.1, hw.2⟩⟩
  have hlast : k = direntCount f - 1 := by omega
  rw [hall, Option.some_inj, realEntries_split hbs hsize, realIn_eq, hsplit, hsplit, hinit, List.append_assoc,
    List.append_cancel_left_eq, hfits, LastNameFits, ← hlast]
  cases hdot : dotName (nameIn f (min bs size) k) with
  | true =>
    rw [realAt_eq, if_pos hdot, if_pos rfl]
    exact last_eq_iff_of_dot h hbs hsize hk hdot
  | false =>
    rw [realAt_eq, hdot, if_neg Bool.false_ne_true, if_neg Bool.false_ne_true]
    exact last_eq_iff_of_real h hsize hk hdot

end Ezos.Erofs
