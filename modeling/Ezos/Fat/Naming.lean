import Ezos.Fat.TreeSlots

/-!
# The names that new entries get

A short name is a base of one to eight characters and an extension of at most three, filled up with blanks. Its
text is the two parts with a dot between them.
-/

namespace Ezos.Fat

open Lib.Memory

set_option autoImplicit false

variable {k : Kind} {sn base ext name leaf l : Str} {found : Nat → Str → Bool} {n off lfn : Nat} {m : Mem}

structure Sfn (sn base ext : Str) : Prop where
  eq : sn = padTo 8 base ++ padTo 3 ext
  base_ne : base ≠ []
  base_le : base.length ≤ 8
  ext_le : ext.length ≤ 3
  base_ok : ∀ c ∈ base, sfnCharOk c = true
  ext_ok : ∀ c ∈ ext, sfnCharOk c = true

theorem sfnCharOk_ne (c : U8) (h : sfnCharOk c = true) :
    c ≠ 0 ∧ c ≠ 0x05 ∧ c ≠ deletedEntry ∧ c ≠ dot ∧ c ≠ space := by
  revert c
  decide +kernel

theorem length_padTo (h : l.length ≤ n) : (padTo n l).length = n := by
  unfold padTo
  rw [List.length_append, List.length_replicate]
  omega

theorem mem_padTo {c : U8} (h : c ∈ padTo n l) : c ∈ l ∨ c = space :=
  (List.mem_append.mp h).imp id List.eq_of_mem_replicate

namespace Sfn

theorem length (h : Sfn sn base ext) : sn.length = 11 := by
  rw [h.eq, List.length_append, length_padTo h.base_le, length_padTo h.ext_le]

theorem bytes (h : Sfn sn base ext) : ∀ c ∈ sn, c ≠ 0 ∧ c ≠ 0x05 := by
  have hpad : ∀ {n l}, (∀ c ∈ l, sfnCharOk c = true) → ∀ c ∈ padTo n l, c ≠ 0 ∧ c ≠ 0x05 := by
    intro n l hl c hc
    rcases mem_padTo hc with hc | rfl
    · have hne := sfnCharOk_ne c (hl c hc)
      exact ⟨hne.1, hne.2.1⟩
    · decide
  intro c hc
  rw [h.eq] at hc
  rcases List.mem_append.mp hc with hc | hc
  · exact hpad h.base_ok c hc
  · exact hpad h.ext_ok c hc

theorem head (h : Sfn sn base ext) : ∃ c rest, sn = c :: rest ∧ sfnCharOk c = true := by
  obtain ⟨c, cs, hbase⟩ := List.exists_cons_of_ne_nil h.base_ne
  have hok := h.base_ok c (by rw [hbase]; exact List.mem_cons_self)
  refine ⟨c, cs ++ List.replicate (8 - base.length) space ++ padTo 3 ext, ?_, hok⟩
  rw [h.eq, padTo, hbase]
  rfl

end Sfn

theorem trimLen_padTo (hl : l.length ≤ n) (hok : ∀ c ∈ l, c ≠ space)
    (hm : ∀ i, i < n → m (off + i) = (padTo n l).getD i 0) : trimLen m off n = l.length := by
  have hget : ∀ i, i < l.length → m (off + i) = l.getD i 0 := by
    intro i hi
    rw [hm i (by omega), padTo, List.getD_eq_getElem?_getD, List.getElem?_append_left hi, List.getD_eq_getElem?_getD]
  have hpad : ∀ i, l.length ≤ i → i < n → m (off + i) = space := by
    intro i hlo hhi
    rw [hm i hhi, padTo, List.getD_eq_getElem?_getD, List.getElem?_append_right hlo, List.getElem?_replicate,
      if_pos (by omega), Option.getD_some]
  clear hm
  induction n with
  | zero => exact (Nat.le_zero.mp hl).symm
  | succ n ih =>
    unfold trimLen
    by_cases hfull : l.length = n + 1
    · have hlast : m (off + n) ≠ space := by
        rw [hget n (by omega), List.getD_eq_getElem?_getD, List.getElem?_eq_getElem (by omega), Option.getD_some]
        exact hok _ (List.getElem_mem _)
      rw [if_neg hlast, hfull]
    · rw [if_pos (hpad n (by omega) (Nat.lt_succ_self n))]
      exact ih (by omega) fun i hlo hhi => hpad i hlo (Nat.lt_succ_of_lt hhi)

theorem map_range_getD (l : Str) : (List.range l.length).map (fun i => l.getD i 0) = l := by
  apply List.ext_getElem
  · rw [List.length_map, List.length_range]
  · intro i hi hi'
    rw [List.getElem_map, List.getElem_range, List.getD_eq_getElem?_getD, List.getElem?_eq_getElem hi', Option.getD_some]

theorem Sfn.text (h : Sfn sn base ext) :
    sn11ToStr (memOf sn) = if ext = [] then base else base ++ dot :: ext := by
  have hblank : ∀ {l : Str}, (∀ c ∈ l, sfnCharOk c = true) → ∀ c ∈ l, c ≠ space :=
    fun hl c hc => (sfnCharOk_ne c (hl c hc)).2.2.2.2
  have hlow : ∀ i, i < 8 → memOf sn (0 + i) = (padTo 8 base).getD i 0 := by
    intro i hi
    have hlen := length_padTo h.base_le
    unfold memOf
    rw [h.eq, Nat.zero_add, List.getD_eq_getElem?_getD, List.getElem?_append_left (by omega),
      List.getD_eq_getElem?_getD]
  have hhigh : ∀ i, i < 3 → memOf sn (8 + i) = (padTo 3 ext).getD i 0 := by
    intro i hi
    have hlen := length_padTo h.base_le
    have hplace : 8 + i - (padTo 8 base).length = i := by omega
    unfold memOf
    rw [h.eq, List.getD_eq_getElem?_getD, List.getElem?_append_right (by omega), hplace, List.getD_eq_getElem?_getD]
  have hbl := trimLen_padTo h.base_le (hblank h.base_ok) hlow
  have hel := trimLen_padTo h.ext_le (hblank h.ext_ok) hhigh
  have hpad : ∀ (n : Nat) (l : Str) i, i < l.length → (padTo n l).getD i 0 = l.getD i 0 := by
    intro n l i hi
    rw [padTo, List.getD_eq_getElem?_getD, List.getElem?_append_left hi, List.getD_eq_getElem?_getD]
  have hbase : (List.range base.length).map (memOf sn) = base := by
    refine Eq.trans (List.map_congr_left fun i hi => ?_) (map_range_getD base)
    have hi' := List.mem_range.mp hi
    have hres := hlow i (Nat.lt_of_lt_of_le hi' h.base_le)
    rw [Nat.zero_add] at hres
    rw [hres, hpad 8 base i hi']
  have hext : ((List.range ext.length).map fun i => memOf sn (8 + i)) = ext := by
    refine Eq.trans (List.map_congr_left fun i hi => ?_) (map_range_getD ext)
    have hi' := List.mem_range.mp hi
    rw [hhigh i (Nat.lt_of_lt_of_le hi' h.ext_le), hpad 3 ext i hi']
  unfold sn11ToStr
  dsimp only
  rw [hbl, hel, hbase, hext]

theorem sfn_of_tryMakeSfn (h : tryMakeSfn name = some sn) :
    Sfn sn ((baseOf name).map upChar) ((extOf name).map upChar) := by
  unfold tryMakeSfn at h
  split at h
  · contradiction
  · split at h
    · contradiction
    · rename_i hbase
      split at h
      · contradiction
      · rename_i hext
        dsimp only at h
        split at h
        · rename_i hok
          obtain rfl := Option.some.inj h
          rw [Bool.and_eq_true, List.all_eq_true, List.all_eq_true] at hok
          refine ⟨rfl, ?_, ?_, ?_, hok.1, hok.2⟩
          · rw [ne_eq, List.map_eq_nil_iff, ← List.length_eq_zero_iff]
            omega
          · rw [List.length_map]
            omega
          · rw [List.length_map]
            omega
        · contradiction

theorem decimal_ok (n : Nat) : ∀ c ∈ decimal n, sfnCharOk c = true := by
  intro c hc
  obtain ⟨ch, hch, rfl⟩ := List.mem_map.mp hc
  have hdigit := Nat.isDigit_of_mem_toDigits (by decide) (Nat.le_refl 10) hch
  have hall : ∀ x < 58, 48 ≤ x → sfnCharOk (BitVec.ofNat 8 x) = true := by decide
  unfold Char.isDigit at hdigit
  rw [Bool.and_eq_true, decide_eq_true_eq, decide_eq_true_eq] at hdigit
  have hlo : 48 ≤ ch.toNat := hdigit.1
  have hhi : ch.toNat ≤ 57 := hdigit.2
  exact hall ch.toNat (by omega) hlo

theorem length_decimal_le (hn : n ≤ aliasMax) : (decimal n).length ≤ 6 := by
  unfold decimal
  rw [List.length_map, Nat.length_toDigits_le_iff (by decide) (by decide)]
  unfold aliasMax at hn
  omega

def aliasHead (name : Str) (n : Nat) : Str :=
  (aliasBase name).take (aliasKeep (aliasBase name).length (decimal n).length) ++ tilde :: decimal n

theorem aliasBase_ok : ∀ c ∈ aliasBase name, sfnCharOk c = true := by
  intro c hc
  unfold aliasBase at hc
  split at hc
  · rw [List.mem_singleton.mp hc]
    decide
  · rename_i heq
    rw [← heq] at hc
    exact (List.mem_filter.mp (List.mem_of_mem_take hc)).2

theorem sfn_aliasOf (hn : n ≤ aliasMax) : Sfn (aliasOf name n) (aliasHead name n) (aliasExt name) := by
  have hsix := length_decimal_le hn
  refine ⟨rfl, ?_, ?_, ?_, fun c hc => ?_, fun c hc => ?_⟩
  · unfold aliasHead
    exact List.append_ne_nil_of_right_ne_nil _ (List.cons_ne_nil _ _)
  · unfold aliasHead aliasKeep
    rw [List.length_append, List.length_cons, List.length_take]
    omega
  · unfold aliasExt
    rw [List.length_take]
    omega
  · unfold aliasHead at hc
    rcases List.mem_append.mp hc with hc | hc
    · exact aliasBase_ok c (List.mem_of_mem_take hc)
    · rcases List.mem_cons.mp hc with rfl | hc
      · decide
      · exact decimal_ok n c hc
  · exact (List.mem_filter.mp (List.mem_of_mem_take hc)).2

theorem aliasFrom_some {m i : Nat} (h : aliasFrom found name i m = some sn) :
    ∃ n, i ≤ n ∧ n < i + m ∧ sn = aliasOf name n ∧ found n (sn11ToStr (memOf sn)) = false := by
  induction m generalizing i with
  | zero => contradiction
  | succ m ih =>
    unfold aliasFrom at h
    by_cases hf : found i (sn11ToStr (memOf (aliasOf name i))) = true
    · rw [if_pos hf] at h
      obtain ⟨n, hlo, hhi, hrest⟩ := ih h
      exact ⟨n, by omega, by omega, hrest⟩
    · rw [if_neg hf] at h
      obtain rfl := Option.some.inj h
      exact ⟨i, Nat.le_refl i, by omega, rfl, (Bool.not_eq_true _).mp hf⟩

/-- The long name of the entry, for an answer of `prepare_names`. -/
def longOf (leaf : Str) (lfn : Nat) : Option Str := if lfn = 0 then none else some leaf

structure Leaf (leaf : Str) : Prop where
  ne : leaf ≠ []
  le : leaf.length ≤ 127
  nul : ∀ c ∈ leaf, c ≠ 0

theorem prepareNames_cases (h : prepareNames found leaf = some (sn, lfn)) (hleaf : Leaf leaf) :
    (lfn = 0 ∧ Sfn sn ((baseOf leaf).map upChar) ((extOf leaf).map upChar) ∧
        nameEq (sn11ToStr (memOf sn)) leaf = true) ∨
      (lfn = lfnEntries leaf ∧ 0 < lfn ∧ plainName leaf = none ∧ ∃ n, 1 ≤ n ∧ n ≤ aliasMax ∧ sn = aliasOf leaf n ∧
        found n (sn11ToStr (memOf sn)) = false) := by
  unfold prepareNames at h
  cases hp : plainName leaf with
  | some sn' =>
    rw [hp] at h
    obtain ⟨rfl, rfl⟩ := Prod.mk.inj (Option.some.inj h)
    unfold plainName at hp
    split at hp
    · contradiction
    · rename_i sn hmake
      split at hp
      · rename_i heq
        obtain rfl := Option.some.inj hp
        exact Or.inl ⟨rfl, sfn_of_tryMakeSfn hmake, heq⟩
      · contradiction
  | none =>
    rw [hp] at h
    dsimp only at h
    cases hm : makeAlias found leaf with
    | none =>
      rw [hm] at h
      contradiction
    | some sn' =>
      rw [hm] at h
      obtain ⟨rfl, rfl⟩ := Prod.mk.inj (Option.some.inj h)
      obtain ⟨n, hlo, hhi, hsn, hfound⟩ := aliasFrom_some hm
      exact Or.inr ⟨rfl, lfnEntries_pos hleaf.ne, rfl, n, hlo, by omega, hsn, hfound⟩

theorem sfn_of_prepareNames (h : prepareNames found leaf = some (sn, lfn)) (hleaf : Leaf leaf) :
    ∃ base ext, Sfn sn base ext := by
  rcases prepareNames_cases h hleaf with ⟨-, hsfn, -⟩ | ⟨-, -, -, n, -, hn, rfl, -⟩
  · exact ⟨_, _, hsfn⟩
  · exact ⟨_, _, sfn_aliasOf hn⟩

def newEntry (leaf sn : Str) (lfn : Nat) (isDir : Bool) (first size : Nat) : Entry :=
  { long := longOf leaf lfn, short := { sn := sn, isDir := isDir, first := first, size := size } }

section
variable {isDir : Bool} {first size : Nat}

theorem newEntry_long (h : (newEntry leaf sn lfn isDir first size).long = some l) : l = leaf := by
  unfold newEntry longOf at h
  dsimp only at h
  split at h
  · contradiction
  · exact (Option.some.inj h).symm

theorem newEntry_lead (h : prepareNames found leaf = some (sn, lfn)) (hleaf : Leaf leaf) :
    (newEntry leaf sn lfn isDir first size).lead.length = lfn := by
  rcases prepareNames_cases h hleaf with ⟨rfl, -⟩ | ⟨hlfn, hpos, -⟩
  · rw [lead_of_plain rfl]
    rfl
  · have hlong : (newEntry leaf sn lfn isDir first size).long = some leaf := if_neg (Nat.ne_of_gt hpos)
    rw [lead_of_long hlong, length_longSlots, hlfn]

theorem newEntry_ok (h : prepareNames found leaf = some (sn, lfn)) (hleaf : Leaf leaf) :
    (newEntry leaf sn lfn isDir first size).Ok := by
  obtain ⟨base, ext, hsfn⟩ := sfn_of_prepareNames h hleaf
  refine ⟨hsfn.length, hsfn.bytes, fun l hl => ?_⟩
  rw [newEntry_long hl]
  exact ⟨hleaf.ne, hleaf.le, hleaf.nul⟩

theorem newEntry_fits (h : prepareNames found leaf = some (sn, lfn)) (hleaf : Leaf leaf) (hfirst : FitsEntry k first)
    (hsize : size < 2 ^ 32) : (newEntry leaf sn lfn isDir first size).Fits k := by
  obtain ⟨base, ext, hsfn⟩ := sfn_of_prepareNames h hleaf
  obtain ⟨c, rest, rfl, hc⟩ := hsfn.head
  exact ⟨newEntry_ok h hleaf, (sfnCharOk_ne c hc).2.2.1, hfirst, hsize⟩

theorem newEntry_real (h : prepareNames found leaf = some (sn, lfn)) (hleaf : Leaf leaf) :
    (newEntry leaf sn lfn isDir first size).isDots = false := by
  obtain ⟨base, ext, hsfn⟩ := sfn_of_prepareNames h hleaf
  obtain ⟨c, rest, rfl, hc⟩ := hsfn.head
  have hdot : c ≠ dot := (sfnCharOk_ne c hc).2.2.2.1
  have hne : ∀ tail, (c :: rest) ≠ dot :: tail := fun tail he => hdot (List.cons.inj he).1
  have h1 : ((c :: rest) == dotName) = false := beq_false_of_ne (hne _)
  have h2 : ((c :: rest) == dotDotName) = false := beq_false_of_ne (hne _)
  unfold Entry.isDots newEntry
  dsimp only
  rw [h1, h2, Bool.or_self, Bool.and_false]

theorem shownChar_eq_dot (c : U8) (h : shownChar (c.setWidth 16) = dot) : c = dot := by
  revert c
  decide

theorem isDotName_iff : isDotName name = true ↔ name = [dot] ∨ name = [dot, dot] := by
  unfold isDotName
  rw [Bool.or_eq_true, beq_iff_eq, beq_iff_eq]
  rfl

theorem not_isDotName_of_head {c : U8} {rest : Str} (h : c ≠ dot) : isDotName (c :: rest) = false := by
  rw [← Bool.not_eq_true, isDotName_iff]
  rintro (he | he)
  · exact h (List.cons.inj he).1
  · exact h (List.cons.inj he).1

theorem not_dot_shown (hne : name ≠ []) (h : isDotName name = false) (tail : Str) :
    isDotName (shown name ++ tail) = false := by
  rw [← Bool.not_eq_true, isDotName_iff] at h ⊢
  obtain ⟨c, cs, rfl⟩ := List.exists_cons_of_ne_nil hne
  rintro (he | he)
  · obtain ⟨hc, hrest⟩ := List.cons.inj he
    obtain rfl := shownChar_eq_dot c hc
    cases cs with
    | nil => exact h (Or.inl rfl)
    | cons d ds => contradiction
  · obtain ⟨hc, hrest⟩ := List.cons.inj he
    obtain rfl := shownChar_eq_dot c hc
    cases cs with
    | nil => exact h (Or.inl rfl)
    | cons d ds =>
      obtain ⟨hd, hrest⟩ := List.cons.inj hrest
      obtain rfl := shownChar_eq_dot d hd
      cases ds with
      | nil => exact h (Or.inr rfl)
      | cons e es => contradiction

theorem newEntry_proper (h : prepareNames found leaf = some (sn, lfn)) (hleaf : Leaf leaf)
    (hdot : isDotName leaf = false) (hs : (newEntry leaf sn lfn isDir first size).ShownAs name) :
    isDotName name = false := by
  rcases prepareNames_cases h hleaf with ⟨rfl, hsfn, -⟩ | ⟨-, hpos, -⟩
  · have hname : name = sn11ToStr (memOf sn) := hs
    obtain ⟨c, cs, hbase⟩ := List.exists_cons_of_ne_nil hsfn.base_ne
    have hc := hsfn.base_ok c (by rw [hbase]; exact List.mem_cons_self)
    have hcdot := (sfnCharOk_ne c hc).2.2.2.1
    rw [hname, hsfn.text, hbase]
    split
    · exact not_isDotName_of_head hcdot
    · exact not_isDotName_of_head hcdot
  · have hlong : (newEntry leaf sn lfn isDir first size).long = some leaf := if_neg (Nat.ne_of_gt hpos)
    unfold Entry.ShownAs at hs
    rw [hlong] at hs
    obtain ⟨tail, rfl, -⟩ := hs
    exact not_dot_shown hleaf.ne hdot tail

end

end Ezos.Fat
