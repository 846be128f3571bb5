import Ezos.Types
import Ezos.Lib.Memory

/-!
# Two-level page tables (`kernel/paging.c`)

Tables are read and written where they are, in byte-addressed physical memory: a frame
address taken out of a directory entry is dereferenced as it stands, which is what the
identity mapping of the source permits. `invlpg` has no effect on memory and is left out.
-/

namespace Ezos.Paging

open Lib.Memory

set_option autoImplicit false

def pageSize : U32 := 4096
def pteP : U32 := 0x001
def pteRw : U32 := 0x002
def pteUs : U32 := 0x004
def frameMask : U32 := 0xFFFFF000
def pagingPdAddr : U32 := 0x00200000
def pagingPtBase : U32 := 0x00201000
def pagingPtMax : U32 := 16
def pagingUsrFlags : U32 := pteRw ||| pteUs

structure State where
  mem : Mem
  ptUsed : U32
  mapped : U32
  ready : Bool
  cr3 : U32

def pdActive (s : State) : U32 := if s.ready then s.cr3 &&& frameMask else pagingPdAddr

def pdeAddr (s : State) (virt : U32) : Nat := (pdActive s).toNat + 4 * (virt >>> 22).toNat

def ptFor (s : State) (virt : U32) (create : Bool) : U32 × State :=
  let pde := read32 s.mem (pdeAddr s virt)
  if pde &&& pteP ≠ 0 then (pde &&& frameMask, s)
  else if create = false then (0, s)
  else if s.ptUsed ≥ pagingPtMax then (0, s)
  else if pdActive s ≠ pagingPdAddr then (0, s)
  else
    let pt := pagingPtBase + s.ptUsed * pageSize
    let cleared := fill s.mem pt.toNat 4096 0
    (pt, { s with
      ptUsed := s.ptUsed + 1
      mem := write32 cleared (pdeAddr s virt) (pt ||| pteP ||| pteRw) })

def pteAddr (pt virt : U32) : Nat := pt.toNat + 4 * ((virt >>> 12) &&& 0x3FF).toNat

def entryOf (phys flags : U32) : U32 := (phys &&& frameMask) ||| (flags &&& 0xFFF) ||| pteP

/-- The second half of `paging_map`, once the table is there. -/
def setEntry (s : State) (pt virt phys flags : U32) : State :=
  let slot := pteAddr pt virt
  let mapped := if read32 s.mem slot &&& pteP = 0 then s.mapped + 1 else s.mapped
  let mem := write32 s.mem slot (entryOf phys flags)
  -- ring 3 also needs the US bit in the directory entry
  let mem := if flags &&& pteUs ≠ 0 then
    write32 mem (pdeAddr s virt) (read32 mem (pdeAddr s virt) ||| (pteUs ||| pteRw)) else mem
  { s with mem := mem, mapped := mapped }

def pagingMap (s : State) (virt phys flags : U32) : Bool × State :=
  if virt &&& 0xFFF ≠ 0 ∨ phys &&& 0xFFF ≠ 0 then (false, s)
  else
    let (pt, s) := ptFor s virt true
    if pt = 0 then (false, s) else (true, setEntry s pt virt phys flags)

def pagingUnmap (s : State) (virt : U32) : State :=
  let (pt, s) := ptFor s virt false
  if pt = 0 then s
  else
    let slot := pteAddr pt virt
    let mapped := if read32 s.mem slot &&& pteP ≠ 0 then s.mapped - 1 else s.mapped
    { s with mem := write32 s.mem slot 0, mapped := mapped }

def pagingQuery (s : State) (virt : U32) : Option (U32 × U32) :=
  let (pt, s) := ptFor s virt false
  if pt = 0 then none
  else
    let pte := read32 s.mem (pteAddr pt virt)
    if pte &&& pteP = 0 then none else some (pte &&& frameMask, pte &&& 0xFFF)

def Present (e : U32) : Prop := e &&& pteP ≠ 0

instance (e : U32) : Decidable (Present e) := inferInstanceAs (Decidable (_ ≠ _))

def pde (s : State) (i : Nat) : U32 := read32 s.mem ((pdActive s).toNat + 4 * i)

def tableOf (s : State) (i : Nat) : Nat := (pde s i &&& frameMask).toNat

def pteAt (s : State) (p : Nat) : U32 :=
  if Present (pde s (p / 1024)) then read32 s.mem (tableOf s (p / 1024) + 4 * (p % 1024)) else 0

def pageOf (virt : U32) : Nat := virt.toNat / 4096

/-- Well-formed page structures below the kernel directory: no two slots share a table, no
table is the directory itself, and the pool tables not handed out yet are not in use. -/
structure WF (s : State) : Prop where
  kernelDir : pdActive s = pagingPdAddr
  used_le : s.ptUsed.toNat ≤ 16
  table_ne_zero : ∀ i < 1024, Present (pde s i) → tableOf s i ≠ 0
  table_ne_dir : ∀ i < 1024, Present (pde s i) → tableOf s i ≠ 0x200000
  table_ne_fresh : ∀ i < 1024, Present (pde s i) → ∀ k, s.ptUsed.toNat ≤ k → k < 16 →
    tableOf s i ≠ 0x201000 + k * 4096
  table_inj : ∀ i < 1024, ∀ j < 1024, Present (pde s i) → Present (pde s j) →
    tableOf s i = tableOf s j → i = j

theorem frameMask_toNat (x : U32) : (x &&& frameMask).toNat = x.toNat / 4096 * 4096 := by
  have hm : frameMask = ~~~BitVec.ofNat 32 (2 ^ 12 - 1) := by decide
  rw [hm]
  exact toNat_and_not_low_mask (k := 12) (by decide) x

theorem tableOf_dvd (s : State) (i : Nat) : tableOf s i % 4096 = 0 := by
  rw [tableOf, frameMask_toNat]
  omega

theorem dirIndex_toNat (virt : U32) : (virt >>> 22).toNat = pageOf virt / 1024 := by
  rw [BitVec.toNat_ushiftRight, Nat.shiftRight_eq_div_pow, pageOf]
  omega

theorem tableIndex_toNat (virt : U32) :
    ((virt >>> 12) &&& 0x3FF).toNat = pageOf virt % 1024 := by
  have hmask : (0x3FF : U32).toNat = 2 ^ 10 - 1 := rfl
  rw [BitVec.toNat_and, hmask, Nat.and_two_pow_sub_one_eq_mod, BitVec.toNat_ushiftRight,
    Nat.shiftRight_eq_div_pow, pageOf]

theorem pageOf_lt (virt : U32) : pageOf virt < 2 ^ 20 := by
  have hlt := virt.isLt
  unfold pageOf
  omega

theorem read_pdeAddr (s : State) (virt : U32) :
    read32 s.mem (pdeAddr s virt) = pde s (pageOf virt / 1024) := by
  rw [pdeAddr, dirIndex_toNat, pde]

theorem pteAddr_eq (s : State) (virt : U32) (i : Nat) :
    pteAddr (pde s i &&& frameMask) virt = tableOf s i + 4 * (pageOf virt % 1024) := by
  rw [pteAddr, tableIndex_toNat, tableOf]

/-! ## The words of the structures are disjoint -/

theorem WF.pd_toNat {s : State} (h : WF s) : (pdActive s).toNat = 0x200000 := by
  rw [h.kernelDir]
  rfl

theorem WF.tables_apart {s : State} (h : WF s) {i j : Nat} (hi : i < 1024) (hj : j < 1024)
    (hpi : Present (pde s i)) (hpj : Present (pde s j)) (hij : i ≠ j) :
    tableOf s i + 4096 ≤ tableOf s j ∨ tableOf s j + 4096 ≤ tableOf s i := by
  have hne : tableOf s i ≠ tableOf s j := fun he => hij (h.table_inj i hi j hj hpi hpj he)
  have h1 := tableOf_dvd s i
  have h2 := tableOf_dvd s j
  omega

theorem WF.dir_apart {s : State} (h : WF s) {i : Nat} (hi : i < 1024) (hp : Present (pde s i)) :
    tableOf s i + 4096 ≤ 0x200000 ∨ 0x201000 ≤ tableOf s i := by
  have h1 := tableOf_dvd s i
  have h2 := h.table_ne_dir i hi hp
  omega

structure Extends (s s' : State) : Prop where
  dir : pdActive s' = pdActive s
  keeps : ∀ i < 1024, Present (pde s i) → Present (pde s' i) ∧ tableOf s' i = tableOf s i
  fresh : ∀ i < 1024, Present (pde s' i) → ¬ Present (pde s i) →
    ∃ k < 16, tableOf s' i = 0x201000 + k * 4096

theorem Extends.refl (s : State) : Extends s s :=
  ⟨rfl, fun _ _ hp => ⟨hp, rfl⟩, fun _ _ hp hn => absurd hp hn⟩

theorem Extends.trans {s t u : State} (h : Extends s t) (h' : Extends t u) : Extends s u := by
  refine ⟨h'.dir.trans h.dir, fun i hi hp => ?_, fun i hi hp hn => ?_⟩
  · obtain ⟨hpt, ht⟩ := h.keeps i hi hp
    obtain ⟨hpu, hu⟩ := h'.keeps i hi hpt
    exact ⟨hpu, hu.trans ht⟩
  · by_cases hpt : Present (pde t i)
    · rw [(h'.keeps i hi hpt).2]
      exact h.fresh i hi hpt hn
    · exact h'.fresh i hi hp hpt

structure Effect (s s' : State) (entry : Nat → U32) : Prop where
  wf : WF s'
  ext : Extends s s'
  entries : ∀ p < 2 ^ 20, pteAt s' p = entry p

theorem Effect.refl {s : State} (h : WF s) : Effect s s (pteAt s) :=
  ⟨h, Extends.refl s, fun _ _ => rfl⟩

theorem WF.congr {s s' : State} (h : WF s) (hdir : pdActive s' = pdActive s)
    (hused : s'.ptUsed = s.ptUsed)
    (hslot : ∀ i < 1024, (Present (pde s' i) ↔ Present (pde s i)) ∧ tableOf s' i = tableOf s i) :
    WF s' := by
  refine ⟨hdir.trans h.kernelDir, hused ▸ h.used_le, ?_, ?_, ?_, ?_⟩
  · intro i hi hp
    rw [(hslot i hi).2]
    exact h.table_ne_zero i hi ((hslot i hi).1.mp hp)
  · intro i hi hp
    rw [(hslot i hi).2]
    exact h.table_ne_dir i hi ((hslot i hi).1.mp hp)
  · intro i hi hp
    rw [(hslot i hi).2, hused]
    exact h.table_ne_fresh i hi ((hslot i hi).1.mp hp)
  · intro i hi j hj hpi hpj
    rw [(hslot i hi).2, (hslot j hj).2]
    exact h.table_inj i hi j hj ((hslot i hi).1.mp hpi) ((hslot j hj).1.mp hpj)

theorem WF.pde_of_changesOnly {s : State} (h : WF s) {mem : Mem} {P : Nat → Prop}
    (hc : ChangesOnly P s.mem mem) (hdir : ∀ x, 0x200000 ≤ x → x < 0x201000 → ¬ P x)
    (mapped : U32) {i : Nat} (hi : i < 1024) :
    pde { s with mem := mem, mapped := mapped } i = pde s i := by
  have hpd := h.pd_toNat
  exact hc.read32 fun x hlo hhi => by
    change (pdActive s).toNat + 4 * i ≤ x at hlo
    change x < (pdActive s).toNat + 4 * i + 4 at hhi
    exact hdir x (by omega) (by omega)

theorem WF.slot_of_changesOnly {s : State} (h : WF s) {mem : Mem} {P : Nat → Prop}
    (hc : ChangesOnly P s.mem mem) (hdir : ∀ x, 0x200000 ≤ x → x < 0x201000 → ¬ P x)
    (mapped : U32) {i : Nat} (hi : i < 1024) :
    (Present (pde { s with mem := mem, mapped := mapped } i) ↔ Present (pde s i)) ∧
      tableOf { s with mem := mem, mapped := mapped } i = tableOf s i := by
  have hpde := h.pde_of_changesOnly hc hdir mapped hi
  exact ⟨by rw [hpde], by rw [tableOf, hpde, tableOf]⟩

theorem Extends.of_slots {s s' : State} (hdir : pdActive s' = pdActive s)
    (hslot : ∀ i < 1024, (Present (pde s' i) ↔ Present (pde s i)) ∧ tableOf s' i = tableOf s i) :
    Extends s s' :=
  ⟨hdir, fun i hi hp => ⟨(hslot i hi).1.mpr hp, (hslot i hi).2⟩,
    fun i hi hp hn => absurd ((hslot i hi).1.mp hp) hn⟩

end Ezos.Paging

/-!
## The effect of one paging call on the entries

Each kind of write is described once: a table entry, the flag bits of a directory entry,
a fresh table. `pteAt` then says what a call did, page by page.
-/

namespace Ezos.Paging

open Lib.Memory

theorem and_frameMask_of_aligned {x : U32} (h : x.toNat % 4096 = 0) : x &&& frameMask = x := by
  apply BitVec.eq_of_toNat_eq
  rw [frameMask_toNat]
  omega

theorem and_page_mask_of_aligned {x : U32} (h : x.toNat % 4096 = 0) : x &&& 0xFFF = 0 :=
  (and_page_mask_eq_zero_iff x).mpr h

theorem pteAt_eq {s s' : State} {p : Nat} (h : pde s' (p / 1024) = pde s (p / 1024)) :
    pteAt s' p = if Present (pde s (p / 1024)) then
      read32 s'.mem (tableOf s (p / 1024) + 4 * (p % 1024)) else 0 := by
  unfold pteAt tableOf
  rw [h]

theorem WF.write_entry {s : State} (h : WF s) {i k : Nat} (hi : i < 1024) (hk : k < 1024)
    (hp : Present (pde s i)) (v mapped : U32) :
    Effect s { s with mem := write32 s.mem (tableOf s i + 4 * k) v, mapped := mapped }
      (fun p => if p = i * 1024 + k then v else pteAt s p) := by
  have hc := changesOnly_write32 s.mem (tableOf s i + 4 * k) v
  have hapart := h.dir_apart hi hp
  have hdir : ∀ x, 0x200000 ≤ x → x < 0x201000 →
      ¬ (tableOf s i + 4 * k ≤ x ∧ x < tableOf s i + 4 * k + 4) := by omega
  have hslot : ∀ j < 1024, _ := fun j hj => h.slot_of_changesOnly hc hdir mapped hj
  refine ⟨h.congr rfl rfl hslot, Extends.of_slots rfl hslot, fun p hpage => ?_⟩
  have hj : p / 1024 < 1024 := by omega
  rw [pteAt_eq (h.pde_of_changesOnly hc hdir mapped hj), pteAt]
  by_cases hpj : Present (pde s (p / 1024))
  · rw [if_pos hpj, if_pos hpj]
    by_cases hij : p / 1024 = i
    · subst hij
      by_cases hkk : p % 1024 = k
      · rw [if_pos (by omega), hkk]
        exact read32_write32_self _ _ _
      · rw [if_neg (by omega)]
        exact read32_write32_of_disjoint _ _ (by omega)
    · rw [if_neg (by omega)]
      have ht := h.tables_apart hi hj hp hpj (fun he => hij he.symm)
      exact read32_write32_of_disjoint _ _ (by omega)
  · have hne : p ≠ i * 1024 + k := by
      intro he
      exact hpj (by rwa [show p / 1024 = i by omega])
    rw [if_neg hpj, if_neg hne, if_neg hpj]

theorem or_flags_and_pteP (e : U32) : (e ||| (pteUs ||| pteRw)) &&& pteP = e &&& pteP := by
  have hz : (pteUs ||| pteRw) &&& pteP = 0 := by decide
  rw [BitVec.and_or_distrib_right, hz]
  exact BitVec.or_zero

theorem or_flags_and_frameMask (e : U32) :
    (e ||| (pteUs ||| pteRw)) &&& frameMask = e &&& frameMask := by
  have hz : (pteUs ||| pteRw) &&& frameMask = 0 := by decide
  rw [BitVec.and_or_distrib_right, hz]
  exact BitVec.or_zero

theorem WF.write_flags {s : State} (h : WF s) {i : Nat} (hi : i < 1024) :
    let s' := { s with
      mem := write32 s.mem ((pdActive s).toNat + 4 * i) (pde s i ||| (pteUs ||| pteRw)) }
    Effect s s' (pteAt s) := by
  intro s'
  have hpd := h.pd_toNat
  have hpde : ∀ j, j ≠ i → pde s' j = pde s j := fun j hj =>
    read32_write32_of_disjoint _ _ (by
      change (pdActive s).toNat + 4 * i + 4 ≤ (pdActive s).toNat + 4 * j ∨
        (pdActive s).toNat + 4 * j + 4 ≤ (pdActive s).toNat + 4 * i
      omega)
  have hself : pde s' i = pde s i ||| (pteUs ||| pteRw) := read32_write32_self _ _ _
  have hslot : ∀ j, (Present (pde s' j) ↔ Present (pde s j)) ∧ tableOf s' j = tableOf s j := by
    intro j
    by_cases hj : j = i
    · subst hj
      rw [Present, hself, or_flags_and_pteP, tableOf, hself, or_flags_and_frameMask]
      exact ⟨Iff.rfl, rfl⟩
    · rw [tableOf, hpde j hj]
      exact ⟨Iff.rfl, rfl⟩
  refine ⟨h.congr rfl rfl fun j _ => hslot j, Extends.of_slots rfl fun j _ => hslot j,
    fun p hpage => ?_⟩
  have hj : p / 1024 < 1024 := by omega
  unfold pteAt
  rw [(hslot _).2]
  by_cases hp : Present (pde s (p / 1024))
  · rw [if_pos hp, if_pos ((hslot _).1.mpr hp)]
    have hapart := h.dir_apart hj hp
    exact read32_write32_of_disjoint _ _ (by omega)
  · rw [if_neg hp, if_neg (fun hp' => hp ((hslot _).1.mp hp'))]

theorem WF.new_table {s : State} (h : WF s) {i : Nat} (hi : i < 1024)
    (hp : ¬ Present (pde s i)) (hused : s.ptUsed.toNat < 16) :
    let pt := pagingPtBase + s.ptUsed * pageSize
    let s' := { s with
      ptUsed := s.ptUsed + 1
      mem := write32 (fill s.mem pt.toNat 4096 0) ((pdActive s).toNat + 4 * i)
        (pt ||| pteP ||| pteRw) }
    pt ≠ 0 ∧ Present (pde s' i) ∧ pde s' i &&& frameMask = pt ∧ Effect s s' (pteAt s) := by
  intro pt s'
  have hpd := h.pd_toNat
  have hpt : pt.toNat = 0x201000 + s.ptUsed.toNat * 4096 := by
    change (pagingPtBase + s.ptUsed * pageSize).toNat = _
    have hb : pagingPtBase.toNat = 0x201000 := by decide
    have hs : pageSize.toNat = 4096 := by decide
    rw [BitVec.toNat_add, BitVec.toNat_mul, hb, hs]
    omega
  have hal : pt.toNat % 4096 = 0 := by omega
  have hself : pde s' i = pt ||| pteP ||| pteRw := read32_write32_self _ _ _
  have hframe : pde s' i &&& frameMask = pt := by
    have hz : (pteP ||| pteRw) &&& frameMask = 0 := by decide
    rw [hself, BitVec.or_assoc, BitVec.and_or_distrib_right, hz, and_frameMask_of_aligned hal]
    exact BitVec.or_zero
  have hpres : Present (pde s' i) := by
    have hlow : pt &&& pteP = 0 := by
      have hm : pteP = 0xFFF &&& pteP := by decide
      rw [hm, ← BitVec.and_assoc, and_page_mask_of_aligned hal]
      exact BitVec.zero_and
    have hz : (pteP ||| pteRw) &&& pteP = 1 := by decide
    rw [Present, hself, BitVec.or_assoc, BitVec.and_or_distrib_right, hlow, hz]
    decide
  have hmem : ∀ b, (b + 4 ≤ (pdActive s).toNat + 4 * i ∨ (pdActive s).toNat + 4 * i + 4 ≤ b) →
      (b + 4 ≤ pt.toNat ∨ pt.toNat + 4096 ≤ b) → read32 s'.mem b = read32 s.mem b := by
    intro b hb1 hb2
    have h1 : read32 s'.mem b = read32 (fill s.mem pt.toNat 4096 0) b :=
      read32_write32_of_disjoint _ _ hb1.symm
    rw [h1]
    exact (changesOnly_fill s.mem pt.toNat 4096 0).read32 (by omega)
  have hpde : ∀ j < 1024, j ≠ i → pde s' j = pde s j := fun j hj hji =>
    hmem _ (by change (pdActive s).toNat + 4 * j + 4 ≤ _ ∨ _ ≤ (pdActive s).toNat + 4 * j; omega)
      (by change (pdActive s).toNat + 4 * j + 4 ≤ _ ∨ _ ≤ (pdActive s).toNat + 4 * j; omega)
  have htab : ∀ j < 1024, j ≠ i → tableOf s' j = tableOf s j := fun j hj hji => by
    rw [tableOf, hpde j hj hji, tableOf]
  have htabi : tableOf s' i = 0x201000 + s.ptUsed.toNat * 4096 := by rw [tableOf, hframe, hpt]
  have hused' : s'.ptUsed.toNat = s.ptUsed.toNat + 1 := by
    change (s.ptUsed + 1).toNat = _
    rw [BitVec.toNat_add]
    change (s.ptUsed.toNat + 1) % 2 ^ 32 = _
    omega
  have hfresh := h.table_ne_fresh
  have hne : pt ≠ 0 := by
    intro hz
    rw [(eq_zero_iff pt).mp hz] at hpt
    omega
  have hext : Extends s s' := by
    refine ⟨rfl, fun j hj hpj => ?_, fun j hj hpj hnj => ?_⟩
    · have hji : j ≠ i := fun he => hp (he ▸ hpj)
      rw [hpde j hj hji]
      exact ⟨hpj, htab j hj hji⟩
    · by_cases hji : j = i
      · rw [hji, htabi]
        exact ⟨_, hused, rfl⟩
      · exact absurd (hpde j hj hji ▸ hpj) hnj
  refine ⟨hne, hpres, hframe, ⟨h.kernelDir, by omega, ?_, ?_, ?_, ?_⟩, hext, fun p hpage => ?_⟩
  · intro j hj hpj
    by_cases hji : j = i
    · rw [hji, htabi]
      omega
    · rw [htab j hj hji]
      exact h.table_ne_zero j hj (hpde j hj hji ▸ hpj)
  · intro j hj hpj
    by_cases hji : j = i
    · rw [hji, htabi]
      omega
    · rw [htab j hj hji]
      exact h.table_ne_dir j hj (hpde j hj hji ▸ hpj)
  · intro j hj hpj k hk hk'
    rw [hused'] at hk
    by_cases hji : j = i
    · rw [hji, htabi]
      omega
    · rw [htab j hj hji]
      exact hfresh j hj (hpde j hj hji ▸ hpj) k (by omega) hk'
  · intro j hj l hl hpj hpl he
    by_cases hji : j = i
    · by_cases hli : l = i
      · rw [hji, hli]
      · rw [hji, htabi, htab l hl hli] at he
        exact absurd he.symm (hfresh l hl (hpde l hl hli ▸ hpl) _ (Nat.le_refl _) hused)
    · by_cases hli : l = i
      · rw [hli, htabi, htab j hj hji] at he
        exact absurd he (hfresh j hj (hpde j hj hji ▸ hpj) _ (Nat.le_refl _) hused)
      · rw [htab j hj hji, htab l hl hli] at he
        exact h.table_inj j hj l hl (hpde j hj hji ▸ hpj) (hpde l hl hli ▸ hpl) he
  · have hj : p / 1024 < 1024 := by omega
    by_cases hji : p / 1024 = i
    · rw [pteAt, hji, if_pos hpres, pteAt, hji, if_neg hp, htabi]
      have hz : read32 s'.mem (0x201000 + s.ptUsed.toNat * 4096 + 4 * (p % 1024)) =
          read32 (fill s.mem pt.toNat 4096 0)
            (0x201000 + s.ptUsed.toNat * 4096 + 4 * (p % 1024)) :=
        read32_write32_of_disjoint _ _ (by omega)
      rw [hz]
      exact read32_fill_zero _ (by omega) (by omega)
    · rw [pteAt_eq (hpde _ hj hji), pteAt]
      by_cases hpj : Present (pde s (p / 1024))
      · rw [if_pos hpj, if_pos hpj]
        have hapart := h.dir_apart hj hpj
        have hdvd := tableOf_dvd s (p / 1024)
        have hne := hfresh _ hj hpj _ (Nat.le_refl _) hused
        exact hmem _ (by omega) (by omega)
      · rw [if_neg hpj, if_neg hpj]

end Ezos.Paging
