import Ezos.Exec.ElfLoad

/-!
# When a failed `elf_load` leaves no trace

The condition is on the file and on the state before the call: the segments that still get
their pages before one that does not must not share a page.
-/

namespace Ezos.Elf

open Lib.Memory Lib.Overlay Paging Pmm

set_option autoImplicit false

def NoSharedPage (ph qh : Phdr) : Prop := ∀ p, InSegment ph p → ¬ InSegment qh p

def beforeFailure (s : Pmm.State) : List Phdr → Option (List Phdr)
  | [] => none
  | ph :: phs =>
    if ¬ Loadable ph then beforeFailure s phs
    else if (pmmAllocPages s (segPages ph)).1 = 0 then some []
    else (beforeFailure (pmmAllocPages s (segPages ph)).2 phs).map (ph :: ·)

def LoadsApart (m : Machine) (buf : Option Mem) (size : U32) (img : Option ElfImage) : Prop :=
  img.isSome → elfValidate buf size = none → CanMap m.pg →
    ∀ l, beforeFailure m.pmm (phdrs (bytes buf)) = some l → l.Pairwise NoSharedPage

def SegmentsUnmapped (m : Machine) (buf : Option Mem) : Prop :=
  ∀ ph ∈ phdrs (bytes buf), Loadable ph → ∀ p < 2 ^ 20, InSegment ph p → ¬ Present (pteAt m.pg p)

variable {m m₀ m' : Machine} {phs : List Phdr} {img : ElfImage} {buf : Mem}

theorem beforeFailure_mem {s : Pmm.State} {l : List Phdr} (h : beforeFailure s phs = some l) :
    ∀ ph ∈ l, ph ∈ phs ∧ Loadable ph := by
  induction phs generalizing s l with
  | nil => exact nomatch h
  | cons qh phs ih =>
    rw [beforeFailure] at h
    intro ph hph
    split at h
    · obtain ⟨h1, h2⟩ := ih h ph hph
      exact ⟨List.mem_cons_of_mem _ h1, h2⟩
    rename_i hl
    split at h
    · obtain rfl := Option.some.inj h
      exact nomatch hph
    obtain ⟨l', hl', rfl⟩ := Option.map_eq_some_iff.mp h
    rcases List.mem_cons.mp hph with rfl | hph
    · exact ⟨List.mem_cons_self, not_not.mp hl⟩
    · obtain ⟨h1, h2⟩ := ih hl' ph hph
      exact ⟨List.mem_cons_of_mem _ h1, h2⟩

theorem elfValidate_spec {buf : Option Mem} {size : U32} (h : elfValidate buf size = none) :
    (phdrs (bytes buf)).length ≤ 8 ∧
      ∀ ph ∈ phdrs (bytes buf), Loadable ph → ValidSegment ph := by
  cases buf with
  | none => exact nomatch h
  | some buf =>
    unfold elfValidate at h
    simp only [reject_eq_none] at h
    obtain ⟨-, -, -, -, -, -, -, -, -, -, hnum, -, hphs⟩ := h
    refine ⟨?_, fun ph hph hl => validatePhdrs_valid hphs hph hl⟩
    have hmax : ((ePhnum buf).setWidth 32).toNat ≤ 8 := BitVec.not_lt.mp hnum
    have hlt := (ePhnum buf).isLt
    rw [BitVec.toNat_setWidth] at hmax
    show (phdrs buf).length ≤ 8
    rw [phdrs, List.length_map, List.length_range]
    omega

theorem loadPhdrs_cases (hm : MachineOk m₀) (hcan : CanMap m₀.pg) (buf : Mem) (phs : List Phdr)
    (img : ElfImage) (m : Machine) (h : Loaded m₀ m img.seg)
    (hvalid : ∀ ph ∈ phs, Loadable ph → ValidSegment ph) (hlen : img.seg.length + phs.length ≤ 8) :
    (∃ img' m', loadPhdrs buf phs img m = .loaded img' m' ∧ beforeFailure m.pmm phs = none) ∨
    ∃ why img' m' segs l, loadPhdrs buf phs img m = .failed why img' (unwind m' segs) ∧
      Loaded m₀ m' segs ∧ beforeFailure m.pmm phs = some l ∧
      segs.map segKey = img.seg.map segKey ++ l.map phdrKey := by
  induction phs generalizing img m with
  | nil => exact Or.inl ⟨_, _, rfl, rfl⟩
  | cons ph phs ih =>
    rw [List.length_cons] at hlen
    have hvalid' : ∀ qh ∈ phs, Loadable qh → ValidSegment qh := fun qh hqh =>
      hvalid qh (List.mem_cons_of_mem _ hqh)
    rw [beforeFailure]
    by_cases hl : Loadable ph
    · rw [if_neg (not_not_intro hl)]
      rcases loadPhdrs_step hm hcan buf phs h hl (hvalid ph List.mem_cons_self hl) (by omega) with
        ⟨hzero, heq⟩ | ⟨phys, t, hseg, hnext, heq⟩
      · rw [if_pos hzero, heq]
        exact Or.inr ⟨_, _, m, img.seg, [], rfl, h, rfl, by simp⟩
      · have hgot : ¬ (pmmAllocPages m.pmm (segPages ph)).1 = 0 := by
          rw [hseg.alloc]
          exact hseg.got
        rw [if_neg hgot, heq, hseg.alloc]
        rcases ih (addSeg img ph phys) t hnext hvalid' (by simp [addSeg]; omega) with
          ⟨img', m', hload, hbefore⟩ | ⟨why, img', m', segs, l, hload, hloaded, hbefore, hkeys⟩
        · exact Or.inl ⟨img', m', hload, by rw [hbefore]; rfl⟩
        · refine Or.inr ⟨why, img', m', segs, ph :: l, hload, hloaded, by rw [hbefore]; rfl, ?_⟩
          rw [hkeys]
          simp [addSeg, segAt, segKey, phdrKey]
    · rw [if_pos hl, loadPhdrs, if_pos (not_not.mp hl)]
      exact ih img m h hvalid' (by omega)

theorem loadPhdrs_full (hcan : ¬ CanMap m.pg) (buf : Mem) (phs : List Phdr)
    (hseg : img.seg = []) (hvalid : ∀ ph ∈ phs, Loadable ph → ValidSegment ph) :
    (∃ img', loadPhdrs buf phs img m = .loaded img' m ∧ ∀ ph ∈ phs, ¬ Loadable ph) ∨
    ∃ why img' pmm, loadPhdrs buf phs img m = .failed why img' { m with pmm := pmm } ∧
      ∀ k, Allocated pmm k ↔ Allocated m.pmm k := by
  induction phs with
  | nil => exact Or.inl ⟨_, rfl, fun _ hph => nomatch hph⟩
  | cons ph phs ih =>
    rw [loadPhdrs]
    by_cases hskip : ph.pType ≠ ptLoad ∨ ph.pMemsz = 0
    · rw [if_pos hskip]
      rcases ih fun qh hqh => hvalid qh (List.mem_cons_of_mem _ hqh) with ⟨img', heq, hnone⟩ | hfail
      · refine Or.inl ⟨img', heq, fun qh hqh => ?_⟩
        rcases List.mem_cons.mp hqh with rfl | hqh
        · exact not_not_intro hskip
        · exact hnone qh hqh
      · exact Or.inr hfail
    have hmax : ¬ img.seg.length ≥ elfMaxSeg.toNat := by
      rw [hseg]
      decide
    rw [if_neg hskip, if_neg hmax]
    right
    have hv := hvalid ph List.mem_cons_self hskip
    rcases alloc_cases m.pmm (segPages ph) with heq | ⟨phys, pmm, heq, hne, hpool, hready, hfree, halloc⟩
    · rw [heq]
      refine ⟨"out of physical pages", some { img with seg := [] }, m.pmm, ?_, fun _ => Iff.rfl⟩
      simp only [if_true, fail, hseg, unwind, List.foldl_nil]
    · have hmap := @mapPages_full m.pg (vaStart ph) phys _ hv.image hv.pages_pos pagingUsrFlags hcan
      have hn : segPages ph ≠ 0 := fun h0 => by
        have h1 := hv.pages_pos
        have h2 := (eq_zero_iff _).mp h0
        omega
      obtain ⟨-, hback⟩ := free_run hready hn hpool fun k hk =>
        (halloc _).mpr (Or.inr ⟨Nat.le_add_right _ _, by omega⟩)
      refine ⟨"paging_map failed", some { img with seg := [] },
        (pmmFreePages pmm phys (segPages ph)).2, ?_, fun k => ?_⟩
      · simp only [heq, if_neg hne, hmap, fail, hseg, unwind, List.foldl_nil]
      · rw [hback k, halloc k]
        constructor
        · rintro ⟨hk | hk, hno⟩
          · exact hk
          · exact absurd hk hno
        · exact fun hk => ⟨Or.inl hk, fun hr => hfree k hr.1 hr.2 hk⟩

theorem Restored.refl (m : Machine) : Restored m m :=
  ⟨fun _ _ => Iff.rfl, fun _ => rfl, Extends.refl _, fun _ _ _ hq _ _ _ hk => ⟨hq, hk⟩⟩

theorem Restored.of_alloc {pmm : Pmm.State} (h : ∀ k, Allocated pmm k ↔ Allocated m.pmm k) :
    Restored m { m with pmm := pmm } :=
  ⟨fun k _ => h k, fun _ => rfl, Extends.refl _,
    fun _ _ _ hq k _ _ hk => ⟨hq, fun hk' => hk ((h k).mpr hk')⟩⟩

def KeyApart (x y : U32 × U32) : Prop :=
  ∀ p, (pageOf x.1 ≤ p ∧ p < pageOf x.1 + x.2.toNat) →
    ¬ (pageOf y.1 ≤ p ∧ p < pageOf y.1 + y.2.toNat)

theorem pairwise_of_keys {segs : List ElfSeg} {l : List Phdr}
    (h : segs.map segKey = l.map phdrKey) :
    (pieces segs).Pairwise KeysApart ↔ l.Pairwise NoSharedPage := by
  have h1 : (pieces segs).Pairwise KeysApart ↔ (segs.map segKey).Pairwise KeyApart := by
    rw [pieces, List.pairwise_map, List.pairwise_map]
    rfl
  have h2 : l.Pairwise NoSharedPage ↔ (l.map phdrKey).Pairwise KeyApart := by
    rw [List.pairwise_map]
    rfl
  rw [h1, h2, h]

variable {file : Option Mem} {size : U32}

theorem elfLoad_runs_out (hm : MachineOk m) (hun : SegmentsUnmapped m file) (image : ElfImage)
    (hvalid : elfValidate file size = none) (hcan : CanMap m.pg) {l : List Phdr}
    (hl : beforeFailure m.pmm (phdrs (bytes file)) = some l) :
    ∃ why img' m', elfLoad file size (some image) m = .failed why img' m' ∧
      (Restored m m' ↔ l.Pairwise NoSharedPage) := by
  obtain ⟨hlen, hsegs⟩ := elfValidate_spec hvalid
  rcases loadPhdrs_cases hm hcan (bytes file) _ { entry := 0, brk := 0, seg := [] } m (Loaded.nil hm.wf)
    hsegs (by simpa using hlen) with ⟨_, _, _, hnone⟩ | ⟨why, img', m', segs, l', hload, hseg, hl', hkeys⟩
  · rw [hl] at hnone
    contradiction
  · obtain rfl : l = l' := Option.some.inj (hl.symm.trans hl')
    refine ⟨why, img', unwind m' segs, ?_, ?_⟩
    · rw [elfLoad, hvalid]
      exact hload
    · have hkeys' : segs.map segKey = l.map phdrKey := hkeys
      rw [← pairwise_of_keys hkeys']
      refine hseg.restored_iff hm.wf fun a ha p hp => ?_
      obtain ⟨g, hg, rfl⟩ := mem_pieces.mp ha
      have hmem : segKey g ∈ l.map phdrKey := hkeys' ▸ List.mem_map_of_mem hg
      obtain ⟨ph, hph, hkey⟩ := List.mem_map.mp hmem
      obtain ⟨hin, hload⟩ := beforeFailure_mem hl ph hph
      have himg := (hseg.image g hg).below
      have hlt : p < pageOf g.va + g.pages.toNat := hp.2
      refine hun ph hin hload p (by omega) ?_
      have h1 : vaStart ph = g.va := congrArg Prod.fst hkey
      have h2 : segPages ph = g.pages := congrArg Prod.snd hkey
      rw [InSegment, h1, h2]
      exact hp

theorem elfLoad_otherwise (hm : MachineOk m) (image : Option ElfImage)
    (hno : image.isSome → elfValidate file size = none → CanMap m.pg →
      beforeFailure m.pmm (phdrs (bytes file)) = none)
    {why : String} {img' : Option ElfImage} (h : elfLoad file size image m = .failed why img' m') :
    Restored m m' := by
  cases image with
  | none =>
    obtain rfl : m = m' := by
      rw [elfLoad] at h
      injection h
    exact Restored.refl m
  | some image =>
    rw [elfLoad] at h
    cases hvalid : elfValidate file size with
    | some text =>
      rw [hvalid] at h
      obtain rfl : m = m' := by injection h
      exact Restored.refl m
    | none =>
      rw [hvalid] at h
      obtain ⟨hlen, hsegs⟩ := elfValidate_spec hvalid
      by_cases hcan : CanMap m.pg
      · rcases loadPhdrs_cases hm hcan (bytes file) _ { entry := 0, brk := 0, seg := [] } m
          (Loaded.nil hm.wf) hsegs (by simpa using hlen) with ⟨i, t, hload, _⟩ | ⟨_, _, _, _, _, _, _, hl, _⟩
        · rw [hload] at h
          contradiction
        · rw [hno rfl hvalid hcan] at hl
          contradiction
      · rcases loadPhdrs_full hcan (bytes file) (phdrs (bytes file))
          (show ({ entry := 0, brk := 0, seg := [] } : ElfImage).seg = [] from rfl) hsegs with
          ⟨i, hload, -⟩ | ⟨_, _, pmm, hload, hpmm⟩
        · rw [hload] at h
          contradiction
        · rw [hload] at h
          obtain rfl : { m with pmm := pmm } = m' := by injection h
          exact Restored.of_alloc hpmm

/-- A load that fails leaves the allocated pages and the page table as they were if and only if
the segments loaded before the pages ran out share no page. -/
theorem elfLoad_atomic_iff (m : Machine) (file : Option Mem) (size : U32) (img : Option ElfImage)
    (hm : MachineOk m) (hun : SegmentsUnmapped m file) :
    (∀ why img' m', elfLoad file size img m = .failed why img' m' → Restored m m') ↔
      LoadsApart m file size img := by
  constructor
  · intro hall hsome hvalid hcan l hl
    obtain ⟨image, rfl⟩ := Option.isSome_iff_exists.mp hsome
    obtain ⟨why, img', m', hload, hiff⟩ := elfLoad_runs_out hm hun image hvalid hcan hl
    exact hiff.mp (hall why img' m' hload)
  · intro hapart why img' m' hload
    by_cases hno : img.isSome → elfValidate file size = none → CanMap m.pg →
        beforeFailure m.pmm (phdrs (bytes file)) = none
    · exact elfLoad_otherwise hm img hno hload
    · push Not at hno
      obtain ⟨hsome, hvalid, hcan, hne⟩ := hno
      obtain ⟨l, hl⟩ := Option.ne_none_iff_exists'.mp hne
      obtain ⟨image, rfl⟩ := Option.isSome_iff_exists.mp hsome
      obtain ⟨why', img'', m'', hload', hiff⟩ := elfLoad_runs_out hm hun image hvalid hcan hl
      rw [hload] at hload'
      obtain rfl : m' = m'' := by injection hload'
      exact hiff.mpr (hapart hsome hvalid hcan l hl)

def sharedPageFile : List Byte :=
  let word (n : Nat) : List Byte := [BitVec.ofNat 8 n, BitVec.ofNat 8 (n / 256),
    BitVec.ofNat 8 (n / 65536), BitVec.ofNat 8 (n / 16777216)]
  let phdr (vaddr : Nat) : List Byte :=
    word 1 ++ word 0 ++ word vaddr ++ word 0 ++ word 0 ++ word 16 ++ word 6 ++ word 0
  [0x7F, 0x45, 0x4C, 0x46, 1, 1, 1, 0] ++ word 0 ++ word 0 ++ [2, 0, 3, 0] ++ word 1 ++
    word 0x400000 ++ word 52 ++ word 0 ++ word 0 ++ [52, 0, 32, 0, 3, 0] ++ [0, 0] ++ word 0 ++
    phdr 0x400000 ++ phdr 0x400100 ++ phdr 0x401000

def sharedPageBuf : Mem := fun a => sharedPageFile.getD a 0

def twoPagesLeft : Machine :=
  { pmm := ⟨(Vector.replicate 48 0xFFFFFFFF).set 0 0xFFFFFFFC, 1534, true⟩
    pg := emptyState (fun _ => 0) true }

theorem twoPagesLeft_ok : MachineOk twoPagesLeft := by
  refine ⟨(emptyState_inv _ _).wf, fun i hi hp => ?_⟩
  rw [twoPagesLeft, emptyState_pde _ _ hi] at hp
  exact absurd hp not_present_zero

theorem twoPagesLeft_unmapped (file : Option Mem) : SegmentsUnmapped twoPagesLeft file := by
  intro ph _ _ p hp _
  have hpde := emptyState_pde (fun _ => 0) true (i := p / 1024) (by omega)
  rw [twoPagesLeft, pteAt, hpde, if_neg not_present_zero]
  exact not_present_zero

theorem sharedPage_valid : elfValidate (some sharedPageBuf) 148 = none := by decide

theorem pmmAllocPages_taken {s : Pmm.State} (h : s.bitmap = Vector.replicate bitmapWords 0xFFFFFFFF) :
    (pmmAllocPages s 1).1 = 0 := by
  have hnone : Lib.FirstFit.search (fun i => !Lib.WordBitmap.bitGet s.bitmap i) (1 : U32).toNat poolPages.toNat = none := by
    rw [Option.eq_none_iff_forall_ne_some]
    intro f hf
    obtain ⟨hle, hfree, -⟩ := Lib.FirstFit.search_some (by decide) hf
    have hpages : poolPages.toNat = 32 * 48 := rfl
    have hone : (1 : U32).toNat = 1 := rfl
    have hword : f / bitsPerWord < bitmapWords := Nat.div_lt_of_lt_mul (show f < 32 * 48 by omega)
    have hbit : (!Lib.WordBitmap.bitGet s.bitmap f) = true := hfree 0 (by decide)
    have hones : ∀ k < bitsPerWord, (0xFFFFFFFF : BitVec bitsPerWord).getLsbD k = true := by decide
    rw [Lib.WordBitmap.bitGet_eq (by decide), Lib.WordBitmap.word, h, Vector.getElem?_replicate, if_pos hword,
      Option.getD_some, hones _ (Nat.mod_lt _ (by decide))] at hbit
    contradiction
  unfold pmmAllocPages
  split
  · rfl
  · rw [hnone]

theorem sharedPage_before : (beforeFailure twoPagesLeft.pmm (phdrs sharedPageBuf)).map
    (List.map phdrKey) = some [(0x400000, 1), (0x400000, 1)] := by
  have hkeys : (phdrs sharedPageBuf).map (fun ph => (phdrKey ph, decide (Loadable ph))) =
      [((0x400000, 1), true), ((0x400000, 1), true), ((0x401000, 1), true)] := by decide
  have hpages : (pmmAllocPages twoPagesLeft.pmm 1).1 ≠ 0 ∧
      (pmmAllocPages (pmmAllocPages twoPagesLeft.pmm 1).2 1).1 ≠ 0 ∧
        (pmmAllocPages (pmmAllocPages twoPagesLeft.pmm 1).2 1).2.bitmap.toList = List.replicate bitmapWords 0xFFFFFFFF := by
    decide
  obtain ⟨hfirst, hsecond, hlist⟩ := hpages
  have hbitmap : (pmmAllocPages (pmmAllocPages twoPagesLeft.pmm 1).2 1).2.bitmap = Vector.replicate bitmapWords 0xFFFFFFFF :=
    Vector.toList_inj.mp (hlist.trans Vector.toList_replicate.symm)
  have hstep : ∀ {ph key} (s : Pmm.State) (phs : List Phdr), (phdrKey ph, decide (Loadable ph)) = ((key, 1), true) →
      phdrKey ph = (key, 1) ∧ beforeFailure s (ph :: phs) =
        if (pmmAllocPages s 1).1 = 0 then some [] else (beforeFailure (pmmAllocPages s 1).2 phs).map (ph :: ·) := by
    intro ph key s phs he
    injection he with hkey hload
    have hpgs : segPages ph = 1 := congrArg Prod.snd hkey
    refine ⟨hkey, ?_⟩
    rw [beforeFailure, if_neg (not_not.mpr (of_decide_eq_true hload)), hpgs]
  generalize phdrs sharedPageBuf = l at hkeys ⊢
  obtain ⟨p, l, rfl, hp, hkeys⟩ := List.map_eq_cons_iff.mp hkeys
  obtain ⟨q, l, rfl, hq, hkeys⟩ := List.map_eq_cons_iff.mp hkeys
  obtain ⟨r, l, rfl, hr, -⟩ := List.map_eq_cons_iff.mp hkeys
  obtain ⟨hpkey, hpstep⟩ := hstep twoPagesLeft.pmm (q :: r :: l) hp
  obtain ⟨hqkey, hqstep⟩ := hstep (pmmAllocPages twoPagesLeft.pmm 1).2 (r :: l) hq
  obtain ⟨-, hrstep⟩ := hstep (pmmAllocPages (pmmAllocPages twoPagesLeft.pmm 1).2 1).2 l hr
  rw [hpstep, if_neg hfirst, hqstep, if_neg hsecond, hrstep, if_pos (pmmAllocPages_taken hbitmap)]
  exact congrArg some (by rw [List.map_cons, List.map_cons, List.map_nil, hpkey, hqkey])

/-- The page of the first segment is lost: the third one finds no free page, and `unwind` sees the
second segment's page under the shared address. -/
theorem elfLoad_leaks_shared_page : ¬ ∀ (m : Machine) (file : Option Mem) (size : U32)
    (img : Option ElfImage), MachineOk m → SegmentsUnmapped m file →
      ∀ why img' m', elfLoad file size img m = .failed why img' m' → Restored m m' := by
  intro hall
  obtain ⟨l, hl, hkeys⟩ := Option.map_eq_some_iff.mp sharedPage_before
  have hcan : CanMap twoPagesLeft.pg := Or.inr (by decide)
  obtain ⟨why, img', m', hload, hiff⟩ := elfLoad_runs_out twoPagesLeft_ok (twoPagesLeft_unmapped _)
    ⟨0, 0, []⟩ sharedPage_valid hcan hl
  have hpair := hiff.mp (hall _ _ _ _ twoPagesLeft_ok (twoPagesLeft_unmapped _) _ _ _ hload)
  have hapart : (l.map phdrKey).Pairwise KeyApart := by
    rw [List.pairwise_map]
    exact hpair
  rw [hkeys] at hapart
  have hsame := (List.pairwise_cons.mp hapart).1 _ List.mem_cons_self
  exact hsame 1024 (by decide) (by decide)

theorem elfLoad_atomic_twoPagesLeft :
    (∀ why img' m', elfLoad (some sharedPageBuf) 148 (some ⟨0, 0, []⟩) twoPagesLeft =
      .failed why img' m' → Restored twoPagesLeft m') ↔
    LoadsApart twoPagesLeft (some sharedPageBuf) 148 (some ⟨0, 0, []⟩) :=
  elfLoad_atomic_iff _ _ _ _ twoPagesLeft_ok (twoPagesLeft_unmapped _)

end Ezos.Elf
