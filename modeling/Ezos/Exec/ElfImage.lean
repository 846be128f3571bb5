import Mathlib.Algebra.GroupWithZero.Nat
import Ezos.Exec.ElfAtomic

/-!
# The memory image of a loaded file

Each segment remaps and clears whole pages, so a page shows the last segment that covers it: the
bytes of that segment's file range, zero elsewhere, and its protection. What the segments before
it had put there is gone.
-/

namespace Ezos.Elf

open Lib.Memory Lib.Overlay Paging Pmm

set_option autoImplicit false

variable {buf : Mem} {m m₀ m' : Machine} {phys virt : U32} {segs : List ElfSeg} {ph qh : Phdr}
  {l phs : List Phdr} {p : Nat}

def topmost (l : List Phdr) (p : Nat) : Option Phdr :=
  l.reverse.find? fun ph => decide (Loadable ph ∧ InSegment ph p)

def readByte (s : Paging.State) (virt : U32) : Option Byte :=
  (pagingQuery s virt).map fun q => s.mem (q.1.toNat + virt.toNat % 4096)

def UserWritable (s : Paging.State) (virt : U32) : Prop :=
  ∃ frame flags, pagingQuery s virt = some (frame, flags) ∧ flags &&& pteRw ≠ 0 ∧ flags &&& pteUs ≠ 0

/-- The image that a load is to leave in memory. The addresses are the source's words; a segment
without memory has not been checked, so its addresses may wrap. -/
structure ImageOk (buf : Mem) (m m' : Machine) : Prop where
  file : ∀ ph ∈ phdrs buf, ph.pType = ptLoad → ∀ i < ph.pFilesz.toNat,
    readByte m'.pg (ph.pVaddr + BitVec.ofNat 32 i) = some (buf (ph.pOffset.toNat + i))
  zero : ∀ ph ∈ phdrs buf, ph.pType = ptLoad → ∀ i, ph.pFilesz.toNat ≤ i → i < ph.pMemsz.toNat →
    (∀ qh ∈ phdrs buf, qh ≠ ph → qh.pType = ptLoad → ¬ InFile qh (ph.pVaddr.toNat + i)) →
    readByte m'.pg (ph.pVaddr + BitVec.ofNat 32 i) = some 0
  -- a page that belongs to no segment is none of the loader's business
  writable : ∀ virt, UserWritable m'.pg virt →
    (∃ ph ∈ phdrs buf, Loadable ph ∧ InSegment ph (pageOf virt) ∧ ph.pFlags &&& pfW ≠ 0) ∨
    ((∀ ph ∈ phdrs buf, Loadable ph → ¬ InSegment ph (pageOf virt)) ∧
      pagingQuery m'.pg virt = pagingQuery m.pg virt)

def FileVisible (buf : Mem) : Prop :=
  ∀ ph ∈ phdrs buf, ph.pType = ptLoad → ∀ i < ph.pFilesz.toNat,
    ∃ qh, topmost (phdrs buf) (pageOf (ph.pVaddr + BitVec.ofNat 32 i)) = some qh ∧
      segByte buf qh (ph.pVaddr + BitVec.ofNat 32 i).toNat = buf (ph.pOffset.toNat + i)

def pagesNeeded (l : List Phdr) : Nat := ((l.filter Loadable).map fun ph => (segPages ph).toNat).sum

@[simp] theorem topmost_nil (p : Nat) : topmost [] p = none := rfl

theorem topmost_append (l : List Phdr) (ph : Phdr) (p : Nat) : topmost (l ++ [ph]) p =
    if Loadable ph ∧ InSegment ph p then some ph else topmost l p := by
  rw [topmost, List.reverse_append, List.reverse_singleton, List.singleton_append, List.find?_cons]
  by_cases h : Loadable ph ∧ InSegment ph p
  · rw [decide_eq_true h, if_pos h]
  · rw [decide_eq_false h, if_neg h]
    rfl

theorem topmost_some (h : topmost l p = some ph) : ph ∈ l ∧ Loadable ph ∧ InSegment ph p := by
  have hsat := List.find?_some h
  exact ⟨List.mem_reverse.mp (List.mem_of_find?_eq_some h), of_decide_eq_true hsat⟩

theorem topmost_none : topmost l p = none ↔ ∀ ph ∈ l, Loadable ph → ¬ InSegment ph p := by
  rw [topmost, List.find?_eq_none]
  constructor
  · intro h ph hph hl hin
    exact h ph (List.mem_reverse.mpr hph) (decide_eq_true ⟨hl, hin⟩)
  · intro h ph hph hsat
    obtain ⟨hl, hin⟩ := of_decide_eq_true hsat
    exact h ph (List.mem_reverse.mp hph) hl hin

theorem topmost_of_covers (hph : ph ∈ l) (hl : Loadable ph) (hin : InSegment ph p) :
    ∃ qh, topmost l p = some qh := by
  cases h : topmost l p with
  | some qh => exact ⟨qh, rfl⟩
  | none => exact absurd hin (topmost_none.mp h ph hph hl)

/-! ## The invariant of the loop -/

structure Imaged (buf : Mem) (m₀ m : Machine) (done : List Phdr) (segs : List ElfSeg) : Prop where
  loaded : Loaded m₀ m segs
  keys : segs.map segKey = (done.filter Loadable).map phdrKey
  shows : ∀ virt ph, topmost done (pageOf virt) = some ph →
    readByte m.pg virt = some (segByte buf ph virt.toNat) ∧
      ∃ phys, pteAt m.pg (pageOf virt) = entryOf phys (segFlags ph)

theorem Imaged.nil (h : WF m₀.pg) : Imaged buf m₀ m₀ [] [] :=
  ⟨Loaded.nil h, rfl, fun _ _ ht => (by contradiction)⟩

theorem Imaged.look_none (h : Imaged buf m₀ m l segs) : look (pieces segs) p = none ↔
    ∀ ph ∈ l, Loadable ph → ¬ InSegment ph p := by
  have hcover : ∀ g : ElfSeg, (pieceOf g).Covers p ↔
      pageOf (segKey g).1 ≤ p ∧ p < pageOf (segKey g).1 + (segKey g).2.toNat := fun g => Iff.rfl
  have hin : ∀ ph : Phdr, InSegment ph p ↔
      pageOf (phdrKey ph).1 ≤ p ∧ p < pageOf (phdrKey ph).1 + (phdrKey ph).2.toNat := fun ph => Iff.rfl
  rw [Lib.Overlay.look_none]
  constructor
  · intro hno ph hph hl hp
    have hmem : phdrKey ph ∈ segs.map segKey :=
      h.keys ▸ List.mem_map_of_mem (List.mem_filter.mpr ⟨hph, decide_eq_true hl⟩)
    obtain ⟨g, hg, hkey⟩ := List.mem_map.mp hmem
    refine hno (pieceOf g) (mem_pieces.mpr ⟨g, hg, rfl⟩) ?_
    rw [hcover, hkey]
    exact (hin ph).mp hp
  · intro hno a ha hc
    obtain ⟨g, hg, rfl⟩ := mem_pieces.mp ha
    have hmem : segKey g ∈ (l.filter Loadable).map phdrKey := h.keys ▸ List.mem_map_of_mem hg
    obtain ⟨ph, hph, hkey⟩ := List.mem_map.mp hmem
    obtain ⟨hph, hl⟩ := List.mem_filter.mp hph
    refine hno ph hph (of_decide_eq_true hl) ?_
    rw [hin, hkey]
    exact (hcover g).mp hc

theorem readByte_of_entry {s : Paging.State} (hwf : WF s) {a : Nat}
    (hp : Present (pteAt s (pageOf virt))) (hframe : (pteAt s (pageOf virt) &&& frameMask).toNat = a) :
    readByte s virt = some (s.mem (a + virt.toNat % 4096)) := by
  rw [readByte, pagingQuery_of_present hwf hp, Option.map_some, hframe]

theorem SegmentLoaded.shows (h : SegmentLoaded buf ph phys m m') (hin : InSegment ph (pageOf virt))
    (hv : ValidSegment ph) : readByte m'.pg virt = some (segByte buf ph virt.toNat) ∧
      ∃ phys, pteAt m'.pg (pageOf virt) = entryOf phys (segFlags ph) := by
  have heff := h.placed.effect
  obtain ⟨h1, h2⟩ := hin
  have hentry := heff.entries _ (pageOf_lt virt)
  rw [if_pos ⟨h1, h2⟩] at hentry
  have hstart := hv.vaStart_toNat
  refine ⟨?_, _, hentry⟩
  rw [readByte_of_entry heff.wf (hentry ▸ present_entryOf _ _) (hentry ▸ rangeEntry_frame _ h.pool h1 h2),
    Nat.add_assoc]
  unfold pageOf at h1 h2 ⊢
  rw [h.placed.bytes _ (by omega)]
  congr 2
  omega

theorem Imaged.shows_after (hm : MachineOk m₀) (h : Imaged buf m₀ m l segs)
    (hseg : SegmentLoaded buf ph phys m m') (hnot : ¬ InSegment ph (pageOf virt))
    (ht : topmost l (pageOf virt) = some qh) : readByte m'.pg virt = some (segByte buf qh virt.toNat) ∧
      ∃ phys, pteAt m'.pg (pageOf virt) = entryOf phys (segFlags qh) := by
  obtain ⟨hbyte, b, hentry⟩ := h.shows virt qh ht
  obtain ⟨hmem, hl, hin⟩ := topmost_some ht
  have hlt := pageOf_lt virt
  have heff := hseg.placed.effect
  have hsame : pteAt m'.pg (pageOf virt) = pteAt m.pg (pageOf virt) := by
    rw [heff.entries _ hlt, if_neg hnot]
  cases hf : look (pieces segs) (pageOf virt) with
  | none => exact absurd hin (h.look_none.mp hf qh hmem hl)
  | some f =>
    obtain ⟨-, hf1536, -, hall, hpres, hframe⟩ := h.loaded.owned.owned _ f hf
    obtain ⟨a, ha, hc, rfl⟩ := look_some hf
    have hsafe := h.loaded.safe hm rfl hf1536 (h.loaded.fresh a ha _ hc.holds_at)
    -- the frame is taken, the frames of the new segment were free
    have hother : ∀ k < (segPages ph).toNat,
        0xA00000 + a.at (pageOf virt) * 4096 ≠ phys.toNat + k * 4096 := by
      intro k hk he
      obtain ⟨haddr, -⟩ := hseg.pool.frame hk
      have hsamepage : a.at (pageOf virt) = firstPage phys + k := by omega
      exact hseg.fresh _ (Nat.le_add_right _ _) (by omega) (hsamepage ▸ hall)
    have hoff := Nat.mod_lt virt.toNat (show 0 < 4096 by omega)
    rw [readByte_of_entry h.loaded.wf hpres hframe] at hbyte
    refine ⟨?_, b, hsame.trans hentry⟩
    rw [readByte_of_entry heff.wf (hsame ▸ hpres) (hsame ▸ hframe),
      hseg.placed.kept _ hsafe hother _ (by omega) (by omega), hbyte]

theorem Imaged.segment (hm : MachineOk m₀) (h : Imaged buf m₀ m l segs) (hl : Loadable ph)
    (hv : ValidSegment ph) (hseg : SegmentLoaded buf ph phys m m')
    (hnext : Loaded m₀ m' (segs ++ [segAt ph phys])) :
    Imaged buf m₀ m' (l ++ [ph]) (segs ++ [segAt ph phys]) where
  loaded := hnext
  keys := by
    rw [List.map_append, h.keys, List.filter_append, List.map_append, List.filter_singleton,
      decide_eq_true hl]
    rfl
  shows virt qh ht := by
    rw [topmost_append] at ht
    by_cases hin : InSegment ph (pageOf virt)
    · rw [if_pos ⟨hl, hin⟩] at ht
      obtain rfl := Option.some.inj ht
      exact hseg.shows hin hv
    · rw [if_neg fun hboth => hin hboth.2] at ht
      exact h.shows_after hm hseg hin ht

theorem Imaged.skip (h : Imaged buf m₀ m l segs) (hl : ¬ Loadable ph) :
    Imaged buf m₀ m (l ++ [ph]) segs where
  loaded := h.loaded
  keys := by
    rw [h.keys, List.filter_append, List.filter_singleton, decide_eq_false hl]
    simp
  shows virt qh ht := by
    rw [topmost_append, if_neg fun hboth => hl hboth.1] at ht
    exact h.shows virt qh ht

theorem loadPhdrs_imaged (hm : MachineOk m₀) (hcan : CanMap m₀.pg) {img img' : ElfImage}
    (h : Imaged buf m₀ m l img.seg) (hvalid : ∀ ph ∈ phs, Loadable ph → ValidSegment ph)
    (hlen : img.seg.length + phs.length ≤ 8) (hload : loadPhdrs buf phs img m = .loaded img' m') :
    Imaged buf m₀ m' (l ++ phs) img'.seg := by
  induction phs generalizing img m l with
  | nil =>
    rw [loadPhdrs] at hload
    injection hload with himg hmach
    rw [List.append_nil, ← himg, ← hmach]
    exact h
  | cons ph phs ih =>
    rw [List.length_cons] at hlen
    have hvalid' : ∀ qh ∈ phs, Loadable qh → ValidSegment qh := fun qh hqh =>
      hvalid qh (List.mem_cons_of_mem _ hqh)
    rw [List.append_cons]
    by_cases hl : Loadable ph
    · have hv := hvalid ph List.mem_cons_self hl
      rcases loadPhdrs_step hm hcan buf phs h.loaded hl hv (by omega) with
        ⟨_, heq⟩ | ⟨phys, t, hseg, hnext, heq⟩
      · rw [heq] at hload
        contradiction
      · rw [heq] at hload
        exact ih (h.segment hm hl hv hseg hnext) hvalid' (by simp [addSeg]; omega) hload
    · rw [loadPhdrs, if_pos (not_not.mp hl)] at hload
      exact ih (h.skip hl) hvalid' (by omega) hload

theorem elfLoad_imaged {file : Option Mem} {size : U32} {img : Option ElfImage} {img' : ElfImage}
    (hm : MachineOk m) (hload : elfLoad file size img m = .loaded img' m') :
    elfValidate file size = none ∧ ∃ segs, Imaged (bytes file) m m' (phdrs (bytes file)) segs := by
  cases img with
  | none => contradiction
  | some image =>
    rw [elfLoad] at hload
    cases hvalid : elfValidate file size with
    | some text =>
      rw [hvalid] at hload
      contradiction
    | none =>
      rw [hvalid] at hload
      obtain ⟨hlen, hsegs⟩ := elfValidate_spec hvalid
      refine ⟨rfl, ?_⟩
      by_cases hcan : CanMap m.pg
      · have himaged := loadPhdrs_imaged hm hcan (Imaged.nil hm.wf) hsegs (by simpa using hlen) hload
        rw [List.nil_append] at himaged
        exact ⟨_, himaged⟩
      · have hempty : (⟨0, 0, []⟩ : ElfImage).seg = [] := rfl
        rcases loadPhdrs_full hcan (bytes file) (phdrs (bytes file)) hempty hsegs with
          ⟨i, heq, hnone⟩ | ⟨_, _, _, heq, _⟩
        · obtain ⟨-, rfl⟩ : i = img' ∧ m = m' := by
            rw [heq] at hload
            injection hload with himg hmach
            exact ⟨himg, hmach⟩
          refine ⟨[], Loaded.nil hm.wf, ?_, fun virt ph ht => ?_⟩
          · have hfilter : (phdrs (bytes file)).filter Loadable = [] :=
              List.filter_eq_nil_iff.mpr fun ph hph => by simpa using hnone ph hph
            rw [hfilter]
            rfl
          · obtain ⟨hph, hl, _⟩ := topmost_some ht
            exact absurd hl (hnone ph hph)
        · rw [heq] at hload
          contradiction

theorem writable_of_entry {s : Paging.State} (hwf : WF s)
    (hentry : pteAt s (pageOf virt) = entryOf phys (segFlags ph)) (hw : UserWritable s virt) :
    ph.pFlags &&& pfW ≠ 0 := by
  obtain ⟨frame, flags, hq, hrw, -⟩ := hw
  intro hro
  have hpresent : Present (pteAt s (pageOf virt)) := hentry ▸ present_entryOf _ _
  rw [pagingQuery_of_present hwf hpresent, hentry, entryOf_flags, segFlags, if_pos hro] at hq
  obtain ⟨-, rfl⟩ := Prod.mk.inj (Option.some.inj hq)
  exact hrw (by decide)

theorem Imaged.writable (h : Imaged buf m₀ m l segs) (hwf : WF m₀.pg) (hw : UserWritable m.pg virt) :
    (∃ ph ∈ l, Loadable ph ∧ InSegment ph (pageOf virt) ∧ ph.pFlags &&& pfW ≠ 0) ∨
    ((∀ ph ∈ l, Loadable ph → ¬ InSegment ph (pageOf virt)) ∧
      pagingQuery m.pg virt = pagingQuery m₀.pg virt) := by
  cases ht : topmost l (pageOf virt) with
  | some ph =>
    obtain ⟨hph, hl, hin⟩ := topmost_some ht
    obtain ⟨-, b, hentry⟩ := h.shows virt ph ht
    exact Or.inl ⟨ph, hph, hl, hin, writable_of_entry h.loaded.wf hentry hw⟩
  | none =>
    have hnone := topmost_none.mp ht
    refine Or.inr ⟨hnone, ?_⟩
    rw [pagingQuery_eq h.loaded.wf, pagingQuery_eq hwf,
      h.loaded.other _ (pageOf_lt virt) (h.look_none.mpr hnone)]

theorem ValidSegment.inSegment (hv : ValidSegment ph) {i : Nat} (hi : i < ph.pMemsz.toNat) :
    (ph.pVaddr + BitVec.ofNat 32 i).toNat = ph.pVaddr.toNat + i ∧
      InSegment ph (pageOf (ph.pVaddr + BitVec.ofNat 32 i)) := by
  have h1 := hv.vaStart_toNat
  have h2 := hv.end_le
  have h3 := hv.below
  have hadd : (ph.pVaddr + BitVec.ofNat 32 i).toNat = ph.pVaddr.toNat + i := by
    rw [BitVec.toNat_add, BitVec.toNat_ofNat]
    omega
  refine ⟨hadd, ?_⟩
  unfold InSegment pageOf
  omega

theorem Imaged.zero (h : Imaged buf m₀ m l segs) (hvalid : ∀ ph ∈ l, Loadable ph → ValidSegment ph)
    (hph : ph ∈ l) (ht : ph.pType = ptLoad) {i : Nat} (h1 : ph.pFilesz.toNat ≤ i)
    (h2 : i < ph.pMemsz.toNat)
    (hother : ∀ qh ∈ l, qh ≠ ph → qh.pType = ptLoad → ¬ InFile qh (ph.pVaddr.toNat + i)) :
    readByte m.pg (ph.pVaddr + BitVec.ofNat 32 i) = some 0 := by
  have hl : Loadable ph := by
    rintro (hne | hz)
    · exact hne ht
    · rw [(eq_zero_iff _).mp hz] at h2
      exact Nat.not_lt_zero i h2
  obtain ⟨hadd, hin⟩ := (hvalid ph hph hl).inSegment h2
  obtain ⟨qh, hqh⟩ := topmost_of_covers hph hl hin
  obtain ⟨hmem, hlq, -⟩ := topmost_some hqh
  have hnot : ¬ InFile qh (ph.pVaddr.toNat + i) := by
    by_cases he : qh = ph
    · rw [he, InFile]
      omega
    · exact hother qh hmem he (not_not.mp fun hne => hlq (Or.inl hne))
  rw [(h.shows _ qh hqh).1, hadd, segByte, if_neg hnot]

theorem imageOk_of_file {file : Option Mem} (hm : MachineOk m)
    (hvalid : ∀ ph ∈ phdrs (bytes file), Loadable ph → ValidSegment ph)
    (h : Imaged (bytes file) m m' (phdrs (bytes file)) segs) (hfile : FileVisible (bytes file)) :
    ImageOk (bytes file) m m' where
  file ph hph ht i hi := by
    obtain ⟨qh, htop, hbyte⟩ := hfile ph hph ht i hi
    rw [(h.shows _ qh htop).1, hbyte]
  zero ph hph ht i h1 h2 hother := h.zero hvalid hph ht h1 h2 hother
  writable virt hw := h.writable hm.wf hw

def freshMachine : Machine := { pmm := pmmInit bss, pg := emptyState (fun _ => 0) true }

theorem freshMachine_ok : MachineOk freshMachine := by
  refine ⟨(emptyState_inv _ _).wf, fun i hi hp => ?_⟩
  rw [freshMachine, emptyState_pde _ _ hi] at hp
  exact absurd hp not_present_zero

theorem freshMachine_unmapped (virt : U32) : ¬ Present (pteAt freshMachine.pg (pageOf virt)) := by
  have hlt := pageOf_lt virt
  have hpde := emptyState_pde (fun _ => 0) true (i := pageOf virt / 1024) (by omega)
  rw [freshMachine, pteAt, hpde, if_neg not_present_zero]
  exact not_present_zero

theorem pagesNeeded_nil : pagesNeeded [] = 0 := rfl

theorem pagesNeeded_cons (ph : Phdr) (l : List Phdr) : pagesNeeded (ph :: l) =
    (if Loadable ph then (segPages ph).toNat else 0) + pagesNeeded l := by
  rw [pagesNeeded, List.filter_cons]
  by_cases hl : Loadable ph
  · rw [decide_eq_true hl, if_pos hl]
    rfl
  · rw [decide_eq_false hl, if_neg hl, Nat.zero_add]
    rfl

theorem ValidSegment.pages_ne_zero (hv : ValidSegment ph) : segPages ph ≠ 0 := fun h0 => by
  have h1 := hv.pages_pos
  have h2 := (eq_zero_iff _).mp h0
  omega

theorem beforeFailure_packed {s : Pmm.State} {used : Nat} (h : Packed s used)
    (hvalid : ∀ ph ∈ phs, Loadable ph → ValidSegment ph) (hfit : used + pagesNeeded phs ≤ 1536) :
    beforeFailure s phs = none := by
  induction phs generalizing s used with
  | nil => rfl
  | cons ph phs ih =>
    have hvalid' : ∀ qh ∈ phs, Loadable qh → ValidSegment qh := fun qh hqh =>
      hvalid qh (List.mem_cons_of_mem _ hqh)
    rw [pagesNeeded_cons] at hfit
    rw [beforeFailure]
    by_cases hl : Loadable ph
    · rw [if_pos hl] at hfit
      have hv := hvalid ph List.mem_cons_self hl
      obtain ⟨hgot, hpacked⟩ := h.alloc hv.pages_ne_zero (by omega)
      rw [← Nat.add_assoc] at hfit
      rw [if_neg (not_not_intro hl), if_neg hgot, ih hpacked hvalid' hfit]
      rfl
    · rw [if_neg hl, Nat.zero_add] at hfit
      rw [if_pos hl]
      exact ih h hvalid' hfit

theorem pagesNeeded_le {s : Pmm.State} (h : beforeFailure s phs = none) :
    (allocatedPages s).card + pagesNeeded phs ≤ 1536 := by
  induction phs generalizing s with
  | nil =>
    rw [pagesNeeded_nil, Nat.add_zero]
    exact card_allocatedPages_le s
  | cons ph phs ih =>
    rw [pagesNeeded_cons]
    rw [beforeFailure] at h
    by_cases hl : Loadable ph
    · rw [if_neg (not_not_intro hl)] at h
      by_cases hgot : (pmmAllocPages s (segPages ph)).1 = 0
      · rw [if_pos hgot] at h
        contradiction
      · rw [if_neg hgot] at h
        have hrest := ih (Option.map_eq_none_iff.mp h)
        rw [pmmAllocPages_card hgot] at hrest
        rw [if_pos hl]
        omega
    · rw [if_pos hl] at h
      rw [if_neg hl, Nat.zero_add]
      exact ih h

theorem elfLoad_fits {file : Option Mem} {size : U32} {img : Option ElfImage} {img' : ElfImage}
    (hm : MachineOk m) (hload : elfLoad file size img m = .loaded img' m') :
    pagesNeeded (phdrs (bytes file)) ≤ poolPages.toNat := by
  obtain ⟨hvalid, _⟩ := elfLoad_imaged hm hload
  obtain ⟨hlen, hsegs⟩ := elfValidate_spec hvalid
  cases img with
  | none => contradiction
  | some image =>
    rw [elfLoad, hvalid] at hload
    rw [poolPages_toNat]
    by_cases hcan : CanMap m.pg
    · rcases loadPhdrs_cases hm hcan (bytes file) _ { entry := 0, brk := 0, seg := [] } m
        (Loaded.nil hm.wf) hsegs (by simpa using hlen) with ⟨_, _, _, hnone⟩ | ⟨_, _, _, _, _, heq, _⟩
      · exact Nat.le_trans (Nat.le_add_left _ _) (pagesNeeded_le hnone)
      · rw [heq] at hload
        contradiction
    · have hempty : (⟨0, 0, []⟩ : ElfImage).seg = [] := rfl
      rcases loadPhdrs_full hcan (bytes file) (phdrs (bytes file)) hempty hsegs with
        ⟨_, _, hnone⟩ | ⟨_, _, _, heq, _⟩
      · have hfilter : (phdrs (bytes file)).filter Loadable = [] :=
          List.filter_eq_nil_iff.mpr fun ph hph => by simpa using hnone ph hph
        rw [pagesNeeded, hfilter]
        exact Nat.zero_le _
      · rw [heq] at hload
        contradiction

theorem freshMachine_loads {file : Option Mem} {size : U32} (hvalid : elfValidate file size = none)
    (hfit : pagesNeeded (phdrs (bytes file)) ≤ poolPages.toNat) :
    ∃ img' m', elfLoad file size (some ⟨0, 0, []⟩) freshMachine = .loaded img' m' := by
  obtain ⟨hlen, hsegs⟩ := elfValidate_spec hvalid
  have hcan : CanMap freshMachine.pg := Or.inr (by decide)
  have hnone : beforeFailure freshMachine.pmm (phdrs (bytes file)) = none :=
    beforeFailure_packed pmmInit_packed hsegs (by rw [poolPages_toNat] at hfit; omega)
  rw [elfLoad, hvalid]
  rcases loadPhdrs_cases freshMachine_ok hcan (bytes file) _ { entry := 0, brk := 0, seg := [] }
    freshMachine (Loaded.nil freshMachine_ok.wf) hsegs (by simpa using hlen) with
    ⟨img', m', hload, _⟩ | ⟨_, _, _, _, _, _, _, hsome, _⟩
  · exact ⟨img', m', hload⟩
  · rw [hnone] at hsome
    contradiction

theorem Imaged.readByte_fresh (h : Imaged buf freshMachine m l segs)
    (ht : topmost l (pageOf virt) = none) : readByte m.pg virt = none := by
  have hlook := h.look_none.mpr (topmost_none.mp ht)
  have hnot := freshMachine_unmapped virt
  rw [← h.loaded.other _ (pageOf_lt virt) hlook] at hnot
  rw [readByte, pagingQuery_eq h.loaded.wf, if_neg hnot]
  rfl

/-- The image of a file is right on every machine that loads it if and only if every byte that a
segment asks for is what the last segment on its page has there, or the file never fits. -/
theorem elfLoad_image_iff (file : Option Mem) (size : U32) :
    (∀ m img img' m', MachineOk m → elfLoad file size img m = .loaded img' m' →
      ImageOk (bytes file) m m') ↔
    (elfValidate file size = none → pagesNeeded (phdrs (bytes file)) ≤ poolPages.toNat →
      FileVisible (bytes file)) := by
  constructor
  · intro hall hvalid hfit ph hph ht i hi
    obtain ⟨img', m', hload⟩ := freshMachine_loads hvalid hfit
    obtain ⟨_, segs, himaged⟩ := elfLoad_imaged freshMachine_ok hload
    have hbyte := (hall _ _ _ _ freshMachine_ok hload).file ph hph ht i hi
    cases htop : topmost (phdrs (bytes file)) (pageOf (ph.pVaddr + BitVec.ofNat 32 i)) with
    | none =>
      rw [himaged.readByte_fresh htop] at hbyte
      contradiction
    | some qh =>
      rw [(himaged.shows _ qh htop).1] at hbyte
      exact ⟨qh, rfl, Option.some.inj hbyte⟩
  · intro hcond m img img' m' hm hload
    obtain ⟨hvalid, segs, himaged⟩ := elfLoad_imaged hm hload
    exact imageOk_of_file hm (elfValidate_spec hvalid).2 himaged (hcond hvalid (elfLoad_fits hm hload))

def bssOnTextFile : List Byte :=
  let word (n : Nat) : List Byte := [BitVec.ofNat 8 n, BitVec.ofNat 8 (n / 256),
    BitVec.ofNat 8 (n / 65536), BitVec.ofNat 8 (n / 16777216)]
  let phdr (vaddr filesz flags : Nat) : List Byte :=
    word 1 ++ word 0 ++ word vaddr ++ word 0 ++ word filesz ++ word 16 ++ word flags ++ word 0
  [0x7F, 0x45, 0x4C, 0x46, 1, 1, 1, 0] ++ word 0 ++ word 0 ++ [2, 0, 3, 0] ++ word 1 ++
    word 0x400000 ++ word 52 ++ word 0 ++ word 0 ++ [52, 0, 32, 0, 2, 0] ++ [0, 0] ++ word 0 ++
    phdr 0x400000 16 5 ++ phdr 0x400100 0 6

def bssOnTextBuf : Mem := fun a => bssOnTextFile.getD a 0

theorem bssOnText_valid : elfValidate (some bssOnTextBuf) 116 = none := by decide

theorem bssOnText_fits : pagesNeeded (phdrs bssOnTextBuf) ≤ poolPages.toNat := by decide

theorem bssOnText_top : (topmost (phdrs bssOnTextBuf) (pageOf 0x400000)).map
    (fun qh => segByte bssOnTextBuf qh 0x400000) = some 0 := by decide

theorem bssOnText_text : ∃ ph ∈ phdrs bssOnTextBuf, ph.pType = ptLoad ∧ 0 < ph.pFilesz.toNat ∧
    ph.pVaddr + BitVec.ofNat 32 0 = 0x400000 ∧ bssOnTextBuf (ph.pOffset.toNat + 0) = 0x7F := by
  decide

/-- The load succeeds, and the first byte of the text reads as zero. -/
theorem elfLoad_clears_text : ¬ ∀ (file : Option Mem) (size : U32) (m : Machine) (img : Option ElfImage)
    (img' : ElfImage) (m' : Machine), MachineOk m → elfLoad file size img m = .loaded img' m' →
      ImageOk (bytes file) m m' := by
  intro hall
  obtain ⟨img', m', hload⟩ := freshMachine_loads bssOnText_valid bssOnText_fits
  obtain ⟨_, segs, himaged⟩ := elfLoad_imaged freshMachine_ok hload
  obtain ⟨ph, hph, ht, hpos, haddr, hbyte⟩ := bssOnText_text
  obtain ⟨qh, htop, hzero⟩ := Option.map_eq_some_iff.mp bssOnText_top
  have hread := (hall _ _ _ _ _ _ freshMachine_ok hload).file ph hph ht 0 hpos
  rw [haddr, (himaged.shows _ qh htop).1, Option.some_inj] at hread
  have hclash : (0 : Byte) = 0x7F := hzero.symm.trans (hread.trans hbyte)
  exact absurd hclash (by decide)

end Ezos.Elf
